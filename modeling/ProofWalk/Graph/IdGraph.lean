import ProofWalk.Graph.Store
import ProofWalk.Sparse.Row
/-!
# Graph.IdGraph — proof graphs whose features are numbered

An expanded state has a row of edges with sparse feature vectors; its features are numbered in the table that all
graphs share when the state is expanded, and so are the features of the implied edges when the graph is built.

Weights are computed against a snapshot of a weighter's parameters, which is taken from the weighter feature by
feature as they are needed; another weighter makes a new snapshot (`frozenFor`).  The weighter counts a look-up when
a parameter enters the snapshot, so each feature once for each snapshot.  A number that has no name reads as the
default, uncounted.  `freeze` takes the parameters of all features at once.

The operations are those of graphs with feature dictionaries, and name the features again where edges are told
(`outlinks`).  All of them begin with `row`, which expands a state on the first request.
-/
namespace ProofWalk

/-- **A snapshot of a weighter's parameters.** -/
structure FrozenParams (K : Type) where
  key : Nat
  squash : Squash
  /-- The parameters by number of feature, as far as they have been looked up. -/
  values : SortedMap Nat K

namespace FrozenParams

variable {K : Type}

def start (w : Weighter K) : FrozenParams K := ⟨w.key, w.squash, .empty⟩

def isOf (f : FrozenParams K) (w : Weighter K) : Bool := f.key == w.key && f.squash == w.squash

end FrozenParams

/-- **A proof graph with numbered features.** -/
structure IdGraph (K : Type) where
  machine : Machine K
  /-- The states by number; the start is state 0. -/
  states : StateTable
  /-- The rows of the states that have been expanded. -/
  rows : Slots (SparseRow K)
  /-- The number of the feature of edges back to the start. -/
  restart : Nat
  /-- The number of the feature of edges of completed states to themselves. -/
  trueLoop : Nat
  frozen : Option (FrozenParams K)

namespace IdGraph

variable {K : Type} [Scalar K]

/-! ## Expansion

What an expansion finds goes on record, and later requests find it there; a state without ways on has an empty row. -/

def build (m : Machine K) (features : Symbols) : Except LogicError (IdGraph K × Symbols) := do
  let start ← m.startState
  let (features, restart) := features.intern restartFeature
  let (features, trueLoop) := features.intern trueLoopFeature
  return (⟨m, .single start, .empty, restart, trueLoop, none⟩, features)

abbrev Op (K : Type) := GraphM (IdGraph K) K

def numberFeatures : List (String × K) → Symbols → List (Nat × K) × Symbols
  | [], features => ([], features)
  | (name, value) :: rest, features =>
    let (features, i) := features.intern name
    let (numbered, features) := numberFeatures rest features
    ((i, value) :: numbered, features)

def rowOf : List (Edge K) → Symbols → SparseRow K × Symbols
  | [], features => ([], features)
  | e :: rest, features =>
    let (numbered, features) := numberFeatures e.features.toList features
    let (row, features) := rowOf rest features
    (⟨e.child, SparseVector.ofPairs numbered⟩ :: row, features)

/-- **The row of a state**, which is expanded on the first request. -/
def row (id : Nat) : Op K (SparseRow K) :=
  ExceptT.mk fun ⟨⟨machine, states, rows, restart, trueLoop, frozen⟩, features, counts⟩ =>
    match rows.get? id, states.get? id with
    | some here, _ => (.ok here, ⟨⟨machine, states, rows, restart, trueLoop, frozen⟩, features, counts⟩)
    | none, none =>
      (.error (.graph (.unknownState id states.size)),
        ⟨⟨machine, states, rows, restart, trueLoop, frozen⟩, features, counts⟩)
    | none, some f =>
      let (edges, states) := numberOutlinks (machine.waysOn f) states
      let (here, features) := rowOf edges features
      (.ok here, ⟨⟨machine, states, rows.insert id here, restart, trueLoop, frozen⟩, features, counts⟩)

def featureNames (features : Symbols) (v : SparseVector K) : List (String × K) :=
  v.toList.map fun e => (features.name e.1, e.2)

def outlinks (id : Nat) : Op K (List (Edge K)) := do
  let row ← row id
  let features := (← get).features
  return row.map fun e => ⟨e.child, .ofList (featureNames features e.features)⟩

def isCompleted (g : IdGraph K) (id : Nat) : Bool := (g.states.get? id).any (·.state.completed)

def degree (id : Nat) (trueLoop : Bool) : Op K Nat := do
  let row ← row id
  let g ← GraphM.graph
  return row.length + 1 + if trueLoop && g.isCompleted id then 1 else 0

/-! ## Parameters

A snapshot is of one key and one squashing function, and it lasts as long as weighters of both come. -/

def frozenFor (w : Weighter K) : Op K (FrozenParams K) := do
  let g ← GraphM.graph
  match g.frozen.filter (·.isOf w) with
  | some f => return f
  | none =>
    GraphM.setGraph { g with frozen := some (.start w) }
    return .start w

def lookUp (w : Weighter K) (i : Nat) : Op K K := do
  match (← get).features.get? i with
  | some name =>
    GraphM.count w (w.lookup name)
    return w.param name
  | none => return w.squash.defaultParameter

/-- **The parameter of a numbered feature**, looked up once for each snapshot. -/
def parameter (w : Weighter K) (i : Nat) : Op K K := do
  let f ← frozenFor w
  match f.values[i]? with
  | some x => return x
  | none =>
    let x ← lookUp w i
    GraphM.setGraph { ← GraphM.graph with frozen := some { f with values := f.values.insert i x } }
    return x

/-- **Take a new snapshot** of the parameters of all features. -/
def freeze (w : Weighter K) : Op K Unit := do
  GraphM.setGraph { ← GraphM.graph with frozen := some (.start w) }
  (List.range (← get).features.size).forM fun i => discard (parameter w i)

def products (w : Weighter K) : List (Nat × K) → Op K (List K)
  | [] => return []
  | (i, value) :: rest => do
    let x ← parameter w i
    return value * x :: (← products w rest)

variable [Exponential K]

/-! ## Weights

A vector is multiplied with the snapshot entry by entry.  An illegal weight names the features of its vector. -/

def weighVector (w : Weighter K) (v : SparseVector K) : Op K K := do
  let terms ← products w v.toList
  match w.check (w.squash.apply (Scalar.sum terms)) (featureNames (← get).features v) with
  | .ok x => return x
  | .error e => throw (.weight e)

def weighEdges (w : Weighter K) : SparseRow K → Op K (List (Nat × K))
  | [] => return []
  | e :: rest => do
    let weight ← weighVector w e.features
    return (e.child, weight) :: (← weighEdges w rest)

def weightedRow (id : Nat) (w : Weighter K) : Op K (List (Nat × K)) := do
  let row ← row id
  discard (frozenFor w)
  weighEdges w row

def impliedWeight (feature : Nat) (w : Weighter K) : Op K K := weighVector w (SparseVector.ofPairs [(feature, 1)])

def loops (w : Weighter K) (id : Nat) (asked : Bool) : Op K (List (Link K)) := do
  if asked then
    let g ← GraphM.graph
    return [⟨id, ← impliedWeight g.trueLoop w, .trueLoop⟩]
  else return []

/-- **Every edge of a state with its weight**, implied ones last. -/
def weightedOutlinks (id : Nat) (w : Weighter K) (trueLoop : Bool) : Op K (List (Link K)) := do
  let links ← weightedRow id w
  let g ← GraphM.graph
  let looped ← loops w id (trueLoop && g.isCompleted id)
  let restart ← impliedWeight g.restart w
  return links.map (fun l => ⟨l.1, l.2, .derived⟩) ++ looped ++ [⟨0, restart, .restart⟩]

end IdGraph

end ProofWalk
