import ProofWalk.Graph.Store
/-!
# Graph.StateGraph — proof graphs whose edges keep their feature dictionaries

A state is expanded when its edges are first asked for (`outlinks`), and its edges are kept.  Expanding also numbers
the features of the edges in the table that is shared with other graphs, though this representation does not use the
numbers.  Each weight is computed from the features of its edge whenever it is asked for.

The implied edges are not kept.  They are added to the weighted edges of a state, a loop if the state is completed
and loops are asked for, and the edge back to the start last.
-/
namespace ProofWalk

/-- **A proof graph with feature dictionaries.** -/
structure StateGraph (K : Type) where
  machine : Machine K
  /-- The states by number; the start is state 0. -/
  states : StateTable
  /-- The edges of the states that have been expanded. -/
  edges : Slots (List (Edge K))

namespace StateGraph

variable {K : Type} [Scalar K]

def build (m : Machine K) : Except LogicError (StateGraph K) := do
  let start ← m.startState
  return ⟨m, .single start, .empty⟩

abbrev Op (K : Type) := GraphM (StateGraph K) K

def numberFeatures (edges : List (Edge K)) (features : Symbols) : Symbols :=
  edges.foldl (fun t e => e.features.keys.foldl (fun t name => (t.intern name).1) t) features

/-- **The edges of a state**, which is expanded on the first request. -/
def outlinks (id : Nat) : Op K (List (Edge K)) :=
  ExceptT.mk fun ⟨⟨machine, states, edges⟩, features, counts⟩ =>
    match edges.get? id, states.get? id with
    | some here, _ => (.ok here, ⟨⟨machine, states, edges⟩, features, counts⟩)
    | none, none => (.error (.graph (.unknownState id states.size)), ⟨⟨machine, states, edges⟩, features, counts⟩)
    | none, some f =>
      let (here, states) := numberOutlinks (machine.waysOn f) states
      (.ok here, ⟨⟨machine, states, edges.insert id here⟩, numberFeatures here features, counts⟩)

def isCompleted (g : StateGraph K) (id : Nat) : Bool := (g.states.get? id).any (·.state.completed)

def degree (id : Nat) (trueLoop : Bool) : Op K Nat := do
  let edges ← outlinks id
  let g ← GraphM.graph
  return edges.length + 1 + if trueLoop && g.isCompleted id then 1 else 0

variable [Exponential K]

def weighEdges (w : Weighter K) : List (Edge K) → Op K (List (Link K))
  | [] => return []
  | e :: rest => do
    let weight ← GraphM.weigh w e.features
    return ⟨e.child, weight, .derived⟩ :: (← weighEdges w rest)

def loops (w : Weighter K) (id : Nat) (asked : Bool) : Op K (List (Link K)) := do
  if asked then return [⟨id, ← GraphM.weigh w (impliedFeatures trueLoopFeature), .trueLoop⟩] else return []

/-- **Every edge of a state with its weight**, implied ones last. -/
def weightedOutlinks (id : Nat) (w : Weighter K) (trueLoop : Bool) : Op K (List (Link K)) := do
  let links ← weighEdges w (← outlinks id)
  let g ← GraphM.graph
  let looped ← loops w id (trueLoop && g.isCompleted id)
  let restart ← GraphM.weigh w (impliedFeatures restartFeature)
  return links ++ looped ++ [⟨0, restart, .restart⟩]

end StateGraph

end ProofWalk
