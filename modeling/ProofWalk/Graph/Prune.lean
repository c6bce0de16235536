import ProofWalk.Graph.IdGraph
/-!
# Graph.Prune — removing states and bridging the gaps

The states that survive are the start, the completed states and those that a filter accepts.  Where a path leads
from one survivor to another through removed states only, the two are joined by an edge that carries the mass of
such paths under a feature of its own: the weight of the first edge, times, for each further edge, its share among
the edges of its source (the edge back to the start included) and twice the chance of not restarting.  Paths are
followed up to a number of removed states, and given up when their mass falls below a threshold.

The masses of all paths from one survivor are gathered by where they end (`Virtual`).  `follow` takes a removed
state and the mass that arrives there: the edges to survivors pass mass on first, then the paths through the other
edges are followed, the last edge first.  A bridge adds its mass to the first edge that there is to its end, or
makes a new edge.

`prune` weighs the edges of the removed states, then those of the survivors, and only then changes the graph: the
survivors get new numbers in ascending order of the old ones, and it tells the new number of each old state.  A
failure leaves states and rows as they were.
-/
namespace ProofWalk

/-- **Whether a state is kept**, as far as a filter is concerned. -/
abbrev Visibility := State → Bool

def hidingCalls (labels : List Label) : Visibility := fun s => !s.inCall fun l => l ∈ labels

/-- **Bounds on the paths through removed states.** -/
structure PruneOptions (K : Type) where
  alpha : K
  /-- How many removed states a path may cross. -/
  maxDepth : Nat
  /-- The mass below which a path is given up. -/
  epsilon : K

namespace IdGraph

variable {K : Type} [Scalar K]

/-- **Which states survive**: the start, the completed ones, and those that the filter accepts. -/
def survives (g : IdGraph K) (visible : Visibility) (id : Nat) : Bool :=
  id == 0 || (g.states.get? id).any fun f => f.state.completed || visible f.state

def survivors (g : IdGraph K) (visible : Visibility) :
    List Nat := (List.range g.states.size).filter (g.survives visible)

def shares (links : List (Link K)) : List (Nat × K) :=
  let total := Scalar.sum (links.map (·.weight))
  if 0 < total then (links.filter (·.kind == .derived)).map fun l => (l.child, l.weight / total) else []

abbrev Virtual (K : Type) := SortedMap Nat K

def Virtual.add (v : Virtual K) (id : Nat) (mass : K) : Virtual K := v.upsert id fun old => old.getD 0 + mass

def passOn (survives : Nat → Bool) (attenuation mass : K) : List (Nat × K) → Virtual K → Virtual K
  | [], v => v
  | (y, p) :: rest, v =>
    passOn survives attenuation mass rest (if survives y then v.add y (mass * p * attenuation) else v)

def onward (survives : Nat → Bool) (attenuation mass : K) (next : List (Nat × K)) : List (Nat × K) :=
  ((next.filter fun e => !survives e.1).map fun e => (e.1, mass * e.2 * attenuation)).reverse

/-- **The mass that paths from a removed state carry to survivors**, added to `v`, over at most so many removed states.
The edges to survivors come first, then the paths through the other edges, the last edge first. -/
def follow (survives : Nat → Bool) (shares : Slots (List (Nat × K))) (attenuation epsilon : K) :
    Nat → Nat → K → Virtual K → Virtual K
  | 0, _, _, v => v
  | hops + 1, x, mass, v =>
    if mass < epsilon then v
    else
      let next := (shares.get? x).getD []
      (onward survives attenuation mass next).foldl
        (fun v e => follow survives shares attenuation epsilon hops e.1 e.2 v)
          (passOn survives attenuation mass next v)

def bridge (subproof : Nat) (row : SparseRow K) (e : Nat × K) : SparseRow K :=
  match SparseRow.position? row e.1 with
  | some i => row.modify i fun edge => { edge with features := edge.features.add subproof e.2 }
  | none => SparseRow.push row e.1 (SparseVector.ofPairs [(subproof, e.2)])

variable [Exponential K]

def sharesOf (w : Weighter K) : List Nat → Op K (Slots (List (Nat × K)))
  | [] => return .empty
  | id :: rest => do
    let here := shares (← weightedOutlinks id w false)
    return (← sharesOf w rest).insert id here

def prunedRow (survives : Nat → Bool) (transitions : Slots (List (Nat × K))) (options : PruneOptions K)
    (subproof : Nat) (row : SparseRow K) (weighted : List (Nat × K)) : SparseRow K :=
  let stay := 1 - options.alpha
  let attenuation := stay * stay
  let mass := (row.zip weighted).foldl (fun v e =>
    if survives e.1.child then v
    else follow survives transitions attenuation options.epsilon options.maxDepth e.1.child e.2.2 v) .empty
  mass.toList.foldl (bridge subproof) (row.filter fun e => survives e.child)

def prunedRows (w : Weighter K) (survives : Nat → Bool) (transitions : Slots (List (Nat × K)))
    (options : PruneOptions K) (subproof : Nat) : List Nat → Op K (List (Nat × SparseRow K))
  | [] => return []
  | u :: rest => do
    let weighted ← weightedRow u w
    let row := prunedRow survives transitions options subproof (← row u) weighted
    return (u, row) :: (← prunedRows w survives transitions options subproof rest)

/-- **Remove the states that do not survive**, and tell the new number of each old state.  A failure leaves states and
rows as they were. -/
def prune (w : Weighter K) (visible : Visibility) (options : PruneOptions K) : Op K (List (Option Nat)) := do
  let g ← GraphM.graph
  let ids := List.range g.states.size
  let survives := g.survives visible
  if ids.all survives then return ids.map some
  let subproof ← GraphM.internFeature subproofFeature
  let expanded := ids.filter fun id => (g.rows.get? id).isSome
  let transitions ← sharesOf w (expanded.filter fun id => !survives id)
  let rows ← prunedRows w survives transitions options subproof (expanded.filter survives)
  let survivors := g.survivors visible
  let number := (Interned.ofList survivors : Numbering).find?
  let renamed (row : SparseRow K) : SparseRow K :=
    row.map fun e => { e with child := (number e.child).getD e.child }
  GraphM.setGraph { ← GraphM.graph with
    states := .ofList (survivors.filterMap g.states.get?)
    rows := rows.foldl (fun rows e => match number e.1 with
      | some id => rows.insert id (renamed e.2)
      | none => rows) .empty }
  return ids.map number

end IdGraph

end ProofWalk
