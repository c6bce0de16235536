import ProofWalk.Graph.Link
import ProofWalk.Machine.Outlinks
import ProofWalk.Slots
import ProofWalk.Weight.Weighter
/-!
# Graph.Store — what a graph shares with others

Features are numbered in a table that all graphs of an engine share, and the look-ups of each weighter are counted.
A `Store` holds a graph together with these; an operation on it (`GraphM`) that fails keeps what it did before it
failed.

An expansion puts the targets of the ways on into the graph's table of states, one after another, so that a state
that has been met before keeps its number (`numberOutlinks`).  The ways on are computed on a fresh run of the
machine, and a fault makes the state a dead end (`Machine.waysOn`).  A graph might also keep one run for all its
expansions; it would not differ in anything.
-/
namespace ProofWalk

/-- **A graph with the feature table and the counters.** -/
structure Store (G K : Type) where
  graph : G
  features : Symbols
  /-- The look-ups of each weighter, by its key. -/
  counts : SortedMap Nat FeatureCounts

abbrev GraphM (G K : Type) := ExceptT (ProverError K) (StateM (Store G K))

namespace GraphM

variable {G K : Type}

@[inline] def graph : GraphM G K G := do return (← get).graph

@[inline] def setGraph (g : G) : GraphM G K Unit := modify fun s => { s with graph := g }

def internFeature (name : String) : GraphM G K Nat :=
  modifyGet fun ⟨graph, features, counts⟩ =>
    let (features, i) := features.intern name
    (i, ⟨graph, features, counts⟩)

@[inline] def count (w : Weighter K) (c : FeatureCounts) : GraphM G K Unit :=
  modify fun s => { s with counts := s.counts.upsert w.key fun old => (old.getD .zero).add c }

@[inline] def weigh [Scalar K] [Exponential K] (w : Weighter K) (features : Features K) : GraphM G K K := do
  count w (w.lookups features.keys)
  match w.weigh features with
  | .ok x => return x
  | .error e => throw (.weight e)

end GraphM

/-- **The edges of an expansion**, with the states that they lead to numbered. -/
def numberOutlinks {K : Type} : List (Outlink K) → StateTable → List (Edge K) × StateTable
  | [], states => ([], states)
  | o :: rest, states =>
    let (states, child) := states.intern o.target
    let (edges, states) := numberOutlinks rest states
    (⟨child, o.features⟩ :: edges, states)

/-- **The ways on from a state.**  A fault makes the state a dead end. -/
def Machine.waysOn {K : Type} [Scalar K] (m : Machine K) (f : Frozen) : List (Outlink K) :=
  match m.expand f.state with
  | .ok outlinks => outlinks
  | .error _ => []

end ProofWalk
