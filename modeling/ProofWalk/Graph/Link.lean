import ProofWalk.Weight.Features
/-!
# Graph.Link — the edges of a proof graph

A derived edge comes from an expansion and carries features.  Two kinds of edges are implied, and each has one
feature of its own: edges from every state back to the start, and edges from a completed state to itself where that
is asked for.  A third feature belongs to no kind of edge: it carries the mass of paths through pruned states.
-/
namespace ProofWalk

/-- **Where an edge comes from.** -/
inductive LinkKind
  /-- An expansion, or pruning. -/
  | derived
  | restart
  /-- The edge of a completed state to itself. -/
  | trueLoop
deriving DecidableEq, Inhabited, Repr

/-- **An edge with its weight.** -/
structure Link (K : Type) where
  child : Nat
  weight : K
  kind : LinkKind

/-- **A derived edge with its features.** -/
structure Edge (K : Type) where
  child : Nat
  features : Features K

def restartFeature : String := "id(restart)"

def trueLoopFeature : String := "id(trueLoop)"

def subproofFeature : String := "subproof"

def impliedFeatures {K : Type} [Scalar K] (name : String) : Features K := (∅ : Features K).insert name 1

end ProofWalk
