import ProofWalk.Graph.Link
import ProofWalk.Prove.Mass
/-!
# Prove.Walk — what provers see of a proof graph

A prover asks for the weighted edges of a state, for its degree, whether it is completed and how deep its calls are
nested, and it reports its progress.  How these requests are answered, and what they change, is the monad's affair:
a proof graph that grows as it is asked, or a fixed graph given by functions.

Weights are normalized before they are used: scaled to the sum of one, or no edges at all where they do not add up
to a positive number.
-/
namespace ProofWalk

structure Progress (K : Type) where
  prover : String
  iteration : Nat
  pushes : Nat
  residualStates : Nat
  residualMass : K
  settledStates : Nat
  settledMass : K

/-- **A graph to walk on**; walks start at state 0. -/
structure Walk (m : Type → Type) (K : Type) where
  /-- Every edge of a state with its weight, and whether the edge of a completed state to itself is among them. -/
  links : Nat → Bool → m (List (Link K))
  /-- The number of edges of a state, with all implied ones. -/
  degree : Nat → m Nat
  isCompleted : Nat → m Bool
  /-- How deep the calls of a state are nested, if the state exists. -/
  callDepth : Nat → m (Option Nat)
  /-- Report progress, which is only worked out if someone listens. -/
  report : Thunk (Progress K) → m Unit

namespace Walk

variable {m : Type → Type} [Monad m] {K : Type} [Scalar K]

/-- **Weights scaled to the sum of one**; no edges where they do not add up to a positive number. -/
def normalize (links : List (Link K)) : List (Link K) :=
  let total := Scalar.sum (links.map (·.weight))
  if decide (0 < total) && Scalar.isFinite total then links.map fun l =>
    { l with weight := l.weight / total } else []

def normalized (w : Walk m K) (id : Nat) (trueLoop : Bool) : m (List (Link K)) := do
  return normalize (← w.links id trueLoop)

def progress {V : Type} [MassVector V K] (w : Walk m K) (prover : String)
    (iteration pushes : Nat) (settled residual : V) : m Unit :=
  w.report (.mk fun _ =>
    let settled := MassVector.entries settled
    let residual := MassVector.entries residual
    ⟨prover, iteration, pushes, residual.length, Scalar.sum (residual.map (·.2)), settled.length,
      Scalar.sum (settled.map (·.2))⟩)

end Walk

end ProofWalk
