import ProofWalk.Prove.Settings
import ProofWalk.Prove.Walk
/-!
# Prove.Power — power iteration

All mass starts at the start state.  Each step moves the mass of every state along its edges, implied ones included,
by their normalized weights.  There are as many steps as the depth says, or fewer where a bound cuts it
(`powerCount`), and each is reported.
-/
namespace ProofWalk

namespace Walk

variable {m : Type → Type} [Monad m] {K : Type} [Scalar K] {V : Type} [MassVector V K]

def spread (mass : K) (links : List (Link K)) (next : V) : V :=
  links.foldl (fun next l => MassVector.add next l.child (mass * l.weight)) next

/-- **One step**: the mass of some states, moved along their edges and added to `next`. -/
def powerStep (w : Walk m K) : List (Nat × K) → V → m V
  | [], next => return next
  | (u, mass) :: rest, next => do
    let links ← w.normalized u true
    powerStep w rest (spread mass links next)

def powerSteps (w : Walk m K) (name : String) : Nat → Nat → V → m V
  | 0, _, current => return current
  | steps + 1, iteration, current => do
    let next ← w.powerStep (MassVector.entries current) (MassVector.none : V)
    w.progress name iteration 0 next (MassVector.none : V)
    powerSteps w name steps (iteration + 1) next

def powerCount (apr : AprOptions K) : Nat :=
  match apr.stopEarly with
  | some cap => min cap apr.maxDepth
  | none => apr.maxDepth

def power (w : Walk m K) (settings : ProverSettings K) (name : String) : m V :=
  w.powerSteps name (powerCount settings.apr) 1 (MassVector.add (MassVector.none : V) 0 1)

end Walk

end ProofWalk
