import ProofWalk.Prove.Settings
import ProofWalk.Prove.Walk
/-!
# Prove.DepthFirst — propagation along paths

Each path from the start state carries the product of its normalized edge weights to the state where it ends.  The
edge back to the start takes its share but is not followed; completed states end their paths, and so does the
depth.  What the edges of a visited state carry is added from the last edge to the first; then the states that they
lead to are visited from the first to the last.
-/
namespace ProofWalk

namespace Walk

variable {m : Type → Type} [Monad m] {K : Type} [Scalar K]

structure Visits (K : Type) where
  result : ProofVector K
  count : Nat

def followed (weight : K) (links : List (Link K)) : List (Nat × K) :=
  (links.filter fun l => !(l.kind == .restart)).map fun l => (l.child, weight * l.weight)

/-- **Visit a state that a path reaches with some weight**, over at most so many more edges.  What the edges
carry is added from the last edge to the first; then the states that they lead to are visited from the first to
the last. -/
def visit (w : Walk m K) : Nat → Nat → K → Visits K → m (Visits K)
  | 0, _, _, v => return v
  | depth + 1, u, weight, v => do
    if ← w.isCompleted u then return v
    let next := followed weight (← w.normalized u false)
    let result := next.reverse.foldl (fun r e => MassVector.add r e.1 e.2) v.result
    let count := v.count + 1
    w.progress "dfs" count 0 result (∅ : ProofVector K)
    next.foldlM (fun v e => visit w depth e.1 e.2 v) ⟨result, count⟩

def depthFirst (w : Walk m K) (settings : ProverSettings K) : m (ProofVector K) := do
  let start : ProofVector K := MassVector.add (∅ : ProofVector K) 0 1
  return (← w.visit settings.apr.maxDepth 0 1 ⟨start, 0⟩).result

end Walk

end ProofWalk
