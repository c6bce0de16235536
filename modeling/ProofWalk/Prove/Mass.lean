import ProofWalk.Sparse.Dense
import ProofWalk.Sparse.Vector
/-!
# Prove.Mass — how much mass each state holds

Provers run over two kinds of storage: a map from states to mass, which forgets a state whose mass is set to zero,
and a dense vector, which grows as states are met.  `MassVector` is what they have in common: reading, adding and
setting a mass, the total, and the states whose mass is not zero in ascending order.  A result is always told as a
map (`ProofVector`).
-/
namespace ProofWalk

abbrev ProofVector (K : Type) := SortedMap Nat K

/-- **Storage for masses.** -/
class MassVector (V : Type) (K : outParam Type) where
  none : V
  mass : V → Nat → K
  add : V → Nat → K → V
  set : V → Nat → K → V
  /-- The states whose mass is not zero, in ascending order. -/
  entries : V → List (Nat × K)
  total : V → K
  toProof : V → ProofVector K

variable {K : Type} [Scalar K]

namespace ProofVector

def nonzero (v : ProofVector K) : List (Nat × K) := v.toList.filter fun e => !(e.2 == 0)

end ProofVector

instance : MassVector (ProofVector K) K where
  none := (∅ : ProofVector K)
  mass v i := v.getD i 0
  add v i x := v.upsert i fun old => old.getD 0 + x
  set v i x := if x == 0 then v.erase i else v.insert i x
  entries := ProofVector.nonzero
  total v := Scalar.sum (v.nonzero.map (·.2))
  toProof v := v

instance : MassVector (DenseVector K) K where
  none := .empty
  mass := DenseVector.value
  add := DenseVector.add
  set := DenseVector.set
  entries := DenseVector.nonzero
  total := DenseVector.total
  toProof v := .ofList v.nonzero

end ProofWalk
