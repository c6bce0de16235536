import ProofWalk.Scalar
import ProofWalk.SortedMap
/-!
# Sparse.Vector — vectors with few entries

A sparse vector holds a value for some indices, in ascending order; every other index stands for zero.  Adding at an
index keeps the index, even where the sum is zero, and a new index gets the value as it is.  A vector is made from
pairs by adding them one after another, so the values of one index are summed in the order given.  Its product with
a list of parameters reads a default where the list is too short.
-/
namespace ProofWalk

/-- **A vector given by its entries.** -/
abbrev SparseVector (K : Type) := SortedMap Nat K

namespace SparseVector

variable {K : Type} [Scalar K]

def value (v : SparseVector K) (i : Nat) : K := v.getD i 0

def add (v : SparseVector K) (i : Nat) (x : K) : SparseVector K :=
  v.upsert i fun old => match old with
    | some y => y + x
    | none => x

/-- **The vector of some pairs**, whose values are summed index by index in the order given. -/
def ofPairs (pairs : List (Nat × K)) : SparseVector K := pairs.foldl (fun v e => v.add e.1 e.2) ∅

def dotWith (v : SparseVector K) (parameter : Nat → K) : K :=
  Scalar.sum (v.toList.map fun e => e.2 * parameter e.1)

def dot (v : SparseVector K) (parameters : Array K) (default : K) : K :=
  v.dotWith fun i => parameters.getD i default

end SparseVector

end ProofWalk
