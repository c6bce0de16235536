import ProofWalk.Scalar
import ProofWalk.SortedMap
/-!
# Weight.Features — feature dictionaries

An edge of a proof graph is labelled with features, each with a value, in ascending order of name.  A feature that
is reported again counts once more.
-/
namespace ProofWalk

abbrev Features (K : Type) := SortedMap String K

def Features.count {K : Type} [Scalar K] (f : Features K) (name : String) : Features K :=
  f.upsert name fun old => old.getD 0 + 1

end ProofWalk
