import ProofWalk.Error
import ProofWalk.Weight.Features
import ProofWalk.Weight.Squash
/-!
# Weight.Weighter — from features to weights

The weight of an edge is its squashed sum of feature values, each times the parameter of its feature.  A feature
without parameter reads as the squashing function's default.  How often either happens is counted, so that a model
applied to unfamiliar data can be noticed; the counts are kept apart from the weighter, which never changes.

A legal weight is finite and not negative.  Any other is an error if the weighter is strict, and else reads as zero
(`check`).  Weighters have keys, so that counts and snapshots of parameters can be told apart.
-/
namespace ProofWalk

inductive Params (K : Type)
  /-- Every feature has parameter one. -/
  | unit
  /-- The features of a table have parameters, others have none. -/
  | table (weights : SortedMap String K)

namespace Params

variable {K : Type}

def get? [Scalar K] : Params K → String → Option K
  | unit, _ => some 1
  | table weights, name => weights[name]?

def size : Params K → Nat
  | unit => 0
  | table weights => weights.size

end Params

structure FeatureCounts where
  known : Nat
  unknown : Nat
deriving DecidableEq, Inhabited, Repr

namespace FeatureCounts

def zero : FeatureCounts := ⟨0, 0⟩

def add (a b : FeatureCounts) : FeatureCounts := ⟨a.known + b.known, a.unknown + b.unknown⟩

end FeatureCounts

/-- **What turns features into weights.** -/
structure Weighter (K : Type) where
  squash : Squash
  params : Params K
  /-- Whether an illegal weight is an error; otherwise it reads as zero. -/
  strict : Bool
  /-- A number that tells parameters apart: weighters of one number share their parameters. -/
  key : Nat

namespace Weighter

variable {K : Type} [Scalar K]

def uniform (key : Nat) : Weighter K := ⟨.linear, .unit, false, key⟩

def param (w : Weighter K) (name : String) : K := (w.params.get? name).getD w.squash.defaultParameter

def lookup (w : Weighter K) (name : String) : FeatureCounts :=
  if (w.params.get? name).isSome then ⟨1, 0⟩ else ⟨0, 1⟩

def lookups (w : Weighter K) (names : List String) : FeatureCounts :=
  names.foldl (fun c name => c.add (w.lookup name)) .zero

variable [Exponential K]

def raw (w : Weighter K) (features : Features K) : K :=
  w.squash.apply (Scalar.sum (features.toList.map fun e => e.2 * w.param e.1))

omit [Exponential K] in
/-- **A legal weight is finite and not negative.**  Any other is an error if the weighter is strict, else zero. -/
def check (w : Weighter K) (weight : K) (features : List (String × K)) : Except (IllegalWeight K) K :=
  if Scalar.isFinite weight && decide (0 ≤ weight) then .ok weight
  else if w.strict then .error ⟨weight, features⟩
  else .ok 0

def weigh (w : Weighter K) (features : Features K) : Except (IllegalWeight K) K :=
  w.check (w.raw features) features.toList

end Weighter

end ProofWalk
