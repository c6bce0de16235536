import Mathlib.Algebra.BigOperators.Group.List.Basic
import Mathlib.Algebra.Order.Field.Basic
import Mathlib.Algebra.Order.Floor.Defs
import Mathlib.Tactic.NormNum
import ProofWalk.Prove.Settings
/-!
# Proofs.ExactNumbers — numbers without rounding

What a program that computes with doubles means is said for the numbers of an ordered field, such as the rational or
the real ones: each operation gives the number itself, and none is infinite.  Sums of such numbers do not depend on
the order in which they are taken (`Scalar.OrderFree`), which is all that several results need to know of numbers.

Rational numbers have no exponential function.  Examples over them use a squashing function without one, and put
constant functions in its place (`flatExponential`).
-/
namespace ProofWalk

/-- **Whether sums do not depend on the order in which they are taken.** -/
def Scalar.OrderFree (K : Type) [Scalar K] : Prop := ∀ l l' : List K, l.Perm l' → Scalar.sum l = Scalar.sum l'

variable {K : Type} [Field K] [LinearOrder K] [FloorSemiring K]

/-- **The numbers of an ordered field**, with their own operations. -/
instance Scalar.exact : Scalar K where
  ofNat
    | 0 => 0
    | 1 => 1
    | n => n
  emptySum := 0
  decLt := inferInstance
  decLe := inferInstance
  isFinite _ := true
  ceil := Nat.ceil
  round x := ⌊x + 1 / 2⌋₊
  order := compare

namespace Scalar

theorem sum_eq (l : List K) : Scalar.sum l = l.sum := by
  unfold Scalar.sum
  rw [List.sum_eq_foldl]
  rfl

theorem orderFree : OrderFree K := fun l l' h => by rw [sum_eq, sum_eq, h.sum_eq]

theorem beq_eq (x y : K) : (x == y) = decide (x = y) := by
  by_cases h : x = y
  · simp [h]
  · simp [h]

end Scalar

@[reducible] def flatExponential : Exponential ℚ := ⟨fun _ => 1, fun _ => 0⟩

theorem ProverSettings.move_eq (s : ProverSettings K) : s.move = 1 - s.stay := rfl

end ProofWalk
