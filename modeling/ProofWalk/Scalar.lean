import ProofWalk.Decimal.Layout
import ProofWalk.Word
/-!
# Scalar — the numbers that weights and masses are made of

Everything that computes with weights is written for any type of numbers.  The program runs on doubles, where each
operation rounds; statements about sums and products are made for exact numbers.  Therefore sums are always taken in
a stated order, from left to right, and the sum of no numbers has a name of its own: it is the neutral element of
addition, which for doubles is negative zero.

`Scalar` has what the provers need: arithmetic, an order, rounding to natural numbers, and tests for values that are
not finite.  `Exponential` is a class of its own, since only some squashing functions need it, and `Written` is for
numbers that are written out.

The instances for doubles follow their documented behaviour.  The order is the total one: negative values first,
then positive ones, each by magnitude, negative zero below zero, and values that are no numbers outside the
infinities.  Natural numbers that come from doubles are cut off at the last one of 64 bits.
-/
namespace ProofWalk

/-- **Numbers with an order.** -/
class Scalar (K : Type) extends Add K, Sub K, Mul K, Div K, Neg K, LT K, LE K, BEq K where
  ofNat : Nat → K
  /-- The sum of no numbers. -/
  emptySum : K
  /-- Whether the order holds strictly. -/
  decLt : ∀ a b : K, Decidable (a < b)
  decLe : ∀ a b : K, Decidable (a ≤ b)
  /-- Whether the value is a number at all and not infinite. -/
  isFinite : K → Bool
  /-- The least natural number that is no smaller. -/
  ceil : K → Nat
  /-- The nearest natural number, a half going away from zero. -/
  round : K → Nat
  /-- An order of all values, numbers or not. -/
  order : K → K → Ordering

class Exponential (K : Type) where
  exp : K → K
  tanh : K → K

class Written (K : Type) where
  /-- The text that identifies a number. -/
  text : K → String
  /-- The text with a fixed count of decimal places. -/
  fixed : Nat → K → String

namespace Scalar

variable {K : Type} [Scalar K]

instance (a b : K) : Decidable (a < b) := decLt a b
instance (a b : K) : Decidable (a ≤ b) := decLe a b
instance : OfNat K 0 := ⟨ofNat 0⟩
instance : OfNat K 1 := ⟨ofNat 1⟩
instance : Inhabited K := ⟨ofNat 0⟩

def sum (l : List K) : K := l.foldl (· + ·) emptySum

end Scalar

/-- Doubles in the order that puts negative values first, then positive ones, each by magnitude; negative zero lies
below zero, and values that are no numbers lie outside the infinities. -/
def floatOrder (a b : Float) : Ordering :=
  let key (x : Float) : Int :=
    if Decimal.isNegative x then -(x.toBits.toNat - Word.half : Nat) - 1 else x.toBits.toNat
  compare (key a) (key b)

def floatOfNat (n : Nat) : Float := if n < 4294967296 then n.toUInt64.toFloat else Float.ofNat n

/-- Natural numbers that come from doubles are cut off at the last one of 64 bits. -/
instance : Scalar Float where
  ofNat := floatOfNat
  emptySum := -floatOfNat 0
  decLt := fun a b => inferInstanceAs (Decidable (a < b))
  decLe := fun a b => inferInstanceAs (Decidable (a ≤ b))
  isFinite := Float.isFinite
  ceil x := x.ceil.toUInt64.toNat
  round x := x.round.toUInt64.toNat
  order := floatOrder

instance : Exponential Float := ⟨Float.exp, Float.tanh⟩

instance : Written Float where
  text := Decimal.plainText.render
  fixed := Decimal.fixedText

end ProofWalk
