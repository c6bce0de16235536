import ProofWalk.Decimal.Numeral
import ProofWalk.Word
/-!
# Decimal.Scaled — reading numbers by one multiplication

The quick way to read a number: gather its digits in a word of 64 bits, and multiply or divide the word once by a
power of ten.  Up to fifteen digits and a power up to 22 this gives the nearest double.  Longer numbers are rounded
twice and may be a unit off, and digits that the word has no room for do not count.

A digit before the point that the word has no room for raises the power of ten; digits behind the point are gathered
after it all the same, as long as there is room for them.  A power too small for a double is divided out in two
steps, and one smaller still leaves nothing.
-/
namespace ProofWalk.Decimal

/-- **Digits gathered in a word** after `word`, up to the first that it has no room for, with the digits left over. -/
def gather : Nat → List Char → Nat × List Char
  | word, [] => (word, [])
  | word, c :: rest =>
    let longer := 10 * word + digitsValue [c]
    if longer < Word.bound then gather longer rest else (word, c :: rest)

def tenTo (k : Nat) : Float := Decadic.toFloat ⟨1, k⟩

def greatestPower : Nat := 308

def scale (word : Nat) (exponent : Int) : Option Float :=
  let x := Decadic.toFloat ⟨word, 0⟩
  if word = 0 then some 0
  else if greatestPower < exponent then none
  else if 0 ≤ exponent then
    let y := x * tenTo exponent.toNat
    if y.isFinite then some y else none
  else
    let down := (-exponent).toNat
    if down ≤ greatestPower then some (x / tenTo down)
    else if down ≤ 2 * greatestPower then some (x / tenTo greatestPower / tenTo (down - greatestPower))
    else some 0

namespace Numeral

/-- **The number that a numeral spells, read the quick way**; nothing beyond the range of doubles.  A digit before
the point that the word has no room for raises the power of ten; digits behind the point are gathered after it all
the same, as long as there is room for them. -/
def scaled (n : Numeral) : Option Float :=
  let (word, left) := gather 0 n.whole
  let fraction := n.fraction.getD []
  let (word, leftBehind) := gather word fraction
  let shift : Int := left.length - (fraction.length - leftBehind.length : Nat)
  (scale word (shift + n.exponent.getD 0)).map fun x => if n.negative then -x else x

end Numeral

end ProofWalk.Decimal
