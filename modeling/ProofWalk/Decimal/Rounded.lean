import ProofWalk.Decimal.Dyadic
/-!
# Decimal.Rounded — exact values rounded to a number of digits

The exact value of the number is rounded, and an exact half goes to the even neighbour.  Both ways to round, to a
count of significant digits and to a count of decimal places, round the number as a multiple of a power of ten
(`roundAt`).
-/
namespace ProofWalk.Decimal

/-- **A quotient rounded to the nearest natural number**, a half to the even one. -/
def roundDiv (num den : Nat) : Nat :=
  let quotient := num / den
  let twice := 2 * (num % den)
  if twice < den then quotient
  else if den < twice then quotient + 1
  else if quotient % 2 = 0 then quotient
  else quotient + 1

def Dyadic.roundAt (d : Dyadic) (exponent : Int) : Decadic :=
  let (num, den) := d.fraction
  let (num, den) := scaled num den exponent
  ⟨roundDiv num den, exponent⟩

def Dyadic.significant (count : Nat) (d : Dyadic) : Decadic :=
  if d.m = 0 then ⟨0, 0⟩
  else
    let (num, den) := d.fraction
    d.roundAt (magnitude num den - count)

def Dyadic.places (count : Nat) (d : Dyadic) : Decadic := d.roundAt (-count)

end ProofWalk.Decimal
