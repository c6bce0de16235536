import ProofWalk.Decimal.Rounded
import ProofWalk.Decimal.Shortest
/-!
# Decimal.Layout — decimals as text

Where the point stands, when an exponent is written, and how the special values are spelled.  A `Layout` holds the
decisions of one kind of text.  Messages and listings have the fewest digits that read back and never an exponent;
other texts have a fixed count of decimal places, or of significant digits without trailing zeros, where every zero
is `0`.
-/
namespace ProofWalk.Decimal

def digitsText (n : Nat) : List Char := Nat.toDigits 10 n

def Decadic.positional (d : Decadic) : String :=
  let digits := digitsText d.digits
  if 0 ≤ d.exponent then
    String.ofList (if d.digits = 0 then digits else digits ++ List.replicate d.exponent.toNat '0')
  else
    let places := (-d.exponent).toNat
    let padded := List.replicate (places + 1 - digits.length) '0' ++ digits
    String.ofList (padded.take (padded.length - places) ++ '.' :: padded.drop (padded.length - places))

/-- **The decisions of one kind of number text.** -/
structure Layout where
  /-- Which of two equally near shortest decimals is written. -/
  tie : Tie
  /-- Whether a number without fraction is written with `.0`. -/
  pointZero : Bool
  /-- The exponents of the first digit that are written positionally: from the first on, below the second; all, if
  there is none. -/
  plain : Option (Int × Int)
  /-- The text of a value that is not a number. -/
  nan : String
  infinity : String
  negativeInfinity : String

def withPoint (s : String) : String := if s.toList.contains '.' then s else s ++ ".0"

def Decadic.scientific (d : Decadic) : String :=
  let digits := digitsText d.digits
  let exponent := d.exponent + digits.length - 1
  let fraction := if digits.length ≤ 1 then [] else '.' :: digits.drop 1
  String.ofList (digits.take 1 ++ fraction) ++ "e" ++
    (if 0 ≤ exponent then "+" else "-") ++ toString exponent.natAbs

/-- **The shortest text of a number** under a layout. -/
def Layout.render (l : Layout) (x : Float) : String :=
  if x.isNaN then l.nan
  else if x.isInf then if isNegative x then l.negativeInfinity else l.infinity
  else
    let d := (Dyadic.ofFloat x).shortest l.tie
    let leading := d.exponent + digitCount d.digits - 1
    let plain := match l.plain with
      | none => true
      | some (first, last) => d.digits == 0 || (decide (first ≤ leading) && decide (leading < last))
    let magnitude :=
      if plain then if l.pointZero then withPoint d.positional else d.positional else d.scientific
    (if isNegative x then "-" else "") ++ magnitude

def plainText : Layout where
  tie := .up
  pointZero := false
  plain := none
  nan := "NaN"
  infinity := "inf"
  negativeInfinity := "-inf"

def fixedText (places : Nat) (x : Float) : String :=
  if x.isNaN then "NaN"
  else if x.isInf then if isNegative x then "-inf" else "inf"
  else (if isNegative x then "-" else "") ++ ((Dyadic.ofFloat x).places places).positional

def significantText (count : Nat) (x : Float) : String :=
  if x.isNaN then "NaN"
  else if x.isInf then if isNegative x then "-inf" else "inf"
  else
    let d := (Dyadic.ofFloat x).significant count
    if d.digits = 0 then "0" else (if isNegative x then "-" else "") ++ d.strip.positional

end ProofWalk.Decimal
