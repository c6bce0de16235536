import ProofWalk.Decimal.Dyadic
/-!
# Decimal.Numeral — reading numbers

A numeral is a sign, digits with an optional point (on at least one side of it), and an optional exponent; its value
is the nearest double.  The words `nan`, `inf` and `infinity` are numerals too, in letters of either case.  Decimals
beyond the range of doubles are settled by their magnitude alone, so that no huge power of ten is ever computed.
-/
namespace ProofWalk.Decimal

/-- **The double nearest to a decimal.**  Decimals beyond the range of doubles are settled by their magnitude alone. -/
def Decadic.toFloat (d : Decadic) : Float :=
  if d.digits = 0 then 0
  else
    let leading := d.exponent + digitCount d.digits
    if 400 < leading then 1.0 / 0.0
    else if leading < -400 then 0
    else if 0 ≤ d.exponent then Float.ofScientific d.digits false d.exponent.natAbs
    else Float.ofScientific d.digits true d.exponent.natAbs

def digitsValue (cs : List Char) : Nat := cs.foldl (fun n c => 10 * n + (c.toNat - 48)) 0

/-- **A numeral in its parts.** -/
structure Numeral where
  negative : Bool
  whole : List Char
  /-- The digits after the point, if there is one. -/
  fraction : Option (List Char)
  exponent : Option Int
deriving DecidableEq, Repr

namespace Numeral

def isInteger (n : Numeral) : Bool := n.fraction.isNone && n.exponent.isNone

def decimal (n : Numeral) : Decadic :=
  let fraction := n.fraction.getD []
  ⟨digitsValue (n.whole ++ fraction), n.exponent.getD 0 - fraction.length⟩

def toFloat (n : Numeral) : Float := if n.negative then -n.decimal.toFloat else n.decimal.toFloat

def exponentFront (cs : List Char) : Option (Int × List Char) :=
  let (negative, cs) := match cs with
    | '-' :: rest => (true, rest)
    | '+' :: rest => (false, rest)
    | _ => (false, cs)
  let digits := cs.takeWhile Char.isDigit
  if digits.isEmpty then none
  else
    let value : Int := digitsValue digits
    some (if negative then -value else value, cs.dropWhile Char.isDigit)

end Numeral

def isWord (word : String) (cs : List Char) : Bool := cs.map Char.toLower == word.toList

def notANumber : Float := .ofBits 0x7FF8000000000000

/-- **Read a number**: a sign, then digits with an optional point (on at least one side of it) and an optional
exponent, or one of the words `nan`, `inf` and `infinity` in any case. -/
def readFloat (text : String) : Option Float :=
  let (negative, cs) := match text.toList with
    | '-' :: rest => (true, rest)
    | '+' :: rest => (false, rest)
    | cs => (false, cs)
  let signed (x : Float) := if negative then -x else x
  if isWord "nan" cs then some (signed notANumber)
  else if isWord "inf" cs || isWord "infinity" cs then some (signed (1.0 / 0.0))
  else
    let whole := cs.takeWhile Char.isDigit
    let rest := cs.dropWhile Char.isDigit
    let (fraction, rest) := match rest with
      | '.' :: more => (some (more.takeWhile Char.isDigit), more.dropWhile Char.isDigit)
      | _ => (none, rest)
    if whole.isEmpty && (fraction.getD []).isEmpty then none
    else
      let exponent := match rest with
        | [] => some none
        | c :: more =>
          if c == 'e' || c == 'E' then
            match Numeral.exponentFront more with
            | some (e, []) => some (some e)
            | _ => none
          else none
      exponent.map fun e => signed (Numeral.toFloat ⟨false, whole, fraction, e⟩)

end ProofWalk.Decimal
