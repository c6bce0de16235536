import ProofWalk.Config.Setting
/-!
# Toml.Number — numbers and dates in TOML documents

Digits may be grouped by single underscores.  Integers are decimal, or hexadecimal, octal or binary with a mark in
front, and fit into 64 bits.  A decimal beyond the range of doubles is refused if it is positive.

A date is a day, a time of day or both, and the two together may say how far they are from Greenwich, as in
`2024-02-29T23:59:60.5+01:00`; each field lies in its range, and days in the length of their month.  Readers take
the front of a text and give what is behind it.
-/
namespace ProofWalk

namespace Toml

/-- Whether underscores stand between digits only, `digit` telling whether one has just been read. -/
def isGrouped : Bool → List Char → Bool
  | digit, [] => digit
  | digit, '_' :: rest => digit && isGrouped false rest
  | _, _ :: rest => isGrouped true rest

def digitsFront (isDigit : Char → Bool) (cs : List Char) : Option (List Char × List Char) :=
  let run := cs.takeWhile fun c => isDigit c || c == '_'
  if isGrouped false run then some (run.filter (· != '_'), cs.drop run.length) else none

def integer? (n : Int) : Option Setting := if -Word.half ≤ n ∧ n < Word.half then some (.integer n) else none

def basedFront (base : Nat) (cs : List Char) : Option (Setting × List Char) := do
  let (digits, rest) ← digitsFront (fun c => (Json.hexValue? c).any (· < base)) cs
  let value := digits.foldl (fun n c => base * n + (Json.hexValue? c).getD 0) 0
  return (← integer? value, rest)

def fractionFront : List Char → Option (Option (List Char) × List Char)
  | '.' :: rest => (digitsFront Char.isDigit rest).map fun r => (some r.1, r.2)
  | cs => some (none, cs)

def exponentFront : List Char → Option (Option Int × List Char)
  | [] => some (none, [])
  | c :: rest =>
    if c == 'e' || c == 'E' then do
      let (negative, rest) := match rest with
        | '-' :: rest => (true, rest)
        | '+' :: rest => (false, rest)
        | _ => (false, rest)
      let (digits, rest) ← digitsFront Char.isDigit rest
      let value : Int := Decimal.digitsValue digits
      return (some (if negative then -value else value), rest)
    else some (none, c :: rest)

def decimalFront (negative : Bool) (cs : List Char) : Option (Setting × List Char) := do
  let (whole, rest) ← digitsFront Char.isDigit cs
  if whole.head? = some '0' ∧ 1 < whole.length then none
  else
    let (fraction, rest) ← fractionFront rest
    let (exponent, rest) ← exponentFront rest
    let m : Decimal.Numeral := ⟨negative, whole, fraction, exponent⟩
    if m.isInteger then
      let value : Int := Decimal.digitsValue whole
      return (← integer? (if negative then -value else value), rest)
    else if !negative && !m.toFloat.isFinite then none
    else return (.float m.toFloat, rest)

def unsignedFront (negative : Bool) (cs : List Char) : Option (Setting × List Char) :=
  match cs with
  | 'i' :: 'n' :: 'f' :: rest => some (.float (if negative then -1.0 / 0.0 else 1.0 / 0.0), rest)
  | 'n' :: 'a' :: 'n' :: rest => some (.float (if negative then -Decimal.notANumber else Decimal.notANumber), rest)
  | cs => decimalFront negative cs

def numberFront : List Char → Option (Setting × List Char)
  | '0' :: 'x' :: rest => basedFront 16 rest
  | '0' :: 'o' :: rest => basedFront 8 rest
  | '0' :: 'b' :: rest => basedFront 2 rest
  | '-' :: rest => unsignedFront true rest
  | '+' :: rest => unsignedFront false rest
  | cs => unsignedFront false cs

def fieldFront (count low high : Nat) (cs : List Char) : Option (Nat × List Char) :=
  let digits := cs.take count
  let value := Decimal.digitsValue digits
  if digits.length = count ∧ digits.all Char.isDigit ∧ low ≤ value ∧ value ≤ high then some (value, cs.drop count)
  else none

def charFront (c : Char) : List Char → Option (List Char)
  | [] => none
  | d :: rest => if c = d then some rest else none

def monthLength (year month : Nat) : Nat :=
  if month = 2 then if year % 4 = 0 ∧ (year % 100 ≠ 0 ∨ year % 400 = 0) then 29 else 28
  else if month = 4 ∨ month = 6 ∨ month = 9 ∨ month = 11 then 30
  else 31

def dayFront (cs : List Char) : Option (List Char) := do
  let (year, cs) ← fieldFront 4 0 9999 cs
  let (month, cs) ← fieldFront 2 1 12 (← charFront '-' cs)
  let (_, cs) ← fieldFront 2 1 (monthLength year month) (← charFront '-' cs)
  return cs

def clockFront (cs : List Char) : Option (List Char) := do
  let (_, cs) ← fieldFront 2 0 23 cs
  let (_, cs) ← fieldFront 2 0 59 (← charFront ':' cs)
  let (_, cs) ← fieldFront 2 0 60 (← charFront ':' cs)
  match cs with
  | '.' :: rest => if (rest.head?.any Char.isDigit) then return rest.dropWhile Char.isDigit else return cs
  | _ => return cs

def offsetFront : List Char → Option (List Char)
  | [] => none
  | c :: rest =>
    if c = 'Z' ∨ c = 'z' then some rest
    else if c = '+' ∨ c = '-' then do
      let (_, cs) ← fieldFront 2 0 23 rest
      let (_, cs) ← fieldFront 2 0 59 (← charFront ':' cs)
      return cs
    else none

def dateFront (cs : List Char) : Option (List Char) :=
  match dayFront cs with
  | none => clockFront cs
  | some rest =>
    match rest with
    | c :: more =>
      if c = 'T' ∨ c = 't' ∨ c = ' ' then
        match clockFront more with
        | some rest => some ((offsetFront rest).getD rest)
        | none => some rest
      else some rest
    | [] => some []

end Toml

end ProofWalk
