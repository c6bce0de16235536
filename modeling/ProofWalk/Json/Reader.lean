import ProofWalk.Decimal.Scaled
import ProofWalk.Json.Value
import ProofWalk.Word
/-!
# Json.Reader — reading JSON documents

The strict grammar: no comments, no trailing commas, no leading zeros, no bare control characters, no lone
surrogates.  A number beyond the range of doubles is refused.

A reader takes the front of a text and gives what it read with the text behind it.  All characters of numerals at a
place make up one numeral, which is kept as it is spelled and checked then.  Two escapes of sixteen bits make up a
character beyond that range.  Values and their parts are read by functions that call each other, each with a bound
on the steps; a step takes at least half a character, and `read` allows for that.
-/
namespace ProofWalk

namespace Json

def isSpace (c : Char) : Bool := c == ' ' || c == '\n' || c == '\r' || c == '\t'

def dropSpace (cs : List Char) : List Char := cs.dropWhile isSpace

def hexValue? (c : Char) : Option Nat :=
  if c.isDigit then some (c.toNat - 48)
  else if 'a' ≤ c ∧ c ≤ 'f' then some (c.toNat - 87)
  else if 'A' ≤ c ∧ c ≤ 'F' then some (c.toNat - 55)
  else none

def hexFour : List Char → Option (Nat × List Char)
  | a :: b :: c :: d :: rest => do
    let a ← hexValue? a
    let b ← hexValue? b
    let c ← hexValue? c
    let d ← hexValue? d
    return (((a * 16 + b) * 16 + c) * 16 + d, rest)
  | _ => none

def unicodeEscape (cs : List Char) : Option (Char × List Char) := do
  let (n, rest) ← hexFour cs
  if 0xDC00 ≤ n ∧ n ≤ 0xDFFF then none
  else if 0xD800 ≤ n ∧ n ≤ 0xDBFF then
    match rest with
    | '\\' :: 'u' :: more =>
      let (m, rest) ← hexFour more
      if 0xDC00 ≤ m ∧ m ≤ 0xDFFF then some (Char.ofNat (0x10000 + (n - 0xD800) * 0x400 + (m - 0xDC00)), rest)
        else none
    | _ => none
  else some (Char.ofNat n, rest)

/-- The rest of a quoted text, after `read` (in reverse), up to its closing quote. -/
def stringRest : Nat → List Char → List Char → Option (String × List Char)
  | 0, _, _ => none
  | fuel + 1, read, cs =>
    match cs with
    | [] => none
    | '"' :: rest => some (String.ofList read.reverse, rest)
    | '\\' :: 'u' :: rest =>
      match unicodeEscape rest with
      | some (c, rest) => stringRest fuel (c :: read) rest
      | none => none
    | '\\' :: c :: rest =>
      let plain := match c with
        | '"' => some '"'
        | '\\' => some '\\'
        | '/' => some '/'
        | 'b' => some '\x08'
        | 'f' => some '\x0c'
        | 'n' => some '\n'
        | 'r' => some '\r'
        | 't' => some '\t'
        | _ => none
      match plain with
      | some c => stringRest fuel (c :: read) rest
      | none => none
    | c :: rest => if c.toNat < 32 then none else stringRest fuel (c :: read) rest

def numeralFront (cs : List Char) : Option (Decimal.Numeral × List Char) := do
  let (negative, rest) := match cs with
    | '-' :: rest => (true, rest)
    | _ => (false, cs)
  let whole := rest.takeWhile Char.isDigit
  let rest := rest.dropWhile Char.isDigit
  if whole.isEmpty || (whole.head? == some '0' && 1 < whole.length) then none
  else
    let (fraction, rest) ← match rest with
      | '.' :: more =>
        let digits := more.takeWhile Char.isDigit
        if digits.isEmpty then none else some (some digits, more.dropWhile Char.isDigit)
      | _ => some (none, rest)
    match rest with
    | c :: more =>
      if c == 'e' || c == 'E' then
        let (e, rest) ← Decimal.Numeral.exponentFront more
        return (⟨negative, whole, fraction, some e⟩, rest)
      else return (⟨negative, whole, fraction, none⟩, rest)
    | [] => return (⟨negative, whole, fraction, none⟩, [])

def isNumeral (c : Char) : Bool := c.isDigit || c == '-' || c == '+' || c == '.' || c == 'e' || c == 'E'

def numberFront (cs : List Char) : Option (Json × List Char) :=
  let spelling := cs.takeWhile isNumeral
  match numeralFront spelling with
  | some (n, []) =>
    if n.scaled.isSome then some (number (String.ofList spelling), cs.dropWhile isNumeral) else none
  | _ => none

def wordFront (word : String) (cs : List Char) : Option (List Char) :=
  if word.toList.isPrefixOf cs then some (cs.drop word.length) else none

mutual

def valueFront : Nat → List Char → Option (Json × List Char)
  | 0, _ => none
  | fuel + 1, cs =>
    match cs with
    | 'n' :: _ => (wordFront "null" cs).map (null, ·)
    | 't' :: _ => (wordFront "true" cs).map (bool true, ·)
    | 'f' :: _ => (wordFront "false" cs).map (bool false, ·)
    | '"' :: rest => (stringRest fuel [] rest).map fun r => (string r.1, r.2)
    | '[' :: rest =>
      match dropSpace rest with
      | ']' :: rest => some (array [], rest)
      | cs => (itemsFront fuel cs).map fun r => (array r.1, r.2)
    | '\x7b' :: rest =>
      match dropSpace rest with
      | '\x7d' :: rest => some (object [], rest)
      | cs => (fieldsFront fuel cs).map fun r => (object r.1, r.2)
    | _ => numberFront cs

def itemsFront : Nat → List Char → Option (List Json × List Char)
  | 0, _ => none
  | fuel + 1, cs =>
    match valueFront fuel cs with
    | none => none
    | some (j, rest) =>
      match dropSpace rest with
      | ',' :: rest => (itemsFront fuel (dropSpace rest)).map fun r => (j :: r.1, r.2)
      | ']' :: rest => some ([j], rest)
      | _ => none

def fieldsFront : Nat → List Char → Option (List (String × Json) × List Char)
  | 0, _ => none
  | fuel + 1, cs =>
    match cs with
    | '"' :: rest =>
      match stringRest fuel [] rest with
      | none => none
      | some (key, rest) =>
        match dropSpace rest with
        | ':' :: rest =>
          match valueFront fuel (dropSpace rest) with
          | none => none
          | some (j, rest) =>
            match dropSpace rest with
            | ',' :: rest => (fieldsFront fuel (dropSpace rest)).map fun r => ((key, j) :: r.1, r.2)
            | '\x7d' :: rest => some ([(key, j)], rest)
            | _ => none
        | _ => none
    | _ => none

end

/-- **Read a document.**  A step of the reader takes at least half a character. -/
def read (text : String) : Option Json :=
  let cs := dropSpace text.toList
  match valueFront (2 * cs.length + 2) cs with
  | some (j, rest) => if (dropSpace rest).isEmpty then some j else none
  | none => none

def numeral? : Json → Option Decimal.Numeral
  | number spelling => (numeralFront spelling.toList).map (·.1)
  | _ => none

def float? (j : Json) : Option Float := j.numeral?.bind Decimal.Numeral.scaled

/-- **The natural number** that a number without sign, point and exponent spells, below 2^64. -/
def nat? (j : Json) : Option Nat :=
  match j.numeral? with
  | some n =>
    let value := Decimal.digitsValue n.whole
    if n.isInteger && !n.negative && decide (value < Word.bound) then some value else none
  | none => none

end Json

end ProofWalk
