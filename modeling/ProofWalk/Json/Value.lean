import ProofWalk.Decimal.Layout
import ProofWalk.Text.Join
/-!
# Json.Value — JSON documents and their text

A number is kept as it is spelled, so that a document distinguishes `1` from `1.0` and loses no digit; numbers of
the program are spelled with the fewest digits that read back, and with an exponent if they are very large or very
small.  Documents are written on one line or indented by two spaces; the characters that need escapes are quotes,
backslashes and controls.  Of the fields of an object with one name the last counts.
-/
namespace ProofWalk

inductive Json
  | null
  | bool (value : Bool)
  /-- A number, as it is spelled. -/
  | number (spelling : String)
  | string (value : String)
  | array (items : List Json)
  | object (fields : List (String × Json))
deriving Inhabited, Repr

namespace Json

def nat (n : Nat) : Json := number (toString n)

def numberText : Decimal.Layout where
  tie := .toEven
  pointZero := true
  plain := some (-5, 16)
  nan := "null"
  infinity := "null"
  negativeInfinity := "null"

def field? (key : String) : Json → Option Json
  | object fields => (fields.reverse.find? (·.1 == key)).map (·.2)
  | _ => none

def hexDigit (n : Nat) : Char := if n < 10 then Char.ofNat (48 + n) else Char.ofNat (87 + n)

def escape (c : Char) : List Char :=
  match c with
  | '"' => ['\\', '"']
  | '\\' => ['\\', '\\']
  | '\n' => ['\\', 'n']
  | '\r' => ['\\', 'r']
  | '\t' => ['\\', 't']
  | '\x08' => ['\\', 'b']
  | '\x0c' => ['\\', 'f']
  | c => if c.toNat < 32 then ['\\', 'u', '0', '0', hexDigit (c.toNat / 16), hexDigit (c.toNat % 16)] else [c]

def quote (s : String) : String := String.ofList ('"' :: s.toList.flatMap escape ++ ['"'])

mutual

/-- **The document on one line.** -/
def line : Json → String
  | null => "null"
  | bool b => if b then "true" else "false"
  | number spelling => spelling
  | string s => quote s
  | array items => "[" ++ Text.join "," (lineItems items) ++ "]"
  | object fields => "\x7b" ++ Text.join "," (lineFields fields) ++ "\x7d"

def lineItems : List Json → List String
  | [] => []
  | j :: rest => j.line :: lineItems rest

def lineFields : List (String × Json) → List String
  | [] => []
  | (key, j) :: rest => (quote key ++ ":" ++ j.line) :: lineFields rest

end

def block (indent : String) (left right : String) (lines : List String) : String :=
  if lines.isEmpty then left ++ right
  else left ++ "\n" ++ Text.join ",\n" (lines.map (indent ++ "  " ++ ·)) ++ "\n" ++ indent ++ right

mutual

def indented (indent : String) : Json → String
  | null => "null"
  | bool b => if b then "true" else "false"
  | number spelling => spelling
  | string s => quote s
  | array items => block indent "[" "]" (indentedItems (indent ++ "  ") items)
  | object fields => block indent "\x7b" "\x7d" (indentedFields (indent ++ "  ") fields)

def indentedItems (indent : String) : List Json → List String
  | [] => []
  | j :: rest => j.indented indent :: indentedItems indent rest

def indentedFields (indent : String) : List (String × Json) → List String
  | [] => []
  | (key, j) :: rest => (quote key ++ ": " ++ j.indented indent) :: indentedFields indent rest

end

/-- **The document indented by two spaces a level.** -/
def pretty (j : Json) : String := j.indented ""

end Json

end ProofWalk
