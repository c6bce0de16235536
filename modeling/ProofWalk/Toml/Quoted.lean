import ProofWalk.Json.Reader
/-!
# Toml.Quoted — quoted texts in TOML documents

A text stands between quotation marks, where backslashes begin escapes, or between apostrophes, where they do not.
Three marks open a text of several lines.  A text is written in the first of these four ways that takes no escapes,
or else in quotation marks.

In a text of several lines, a line break right after the opening marks is not part of it, every line break reads as
a line feed, and a backslash at the end of a line leaves out everything up to the next character.  Up to two marks
in a row belong to the text, also right before the three that close it.  All characters may stand unescaped but
controls, a tab excepted.  `escapeAll` and `longestRow` count marks in a row, since three of them would close the
text.
-/
namespace ProofWalk

namespace Toml

def isBlank (c : Char) : Bool := c == ' ' || c == '\t'

def isPlain (c : Char) : Bool := c == '\t' || (decide (' ' ≤ c) && c != '\x7f')

def newlineFront : List Char → Option (List Char)
  | '\n' :: rest => some rest
  | '\r' :: '\n' :: rest => some rest
  | _ => none

def codeFront (count : Nat) (cs : List Char) : Option (Char × List Char) := do
  let digits ← (cs.take count).mapM Json.hexValue?
  let code := digits.foldl (fun n d => 16 * n + d) 0
  if digits.length = count ∧ code.isValidChar then some (Char.ofNat code, cs.drop count) else none

def escapeFront : List Char → Option (Char × List Char)
  | [] => none
  | c :: rest =>
    match c with
    | 'b' => some ('\x08', rest)
    | 't' => some ('\t', rest)
    | 'n' => some ('\n', rest)
    | 'f' => some ('\x0c', rest)
    | 'r' => some ('\r', rest)
    | '"' => some ('"', rest)
    | '\\' => some ('\\', rest)
    | 'u' => codeFront 4 rest
    | 'U' => codeFront 8 rest
    | _ => none

def basicRest : Nat → List Char → List Char → Option (String × List Char)
  | 0, _, _ => none
  | fuel + 1, read, cs =>
    match cs with
    | [] => none
    | '"' :: rest => some (String.ofList read.reverse, rest)
    | '\\' :: rest => (escapeFront rest).bind fun e => basicRest fuel (e.1 :: read) e.2
    | c :: rest => if isPlain c then basicRest fuel (c :: read) rest else none

def basicFront (cs : List Char) : Option (String × List Char) := basicRest (cs.length + 1) [] cs

def literalFront (cs : List Char) : Option (String × List Char) :=
  let body := cs.takeWhile fun c => c != '\'' && isPlain c
  match cs.drop body.length with
  | '\'' :: rest => some (String.ofList body, rest)
  | _ => none

def dropLines : List Char → List Char
  | [] => []
  | '\r' :: '\n' :: rest => dropLines rest
  | c :: rest => if isBlank c || c == '\n' then dropLines rest else c :: rest

def continuation (cs : List Char) : Option (List Char) := (newlineFront (cs.dropWhile isBlank)).map dropLines

/-- The rest of a text of several lines, after `read` (in reverse).  Up to two marks in a row belong to the text, also
right before the three that close it; every line break reads as a line feed. -/
def blockRest (mark : Char) : Nat → List Char → List Char → Option (String × List Char)
  | 0, _, _ => none
  | fuel + 1, read, cs =>
    let marks := min 5 (cs.takeWhile (· == mark)).length
    if 3 ≤ marks then some (String.ofList (read.reverse ++ List.replicate (marks - 3) mark), cs.drop marks)
    else
      match cs with
      | [] => none
      | c :: rest =>
        if c == '\\' && mark == '"' then
          match continuation rest with
          | some rest => blockRest mark fuel read rest
          | none => (escapeFront rest).bind fun e => blockRest mark fuel (e.1 :: read) e.2
        else if isPlain c then blockRest mark fuel (c :: read) rest
        else (newlineFront cs).bind fun rest => blockRest mark fuel ('\n' :: read) rest

def blockFront (mark : Char) (cs : List Char) : Option (String × List Char) :=
  let cs := (newlineFront cs).getD cs
  blockRest mark (cs.length + 1) [] cs

def textFront : List Char → Option (String × List Char)
  | '"' :: '"' :: '"' :: rest => blockFront '"' rest
  | '"' :: rest => basicFront rest
  | '\'' :: '\'' :: '\'' :: rest => blockFront '\'' rest
  | '\'' :: rest => literalFront rest
  | _ => none

/-! ## Writing -/

def escape (c : Char) : List Char :=
  match c with
  | '\x08' => ['\\', 'b']
  | '\t' => ['\\', 't']
  | '\n' => ['\\', 'n']
  | '\x0c' => ['\\', 'f']
  | '\r' => ['\\', 'r']
  | '\\' => ['\\', '\\']
  | c =>
    if isPlain c then [c]
    else ['\\', 'u', '0', '0', Char.ofNat (48 + c.toNat / 16), (Json.hexDigit (c.toNat % 16)).toUpper]

/-- **What stands between quotation marks** for a text, where `row` quotation marks precede it.  Over several lines,
line breaks stand as they are and so do two quotation marks in a row. -/
def escapeAll (lines : Bool) : Nat → List Char → List Char
  | _, [] => []
  | row, '"' :: rest =>
    if lines && decide (row < 2) then '"' :: escapeAll lines (row + 1) rest
      else '\\' :: '"' :: escapeAll lines 0 rest
  | _, c :: rest => (if lines && c == '\n' then [c] else escape c) ++ escapeAll lines 0 rest

def longestRow (mark : Char) : Nat → List Char → Nat
  | here, [] => here
  | here, c :: rest => if c == mark then longestRow mark (here + 1) rest else max here (longestRow mark 0 rest)

inductive Quotes
  | basic
  | literal
  | basicLines
  | literalLines
deriving DecidableEq, Inhabited, Repr

def isControl (c : Char) : Bool := !isPlain c && c != '\n'

/-- **The way to quote a text**: the first that takes no escapes, or else quotation marks. -/
def Quotes.of (cs : List Char) : Quotes :=
  let broken := cs.contains '\n'
  let controls := cs.any isControl
  let escapes := controls || cs.contains '\\'
  if !escapes && !broken && longestRow '"' 0 cs == 0 then basic
  else if !controls && !broken && longestRow '\'' 0 cs == 0 then literal
  else if !escapes && decide (longestRow '"' 0 cs ≤ 2) then basicLines
  else if !controls && decide (longestRow '\'' 0 cs ≤ 2) then literalLines
  else if broken then basicLines
  else basic

/-- **A text in quotes.**  A line break that follows three opening marks is not part of the text; it is written
where the text has line breaks of its own. -/
def quote (s : String) : String :=
  let cs := s.toList
  let opening := if cs.contains '\n' then "\n" else ""
  match Quotes.of cs with
  | .basic => "\"" ++ String.ofList (escapeAll false 0 cs) ++ "\""
  | .literal => "'" ++ s ++ "'"
  | .basicLines => "\"\"\"" ++ opening ++ String.ofList (escapeAll true 0 cs) ++ "\"\"\""
  | .literalLines => "'''" ++ opening ++ s ++ "'''"

end Toml

end ProofWalk
