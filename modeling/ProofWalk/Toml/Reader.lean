import ProofWalk.Toml.Number
import ProofWalk.Toml.Quoted
import ProofWalk.Toml.Table
/-!
# Toml.Reader — reading TOML documents

A document is a sequence of lines: assignments, headers and comments.  A value may run over several lines inside
brackets or triple quotes.  Brackets and braces are nested at most 79 deep, and a dotted key has at most 79 parts.

A key is a path of parts, with blanks around the dots if one likes, of which the last is assigned to below the
others.  A list may end in a comma, a table in braces may not.  The lines of a document are added to what has been
read so far, below the table of the last header.  A byte order mark may come first.
-/
namespace ProofWalk

namespace Toml

def maxNesting : Nat := 79

def dropBlanks (cs : List Char) : List Char := cs.dropWhile isBlank

def dropGap : Bool → List Char → List Char
  | _, [] => []
  | _, '\n' :: rest => dropGap false rest
  | _, '\r' :: '\n' :: rest => dropGap false rest
  | true, c :: rest => if isPlain c then dropGap true rest else c :: rest
  | false, c :: rest => if isBlank c then dropGap false rest else if c == '#' then dropGap true rest else c :: rest

def lineEnd (cs : List Char) : Option (List Char) :=
  let cs := match dropBlanks cs with
    | '#' :: rest => rest.dropWhile isPlain
    | cs => cs
  if cs.isEmpty then some [] else newlineFront cs

def isBare (c : Char) : Bool := c.isAlphanum || c == '_' || c == '-'

def simpleKeyFront : List Char → Option (String × List Char)
  | '"' :: rest => basicFront rest
  | '\'' :: rest => literalFront rest
  | cs =>
    let bare := cs.takeWhile isBare
    if bare.isEmpty then none else some (String.ofList bare, cs.drop bare.length)

def partsFront : Nat → List Char → Option (List String × List Char)
  | 0, _ => none
  | fuel + 1, cs => do
    let (part, rest) ← simpleKeyFront (dropBlanks cs)
    match dropBlanks rest with
    | '.' :: rest =>
      let (parts, rest) ← partsFront fuel rest
      return (part :: parts, rest)
    | rest => return ([part], rest)

/-- **A key** at the front of a text: the path before its last part, and the last part. -/
def keyFront (cs : List Char) : Option (List String × String × List Char) := do
  let (parts, rest) ← partsFront maxNesting cs
  return (parts.dropLast, ← parts.getLast?, rest)

mutual

/-- **A value** at the front of a text, within brackets and braces that are nested so many deep. -/
def valueFront : Nat → Nat → List Char → Option (Setting × List Char)
  | 0, _, _ => none
  | fuel + 1, depth, cs =>
    match cs with
    | '[' :: rest =>
      if maxNesting ≤ depth then none else (itemsFront fuel (depth + 1) rest).map fun r => (.list r.1, r.2)
    | '\x7b' :: rest =>
      if maxNesting ≤ depth then none
      else
        match dropBlanks rest with
        | '\x7d' :: rest => some (.record [], rest)
        | rest => (fieldsFront fuel (depth + 1) [] rest).map fun r => (.record (settings r.1), r.2)
    | '"' :: _ => (textFront cs).map fun r => (.text r.1, r.2)
    | '\'' :: _ => (textFront cs).map fun r => (.text r.1, r.2)
    | 't' :: _ => (Json.wordFront "true" cs).map (.bool true, ·)
    | 'f' :: _ => (Json.wordFront "false" cs).map (.bool false, ·)
    | _ =>
      match dateFront cs with
      | some rest => some (.date, rest)
      | none => numberFront cs

def itemsFront : Nat → Nat → List Char → Option (List Setting × List Char)
  | 0, _, _ => none
  | fuel + 1, depth, cs =>
    match dropGap false cs with
    | ']' :: rest => some ([], rest)
    | cs =>
      match valueFront fuel depth cs with
      | none => none
      | some (v, rest) =>
        match dropGap false rest with
        | ',' :: rest => (itemsFront fuel depth rest).map fun r => (v :: r.1, r.2)
        | ']' :: rest => some ([v], rest)
        | _ => none

def fieldsFront : Nat → Nat → Fields → List Char → Option (Fields × List Char)
  | 0, _, _, _ => none
  | fuel + 1, depth, fields, cs =>
    match keyFront cs with
    | some (path, key, '=' :: rest) =>
      match valueFront fuel depth (dropBlanks rest) with
      | none => none
      | some (v, rest) =>
        match assign path key v .stated fields with
        | none => none
        | some (_, fields) =>
          match dropBlanks rest with
          | ',' :: rest => fieldsFront fuel depth fields rest
          | '\x7d' :: rest => some (fields, rest)
          | _ => none
    | _ => none

end

def headerFront (close : String) (cs : List Char) : Option (List String × String × List Char) := do
  let (path, key, rest) ← keyFront cs
  return (path, key, ← lineEnd (← Json.wordFront close rest))

/-- **The lines of a document**, added to what has been read, below the table of the last header. -/
def lines : Nat → List String → Fields → List Char → Option Fields
  | 0, _, _, _ => none
  | fuel + 1, here, root, cs =>
    match dropBlanks cs with
    | [] => some root
    | '#' :: rest => (lineEnd ('#' :: rest)).bind (lines fuel here root)
    | '\n' :: rest => lines fuel here root rest
    | '\r' :: '\n' :: rest => lines fuel here root rest
    | '[' :: '[' :: rest => do
      let (path, key, rest) ← headerFront "]]" rest
      let (_, root) ← openItem path key .stated root
      lines fuel (path ++ [key]) root rest
    | '[' :: rest => do
      let (path, key, rest) ← headerFront "]" rest
      let (_, root) ← openTable path key .stated root
      lines fuel (path ++ [key]) root rest
    | cs => do
      let (path, key, rest) ← keyFront cs
      let (v, rest) ← valueFront (2 * fuel + 2) 0 (dropBlanks (← charFront '=' rest))
      let rest ← lineEnd rest
      let (_, root) ← change false (assign path key v) here .stated root
      lines fuel here root rest

/-- **Read a document**, which may begin with a byte order mark. -/
def read (text : String) : Option (List (String × Setting)) :=
  let cs := match text.toList with
    | '\uFEFF' :: rest => rest
    | cs => cs
  (lines (cs.length + 1) [] [] cs).map settings

end Toml

end ProofWalk
