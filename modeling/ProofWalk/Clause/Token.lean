import ProofWalk.Text.Alphanumeric
import ProofWalk.Text.Blank
/-!
# Clause.Token — the tokens of rules and queries

White space and comments (from `%` or `#` to the end of the line) separate tokens.  A name is a run of letters,
digits, underscores and hyphens, in which a period may stand if a name character follows it; so the period that ends
a clause is not part of the name before it.  A quoted atom runs to the very next quote.

A place in a source counts lines and columns from 1, columns in characters (`Position`), and every token comes with
the place of its first character (`Located`).  What cannot be read is reported with the place at which reading
stopped: a `SyntaxFault` says what was expected, a `ReadError` where.

The scanner is a function from text to text.  `front` splits off one token from a text that starts with no blank and
no comment, `spanName` the longest name; that they give back all characters (`front_append`, `spanName_append`) is
also why `scanFrom` ends.
-/
namespace ProofWalk

inductive Token
  | name (text : String)
  /-- A quoted atom, without its quotes. -/
  | quoted (text : String)
  | leftParen
  | rightParen
  | leftBrace
  | rightBrace
  | comma
  | neck
  | period
deriving DecidableEq, Inhabited, Repr

def Token.chars : Token → List Char
  | name s => s.toList
  | quoted s => '\'' :: s.toList ++ ['\'']
  | leftParen => ['(']
  | rightParen => [')']
  | leftBrace => ['\x7b']
  | rightBrace => ['\x7d']
  | comma => [',']
  | neck => [':', '-']
  | period => ['.']

structure Position where
  line : Nat
  column : Nat
deriving DecidableEq, Inhabited, Repr

namespace Position

def start : Position := ⟨1, 1⟩

def next (p : Position) (c : Char) : Position := if c = '\n' then ⟨p.line + 1, 1⟩ else ⟨p.line, p.column + 1⟩

def after (p : Position) (cs : List Char) : Position := cs.foldl next p

@[simp] theorem after_nil (p : Position) : p.after [] = p := rfl

@[simp] theorem after_cons (p : Position) (c : Char) (cs : List Char) :
    p.after (c :: cs) = (p.next c).after cs := rfl

theorem after_append (p : Position) (as bs : List Char) : p.after (as ++ bs) = (p.after as).after bs := by
  simp [after, List.foldl_append]

end Position

structure Located where
  token : Token
  position : Position
deriving DecidableEq, Inhabited, Repr

inductive SyntaxFault
  | unterminatedQuote
  /-- A character that starts no token. -/
  | unexpectedCharacter (c : Char)
  | expectedGoal
  | expectedArgument
  /-- An argument followed by neither a comma nor a closing parenthesis. -/
  | expectedCommaOrParen
  /-- A list of goals followed by a token that cannot end it. -/
  | unexpectedAfterGoal
  | expectedPeriod
  /-- Tokens after what should be the whole text; `what` names it. -/
  | trailing (what : String)
deriving DecidableEq, Inhabited, Repr

def SyntaxFault.message : SyntaxFault → String
  | unterminatedQuote => "unterminated quoted atom"
  | unexpectedCharacter c => "unexpected character '" ++ String.singleton c ++ "'"
  | expectedGoal => "expected a goal"
  | expectedArgument => "expected an argument"
  | expectedCommaOrParen => "expected ',' or ')'"
  | unexpectedAfterGoal => "unexpected token after goal"
  | expectedPeriod => "expected '.' at end of clause"
  | trailing what => "trailing input after " ++ what

inductive ReadError
  /-- The text breaks the grammar at a place. -/
  | malformed (position : Position) (fault : SyntaxFault)
  | emptyQuery
deriving DecidableEq, Inhabited, Repr

namespace ReadError

def message : ReadError → String
  | malformed p fault => s!"syntax error at line {p.line}, column {p.column}: " ++ fault.message
  | emptyQuery => "empty query"

def code : ReadError → String
  | malformed .. => "proppr::parse::syntax"
  | emptyQuery => "proppr::parse::empty_query"

def help : ReadError → String
  | malformed .. =>
    "Rules look like `head(X) :- body(X,Y), other(Y) \x7bfeature(X)\x7d.` and end with a period."
  | emptyQuery => "A query needs at least one goal, e.g. `main(X)`."

end ReadError

namespace Token

def isNameChar (c : Char) : Bool := Text.isAlphanumeric c || c == '_' || c == '-'

def nameFollows : List Char → Bool
  | [] => false
  | c :: _ => isNameChar c

def spanName : List Char → List Char × List Char
  | [] => ([], [])
  | c :: rest =>
    if isNameChar c || (c == '.' && nameFollows rest) then
      let (word, after) := spanName rest
      (c :: word, after)
    else ([], c :: rest)

theorem spanName_append : ∀ cs : List Char, (spanName cs).1 ++ (spanName cs).2 = cs
  | [] => rfl
  | c :: rest => by
    unfold spanName
    split
    · simp [spanName_append rest]
    · rfl

/-- **The token at the front of a text that starts with no blank and no comment**, and what follows it. -/
def front : List Char → Except SyntaxFault (Token × List Char)
  | [] => .error (.trailing "text")
  | '(' :: rest => .ok (leftParen, rest)
  | ')' :: rest => .ok (rightParen, rest)
  | '\x7b' :: rest => .ok (leftBrace, rest)
  | '\x7d' :: rest => .ok (rightBrace, rest)
  | ',' :: rest => .ok (comma, rest)
  | ':' :: '-' :: rest => .ok (neck, rest)
  | '\'' :: rest =>
    match rest.dropWhile (· != '\'') with
    | [] => .error .unterminatedQuote
    | _ :: after => .ok (quoted (String.ofList (rest.takeWhile (· != '\''))), after)
  | c :: rest =>
    if isNameChar c then .ok (name (String.ofList (spanName (c :: rest)).1), (spanName (c :: rest)).2)
    else if c = '.' then .ok (period, rest)
    else .error (.unexpectedCharacter c)

theorem front_append {cs : List Char} {t : Token} {after : List Char} (h : front cs = .ok (t, after)) :
    t.chars ++ after = cs := by
  unfold front at h
  split at h
  · cases h
  · cases h; rfl
  · cases h; rfl
  · cases h; rfl
  · cases h; rfl
  · cases h; rfl
  · cases h; rfl
  · rename_i rest
    split at h
    · cases h
    · rename_i q more hq
      cases h
      have hquote : q = '\'' := by
        have := List.head_dropWhile_not (· != '\'') (l := rest) (by simp [hq])
        simpa [hq] using this
      have := List.takeWhile_append_dropWhile (p := (· != '\'')) (l := rest)
      rw [hq, hquote] at this
      simp only [chars, String.toList_ofList, List.cons_append, List.append_assoc, List.nil_append]
      rw [this]
  · split at h
    · cases h
      simp only [chars, String.toList_ofList]
      exact spanName_append _
    · split at h
      · rename_i hc; cases h; simp [chars, hc]
      · cases h

theorem front_length {cs : List Char} {t : Token} {after : List Char} (h : front cs = .ok (t, after)) :
    after.length < cs.length := by
  have hlen := congrArg List.length (front_append h)
  rw [List.length_append] at hlen
  have hpos : 0 < t.chars.length := by
    unfold front at h
    split at h
    case h_9 =>
      split at h
      · rename_i hc
        cases h
        simp [chars, spanName, hc]
      · split at h <;> cases h
        simp [chars]
    case h_8 => split at h <;> cases h; simp [chars]
    all_goals cases h
    all_goals simp [chars]
  omega

def startsComment (c : Char) : Bool := c == '%' || c == '#'

def scanFrom (p : Position) (cs : List Char) : Except ReadError (List Located) :=
  match cs with
  | [] => .ok []
  | c :: rest =>
    if Text.isBlank c then scanFrom (p.next c) rest
    else if startsComment c then
      scanFrom (p.after (c :: rest.takeWhile (· != '\n'))) (rest.dropWhile (· != '\n'))
    else
      match _h : front (c :: rest) with
      | .error fault => .error (.malformed p fault)
      | .ok (t, after) => do
        let more ← scanFrom (p.after t.chars) after
        return ⟨t, p⟩ :: more
termination_by cs.length
decreasing_by
  · simp
  · have := (List.dropWhile_sublist (· != '\n') (l := rest)).length_le
    simp; omega
  · exact front_length ‹_›

/-- **The tokens of a source.** -/
def scan (source : String) : Except ReadError (List Located) := scanFrom .start source.toList

end Token

end ProofWalk
