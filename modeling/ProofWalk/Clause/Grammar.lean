import ProofWalk.Clause.Rule
import ProofWalk.Clause.Token
/-!
# Clause.Grammar — reading rules, queries and goals

The grammar, over tokens:

    program ::= rule*
    rule    ::= goal [':-' [goals]] ['{' [goals] '}'] '.'
    goals   ::= goal (',' goal)*
    goal    ::= functor ['(' argument (',' argument)* ')']

A functor is a quoted atom or a name that is no variable name; an argument is a name or a quoted atom, and a quoted
atom is always a constant.  Each reader returns what it read and the tokens after it (`Parsed`), or the fault and
the tokens at which it arose (`Failure`); the fault is then placed at the first of these, or at the last token of
the text if none is left (`place`).

There is one reader for each phrase of the grammar, and none of them goes back.  `skip` passes over an optional
token and tells whether it stood there.  `goalsUntil` reads goals up to one of some closing tokens, since a list of
goals is empty just if one of these comes first; `body` and `features` are such lists.  Readers call each other on
what is left of the tokens, and the lemmas on lengths say that this is less each time.

The four functions at the end read a whole source: a program, one rule, one goal, or one query, after which one
period may stand.  They use up all tokens.
-/
namespace ProofWalk

namespace Grammar

/-! ## What readers return

A reader takes tokens off the front.  It returns a value with the tokens that are left, or a fault with the tokens
at which it has stopped. -/

abbrev Failure := SyntaxFault × List Located

abbrev Parsed (α : Type) := Except Failure (α × List Located)

def argument? : Token → Option Argument
  | .name n => some (.ofName n)
  | .quoted n => some (.const n)
  | _ => none

def functor? : Token → Option String
  | .name n => if isVariableName n then none else some n
  | .quoted n => some n
  | _ => none

def next (t : Token) : List Located → Bool
  | [] => false
  | u :: _ => u.token == t

/-- The tokens after an optional token, and whether it stood there. -/
def skip (t : Token) (ts : List Located) : Bool × List Located :=
  if next t ts then (true, ts.tail) else (false, ts)

/-! ## Phrases

One reader for each kind of phrase. -/

def arguments : List Located → Parsed (List Argument)
  | [] => .error (.expectedArgument, [])
  | t :: rest =>
    match argument? t.token with
    | none => .error (.expectedArgument, t :: rest)
    | some a =>
      match rest with
      | [] => .error (.expectedCommaOrParen, [])
      | s :: more =>
        if s.token = .rightParen then .ok ([a], more)
        else if s.token = .comma then
          match arguments more with
          | .ok (as, left) => .ok (a :: as, left)
          | .error e => .error e
        else .error (.expectedCommaOrParen, s :: more)

def goal : List Located → Parsed Goal
  | [] => .error (.expectedGoal, [])
  | t :: rest =>
    match functor? t.token with
    | none => .error (.expectedGoal, t :: rest)
    | some f =>
      if next .leftParen rest then
        match arguments rest.tail with
        | .ok (as, left) => .ok (⟨f, as⟩, left)
        | .error e => .error e
      else .ok (⟨f, []⟩, rest)

theorem arguments_length : ∀ {ts : List Located} {as : List Argument} {left : List Located},
    arguments ts = .ok (as, left) → left.length < ts.length
  | [], _, _, h => by simp [arguments] at h
  | [t], _, _, h => by
    rw [arguments] at h
    split at h <;> cases h
  | t :: s :: more, as, left, h => by
    rw [arguments] at h
    split at h
    · cases h
    · dsimp only at h
      split at h
      · cases h; simp only [List.length_cons]; omega
      · split at h
        · split at h
          · rename_i hm
            cases h
            have := arguments_length hm
            simp; omega
          · cases h
        · cases h

theorem goal_length {ts : List Located} {g : Goal} {left : List Located} (h : goal ts = .ok (g, left)) :
    left.length < ts.length := by
  unfold goal at h
  split at h
  · cases h
  · split at h
    · cases h
    · split at h
      · split at h
        · rename_i ha
          cases h
          have := arguments_length ha
          simp only [List.length_tail] at this
          simp only [List.length_cons]; omega
        · cases h
      · cases h; simp

def goals (ts : List Located) : Parsed (List Goal) :=
  match _h : goal ts with
  | .error e => .error e
  | .ok (g, left) =>
    if next .comma left then
      match goals left.tail with
      | .ok (gs, left) => .ok (g :: gs, left)
      | .error e => .error e
    else .ok ([g], left)
termination_by ts.length
decreasing_by
  have := goal_length ‹_›
  simp only [List.length_tail]; omega

def goalsUntil (stops : List Token) (ts : List Located) : Except Failure (List Goal × List Located) := do
  let (gs, left) ← goals ts
  match left with
  | t :: _ => if t.token ∈ stops then return (gs, left) else .error (.unexpectedAfterGoal, left)
  | [] => .error (.unexpectedAfterGoal, left)

def body (ts : List Located) : Parsed (List Goal) :=
  let (neck, ts) := skip .neck ts
  if neck && !next .leftBrace ts && !next .period ts then goalsUntil [.leftBrace, .period] ts else .ok ([], ts)

def features (ts : List Located) : Except Failure (List Goal × List Located) :=
  let (opened, ts) := skip .leftBrace ts
  if opened then
    if next .rightBrace ts then .ok ([], ts.tail)
    else do
      let (fs, left) ← goalsUntil [.rightBrace] ts
      return (fs, left.tail)
  else .ok ([], ts)

def rule (ts : List Located) : Except Failure (Rule × List Located) := do
  let (head, left) ← goal ts
  let (body, left) ← body left
  let (features, left) ← features left
  if next .period left then return (⟨head, body, features⟩, left.tail) else .error (.expectedPeriod, left)

theorem goals_length {ts : List Located} {gs : List Goal} {left : List Located} (h : goals ts = .ok (gs, left)) :
    left.length < ts.length := by
  induction hn : ts.length using Nat.strongRecOn generalizing ts gs left with
  | _ n ih =>
    unfold goals at h
    split at h
    · cases h
    · rename_i g rest hg
      have hlt := goal_length hg
      split at h
      · split at h
        · rename_i hm
          cases h
          have := ih rest.tail.length (by simp only [List.length_tail]; omega) hm rfl
          simp only [List.length_tail] at this; omega
        · cases h
      · cases h; omega

theorem goalsUntil_length {stops : List Token} {ts : List Located} {gs : List Goal} {left : List Located}
    (h : goalsUntil stops ts = .ok (gs, left)) : left.length < ts.length := by
  simp only [goalsUntil, bind, Except.bind] at h
  split at h
  · cases h
  · rename_i hg
    have := goals_length hg
    split at h
    · split at h
      · cases h; assumption
      · cases h
    · cases h

theorem skip_length (t : Token) (ts : List Located) : (skip t ts).2.length ≤ ts.length := by
  unfold skip; split <;> simp

theorem body_length {ts : List Located} {gs : List Goal} {left : List Located} (h : body ts = .ok (gs, left)) :
    left.length ≤ ts.length := by
  have hs := skip_length .neck ts
  unfold body at h
  simp only at h
  split at h
  · have := goalsUntil_length h; omega
  · cases h; exact hs

theorem features_length {ts : List Located} {gs : List Goal} {left : List Located}
    (h : features ts = .ok (gs, left)) : left.length ≤ ts.length := by
  have hs := skip_length .leftBrace ts
  unfold features at h
  simp only at h
  split at h
  · split at h
    · cases h; simp only [List.length_tail]; omega
    · simp only [bind, Except.bind] at h
      split at h
      · cases h
      · rename_i hg
        have := goalsUntil_length hg
        cases h; simp only [List.length_tail]; omega
  · cases h; exact hs

theorem rule_length {ts : List Located} {r : Rule} {left : List Located} (h : rule ts = .ok (r, left)) :
    left.length < ts.length := by
  simp only [rule, bind, Except.bind] at h
  split at h
  · cases h
  · rename_i hg
    have h1 := goal_length hg
    split at h
    · cases h
    · rename_i hb
      have h2 := body_length hb
      split at h
      · cases h
      · rename_i hf
        have h3 := features_length hf
        split at h
        · cases h; simp only [List.length_tail]; omega
        · cases h

def program (ts : List Located) : Except Failure (List Rule) :=
  match ts with
  | [] => .ok []
  | t :: rest =>
    match _h : rule (t :: rest) with
    | .error e => .error e
    | .ok (r, left) => do
      let rules ← program left
      return r :: rules
termination_by ts.length
decreasing_by exact rule_length ‹_›

def query (ts : List Located) : Except Failure (Query × List Located) := do
  let (gs, left) ← goals ts
  return (⟨gs⟩, (skip .period left).2)

/-! ## Whole sources

A source is scanned as a whole before anything is read. -/

def whole {α : Type} (what : String) (reader : List Located → Parsed α) (ts : List Located) :
    Except Failure α := do
  let (a, left) ← reader ts
  if left.isEmpty then return a else .error (.trailing what, left)

/-- **The place of a fault**: the first token that is left, else the last token, else the start of the text. -/
def place (ts : List Located) (left : List Located) : Position :=
  match left.head? <|> ts.getLast? with
  | some t => t.position
  | none => .start

def read {α : Type} (reader : List Located → Except Failure α) (source : String) :
    Except ReadError α := do
  let ts ← Token.scan source
  match reader ts with
  | .ok a => return a
  | .error (fault, left) => .error (.malformed (place ts left) fault)

end Grammar

/-- **Read a program**: a sequence of rules. -/
def Rule.readAll (source : String) : Except ReadError (List Rule) := Grammar.read Grammar.program source

def Rule.read (source : String) : Except ReadError Rule :=
  Grammar.read (Grammar.whole "clause" Grammar.rule) source

def Goal.read (source : String) : Except ReadError Goal := Grammar.read (Grammar.whole "goal" Grammar.goal) source

/-- **Read a query**: goals separated by commas, with an optional final period. -/
def Query.read (source : String) : Except ReadError Query := do
  let ts ← Token.scan source
  if ts.isEmpty then .error .emptyQuery
  else Grammar.read (Grammar.whole "query" Grammar.query) source

end ProofWalk
