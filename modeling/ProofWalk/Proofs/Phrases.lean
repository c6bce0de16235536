import ProofWalk.Clause.Grammar
/-!
# Proofs.Phrases — derivation trees of the grammar

A phrase is given by its derivation: a tree whose leaves, from left to right, are the tokens that it derives and
which says what it stands for.  No two trees derive the same tokens, because the token after a goal, or after a list
of goals, tells where it ends.  The readers follow the trees: on the tokens of a tree they return what it stands
for.

Trees are not what they stand for, since a phrase may be written in several ways.  A goal without arguments has no
parentheses, a rule may have an empty body after its neck or empty braces, and a query may end in a period; these
choices are in the tree, and the value forgets them.  `Phrase` gathers what a kind of phrase consists of, so that
statements about readers can be made for all kinds at once.
-/
namespace ProofWalk

namespace Grammar

def tokensOf (ts : List Located) : List Token := ts.map (·.token)

@[simp] theorem tokensOf_nil : tokensOf [] = [] := rfl

@[simp] theorem tokensOf_cons (t : Located) (ts : List Located) :
    tokensOf (t :: ts) = t.token :: tokensOf ts := rfl

@[simp] theorem tokensOf_append (ts us : List Located) :
    tokensOf (ts ++ us) = tokensOf ts ++ tokensOf us := List.map_append ..

theorem tokensOf_tail (ts : List Located) : tokensOf ts.tail = (tokensOf ts).tail := List.map_tail ..

theorem next_eq (t : Token) (ts : List Located) : next t ts = ((tokensOf ts).head? == some t) := by
  cases ts <;> rfl

def separated {τ : Type} (yield : τ → List Token) : List τ → List Token
  | [] => []
  | [x] => yield x
  | x :: y :: more => yield x ++ .comma :: separated yield (y :: more)

/-! ## Trees

A tree has a place for every choice that the grammar leaves.  Two functions read it: `tokens` gives what it derives,
and `value` forgets the choices. -/

/-- **A name or a quoted atom.** -/
inductive WordTree
  | name (text : String)
  | quoted (text : String)

namespace WordTree

def token : WordTree → Token
  | name n => .name n
  | quoted n => .quoted n

def text : WordTree → String
  | name n => n
  | quoted n => n

def argument : WordTree → Argument
  | name n => if isVariableName n then .var n else .const n
  | quoted n => .const n

def isFunctor : WordTree → Bool
  | name n => !isVariableName n
  | quoted _ => true

theorem token_injective {w v : WordTree} (h : w.token = v.token) : w = v := by
  cases w <;> cases v <;> cases h <;> rfl

@[simp] theorem argument?_token (w : WordTree) : argument? w.token = some w.argument := by cases w <;> rfl

theorem functor?_token {w : WordTree} (h : w.isFunctor = true) : functor? w.token = some w.text := by
  cases w with
  | name n => simp [token, functor?, text, show isVariableName n = false by simpa [isFunctor] using h]
  | quoted n => rfl

theorem of_argument? {t : Token} {a : Argument} (h : argument? t = some a) :
    ∃ w : WordTree, w.token = t ∧ w.argument = a := by
  cases t with
  | name n => exact ⟨.name n, rfl, Option.some.inj h⟩
  | quoted n => exact ⟨.quoted n, rfl, Option.some.inj h⟩
  | _ => cases h

theorem of_functor? {t : Token} {f : String} (h : functor? t = some f) :
    ∃ w : WordTree, w.isFunctor = true ∧ w.token = t ∧ w.text = f := by
  cases t with
  | name n =>
    simp only [functor?] at h
    split at h
    · cases h
    · rename_i hn
      exact ⟨.name n, by simpa [isFunctor] using hn, rfl, Option.some.inj h⟩
  | quoted n => exact ⟨.quoted n, rfl, rfl, Option.some.inj h⟩
  | _ => cases h

end WordTree

/-- **A goal**: a functor, after which arguments may stand in parentheses. -/
structure GoalTree where
  functor : WordTree
  isFunctor : functor.isFunctor = true
  args : List WordTree

namespace GoalTree

def argumentTokens : List WordTree → List Token
  | [] => []
  | args => .leftParen :: separated (fun w => [w.token]) args ++ [.rightParen]

def tokens (d : GoalTree) : List Token := d.functor.token :: argumentTokens d.args

def value (d : GoalTree) : Goal := ⟨d.functor.text, d.args.map WordTree.argument⟩

end GoalTree

/-- **A rule**: a head, a body, which may be empty even after the neck, features, which may be empty even in braces,
and the period. -/
structure RuleTree where
  head : GoalTree
  body : Option (List GoalTree)
  features : Option (List GoalTree)

namespace RuleTree

def bodyTokens : Option (List GoalTree) → List Token
  | none => []
  | some goals => .neck :: separated GoalTree.tokens goals

def featureTokens : Option (List GoalTree) → List Token
  | none => []
  | some goals => .leftBrace :: separated GoalTree.tokens goals ++ [.rightBrace]

def goalsOf (goals : Option (List GoalTree)) : List Goal := (goals.getD []).map GoalTree.value

def tokens (d : RuleTree) : List Token :=
  d.head.tokens ++ (bodyTokens d.body ++ (featureTokens d.features ++ [.period]))

def value (d : RuleTree) : Rule := ⟨d.head.value, goalsOf d.body, goalsOf d.features⟩

end RuleTree

/-- **A query**: goals, after which a period may stand. -/
structure QueryTree where
  goals : List GoalTree
  nonempty : goals ≠ []
  period : Bool

namespace QueryTree

def tokens (d : QueryTree) : List Token :=
  separated GoalTree.tokens d.goals ++ if d.period then [.period] else []

def value (d : QueryTree) : Query := ⟨d.goals.map GoalTree.value⟩

end QueryTree

/-- **A kind of phrase**: its derivation trees, the tokens that a tree derives and what it stands for. -/
structure Phrase (α : Type) where
  Tree : Type
  tokens : Tree → List Token
  value : Tree → α

namespace Phrase

def goal : Phrase Goal := ⟨GoalTree, GoalTree.tokens, GoalTree.value⟩

def rule : Phrase Rule := ⟨RuleTree, RuleTree.tokens, RuleTree.value⟩

def program : Phrase (List Rule) := ⟨List RuleTree, List.flatMap RuleTree.tokens, List.map RuleTree.value⟩

def query : Phrase Query := ⟨QueryTree, QueryTree.tokens, QueryTree.value⟩

end Phrase

/-! ## No two trees derive the same tokens

The lemmas say that a tree can be told from its tokens with others behind them, under a condition on the next token
where the phrase might go on: a goal without arguments ends where no parenthesis follows, and goals end where no
comma does. -/

theorem separated_cons {τ : Type} (yield : τ → List Token) (x : τ) {more : List τ} (h : more ≠ []) :
    separated yield (x :: more) = yield x ++ .comma :: separated yield more := by
  cases more with
  | nil => exact absurd rfl h
  | cons y more => rfl

theorem separated_unique {τ : Type} {yield : τ → List Token} {F : List Token → Prop}
    (hyield : ∀ {x y : τ} {ws vs : List Token}, F ws → F vs → yield x ++ ws = yield y ++ vs → x = y ∧ ws = vs)
    (hcomma : ∀ ws, F (.comma :: ws)) {ws vs : List Token} (hws : F ws) (hvs : F vs)
    (hends : ws.head? ≠ some .comma) (hends' : vs.head? ≠ some .comma) : ∀ {xs ys : List τ}, xs ≠ [] → ys ≠ [] →
    separated yield xs ++ ws = separated yield ys ++ vs → xs = ys ∧ ws = vs
  | [], _, h, _, _ => absurd rfl h
  | _, [], _, h, _ => absurd rfl h
  | [x], [y], _, _, h => by
    obtain ⟨rfl, rfl⟩ := hyield hws hvs h
    exact ⟨rfl, rfl⟩
  | [x], y :: y' :: ys, _, _, h => by
    obtain ⟨-, rfl⟩ := hyield hws (hcomma (separated yield (y' :: ys) ++ vs)) (by simpa [separated] using h)
    exact absurd rfl hends
  | x :: x' :: xs, [y], _, _, h => by
    obtain ⟨-, rfl⟩ := hyield (hcomma (separated yield (x' :: xs) ++ ws)) hvs (by simpa [separated] using h)
    exact absurd rfl hends'
  | x :: x' :: xs, y :: y' :: ys, _, _, h => by
    obtain ⟨rfl, hmore⟩ := hyield (hcomma (separated yield (x' :: xs) ++ ws))
      (hcomma (separated yield (y' :: ys) ++ vs)) (by simpa [separated] using h)
    obtain ⟨hrest, rfl⟩ := separated_unique hyield hcomma hws hvs hends hends' (List.cons_ne_nil x' xs)
      (List.cons_ne_nil y' ys) (List.cons.inj hmore).2
    exact ⟨by rw [hrest], rfl⟩

namespace WordTree

theorem token_ne (w : WordTree) {t : Token} (h : argument? t = none) : w.token ≠ t := by
  rintro rfl
  simp at h

end WordTree

namespace GoalTree

/-- A goal without arguments ends where no parenthesis follows. -/
def Ends (ws : List Token) : Prop := ws.head? ≠ some .leftParen

theorem ends_cons {t : Token} (h : t ≠ .leftParen) (ws : List Token) : Ends (t :: ws) := by simpa [Ends] using h

theorem argumentTokens_unique {ws vs : List Token} (hws : Ends ws) (hvs : Ends vs) : ∀ {xs ys : List WordTree},
    argumentTokens xs ++ ws = argumentTokens ys ++ vs → xs = ys ∧ ws = vs
  | [], [], h => ⟨rfl, h⟩
  | [], y :: ys, h => by
    rw [show ws = _ from h] at hws
    exact absurd rfl hws
  | x :: xs, [], h => by
    rw [show vs = _ from h.symm] at hvs
    exact absurd rfl hvs
  | x :: xs, y :: ys, h => by
    have hinner : separated (fun w : WordTree => [w.token]) (x :: xs) ++ (.rightParen :: ws) =
        separated (fun w : WordTree => [w.token]) (y :: ys) ++ (.rightParen :: vs) := by
      simpa [argumentTokens] using h
    obtain ⟨hargs, hrest⟩ := separated_unique (F := fun _ => True)
      (fun _ _ heq => ⟨WordTree.token_injective (List.cons.inj heq).1, (List.cons.inj heq).2⟩) (fun _ => trivial)
      trivial trivial (by simp) (by simp) (List.cons_ne_nil x xs) (List.cons_ne_nil y ys) hinner
    exact ⟨hargs, (List.cons.inj hrest).2⟩

theorem tokens_unique {d d' : GoalTree} {ws vs : List Token} (hws : Ends ws) (hvs : Ends vs)
    (h : d.tokens ++ ws = d'.tokens ++ vs) : d = d' ∧ ws = vs := by
  obtain ⟨f, hf, args⟩ := d
  obtain ⟨f', hf', args'⟩ := d'
  obtain ⟨hfunctor, hmore⟩ := List.cons.inj h
  obtain rfl := WordTree.token_injective hfunctor
  obtain ⟨rfl, rfl⟩ := argumentTokens_unique hws hvs hmore
  exact ⟨rfl, rfl⟩

theorem separated_head {goals : List GoalTree} (h : goals ≠ []) (ws : List Token) :
    ∃ w : WordTree, (separated tokens goals ++ ws).head? = some w.token := by
  cases goals with
  | nil => exact absurd rfl h
  | cons d more => cases more <;> exact ⟨d.functor, rfl⟩

theorem separated_tokens_unique {goals goals' : List GoalTree} {ws vs : List Token} (hws : Ends ws) (hvs : Ends vs)
    (hends : ws.head? ≠ some .comma) (hends' : vs.head? ≠ some .comma)
    (hhead : ∀ w : WordTree, ws.head? ≠ some w.token) (hhead' : ∀ w : WordTree, vs.head? ≠ some w.token)
    (h : separated tokens goals ++ ws = separated tokens goals' ++ vs) : goals = goals' ∧ ws = vs := by
  by_cases hnone : goals = [] <;> by_cases hnone' : goals' = []
  · subst hnone hnone'
    exact ⟨rfl, h⟩
  · subst hnone
    obtain ⟨w, hw⟩ := separated_head hnone' vs
    rw [← h] at hw
    exact absurd hw (hhead w)
  · subst hnone'
    obtain ⟨w, hw⟩ := separated_head hnone ws
    rw [h] at hw
    exact absurd hw (hhead' w)
  · exact separated_unique tokens_unique (fun ws => ends_cons (t := .comma) (by simp) ws) hws hvs
      hends hends' hnone hnone' h

end GoalTree

namespace RuleTree

def AfterBody (ws : List Token) : Prop := ws.head? = some .leftBrace ∨ ws.head? = some .period

theorem featureTokens_afterBody (features : Option (List GoalTree)) (ws : List Token) :
    AfterBody (featureTokens features ++ .period :: ws) := by
  cases features with
  | none => exact .inr rfl
  | some goals => exact .inl rfl

theorem AfterBody.head_ne {ws : List Token} (h : AfterBody ws) {t : Token} (hbrace : t ≠ .leftBrace)
    (hperiod : t ≠ .period) : ws.head? ≠ some t := by
  rintro ht
  rcases h with h | h
  · exact hbrace (Option.some.inj (ht.symm.trans h))
  · exact hperiod (Option.some.inj (ht.symm.trans h))

theorem AfterBody.head_ne_word {ws : List Token} (h : AfterBody ws) (w : WordTree) : ws.head? ≠ some w.token :=
  h.head_ne (w.token_ne rfl) (w.token_ne rfl)

theorem bodyTokens_ends (body : Option (List GoalTree)) {ws : List Token} (h : AfterBody ws) :
    GoalTree.Ends (bodyTokens body ++ ws) := by
  cases body with
  | none => exact h.head_ne nofun nofun
  | some goals => exact GoalTree.ends_cons (t := .neck) (by simp) _

theorem bodyTokens_unique {ws vs : List Token} (hws : AfterBody ws) (hvs : AfterBody vs) :
    ∀ {body body' : Option (List GoalTree)}, bodyTokens body ++ ws = bodyTokens body' ++ vs →
      body = body' ∧ ws = vs
  | none, none, h => ⟨rfl, h⟩
  | none, some _, h => by
    rw [show ws = _ from h] at hws
    exact absurd rfl (hws.head_ne (t := .neck) nofun nofun)
  | some _, none, h => by
    rw [show vs = _ from h.symm] at hvs
    exact absurd rfl (hvs.head_ne (t := .neck) nofun nofun)
  | some goals, some goals', h => by
    obtain ⟨rfl, hrest⟩ := GoalTree.separated_tokens_unique (hws.head_ne nofun nofun) (hvs.head_ne nofun nofun)
      (hws.head_ne nofun nofun) (hvs.head_ne nofun nofun) hws.head_ne_word hvs.head_ne_word (List.cons.inj h).2
    exact ⟨rfl, hrest⟩

theorem featureTokens_unique {ws vs : List Token} : ∀ {features features' : Option (List GoalTree)},
    featureTokens features ++ .period :: ws = featureTokens features' ++ .period :: vs →
      features = features' ∧ ws = vs
  | none, none, h => ⟨rfl, (List.cons.inj h).2⟩
  | none, some _, h => by cases (List.cons.inj h).1
  | some _, none, h => by cases (List.cons.inj h).1
  | some goals, some goals', h => by
    have hinner : separated GoalTree.tokens goals ++ (.rightBrace :: .period :: ws) =
        separated GoalTree.tokens goals' ++ (.rightBrace :: .period :: vs) := by
      simpa [featureTokens] using h
    have hword : ∀ (us : List Token) (w : WordTree), (Token.rightBrace :: us).head? ≠ some w.token :=
      fun us w hw => w.token_ne rfl (Option.some.inj hw).symm
    obtain ⟨rfl, hrest⟩ := GoalTree.separated_tokens_unique (GoalTree.ends_cons (t := .rightBrace) (by simp) _)
      (GoalTree.ends_cons (t := .rightBrace) (by simp) _)
      (by simp) (by simp) (hword _) (hword _) hinner
    exact ⟨rfl, by simpa using hrest⟩

/-- **The tokens of a rule tell where it ends and how it is derived.** -/
theorem tokens_unique {d d' : RuleTree} {ws vs : List Token} (h : d.tokens ++ ws = d'.tokens ++ vs) :
    d = d' ∧ ws = vs := by
  obtain ⟨head, body, features⟩ := d
  obtain ⟨head', body', features'⟩ := d'
  simp only [tokens, List.append_assoc, List.singleton_append] at h
  obtain ⟨rfl, hbody⟩ := GoalTree.tokens_unique (bodyTokens_ends body (featureTokens_afterBody features ws))
    (bodyTokens_ends body' (featureTokens_afterBody features' vs)) h
  obtain ⟨rfl, hfeatures⟩ :=
    bodyTokens_unique (featureTokens_afterBody features ws) (featureTokens_afterBody features' vs) hbody
  obtain ⟨rfl, rfl⟩ := featureTokens_unique hfeatures
  exact ⟨rfl, rfl⟩

theorem tokens_ne_nil (d : RuleTree) : d.tokens ≠ [] := by simp [tokens, GoalTree.tokens]

theorem flatMap_tokens_unique : ∀ {ds ds' : List RuleTree}, ds.flatMap tokens = ds'.flatMap tokens → ds = ds'
  | [], [], _ => rfl
  | [], d' :: _, h => absurd (List.append_eq_nil_iff.1 h.symm).1 d'.tokens_ne_nil
  | d :: _, [], h => absurd (List.append_eq_nil_iff.1 h).1 d.tokens_ne_nil
  | d :: ds, d' :: ds', h => by
    obtain ⟨rfl, hrest⟩ := tokens_unique (by simpa using h)
    rw [flatMap_tokens_unique hrest]

end RuleTree

theorem QueryTree.tokens_injective {d d' : QueryTree} (h : d.tokens = d'.tokens) : d = d' := by
  obtain ⟨goals, hgoals, period⟩ := d
  obtain ⟨goals', hgoals', period'⟩ := d'
  -- the optional period neither continues a goal nor the list
  have hends : ∀ b : Bool, ∀ t : Token, t ≠ .period → (if b then [Token.period] else []).head? ≠ some t := by
    rintro (_ | _) t ht
    · nofun
    · simpa using ht.symm
  obtain ⟨rfl, hperiod⟩ :=
    separated_unique GoalTree.tokens_unique (fun ws => GoalTree.ends_cons (t := .comma) (by simp) ws)
    (hends period .leftParen nofun) (hends period' .leftParen nofun) (hends period .comma nofun)
    (hends period' .comma nofun) hgoals hgoals' h
  cases period <;> cases period' <;> first | rfl | cases hperiod

/-! ## The readers follow the trees

Each reader is run on the tokens of a tree with any tokens behind them, again under a condition on the next one. -/

theorem tokensOf_eq_cons {t : Token} {ws : List Token} {ts : List Located} (h : tokensOf ts = t :: ws) :
    ∃ u rest, ts = u :: rest ∧ u.token = t ∧ tokensOf rest = ws := by
  cases ts with
  | nil => cases h
  | cons u rest => exact ⟨u, rest, rfl, (List.cons.inj h).1, (List.cons.inj h).2⟩

theorem next_of_head? {t : Token} {ts : List Located} (h : (tokensOf ts).head? = some t) : next t ts = true := by
  rw [next_eq, h, beq_self_eq_true]

theorem next_of_head?_ne {t : Token} {ts : List Located} (h : (tokensOf ts).head? ≠ some t) :
    next t ts = false := by
  rw [next_eq, beq_eq_false_iff_ne]
  exact h

theorem arguments_of_trees : ∀ {args : List WordTree} {ts : List Located} {ws : List Token}, args ≠ [] →
    tokensOf ts = separated (fun w => [w.token]) args ++ .rightParen :: ws →
    ∃ left, arguments ts = .ok (args.map WordTree.argument, left) ∧ tokensOf left = ws
  | [], _, _, hne, _ => absurd rfl hne
  | [w], ts, ws, _, h => by
    obtain ⟨t, rest, rfl, ht, hrest⟩ := tokensOf_eq_cons h
    obtain ⟨s, left, rfl, hs, hleft⟩ := tokensOf_eq_cons hrest
    exact ⟨left, by simp [arguments, ht, hs], hleft⟩
  | w :: w' :: more, ts, ws, _, h => by
    obtain ⟨t, rest, rfl, ht, hrest⟩ := tokensOf_eq_cons h
    obtain ⟨s, tail, rfl, hs, htail⟩ := tokensOf_eq_cons hrest
    obtain ⟨left, hread, hleft⟩ := arguments_of_trees (List.cons_ne_nil w' more) htail
    exact ⟨left, by rw [arguments]; simp [ht, hs, hread], hleft⟩

theorem goal_of_tree {d : GoalTree} {ts : List Located} {ws : List Token} (hws : GoalTree.Ends ws)
    (h : tokensOf ts = d.tokens ++ ws) : ∃ left, goal ts = .ok (d.value, left) ∧ tokensOf left = ws := by
  obtain ⟨f, hf, args⟩ := d
  obtain ⟨t, rest, rfl, ht, hrest⟩ := tokensOf_eq_cons h
  have hfunctor := ht ▸ WordTree.functor?_token hf
  cases args with
  | nil =>
    have hnext : next .leftParen rest = false := next_of_head?_ne (by rw [hrest]; exact hws)
    exact ⟨rest, by simp [goal, hfunctor, hnext, GoalTree.value], hrest⟩
  | cons w more =>
    obtain ⟨s, tail, rfl, hs, htail⟩ := tokensOf_eq_cons hrest
    obtain ⟨left, hread, hleft⟩ :=
      arguments_of_trees (List.cons_ne_nil w more) (htail.trans (List.append_assoc ..))
    exact ⟨left, by simp [goal, hfunctor, next, hs, hread, GoalTree.value], hleft⟩

theorem goals_eq (ts : List Located) : goals ts =
    match goal ts with
    | .error e => .error e
    | .ok (g, left) =>
      if next .comma left then
        match goals left.tail with
        | .ok (gs, left) => .ok (g :: gs, left)
        | .error e => .error e
      else .ok ([g], left) := by
  rw [goals]
  split
  · rename_i h
    simp only [h]
  · rename_i g left h
    cases hmore : goals left.tail <;> simp only [h, hmore]

theorem goals_of_trees : ∀ {ds : List GoalTree} {ts : List Located} {ws : List Token}, ds ≠ [] → GoalTree.Ends ws →
    ws.head? ≠ some .comma → tokensOf ts = separated GoalTree.tokens ds ++ ws →
    ∃ left, goals ts = .ok (ds.map GoalTree.value, left) ∧ tokensOf left = ws
  | [], _, _, hne, _, _, _ => absurd rfl hne
  | [d], ts, ws, _, hws, hcomma, h => by
    obtain ⟨left, hread, hleft⟩ := goal_of_tree hws h
    have hnext : next .comma left = false := next_of_head?_ne (by rw [hleft]; exact hcomma)
    exact ⟨left, by rw [goals_eq]; simp [hread, hnext], hleft⟩
  | d :: d' :: more, ts, ws, _, hws, hcomma, h => by
    obtain ⟨rest, hread, hrest⟩ := goal_of_tree (d := d)
      (GoalTree.ends_cons (t := .comma) (by simp) (separated GoalTree.tokens (d' :: more) ++ ws))
      (by simpa [separated] using h)
    obtain ⟨s, tail, rfl, hs, htail⟩ := tokensOf_eq_cons hrest
    obtain ⟨left, hmore, hleft⟩ := goals_of_trees (List.cons_ne_nil d' more) hws hcomma htail
    exact ⟨left, by rw [goals_eq]; simp [hread, next, hs, hmore], hleft⟩

theorem goalsUntil_of_trees {ds : List GoalTree} {ts : List Located} {stops ws : List Token}
    {t : Token} (hne : ds ≠ []) (hstop : t ∈ stops) (hparen : t ≠ .leftParen) (hcomma : t ≠ .comma)
    (h : tokensOf ts = separated GoalTree.tokens ds ++ t :: ws) :
    ∃ left, goalsUntil stops ts = .ok (ds.map GoalTree.value, left) ∧ tokensOf left = t :: ws := by
  obtain ⟨left, hread, hleft⟩ := goals_of_trees hne (GoalTree.ends_cons hparen ws) (by simpa using hcomma) h
  obtain ⟨s, rest, rfl, rfl, -⟩ := tokensOf_eq_cons hleft
  exact ⟨s :: rest, by simp [goalsUntil, hread, hstop, bind, Except.bind, pure, Except.pure], hleft⟩

theorem body_of_tree {b : Option (List GoalTree)} {ts : List Located} {ws : List Token}
    (hws : RuleTree.AfterBody ws) (h : tokensOf ts = RuleTree.bodyTokens b ++ ws) :
    ∃ left, body ts = .ok (RuleTree.goalsOf b, left) ∧ tokensOf left = ws := by
  cases b with
  | none =>
    have hneck : next .neck ts = false := next_of_head?_ne (by rw [h]; exact hws.head_ne (by simp) (by simp))
    exact ⟨ts, by simp [body, skip, hneck, RuleTree.goalsOf], h⟩
  | some ds =>
    obtain ⟨s, rest, rfl, hs, hrest⟩ := tokensOf_eq_cons h
    have hrest : tokensOf rest = separated GoalTree.tokens ds ++ ws := hrest
    have hneck : next .neck (s :: rest) = true := by simp [next, hs]
    by_cases hne : ds = []
    · subst hne
      have hends : (!next .leftBrace rest && !next .period rest) = false := by
        rcases hws with hws | hws
        · simp [next_of_head? (show (tokensOf rest).head? = _ by rw [hrest]; exact hws)]
        · simp [next_of_head? (show (tokensOf rest).head? = _ by rw [hrest]; exact hws)]
      refine ⟨rest, ?_, hrest⟩
      simp only [body, skip, hneck, if_true, List.tail_cons, Bool.true_and, hends,
        RuleTree.goalsOf, Option.getD_some, List.map_nil, Bool.false_eq_true, if_false]
    · obtain ⟨w, hw⟩ := GoalTree.separated_head hne ws
      have hbrace : next .leftBrace rest = false := next_of_head?_ne (by
        rw [hrest, hw]; exact fun heq => w.token_ne rfl (Option.some.inj heq))
      have hperiod : next .period rest = false := next_of_head?_ne (by
        rw [hrest, hw]; exact fun heq => w.token_ne rfl (Option.some.inj heq))
      obtain ⟨t, vs, rfl, hstop⟩ : ∃ t vs, ws = t :: vs ∧ t ∈ [Token.leftBrace, .period] := by
        rcases hws with hws | hws <;> cases ws <;> cases hws
        · exact ⟨_, _, rfl, by simp⟩
        · exact ⟨_, _, rfl, by simp⟩
      obtain ⟨left, hread, hleft⟩ := goalsUntil_of_trees hne hstop (by rintro rfl; simp at hstop)
        (by rintro rfl; simp at hstop) hrest
      exact ⟨left, by simp [body, skip, hneck, hbrace, hperiod, hread, RuleTree.goalsOf], hleft⟩

theorem features_of_tree {f : Option (List GoalTree)} {ts : List Located} {ws : List Token}
    (h : tokensOf ts = RuleTree.featureTokens f ++ .period :: ws) :
    ∃ left, features ts = .ok (RuleTree.goalsOf f, left) ∧ tokensOf left = .period :: ws := by
  cases f with
  | none =>
    have hbrace : next .leftBrace ts = false := next_of_head?_ne (by rw [h]; simp [RuleTree.featureTokens])
    exact ⟨ts, by simp [features, skip, hbrace, RuleTree.goalsOf], h⟩
  | some ds =>
    obtain ⟨s, rest, rfl, hs, hrest⟩ := tokensOf_eq_cons h
    have hopen : next .leftBrace (s :: rest) = true := by simp [next, hs]
    by_cases hne : ds = []
    · subst hne
      obtain ⟨c, left, rfl, hc, hleft⟩ := tokensOf_eq_cons hrest
      exact ⟨left, by simp [features, skip, next, hs, hc, RuleTree.goalsOf], hleft⟩
    · have hrest : tokensOf rest = separated GoalTree.tokens ds ++ .rightBrace :: .period :: ws := by
        simpa using hrest
      obtain ⟨w, hw⟩ := GoalTree.separated_head hne (.rightBrace :: .period :: ws)
      have hclose : next .rightBrace rest = false := next_of_head?_ne (by
        rw [hrest, hw]; exact fun heq => w.token_ne rfl (Option.some.inj heq))
      obtain ⟨left, hread, hleft⟩ := goalsUntil_of_trees hne (List.mem_singleton_self Token.rightBrace)
        (by simp) (by simp) hrest
      refine ⟨left.tail, ?_, by rw [tokensOf_tail, hleft]; rfl⟩
      simp [features, skip, hopen, hclose, hread, RuleTree.goalsOf, bind, Except.bind, pure, Except.pure]

/-- **A rule is read off the tokens of its tree**, whatever follows. -/
theorem rule_of_tree {d : RuleTree} {ts : List Located} {ws : List Token} (h : tokensOf ts = d.tokens ++ ws) :
    ∃ left, rule ts = .ok (d.value, left) ∧ tokensOf left = ws := by
  simp only [RuleTree.tokens, List.append_assoc, List.singleton_append] at h
  have hafter := RuleTree.featureTokens_afterBody d.features ws
  obtain ⟨rest₁, hhead, h₁⟩ := goal_of_tree (RuleTree.bodyTokens_ends d.body hafter) h
  obtain ⟨rest₂, hbody, h₂⟩ := body_of_tree hafter h₁
  obtain ⟨rest₃, hfeatures, h₃⟩ := features_of_tree h₂
  obtain ⟨s, left, rfl, hs, hleft⟩ := tokensOf_eq_cons h₃
  refine ⟨left, ?_, hleft⟩
  simp [rule, hhead, hbody, hfeatures, next, hs, RuleTree.value, bind, Except.bind, pure, Except.pure]

theorem program_cons (t : Located) (rest : List Located) : program (t :: rest) =
    match rule (t :: rest) with
    | .error e => .error e
    | .ok (r, left) => match program left with
      | .error e => .error e
      | .ok rs => .ok (r :: rs) := by
  rw [program]
  split
  · rename_i h
    simp only [h]
  · rename_i r left h
    simp only [h, bind, Except.bind, pure, Except.pure]
    cases program left <;> rfl

theorem program_of_trees : ∀ {ds : List RuleTree} {ts : List Located}, tokensOf ts = ds.flatMap RuleTree.tokens →
    program ts = .ok (ds.map RuleTree.value)
  | [], ts, h => by
    obtain rfl : ts = [] := List.map_eq_nil_iff.1 h
    rw [program, List.map_nil]
  | d :: ds, ts, h => by
    obtain ⟨left, hread, hleft⟩ := rule_of_tree (d := d) (by simpa using h)
    have hmore := program_of_trees hleft
    cases ts with
    | nil => exact absurd (List.append_eq_nil_iff.1 h.symm).1 d.tokens_ne_nil
    | cons t rest => rw [program_cons]; simp [hread, hmore]

theorem query_of_tree {d : QueryTree} {ts : List Located} (h : tokensOf ts = d.tokens) :
    query ts = .ok (d.value, []) := by
  obtain ⟨ds, hds, period⟩ := d
  have hends : ∀ t : Token, t ≠ .period → (if period then [Token.period] else []).head? ≠ some t := by
    cases period
    · simp
    · exact fun t ht heq => ht (Option.some.inj heq).symm
  obtain ⟨left, hread, hleft⟩ := goals_of_trees hds (hends _ (by simp)) (hends _ (by simp)) h
  have hskip : (skip .period left).2 = [] := by
    cases period with
    | false =>
      obtain rfl : left = [] := List.map_eq_nil_iff.1 hleft
      rfl
    | true =>
      obtain ⟨s, rest, rfl, hs, hrest⟩ := tokensOf_eq_cons hleft
      obtain rfl : rest = [] := List.map_eq_nil_iff.1 hrest
      simp [skip, next, hs]
  simp [query, hread, hskip, QueryTree.value, bind, Except.bind, pure, Except.pure]

end Grammar

end ProofWalk
