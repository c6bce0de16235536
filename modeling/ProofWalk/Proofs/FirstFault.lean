import ProofWalk.Proofs.Lookahead
/-!
# Proofs.FirstFault — what the readers accept, and where they find fault

The readers of arguments, goals and rules look one token ahead.  A reader that stops at a token therefore stops
there whatever comes after it, although it reads every phrase to its end (`Proofs.Phrases`): no phrase goes on with
that token.  The tokens before it do begin a phrase, so it is the first one at fault.

Each reader of the grammar is brought into the form of the readers there, made of single tokens and of choices by
the next token, and then has their property by construction.  A reader of a whole text settles its tokens
(`Settles`): if it succeeds they are a word, and if it fails the tokens before the fault begin one, and the fault
stays whatever the tokens after the next one are.
-/
namespace ProofWalk

namespace Grammar

variable {α : Type}

/-! ## Arguments, goals and rules

For each kind of phrase the words are given, and the reader of that kind reads them.  Lists of goals that may be
empty are decided by the next token, as the readers of bodies and of features do it.

The equations `*_eq` bring a reader of the program into that form; the lemmas `*_reads` then follow the form. -/

def ArgumentWords (ws : List Token) (as : List Argument) : Prop :=
  ∃ args : List WordTree, args ≠ [] ∧ ws = separated (fun w => [w.token]) args ++ [.rightParen] ∧
    as = args.map WordTree.argument

def GoalWords (ws : List Token) (gs : List Goal) : Prop :=
  ∃ ds : List GoalTree, ds ≠ [] ∧ ws = separated GoalTree.tokens ds ∧ gs = ds.map GoalTree.value

/-- What a tree of some kind derives and stands for. -/
def Phrase.Word (P : Phrase α) (ws : List Token) (a : α) : Prop := ∃ d, P.tokens d = ws ∧ P.value d = a

theorem arguments_eq : arguments = andThen (take argument? .expectedArgument) fun a =>
    ifNext .rightParen (done [a])
      (ifNext .comma (andThen arguments fun as => done (a :: as)) (fail .expectedCommaOrParen)) := by
  funext ts
  cases ts with
  | nil => rfl
  | cons t rest =>
    rw [arguments]
    simp only [andThen, take]
    cases argument? t.token with
    | none => rfl
    | some a =>
      cases rest with
      | nil => rfl
      | cons s more =>
        simp only [ifNext, next, List.tail_cons, andThen, beq_iff_eq]
        split
        · rfl
        · split
          · cases arguments more <;> rfl
          · rfl

theorem take_length {accept : Token → Option α} {fault : SyntaxFault} {ts left : List Located} {a : α}
    (h : take accept fault ts = .ok (a, left)) : left.length < ts.length := by
  cases ts with
  | nil => cases h
  | cons t rest =>
    rw [take] at h
    split at h <;> cases h
    exact Nat.lt_succ_self _

theorem arguments_reads (ts : List Located) : Reads ArgumentWords arguments ts := by
  rw [arguments_eq]
  -- after an argument, the list ends or goes on
  let M (a : Argument) (ws : List Token) (as : List Argument) : Prop :=
    (ws = [.rightParen] ∧ as = [a]) ∨ ∃ us bs, ArgumentWords us bs ∧ ws = .comma :: us ∧ as = a :: bs
  refine (reads_take (L := fun ws a => ∃ w : WordTree, ws = [w.token] ∧ a = w.argument) ?_ ?_).andThen (M := M)
    (fun a left hread => ?_) (fun a => ⟨_, _, .inl ⟨rfl, rfl⟩⟩) ?_
  · intro t a hta
    obtain ⟨w, rfl, rfl⟩ := WordTree.of_argument? hta
    exact ⟨w, rfl, rfl⟩
  · exact ⟨_, _, WordTree.argument?_token (.quoted "")⟩
  · refine Reads.ifNext (L := fun ws as => ws = [] ∧ as = [a]) (fun _ => reads_done ⟨rfl, rfl⟩)
      (fun us as h => .inl ⟨by rw [h.1], h.2⟩) fun _ => ?_
    refine Reads.ifNext (L := fun ws as => ∃ bs, ArgumentWords ws bs ∧ as = a :: bs) (fun _ => ?_)
      (fun us as ⟨bs, hbs, has⟩ => .inr ⟨us, bs, hbs, rfl, has⟩) fun _ => reads_fail ⟨_, _, .inl ⟨rfl, rfl⟩⟩
    have hshorter : left.tail.length < ts.length := by
      have := take_length hread
      rw [List.length_tail]
      omega
    exact (arguments_reads left.tail).map fun us bs hbs => ⟨bs, hbs, rfl⟩
  · rintro _ vs _ as ⟨w, rfl, rfl⟩ (⟨rfl, rfl⟩ | ⟨us, bs, ⟨args, hne, rfl, rfl⟩, rfl, rfl⟩)
    · exact ⟨[w], by simp, rfl, rfl⟩
    · exact ⟨w :: args, by simp, by rw [separated_cons _ _ hne]; rfl, rfl⟩
termination_by ts.length
decreasing_by exact hshorter

theorem goal_eq : goal = andThen (take functor? .expectedGoal) fun f =>
    ifNext .leftParen (andThen arguments fun as => done ⟨f, as⟩) (done ⟨f, []⟩) := by
  funext ts
  cases ts with
  | nil => rfl
  | cons t rest =>
    rw [goal]
    simp only [andThen, take, ifNext]
    cases functor? t.token with
    | none => rfl
    | some f =>
      dsimp only
      split
      · cases arguments rest.tail <;> rfl
      · rfl

theorem goal_reads (ts : List Located) : Reads Phrase.goal.Word goal ts := by
  rw [goal_eq]
  let M (f : String) (ws : List Token) (g : Goal) : Prop :=
    ∃ args : List WordTree, ws = GoalTree.argumentTokens args ∧ g = ⟨f, args.map WordTree.argument⟩
  refine (reads_take (L := fun ws f => ∃ w : WordTree, w.isFunctor = true ∧ ws = [w.token] ∧
    f = w.text) ?_ ?_).andThen (M := M) (fun f left _ => ?_) (fun f => ⟨_, _, [], rfl, rfl⟩) ?_
  · intro t f htf
    obtain ⟨w, hw, rfl, rfl⟩ := WordTree.of_functor? htf
    exact ⟨w, hw, rfl, rfl⟩
  · exact ⟨_, _, WordTree.functor?_token (w := .quoted "") rfl⟩
  · refine Reads.ifNext (L := fun ws g => ∃ as, ArgumentWords ws as ∧ g = ⟨f, as⟩)
      (fun _ => (arguments_reads left.tail).map fun us as has => ⟨as, has, rfl⟩) ?_
      fun _ => reads_done ⟨[], rfl, rfl⟩
    rintro us g ⟨as, ⟨args, hne, rfl, rfl⟩, rfl⟩
    obtain ⟨w, more, rfl⟩ := List.exists_cons_of_ne_nil hne
    exact ⟨w :: more, rfl, rfl⟩
  · rintro _ _ _ _ ⟨w, hw, rfl, rfl⟩ ⟨args, rfl, rfl⟩
    exact ⟨⟨w, hw, args⟩, rfl, rfl⟩

theorem goals_eq_andThen : goals = andThen goal fun g =>
    ifNext .comma (andThen goals fun gs => done (g :: gs)) (done [g]) := by
  funext ts
  rw [goals_eq]
  simp only [andThen, ifNext]
  cases goal ts with
  | error e => rfl
  | ok r =>
    dsimp only
    split
    · cases goals r.2.tail <;> rfl
    · rfl

theorem goals_reads (ts : List Located) : Reads GoalWords goals ts := by
  rw [goals_eq_andThen]
  let M (g : Goal) (ws : List Token) (gs : List Goal) : Prop :=
    (ws = [] ∧ gs = [g]) ∨ ∃ us hs, GoalWords us hs ∧ ws = .comma :: us ∧ gs = g :: hs
  refine (goal_reads ts).andThen (M := M) (fun g left hread => ?_) (fun g => ⟨_, _, .inl ⟨rfl, rfl⟩⟩) ?_
  · refine Reads.ifNext (L := fun ws gs => ∃ hs, GoalWords ws hs ∧ gs = g :: hs) (fun _ => ?_)
      (fun us gs ⟨hs, hhs, hgs⟩ => .inr ⟨us, hs, hhs, rfl, hgs⟩) fun _ => reads_done (.inl ⟨rfl, rfl⟩)
    have hshorter : left.tail.length < ts.length := by
      have := goal_length hread
      rw [List.length_tail]
      omega
    exact (goals_reads left.tail).map fun us hs hhs => ⟨hs, hhs, rfl⟩
  · rintro _ _ _ _ ⟨d, rfl, rfl⟩ (⟨rfl, rfl⟩ | ⟨us, hs, ⟨ds, hne, rfl, rfl⟩, rfl, rfl⟩)
    · exact ⟨[d], by simp, List.append_nil _, rfl⟩
    · exact ⟨d :: ds, by simp, (separated_cons _ _ hne).symm, rfl⟩
termination_by ts.length
decreasing_by exact hshorter

/-- The check that goals are followed by one of some tokens, which it leaves. -/
def stopAt (stops : List Token) (gs : List Goal) (left : List Located) : Parsed (List Goal) :=
  match left with
  | t :: _ => if t.token ∈ stops then .ok (gs, left) else .error (.unexpectedAfterGoal, left)
  | [] => .error (.unexpectedAfterGoal, left)

theorem stopAt_reads (stops : List Token) (gs : List Goal) (ts : List Located) :
    Reads (fun ws hs => ws = [] ∧ hs = gs) (stopAt stops gs) ts := by
  have hbegins : ∃ more hs, tokensOf [] ++ more = [] ∧ hs = gs := ⟨[], gs, rfl, rfl⟩
  cases ts with
  | nil =>
    refine .of_error [] rfl rfl hbegins fun left' h => ?_
    cases left' with
    | nil => rfl
    | cons s rest => cases h
  | cons t rest =>
    have hsame : ∀ left', SameAhead (t :: rest) left' → ∃ s rest', left' = s :: rest' ∧ t.token = s.token := by
      intro left' h
      cases left' with
      | nil => cases h
      | cons s rest' => exact ⟨s, rest', rfl, Option.some.inj h⟩
    by_cases hstop : t.token ∈ stops
    · refine .of_ok [] (by rw [stopAt, if_pos hstop]) rfl ⟨rfl, rfl⟩ fun left' h => ?_
      obtain ⟨s, rest', rfl, hs⟩ := hsame left' h
      rw [List.nil_append, stopAt, if_pos (hs ▸ hstop)]
    · refine .of_error [] (by rw [stopAt, if_neg hstop]) rfl hbegins fun left' h => ?_
      obtain ⟨s, rest', rfl, hs⟩ := hsame left' h
      rw [List.nil_append, stopAt, if_neg (hs ▸ hstop)]

theorem goalsUntil_eq (stops : List Token) : goalsUntil stops = andThen goals (stopAt stops) := by
  funext ts
  simp only [goalsUntil, andThen, bind, Except.bind]
  cases goals ts with
  | error e => rfl
  | ok r => rcases r with ⟨gs, _ | ⟨t, left⟩⟩ <;> rfl

theorem goalsUntil_reads (stops : List Token) (ts : List Located) : Reads GoalWords (goalsUntil stops) ts := by
  rw [goalsUntil_eq]
  refine (goals_reads ts).andThen (fun gs left _ => stopAt_reads stops gs left) (fun gs => ⟨[], gs, rfl, rfl⟩) ?_
  rintro us _ gs _ hus ⟨rfl, rfl⟩
  rwa [List.append_nil]

theorem goalsUntil_stops {t : Token} {ts left : List Located} {gs : List Goal}
    (h : goalsUntil [t] ts = .ok (gs, left)) : next t left = true := by
  rw [goalsUntil_eq, andThen] at h
  split at h
  · cases h
  · rename_i rest _
    cases rest with
    | nil => cases h
    | cons s more =>
      rw [stopAt] at h
      split at h <;> cases h
      simpa [next] using ‹s.token ∈ [t]›

def BodyWords (ws : List Token) (gs : List Goal) : Prop :=
  ∃ b, ws = RuleTree.bodyTokens b ∧ gs = RuleTree.goalsOf b

def FeatureWords (ws : List Token) (gs : List Goal) : Prop :=
  ∃ f, ws = RuleTree.featureTokens f ∧ gs = RuleTree.goalsOf f

def goalsUnlessEnd (ts : List Located) : Parsed (List Goal) :=
  if !next .leftBrace ts && !next .period ts then goalsUntil [.leftBrace, .period] ts else done [] ts

theorem goalsUnlessEnd_reads (ts : List Located) :
    Reads (fun ws gs => ∃ ds, ws = separated GoalTree.tokens ds ∧ gs = ds.map GoalTree.value)
      goalsUnlessEnd ts := by
  have hsame : ∀ us left left', ts = us ++ left → SameAhead left left' →
      (!next .leftBrace (us ++ left') && !next .period (us ++ left')) =
        (!next .leftBrace ts && !next .period ts) := by
    rintro us left left' rfl h
    rw [(h.append us).next_eq, (h.append us).next_eq]
  cases hends : !next .leftBrace ts && !next .period ts with
  | true =>
    refine ((goalsUntil_reads [.leftBrace, .period] ts).mono fun us gs ⟨ds, _, hus, hgs⟩ =>
      ⟨ds, hus, hgs⟩).of_agreement fun us left left' hts h => ?_
    rw [goalsUnlessEnd, hsame us left left' hts h, hends]
    rfl
  | false =>
    refine (reads_done (a := []) ⟨[], rfl, rfl⟩).of_agreement fun us left left' hts h => ?_
    rw [goalsUnlessEnd, hsame us left left' hts h, hends]
    rfl

theorem body_eq : body = ifNext .neck goalsUnlessEnd (done []) := by
  funext ts
  simp only [body, skip, ifNext, goalsUnlessEnd, done]
  by_cases hneck : next .neck ts = true <;> simp [hneck]

theorem body_reads (ts : List Located) : Reads BodyWords body ts := by
  rw [body_eq]
  refine Reads.ifNext (fun _ => goalsUnlessEnd_reads ts.tail) ?_ fun _ => reads_done ⟨none, rfl, rfl⟩
  rintro _ _ ⟨ds, rfl, rfl⟩
  exact ⟨some ds, rfl, rfl⟩

theorem features_eq : features = ifNext .leftBrace
    (ifNext .rightBrace (done []) (andThen (goalsUntil [.rightBrace]) fun fs left => .ok (fs, left.tail)))
      (done []) := by
  funext ts
  simp only [features, skip, ifNext, andThen, done, bind, Except.bind]
  by_cases hopen : next .leftBrace ts = true
  · simp only [hopen, if_true]
    split
    · rfl
    · cases goalsUntil [.rightBrace] ts.tail <;> rfl
  · simp [hopen]

theorem features_reads (ts : List Located) : Reads FeatureWords features ts := by
  rw [features_eq]
  refine Reads.ifNext (L := fun ws gs => ∃ ds, ws = separated GoalTree.tokens ds ++ [.rightBrace] ∧
    gs = ds.map GoalTree.value) (fun _ => ?_) ?_ fun _ => reads_done ⟨none, rfl, rfl⟩
  · refine Reads.ifNext (L := fun ws gs => ws = [] ∧ gs = []) (fun _ => reads_done ⟨rfl, rfl⟩) ?_ fun _ => ?_
    · rintro _ _ ⟨rfl, rfl⟩
      exact ⟨[], rfl, rfl⟩
    · refine (goalsUntil_reads _ _).andThen (M := fun gs ws hs => ws = [.rightBrace] ∧ hs = gs)
        (fun gs left hread => reads_drop (goalsUntil_stops hread) ⟨rfl, rfl⟩) (fun gs => ⟨_, _, rfl, rfl⟩) ?_
      rintro _ _ _ _ ⟨ds, -, rfl, rfl⟩ ⟨rfl, rfl⟩
      exact ⟨ds, rfl, rfl⟩
  · rintro _ _ ⟨ds, rfl, rfl⟩
    exact ⟨some ds, rfl, rfl⟩

theorem rule_eq : rule = andThen goal fun head => andThen body fun b => andThen features fun f =>
    ifNext .period (done ⟨head, b, f⟩) (fail .expectedPeriod) := by
  funext ts
  simp only [rule, andThen, ifNext, done, fail, bind, Except.bind, pure, Except.pure]
  cases goal ts with
  | error e => rfl
  | ok r =>
    dsimp only
    cases body r.2 with
    | error e => rfl
    | ok r =>
      dsimp only
      cases features r.2 <;> rfl

theorem rule_reads (ts : List Located) : Reads Phrase.rule.Word rule ts := by
  rw [rule_eq]
  -- what is still to come after the head, after the body and after the features
  let AfterFeatures (head : Goal) (b f : List Goal) (ws : List Token) (r : Rule) : Prop :=
    ws = [.period] ∧ r = ⟨head, b, f⟩
  let AfterBody (head : Goal) (b : List Goal) (ws : List Token) (r : Rule) : Prop :=
    ∃ us f, FeatureWords us f ∧ ws = us ++ [.period] ∧ r = ⟨head, b, f⟩
  let AfterHead (head : Goal) (ws : List Token) (r : Rule) : Prop :=
    ∃ us b vs f, BodyWords us b ∧ FeatureWords vs f ∧ ws = us ++ (vs ++ [.period]) ∧ r = ⟨head, b, f⟩
  have hfeatures : ∃ f, FeatureWords [] f := ⟨[], none, rfl, rfl⟩
  refine (goal_reads ts).andThen (M := AfterHead) (fun head rest _ => ?_) (fun head => ?_) ?_
  · refine (body_reads rest).andThen (M := AfterBody head) (fun b rest _ => ?_) (fun b => ?_) ?_
    · refine (features_reads rest).andThen (M := AfterFeatures head b) (fun f rest _ => ?_)
        (fun f => ⟨_, _, rfl, rfl⟩) ?_
      · refine Reads.ifNext (L := fun ws r => ws = [] ∧ r = ⟨head, b, f⟩) (fun _ => reads_done ⟨rfl, rfl⟩) ?_
          fun _ => reads_fail ⟨_, _, rfl, rfl⟩
        rintro _ _ ⟨rfl, rfl⟩
        exact ⟨rfl, rfl⟩
      · rintro us _ f _ hus ⟨rfl, rfl⟩
        exact ⟨us, f, hus, rfl, rfl⟩
    · obtain ⟨f, hf⟩ := hfeatures
      exact ⟨_, _, [], f, hf, rfl, rfl⟩
    · rintro us _ b _ hus ⟨vs, f, hvs, rfl, rfl⟩
      exact ⟨us, b, vs, f, hus, hvs, rfl, rfl⟩
  · obtain ⟨f, hf⟩ := hfeatures
    exact ⟨_, _, [], [], [], f, ⟨none, rfl, rfl⟩, hf, rfl, rfl⟩
  · rintro _ _ _ _ ⟨head, rfl, rfl⟩ ⟨_, _, _, _, ⟨b, rfl, rfl⟩, ⟨f, rfl, rfl⟩, rfl, rfl⟩
    exact ⟨⟨head, b, f⟩, rfl, rfl⟩

theorem query_eq : query = andThen goals fun gs => ifNext .period (done ⟨gs⟩) (done ⟨gs⟩) := by
  funext ts
  simp only [query, andThen, ifNext, done, skip, bind, Except.bind, pure, Except.pure]
  cases goals ts with
  | error e => rfl
  | ok r =>
    dsimp only
    split <;> rfl

theorem query_reads (ts : List Located) : Reads Phrase.query.Word query ts := by
  rw [query_eq]
  refine (goals_reads ts).andThen (M := fun gs ws q => (ws = [] ∨ ws = [.period]) ∧ q = ⟨gs⟩) (fun gs left _ => ?_)
    (fun gs => ⟨_, _, .inl rfl, rfl⟩) ?_
  · refine Reads.ifNext (L := fun ws q => ws = [] ∧ q = ⟨gs⟩) (fun _ => reads_done ⟨rfl, rfl⟩) ?_
      fun _ => reads_done ⟨.inl rfl, rfl⟩
    rintro _ _ ⟨rfl, rfl⟩
    exact ⟨.inr rfl, rfl⟩
  · rintro _ _ _ _ ⟨ds, hne, rfl, rfl⟩ ⟨rfl | rfl, rfl⟩
    · exact ⟨⟨ds, hne, false⟩, rfl, rfl⟩
    · exact ⟨⟨ds, hne, true⟩, rfl, rfl⟩

/-! ## Readers of whole texts

A program is read rule by rule, by an induction on the number of tokens that are left. -/

/-- **What a reader of whole texts does with some tokens**: they are a word if it succeeds; if it fails, the tokens
before the fault begin one, and the fault stays if the tokens after the next one are others. -/
def Settles (L : List Token → α → Prop) (reader : List Located → Except Failure α) (ts : List Located) : Prop :=
  match reader ts with
  | .ok a => L (tokensOf ts) a
  | .error (fault, left) => ∃ us, ts = us ++ left ∧ (∃ more a, L (tokensOf us ++ more) a) ∧
      ∀ left', SameAhead left left' → reader (us ++ left') = .error (fault, left')

theorem Reads.whole {L : List Token → α → Prop} {reader : List Located → Parsed α}
    {ts : List Located} (what : String) (h : Reads L reader ts) : Settles L (whole what reader) ts := by
  cases hread : reader ts with
  | error e =>
    obtain ⟨fault, left⟩ := e
    obtain ⟨us, hts, hbegins, hagain⟩ := h.error hread
    have hwhole : Grammar.whole what reader ts = .error (fault, left) := by
      simp only [Grammar.whole, hread, bind, Except.bind]
    rw [Settles, hwhole]
    refine ⟨us, hts, hbegins, fun left' hsame => ?_⟩
    simp only [Grammar.whole, hagain left' hsame, bind, Except.bind]
  | ok r =>
    obtain ⟨a, left⟩ := r
    obtain ⟨us, hts, hword, hagain⟩ := h.ok hread
    cases left with
    | nil =>
      have hwhole : Grammar.whole what reader ts = .ok a := by
        simp [Grammar.whole, hread, bind, Except.bind, pure, Except.pure]
      rw [List.append_nil] at hts
      rw [Settles, hwhole, hts]
      exact hword
    | cons t rest =>
      have hwhole : Grammar.whole what reader ts = .error (.trailing what, t :: rest) := by
        simp [Grammar.whole, hread, bind, Except.bind]
      rw [Settles, hwhole]
      refine ⟨us, hts, ⟨[], a, by rwa [List.append_nil]⟩, fun left' hsame => ?_⟩
      cases left' with
      | nil => cases hsame
      | cons s rest' => simp [Grammar.whole, hagain _ hsame, bind, Except.bind]

theorem program_of_rule_error {ts : List Located} {e : Failure} (hne : ts ≠ []) (h : rule ts = .error e) :
    program ts = .error e := by
  obtain ⟨t, rest, rfl⟩ := List.exists_cons_of_ne_nil hne
  rw [program_cons, h]

theorem program_of_rule_ok {ts left : List Located} {r : Rule} (h : rule ts = .ok (r, left)) : program ts =
    match program left with
    | .error e => .error e
    | .ok rs => .ok (r :: rs) := by
  cases ts with
  | nil => exact absurd (rule_length h) (Nat.not_lt_zero _)
  | cons t rest =>
    cases hrest : program left <;> simp only [program_cons, h, hrest]

theorem program_settles (ts : List Located) : Settles Phrase.program.Word program ts := by
  by_cases hne : ts = []
  · subst hne
    rw [Settles, program]
    exact ⟨[], rfl, rfl⟩
  cases hread : rule ts with
  | error e =>
    obtain ⟨fault, left⟩ := e
    obtain ⟨us, hts, ⟨more, r, d, hd, -⟩, hagain⟩ := (rule_reads ts).error hread
    rw [Settles, program_of_rule_error hne hread]
    refine ⟨us, hts, ⟨more, _, [d], (List.append_nil _).trans hd, rfl⟩, fun left' hsame => ?_⟩
    refine program_of_rule_error (fun hnil => hne ?_) (hagain left' hsame)
    -- no token is left in place of some
    obtain ⟨rfl, rfl⟩ := List.append_eq_nil_iff.1 hnil
    obtain rfl : left = [] := by
      cases left with
      | nil => rfl
      | cons => cases hsame
    exact hts
  | ok p =>
    obtain ⟨r, left⟩ := p
    have : left.length < ts.length := rule_length hread
    obtain ⟨us, hts, ⟨d, hd, hr⟩, hagain⟩ := (rule_reads ts).ok hread
    have hmore := program_settles left
    have hprogram := program_of_rule_ok hread
    cases hrest : program left with
    | ok rs =>
      rw [Settles, hrest] at hmore
      obtain ⟨ds, hds, hrs⟩ := hmore
      rw [hrest] at hprogram
      rw [Settles, hprogram]
      refine ⟨d :: ds, ?_, ?_⟩
      · rw [hts, tokensOf_append, ← hd, ← hds]
        rfl
      · rw [← hr, ← hrs]
        rfl
    | error e =>
      obtain ⟨fault, rest⟩ := e
      rw [Settles, hrest] at hmore
      obtain ⟨vs, hleft, ⟨more, rs, ds, hds, -⟩, hmore'⟩ := hmore
      rw [hrest] at hprogram
      rw [Settles, hprogram]
      subst hleft
      refine ⟨us ++ vs, by rw [hts, List.append_assoc], ⟨more, _, d :: ds, ?_, rfl⟩, fun left' hsame => ?_⟩
      · rw [tokensOf_append, List.append_assoc, ← hd, ← hds]
        rfl
      · rw [List.append_assoc, program_of_rule_ok (hagain _ (hsame.append vs)), hmore' left' hsame]
termination_by ts.length

/-! ## The first fault

`Phrase.FaultAt` says where the first fault is, without any reader: at the first token with which no phrase can go
on.  Where a reader stops, a phrase that went on with the token would be read, against what the reader has found. -/

/-- Some phrase starts with the tokens. -/
def Phrase.Begins (P : Phrase α) (ws : List Token) : Prop := ∃ d more, P.tokens d = ws ++ more

/-- **The place of the first token with which no phrase can go on**; if a phrase can go on after all tokens, the place
of the last one, or the start of the text if there is none. -/
def Phrase.FaultAt (P : Phrase α) (ts : List Located) (p : Position) : Prop :=
  (∃ before t after, ts = before ++ t :: after ∧ P.Begins (tokensOf before) ∧
    ¬ P.Begins (tokensOf before ++ [t.token]) ∧ p = t.position) ∨
  (P.Begins (tokensOf ts) ∧ p = (ts.getLast?.map Located.position).getD .start)

/-- **What a reader of a kind of phrase has to answer**: what the only tree of the tokens stands for, or that there is
no tree and where no phrase can go on. -/
def Phrase.Answers (P : Phrase α) (ts : List Located) : Except ReadError α → Prop
  | .ok a => ∃ d, P.tokens d = tokensOf ts ∧ P.value d = a ∧ ∀ d', P.tokens d' = tokensOf ts → d' = d
  | .error e => (∀ d, P.tokens d ≠ tokensOf ts) ∧ ∃ p fault, e = .malformed p fault ∧ P.FaultAt ts p

def placed (ts : List Located) : Except Failure α → Except ReadError α
  | .ok a => .ok a
  | .error (fault, left) => .error (.malformed (place ts left) fault)

theorem read_of_scan {reader : List Located → Except Failure α} {source : String} {ts : List Located}
    (h : Token.scan source = .ok ts) : read reader source = placed ts (reader ts) := by
  simp only [read, h, bind, Except.bind, pure, Except.pure]
  cases reader ts <;> rfl

theorem read_of_scan_error {reader : List Located → Except Failure α} {source : String} {e : ReadError}
    (h : Token.scan source = .error e) : read reader source = .error e := by
  simp only [read, h, bind, Except.bind]

theorem exists_tokensOf (ws : List Token) : ∃ ts, tokensOf ts = ws :=
  ⟨ws.map fun t => ⟨t, .start⟩, by rw [tokensOf, List.map_map]; exact List.map_id' ws⟩

/-- **A reader that settles all tokens, and reads every phrase, answers rightly**: where it stops for a token, a phrase
that went on with the token would be read. -/
theorem Phrase.answers_of_settles {P : Phrase α} {reader : List Located → Except Failure α}
    (hsettles : ∀ ts, Settles P.Word reader ts)
    (hreads : ∀ d ts, tokensOf ts = P.tokens d → reader ts = .ok (P.value d))
    (hunique : ∀ d d', P.tokens d = P.tokens d' → d = d') (ts : List Located) :
    P.Answers ts (placed ts (reader ts)) := by
  have hsettled := hsettles ts
  cases hread : reader ts with
  | ok a =>
    rw [Settles, hread] at hsettled
    obtain ⟨d, hd, ha⟩ := hsettled
    exact ⟨d, hd, ha, fun d' hd' => hunique d' d (hd'.trans hd.symm)⟩
  | error e =>
    obtain ⟨fault, left⟩ := e
    rw [Settles, hread] at hsettled
    obtain ⟨us, hts, ⟨more, a, d, hd, -⟩, hagain⟩ := hsettled
    refine ⟨fun d' hd' => ?_, place ts left, fault, rfl, ?_⟩
    · rw [hreads d' ts hd'.symm] at hread
      cases hread
    · cases left with
      | nil =>
        rw [List.append_nil] at hts
        refine .inr ⟨⟨d, more, by rw [hd, hts]⟩, ?_⟩
        cases h : ts.getLast? <;> simp [place, h]
      | cons t after =>
        refine .inl ⟨us, t, after, hts, ⟨d, more, hd⟩, ?_, rfl⟩
        rintro ⟨d', more', hd'⟩
        obtain ⟨rest, hrest⟩ := exists_tokensOf more'
        have hok := hreads d' (us ++ t :: rest) (by rw [hd', ← hrest]; simp)
        rw [hagain (t :: rest) rfl] at hok
        cases hok

theorem whole_of_ok {reader : List Located → Parsed α} {ts : List Located} {a : α} (what : String)
    (h : reader ts = .ok (a, [])) : whole what reader ts = .ok a := by
  simp [whole, h, bind, Except.bind, pure, Except.pure]

theorem program_answers (ts : List Located) : Phrase.program.Answers ts (placed ts (program ts)) :=
  Phrase.answers_of_settles program_settles (fun _ _ h => program_of_trees h)
    (fun _ _ h => RuleTree.flatMap_tokens_unique h) ts

theorem rule_answers (ts : List Located) : Phrase.rule.Answers ts (placed ts (whole "clause" rule ts)) := by
  refine Phrase.answers_of_settles (fun ts => (rule_reads ts).whole "clause") (fun d ts h => ?_)
    (fun d d' h => (RuleTree.tokens_unique (congrArg (· ++ []) h)).1) ts
  obtain ⟨left, hread, hleft⟩ := rule_of_tree (d := d) (h.trans (List.append_nil _).symm)
  obtain rfl : left = [] := List.map_eq_nil_iff.1 hleft
  exact whole_of_ok _ hread

theorem goal_answers (ts : List Located) : Phrase.goal.Answers ts (placed ts (whole "goal" goal ts)) := by
  have hends : GoalTree.Ends [] := nofun
  refine Phrase.answers_of_settles (fun ts => (goal_reads ts).whole "goal") (fun d ts h => ?_)
    (fun d d' h => (GoalTree.tokens_unique hends hends (congrArg (· ++ []) h)).1) ts
  obtain ⟨left, hread, hleft⟩ := goal_of_tree (d := d) hends (h.trans (List.append_nil _).symm)
  obtain rfl : left = [] := List.map_eq_nil_iff.1 hleft
  exact whole_of_ok _ hread

theorem query_answers (ts : List Located) : Phrase.query.Answers ts (placed ts (whole "query" query ts)) :=
  Phrase.answers_of_settles (fun ts => (query_reads ts).whole "query")
    (fun _ _ h => whole_of_ok _ (query_of_tree h)) (fun _ _ h => QueryTree.tokens_injective h) ts

end Grammar

open Grammar in
/-- **The readers accept exactly the grammar, and report the first token with which no phrase can go on.**  On a text
with tokens, each of them returns what the only derivation of the tokens stands for; if there is none, the place that
it reports is that of the first token such that no phrase starts with the tokens up to it, or of the last token if some
phrase starts with them all, or the start of the text if there are none.  The reader of queries reports that there are
no tokens before all else. -/
theorem readers_answer (source : String) :
    match Token.scan source with
    | .ok ts =>
      Phrase.program.Answers ts (Rule.readAll source) ∧ Phrase.rule.Answers ts (Rule.read source) ∧
      Phrase.goal.Answers ts (Goal.read source) ∧
      if ts = [] then Query.read source = .error .emptyQuery else Phrase.query.Answers ts (Query.read source)
    | .error e =>
      Rule.readAll source = .error e ∧ Rule.read source = .error e ∧ Goal.read source = .error e ∧
      Query.read source = .error e := by
  cases hscan : Token.scan source with
  | error e =>
    refine ⟨read_of_scan_error hscan, read_of_scan_error hscan, read_of_scan_error hscan, ?_⟩
    simp only [Query.read, hscan, bind, Except.bind]
  | ok ts =>
    refine ⟨?_, ?_, ?_, ?_⟩
    · rw [Rule.readAll, read_of_scan hscan]
      exact program_answers ts
    · rw [Rule.read, read_of_scan hscan]
      exact rule_answers ts
    · rw [Goal.read, read_of_scan hscan]
      exact goal_answers ts
    · split
      · rename_i hts
        simp [Query.read, hscan, hts, bind, Except.bind]
      · rename_i hts
        have hquery : Query.read source = Grammar.read (whole "query" query) source := by
          simp [Query.read, hscan, hts, bind, Except.bind]
        rw [hquery, read_of_scan hscan]
        exact query_answers ts

end ProofWalk
