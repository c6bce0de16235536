import ProofWalk.Proofs.FirstFault
/-!
# Proofs.WrittenForms — reading undoes writing

A name is plain if it can be written without quotes: then scanning finds just this name in front of any text that no
name goes on with (`scans_name`).  The written form of a goal, a rule or a query with plain names is put together
from pieces of that kind, so it is scanned to the tokens of a tree that stands for what was written (`Writes`), and
the readers follow trees (`Proofs.Phrases`).
-/
namespace ProofWalk

theorem Text.isAlphanumeric_of_isBlank {c : Char} (h : Text.isBlank c = true) : Text.isAlphanumeric c = false := by
  have hall : ∀ r ∈ Text.blankRanges, ∀ k ∈ List.range (r.2 + 1 - r.1),
      Text.isAlphanumeric (Char.ofNat (r.1 + k)) = false := by
    decide +kernel
  obtain ⟨r, hr, hlow, hhigh⟩ := Text.inRanges_iff.1 h
  have hc := hall r hr (c.toNat - r.1) (List.mem_range.2 (by omega))
  rwa [Nat.add_sub_cancel' hlow, Char.ofNat_toNat] at hc

/-! ## Plain names

A period may stand inside a name and not at its end, where it would end the clause. -/

/-- **A name that needs no quotes**: name characters, among which single periods may stand, but not at either end. -/
structure IsPlain (name : String) : Prop where
  nonempty : name ≠ ""
  chars : ∀ c ∈ name.toList, Token.isNameChar c = true ∨ c = '.'
  first : name.toList.head? ≠ some '.'
  last : name.toList.getLast? ≠ some '.'
  apart : ('.', '.') ∉ name.toList.zip name.toList.tail

instance (name : String) : Decidable (IsPlain name) :=
  decidable_of_iff (name ≠ "" ∧ name.toList.all (fun c => Token.isNameChar c || c == '.') = true ∧
      name.toList.head? ≠ some '.' ∧
      name.toList.getLast? ≠ some '.' ∧ ('.', '.') ∉ name.toList.zip name.toList.tail)
    ⟨fun ⟨h₁, h₂, h₃, h₄, h₅⟩ => ⟨h₁, by simpa using h₂, h₃, h₄, h₅⟩,
      fun ⟨h₁, h₂, h₃, h₄, h₅⟩ => ⟨h₁, by simpa using h₂, h₃, h₄, h₅⟩⟩

theorem IsPlain.exists_cons {name : String} (h : IsPlain name) :
    ∃ c rest, name.toList = c :: rest ∧ Token.isNameChar c = true := by
  obtain ⟨c, rest, hlist⟩ := List.exists_cons_of_ne_nil fun hnil => h.nonempty (String.toList_eq_nil_iff.1 hnil)
  refine ⟨c, rest, hlist, (h.chars c (by simp [hlist])).resolve_right fun hperiod => h.first ?_⟩
  rw [hlist, hperiod, List.head?_cons]

/-- **An argument that is read as it is written**: its name is plain and looks like what it is. -/
def Argument.Plain (a : Argument) : Prop := IsPlain a.name ∧ isVariableName a.name = a.isVariable

structure Goal.Plain (g : Goal) : Prop where
  functor : IsPlain g.functor ∧ isVariableName g.functor = false
  args : ∀ a ∈ g.args, a.Plain

structure Rule.Plain (r : Rule) : Prop where
  head : r.head.Plain
  body : ∀ g ∈ r.body, g.Plain
  features : ∀ g ∈ r.features, g.Plain

instance (a : Argument) : Decidable a.Plain := inferInstanceAs (Decidable (_ ∧ _))

instance (g : Goal) : Decidable g.Plain :=
  decidable_of_iff ((IsPlain g.functor ∧ isVariableName g.functor = false) ∧ ∀ a ∈ g.args, a.Plain)
    ⟨fun ⟨h₁, h₂⟩ => ⟨h₁, h₂⟩, fun ⟨h₁, h₂⟩ => ⟨h₁, h₂⟩⟩

instance (r : Rule) : Decidable r.Plain :=
  decidable_of_iff (r.head.Plain ∧ (∀ g ∈ r.body, g.Plain) ∧ ∀ g ∈ r.features, g.Plain)
    ⟨fun ⟨h₁, h₂, h₃⟩ => ⟨h₁, h₂, h₃⟩, fun ⟨h₁, h₂, h₃⟩ => ⟨h₁, h₂, h₃⟩⟩

namespace Grammar

open Token

/-! ## Where names end

Text that does not go on with a name is what has to follow it. -/

/-- **Whether no name goes on with a text.** -/
def EndsName (cs : List Char) : Prop := spanName cs = ([], cs)

theorem endsName_nil : EndsName [] := rfl

theorem endsName_cons {c : Char} (h : isNameChar c = false) (hperiod : c ≠ '.') (cs : List Char) :
    EndsName (c :: cs) := by
  simp [EndsName, spanName, h, hperiod]

theorem EndsName.nameFollows {cs : List Char} (h : EndsName cs) : nameFollows cs = false := by
  cases cs with
  | nil => rfl
  | cons c rest =>
    refine Bool.eq_false_iff.2 fun hname => ?_
    have hc : isNameChar c = true := hname
    simp [EndsName, spanName, hc] at h

theorem EndsName.period {cs : List Char} (h : EndsName cs) : EndsName ('.' :: cs) := by
  have hperiod : isNameChar '.' = false := by decide
  simp [EndsName, spanName, hperiod, h.nameFollows]

/-- **A name is found as a whole** where what follows does not go on with it. -/
theorem spanName_plain {cs : List Char} (hcs : EndsName cs) : ∀ {name : List Char},
    (∀ c ∈ name, isNameChar c = true ∨ c = '.') → name.getLast? ≠ some '.' → ('.', '.') ∉ name.zip name.tail →
    spanName (name ++ cs) = (name, cs)
  | [], _, _, _ => hcs
  | c :: rest, hchars, hlast, hapart => by
    have hrest : spanName (rest ++ cs) = (rest, cs) := by
      refine spanName_plain hcs (fun d hd => hchars d (List.mem_cons_of_mem c hd))
        (fun h => hlast ?_) fun h => hapart ?_
      · rw [List.getLast?_cons, h]
        rfl
      · cases rest with
        | nil => exact nomatch h
        | cons d more => exact List.mem_cons_of_mem (c, d) h
    have hgoes : (isNameChar c || (c == '.' && nameFollows (rest ++ cs))) = true := by
      rcases hchars c List.mem_cons_self with hc | rfl
      · simp [hc]
      · -- a period is not the last character, and the next one is none
        cases rest with
        | nil => exact absurd rfl hlast
        | cons d more =>
          have hd : d ≠ '.' := by
            rintro rfl
            exact hapart List.mem_cons_self
          have hname := (hchars d (by simp)).resolve_right hd
          simp [Token.nameFollows, hname]
    rw [List.cons_append, spanName, if_pos hgoes, hrest]

/-! ## Scanning

To scan a text to some tokens is meant of wherever it stands, and whatever stands behind it. -/

/-- **A text that is scanned to some tokens**, wherever it stands. -/
def Scans (cs : List Char) (ws : List Token) : Prop := ∀ p, ∃ ts, scanFrom p cs = .ok ts ∧ tokensOf ts = ws

theorem scans_nil : Scans [] [] := fun p => ⟨[], by rw [scanFrom], rfl⟩

theorem Scans.blank {c : Char} {cs : List Char} {ws : List Token} (hc : Text.isBlank c = true) (h : Scans cs ws) :
    Scans (c :: cs) ws := by
  intro p
  obtain ⟨ts, hts, hws⟩ := h (p.next c)
  exact ⟨ts, by rw [scanFrom, if_pos hc, hts], hws⟩

theorem Scans.front {c : Char} {cs after : List Char} {t : Token} {ws : List Token}
    (hblank : Text.isBlank c = false) (hcomment : startsComment c = false)
    (hfront : Token.front (c :: cs) = .ok (t, after)) (h : Scans after ws) :
    Scans (c :: cs) (t :: ws) := by
  intro p
  obtain ⟨ts, hts, hws⟩ := h (p.after t.chars)
  refine ⟨⟨t, p⟩ :: ts, ?_, by rw [tokensOf_cons, hws]⟩
  rw [scanFrom, if_neg (by simp [hblank]), if_neg (by simp [hcomment])]
  split
  · rename_i hfault
    rw [hfront] at hfault
    cases hfault
  · rename_i hok
    rw [hfront] at hok
    cases hok
    simp only [hts, bind, Except.bind, pure, Except.pure]

theorem isBlank_of_isNameChar {c : Char} (h : isNameChar c = true) : Text.isBlank c = false := by
  refine Bool.eq_false_iff.2 fun hblank => ?_
  simp only [isNameChar, Text.isAlphanumeric_of_isBlank hblank, Bool.false_or, Bool.or_eq_true, beq_iff_eq] at h
  rcases h with rfl | rfl <;> exact absurd hblank (by decide)

theorem startsComment_of_isNameChar {c : Char} (h : isNameChar c = true) : startsComment c = false := by
  refine Bool.eq_false_iff.2 fun hcomment => ?_
  have hstarts : c = '%' ∨ c = '#' := by simpa [startsComment] using hcomment
  rcases hstarts with rfl | rfl <;> exact absurd h (by decide)

theorem front_of_isNameChar {c : Char} (h : isNameChar c = true) (cs : List Char) :
    Token.front (c :: cs) = .ok (.name (String.ofList (spanName (c :: cs)).1), (spanName (c :: cs)).2) := by
  have hne : ∀ d : Char, isNameChar d = false → c ≠ d := by
    rintro d hd rfl
    rw [h] at hd
    cases hd
  unfold Token.front
  split
  case h_1 heq => cases heq
  case h_9 heq =>
    cases heq
    rw [if_pos h]
  all_goals
    rename_i heq
    cases heq
    exact absurd rfl (hne _ (by decide))

theorem front_plain {name : String} (h : IsPlain name) {cs : List Char} (hcs : EndsName cs) :
    Token.front (name.toList ++ cs) = .ok (.name name, cs) := by
  have hspan := spanName_plain hcs h.chars h.last h.apart
  obtain ⟨c, rest, hlist, hc⟩ := h.exists_cons
  rw [hlist, List.cons_append] at hspan ⊢
  rw [front_of_isNameChar hc, hspan, ← hlist, String.ofList_toList]

/-- **A plain name is scanned to its token.** -/
theorem scans_name {name : String} (hname : IsPlain name) {cs : List Char} {ws : List Token} (hcs : EndsName cs)
    (h : Scans cs ws) : Scans (name.toList ++ cs) (.name name :: ws) := by
  have hfront := front_plain hname hcs
  obtain ⟨c, rest, hlist, hc⟩ := hname.exists_cons
  rw [hlist, List.cons_append] at hfront ⊢
  exact Scans.front (isBlank_of_isNameChar hc) (startsComment_of_isNameChar hc) hfront h

/-! ## Written forms

A name scans only before text that does not go on with it, a mark before any text.  So two notions are needed,
`Writes` for texts of the first kind and `Parts` for those of the second, and they are put together by
`Writes.append` and `Parts.before`. -/

/-- **A text that is scanned to some tokens** in front of any text that no name goes on with. -/
def Writes (text : String) (ws : List Token) : Prop :=
  ∀ ⦃cs : List Char⦄ ⦃vs : List Token⦄, EndsName cs → Scans cs vs → Scans (text.toList ++ cs) (ws ++ vs)

structure Follows (text : String) (ws : List Token) : Prop where
  writes : Writes text ws
  apart : ∀ ⦃cs : List Char⦄, EndsName cs → EndsName (text.toList ++ cs)

theorem Writes.append {a b : String} {ws vs : List Token} (ha : Writes a ws) (hb : Follows b vs) :
    Writes (a ++ b) (ws ++ vs) := by
  intro cs us hcs h
  rw [String.toList_append, List.append_assoc, List.append_assoc]
  exact ha (hb.apart hcs) (hb.writes hcs h)

theorem Follows.append {a b : String} {ws vs : List Token} (ha : Follows a ws) (hb : Follows b vs) :
    Follows (a ++ b) (ws ++ vs) where
  writes := ha.writes.append hb
  apart cs hcs := by
    rw [String.toList_append, List.append_assoc]
    exact ha.apart (hb.apart hcs)

theorem follows_empty : Follows "" [] := ⟨fun _ _ _ h => h, fun _ h => h⟩

theorem writes_name {name : String} (h : IsPlain name) : Writes name [.name name] :=
  fun _ _ hcs hscans => scans_name h hcs hscans

/-! ## Marks, blanks and the period

A period is a mark only if no name goes on after it. -/

/-- **A text that no name goes on with and that is scanned to some tokens wherever it stands.** -/
structure Parts (text : String) (ws : List Token) : Prop where
  scans : ∀ {cs : List Char} {vs : List Token}, Scans cs vs → Scans (text.toList ++ cs) (ws ++ vs)
  apart : ∀ cs : List Char, EndsName (text.toList ++ cs)

theorem Parts.append {a b : String} {ws vs : List Token} (ha : Parts a ws) (hb : Parts b vs) :
    Parts (a ++ b) (ws ++ vs) where
  scans h := by
    rw [String.toList_append, List.append_assoc, List.append_assoc]
    exact ha.scans (hb.scans h)
  apart cs := by
    rw [String.toList_append, List.append_assoc]
    exact ha.apart (b.toList ++ cs)

theorem Parts.before {a b : String} {ws vs : List Token} (ha : Parts a ws) (hb : Writes b vs) :
    Follows (a ++ b) (ws ++ vs) where
  writes cs us hcs h := by
    rw [String.toList_append, List.append_assoc, List.append_assoc]
    exact ha.scans (hb hcs h)
  apart cs _ := by
    rw [String.toList_append, List.append_assoc]
    exact ha.apart (b.toList ++ cs)

theorem Parts.follows {a : String} {ws : List Token} (ha : Parts a ws) :
    Follows a ws := ⟨fun _ _ _ h => ha.scans h, fun cs _ => ha.apart cs⟩

/-- What is written and then parted may stand in front of a name. -/
theorem Writes.parted {a b : String} {ws : List Token} (ha : Writes a ws) (hb : Parts b [])
    {cs : List Char} {vs : List Token} (h : Scans cs vs) : Scans ((a ++ b).toList ++ cs) (ws ++ vs) := by
  rw [String.toList_append, List.append_assoc]
  exact ha (hb.apart cs) (hb.scans h)

theorem parts_mark {text : String} (c : Char) (marks : List Char) {t : Token} (htext : text.toList = c :: marks)
    (hname : isNameChar c = false) (hperiod : c ≠ '.') (hblank : Text.isBlank c = false)
    (hcomment : startsComment c = false)
    (hfront : ∀ cs, Token.front (c :: (marks ++ cs)) = .ok (t, cs)) : Parts text [t] where
  scans h := by
    rw [htext]
    exact Scans.front hblank hcomment (hfront _) h
  apart cs := by
    rw [htext]
    exact endsName_cons hname hperiod (marks ++ cs)

theorem parts_blank {text : String} (c : Char) (htext : text.toList = [c]) (hname : isNameChar c = false)
    (hblank : Text.isBlank c = true) : Parts text [] where
  scans h := by
    rw [htext]
    exact Scans.blank hblank h
  apart cs := by
    rw [htext]
    exact endsName_cons hname (by rintro rfl; exact absurd hblank (by decide)) cs

theorem parts_space : Parts " " [] := parts_blank ' ' (by decide) (by decide) (by decide)

theorem parts_newline : Parts "\n" [] := parts_blank '\n' (by decide) (by decide) (by decide)

theorem parts_comma : Parts "," [.comma] :=
  parts_mark ',' [] (by decide) (by decide) (by decide) (by decide) (by decide) fun _ => rfl

theorem parts_leftParen : Parts "(" [.leftParen] :=
  parts_mark '(' [] (by decide) (by decide) (by decide) (by decide) (by decide) fun _ => rfl

theorem parts_rightParen : Parts ")" [.rightParen] :=
  parts_mark ')' [] (by decide) (by decide) (by decide) (by decide) (by decide) fun _ => rfl

theorem parts_leftBrace : Parts "\x7b" [.leftBrace] :=
  parts_mark '\x7b' [] (by decide) (by decide) (by decide) (by decide) (by decide) fun _ => rfl

theorem parts_rightBrace : Parts "\x7d" [.rightBrace] :=
  parts_mark '\x7d' [] (by decide) (by decide) (by decide) (by decide) (by decide) fun _ => rfl

theorem parts_neck : Parts ":-" [.neck] :=
  parts_mark ':' ['-'] (by decide) (by decide) (by decide) (by decide) (by decide) fun _ => rfl

theorem follows_period : Follows "." [.period] where
  writes _ _ _ h := Scans.front (by decide) (by decide) (by rfl) h
  apart _ hcs := hcs.period

/-! ## Goals, rules and queries

For each kind of phrase there is a tree that stands for it and whose tokens its text is scanned to. -/

theorem writes_join {τ : Type} {sep : String} (hsep : Parts sep [.comma]) {text : τ → String}
    {yield : τ → List Token} :
    ∀ {xs : List τ}, xs ≠ [] → (∀ x ∈ xs, Writes (text x) (yield x)) →
      Writes (Text.join sep (xs.map text)) (separated yield xs)
  | [], hne, _ => absurd rfl hne
  | [x], _, h => h x List.mem_cons_self
  | x :: y :: more, _, h => by
    have hmore : Writes (Text.join sep ((y :: more).map text)) (separated yield (y :: more)) :=
      writes_join hsep (List.cons_ne_nil y more) fun z hz => h z (List.mem_cons_of_mem x hz)
    rw [List.map_cons, List.map_cons, Text.join_cons_cons, String.append_assoc]
    exact (h x List.mem_cons_self).append (hsep.before hmore)

theorem argument_name {a : Argument} (h : a.Plain) : (WordTree.name a.name).argument = a := by
  have hlooks := h.2
  cases a with
  | const n => exact if_neg (Bool.eq_false_iff.1 hlooks)
  | var n => exact if_pos hlooks

theorem writes_words {args : List Argument} (hne : args ≠ []) (h : ∀ a ∈ args, a.Plain) :
    Writes (Text.join "," (args.map Argument.name))
      (separated (fun w : WordTree => [w.token]) (args.map fun a => .name a.name)) := by
  have hnames : args.map Argument.name = (args.map fun a => WordTree.name a.name).map WordTree.text := by
    rw [List.map_map]
    rfl
  rw [hnames]
  refine writes_join parts_comma (by simpa using hne) fun w hw => ?_
  obtain ⟨a, ha, rfl⟩ := List.mem_map.1 hw
  exact writes_name (h a ha).1

/-- **A plain goal is written as the tokens of a tree that stands for it.** -/
theorem exists_goalTree {g : Goal} (h : g.Plain) : ∃ d : GoalTree, d.value = g ∧ Writes g.text d.tokens := by
  obtain ⟨functor, args⟩ := g
  have hargs : (args.map fun a => WordTree.name a.name).map WordTree.argument = args := by
    rw [List.map_map]
    exact (List.map_congr_left fun a ha => argument_name (h.args a ha)).trans (List.map_id args)
  refine ⟨⟨.name functor, by simpa [WordTree.isFunctor] using h.functor.2, args.map fun a => .name a.name⟩, ?_, ?_⟩
  · rw [GoalTree.value, hargs]
    rfl
  have hfunctor : Writes functor [.name functor] := writes_name h.functor.1
  cases args with
  | nil => exact hfunctor
  | cons a more =>
    have hwords : Writes (Text.join "," ((a :: more).map Argument.name))
        (separated (fun w : WordTree => [w.token]) ((a :: more).map fun a => .name a.name)) :=
      writes_words (List.cons_ne_nil a more) h.args
    have hall := hfunctor.append (parts_leftParen.before (hwords.append parts_rightParen.follows))
    rw [← String.append_assoc, ← String.append_assoc] at hall
    exact hall

theorem exists_trees {τ α : Type} {value : τ → α} {P : α → τ → Prop} {xs : List α}
    (h : ∀ x ∈ xs, ∃ d, value d = x ∧ P x d) : ∃ ds : List τ, ds.map value = xs ∧ ∀ d ∈ ds, P (value d) d := by
  induction xs with
  | nil => exact ⟨[], rfl, nofun⟩
  | cons x xs ih =>
    obtain ⟨d, rfl, hd⟩ := h x List.mem_cons_self
    obtain ⟨ds, rfl, hds⟩ := ih fun y hy => h y (List.mem_cons_of_mem _ hy)
    exact ⟨d :: ds, rfl, List.forall_mem_cons.2 ⟨hd, hds⟩⟩

theorem exists_goalTrees {gs : List Goal} (hne : gs ≠ []) (h : ∀ g ∈ gs, g.Plain) :
    ∃ ds : List GoalTree, ds ≠ [] ∧ ds.map GoalTree.value = gs ∧
      Writes (Text.join ", " (gs.map Goal.text)) (separated GoalTree.tokens ds) := by
  have hsep : Parts ", " [.comma] := parts_comma.append parts_space
  obtain ⟨ds, rfl, hds⟩ := exists_trees fun g hg => exists_goalTree (h g hg)
  have hds' : ds ≠ [] := fun hnil => hne (by rw [hnil]; rfl)
  refine ⟨ds, hds', rfl, ?_⟩
  rw [List.map_map]
  exact writes_join hsep hds' hds

theorem exists_body {gs : List Goal} (h : ∀ g ∈ gs, g.Plain) : ∃ b, RuleTree.goalsOf b = gs ∧
    Follows (if gs.isEmpty then "" else " :- " ++ Text.join ", " (gs.map Goal.text)) (RuleTree.bodyTokens b) := by
  by_cases hgs : gs = []
  · subst hgs
    exact ⟨none, rfl, follows_empty⟩
  · obtain ⟨ds, -, rfl, hds⟩ := exists_goalTrees hgs h
    have hneck : Parts " :- " [.neck] := (parts_space.append parts_neck).append parts_space
    refine ⟨some ds, rfl, ?_⟩
    rw [if_neg (by simpa using hgs)]
    exact hneck.before hds

theorem exists_features {gs : List Goal} (h : ∀ g ∈ gs, g.Plain) : ∃ f, RuleTree.goalsOf f = gs ∧
    Follows (if gs.isEmpty then "" else " \x7b" ++ Text.join ", " (gs.map Goal.text) ++ "\x7d")
      (RuleTree.featureTokens f) := by
  by_cases hgs : gs = []
  · subst hgs
    exact ⟨none, rfl, follows_empty⟩
  · obtain ⟨ds, -, rfl, hds⟩ := exists_goalTrees hgs h
    have hbrace : Parts " \x7b" [.leftBrace] := parts_space.append parts_leftBrace
    refine ⟨some ds, rfl, ?_⟩
    rw [if_neg (by simpa using hgs)]
    exact (hbrace.before hds).append parts_rightBrace.follows

/-- **A plain rule is written as the tokens of a tree that stands for it.** -/
theorem exists_ruleTree {r : Rule} (h : r.Plain) : ∃ d : RuleTree, d.value = r ∧ Writes r.text d.tokens := by
  obtain ⟨head, hhead, hheadText⟩ := exists_goalTree h.head
  obtain ⟨body, hbody, hbodyText⟩ := exists_body h.body
  obtain ⟨features, hfeatures, hfeaturesText⟩ := exists_features h.features
  refine ⟨⟨head, body, features⟩, ?_, ?_⟩
  · rw [RuleTree.value, hhead, hbody, hfeatures]
  have hall := hheadText.append (hbodyText.append (hfeaturesText.append follows_period))
  rw [← String.append_assoc, ← String.append_assoc] at hall
  exact hall

/-- **Plain rules, each on its line, are scanned to the tokens of trees that stand for them.** -/
theorem scans_lines {ds : List RuleTree} (h : ∀ d ∈ ds, Writes d.value.text d.tokens) :
    Scans (String.join (ds.map fun d => d.value.text ++ "\n")).toList (ds.flatMap RuleTree.tokens) := by
  induction ds with
  | nil => exact scans_nil
  | cons d ds ih =>
    have hds := ih fun d' hd' => h d' (List.mem_cons_of_mem d hd')
    rw [List.map_cons, String.join_cons, String.toList_append, List.flatMap_cons]
    exact (h d List.mem_cons_self).parted parts_newline hds

theorem Writes.scans {text : String} {ws : List Token} (h : Writes text ws) : Scans text.toList ws := by
  have hall := h endsName_nil scans_nil
  rwa [List.append_nil, List.append_nil] at hall

/-- **A query is read off the tokens of its tree.** -/
theorem read_of_queryTree {text : String} {d : QueryTree} (h : Writes text d.tokens) :
    Query.read text = .ok d.value := by
  obtain ⟨ts, hscan, hts⟩ := h.scans .start
  replace hscan : Token.scan text = .ok ts := hscan
  have hne : ts ≠ [] := by
    rintro rfl
    obtain ⟨w, hw⟩ := GoalTree.separated_head d.nonempty (if d.period then [.period] else [])
    rw [show separated GoalTree.tokens d.goals ++ _ = [] from hts.symm] at hw
    cases hw
  have hread : Query.read text = Grammar.read (whole "query" query) text := by
    simp [Query.read, hscan, hne, bind, Except.bind]
  rw [hread, read_of_scan hscan, whole_of_ok "query" (query_of_tree hts)]
  rfl

end Grammar

open Grammar in
/-- **Reading undoes writing.**  Rules with plain names, each written on a line of its own, are read as these rules,
and a query of plain goals is read as this query from its written form, whether a period ends it or not. -/
theorem read_written {rules : List Rule} (hrules : ∀ r ∈ rules, r.Plain) {query : Query} (hne : query.goals ≠ [])
    (hquery : ∀ g ∈ query.goals, g.Plain) :
    Rule.readAll (String.join (rules.map fun r => r.text ++ "\n")) = .ok rules ∧
      Query.read query.text = .ok query ∧ Query.read (query.text ++ ".") = .ok query := by
  constructor
  · obtain ⟨ds, rfl, hds⟩ := exists_trees fun r hr => exists_ruleTree (hrules r hr)
    obtain ⟨ts, hscan, hts⟩ := scans_lines hds .start
    replace hscan : Token.scan (String.join (ds.map fun d => d.value.text ++ "\n")) = .ok ts := hscan
    rw [List.map_map, Rule.readAll]
    exact (read_of_scan hscan).trans (by rw [program_of_trees hts]; rfl)
  · obtain ⟨goals⟩ := query
    obtain ⟨ds, hds, rfl, hwrites⟩ := exists_goalTrees hne hquery
    refine ⟨read_of_queryTree (d := ⟨ds, hds, false⟩) ?_, read_of_queryTree (d := ⟨ds, hds, true⟩) ?_⟩
    · rw [QueryTree.tokens, if_neg Bool.false_ne_true, List.append_nil]
      exact hwrites
    · exact hwrites.append follows_period

/-- Rules in whose names periods and hyphens stand next to the marks around them. -/
def dottedRules : List Rule :=
  [⟨.ofNames "path" ["X", "Y"], [.ofNames "edge-1" ["X", "_z.1"], .ofNames "path" ["_z.1", "Y"]],
    [.ofNames "step" ["v1.0-b"]]⟩,
    ⟨.ofNames "edge-1" ["a.b", "-"], [], [.ofNames "w" []]⟩, .fact (.ofNames "halt-" [])]

def dottedQuery : Query := ⟨[.ofNames "halt-" [], .ofNames "path" ["a.b", "X"]]⟩

theorem read_written_dotted : (∀ r ∈ dottedRules, r.Plain) ∧ (∀ g ∈ dottedQuery.goals, g.Plain) ∧
    Rule.readAll
        "path(X,Y) :- edge-1(X,_z.1), path(_z.1,Y) \x7bstep(v1.0-b)\x7d.\nedge-1(a.b,-) \x7bw\x7d.\nhalt-.\n" =
      .ok dottedRules ∧
    Query.read "halt-, path(a.b,X)" = .ok dottedQuery ∧ Query.read "halt-, path(a.b,X)." = .ok dottedQuery := by
  have hrules : ∀ r ∈ dottedRules, r.Plain := by decide +kernel
  have hgoals : ∀ g ∈ dottedQuery.goals, g.Plain := by decide +kernel
  have hlines : String.join (dottedRules.map fun r => r.text ++ "\n") =
      "path(X,Y) :- edge-1(X,_z.1), path(_z.1,Y) \x7bstep(v1.0-b)\x7d.\nedge-1(a.b,-) \x7bw\x7d.\nhalt-.\n" := by
        decide +kernel
  obtain ⟨hread, hquery, hperiod⟩ := read_written hrules (List.cons_ne_nil _ _) hgoals
  exact ⟨hrules, hgoals, hlines ▸ hread, hquery, hperiod⟩

end ProofWalk
