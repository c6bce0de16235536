import ProofWalk.Proofs.CanonicalForm
import ProofWalk.Proofs.NumberedFeatures
import ProofWalk.Proofs.VariableRegisters
import ProofWalk.Prove.Answer
/-!
# Proofs.AnswerTexts — what the text of an answer tells

An answer is known by the text of its goal.  Between the values of the shown variables stand the same texts in all
answers to a query, and after each value a comma or a parenthesis.  So where no value holds one of these marks, the
text tells the values (`groundGoals_inj`), and these tell what the variables stand for if no constant is spelled
like a variable (`goal_eq_iff`).

Both conditions are needed.  A constant with a comma in its name can be taken for two, and two variables that are
unbound in a state are shown by the numbers of their cells, which differ from state to state of one form.
-/
namespace ProofWalk

/-! ## Texts between marks

A text without marks is told from what follows if that begins with a mark.  So texts that alternate in this way are
equal only part by part. -/

def isMark (c : Char) : Bool := c == ',' || c == ')'

/-- **A text in which no argument ends.** -/
def Unmarked (text : String) : Prop := ∀ c ∈ text.toList, isMark c = false

instance (text : String) : Decidable (Unmarked text) :=
  decidable_of_iff (text.toList.all (fun c => !isMark c) = true) (by simp [Unmarked])

def Marked (cs : List Char) : Prop := ∃ c, cs.head? = some c ∧ isMark c = true

/-- **What stands before a mark can be told from what follows.** -/
theorem append_inj_of_unmarked {t u : String} (ht : Unmarked t) (hu : Unmarked u)
    {cs ds : List Char} (hcs : Marked cs) (hds : Marked ds) (h : t.toList ++ cs = u.toList ++ ds) :
    t = u ∧ cs = ds := by
  obtain ⟨htu, hrest⟩ := append_inj_of_stop ht hu hcs hds h
  exact ⟨String.toList_inj.1 htu, hrest⟩

/-! ## Goals with their variables bound

An argument is written as its value if it is a shown variable, and as it stands otherwise.  `Legible` is what has to
hold of the values of one argument in two answers: they are the same, or neither has a mark in it. -/

namespace Answer

def argumentText (bindings : SortedMap String String) : Argument → String
  | .var name => bindings.getD name name
  | .const name => name

variable {b b' : SortedMap String String}

theorem groundGoal_eq (b : SortedMap String String) (g : Goal) : groundGoal b g =
    if g.args = [] then g.functor else g.functor ++ "(" ++ Text.join "," (g.args.map (argumentText b)) ++ ")" := by
  show (if (g.args.map (argumentText b)).isEmpty then g.functor else
    g.functor ++ "(" ++ Text.join "," (g.args.map (argumentText b)) ++ ")") = _
  by_cases h : g.args = []
  · rw [if_pos h, h]
    rfl
  · rw [if_neg h, if_neg (by simpa using h)]

/-- **Values that can be told from the text of an answer**: the values of an argument are the same or without marks. -/
def Legible (b b' : SortedMap String String) (args : List Argument) : Prop :=
  ∀ a ∈ args, argumentText b a = argumentText b' a ∨ Unmarked (argumentText b a) ∧ Unmarked (argumentText b' a)

theorem arguments_inj : ∀ {args : List Argument} {cs ds : List Char}, args ≠ [] →
    Legible b b' args → Marked cs → Marked ds →
    (Text.join "," (args.map (argumentText b))).toList ++ cs =
      (Text.join "," (args.map (argumentText b'))).toList ++ ds →
    (∀ a ∈ args, argumentText b a = argumentText b' a) ∧ cs = ds
  | [], _, _, hne, _, _, _, _ => absurd rfl hne
  | [a], cs, ds, _, hl, hcs, hds, h => by
    obtain ⟨ha, rest⟩ := first hl hcs hds h
    exact ⟨by simpa using ha, rest⟩
  | a :: a' :: more, cs, ds, _, hl, hcs, hds, h => by
    have hcomma : ∀ es : List Char, Marked (",".toList ++ es) := fun es => ⟨',', rfl, by decide⟩
    simp only [List.map_cons, Text.join_cons_cons, String.toList_append, List.append_assoc] at h
    obtain ⟨ha, hrest⟩ := first hl (hcomma _) (hcomma _) h
    obtain ⟨hmore, hend⟩ :=
      arguments_inj (List.cons_ne_nil a' more) (fun c hc => hl c (List.mem_cons_of_mem a hc)) hcs hds
      (List.append_cancel_left hrest)
    exact ⟨List.forall_mem_cons.2 ⟨ha, hmore⟩, hend⟩
where
  first {a : Argument} {more : List Argument} {cs ds : List Char} (hl : Legible b b' (a :: more)) (hcs : Marked cs)
      (hds : Marked ds) (h : (argumentText b a).toList ++ cs = (argumentText b' a).toList ++ ds) :
      argumentText b a = argumentText b' a ∧ cs = ds := by
    rcases hl a List.mem_cons_self with ha | ⟨hu, hu'⟩
    · rw [ha] at h
      exact ⟨ha, List.append_cancel_left h⟩
    · exact append_inj_of_unmarked hu hu' hcs hds h

theorem groundGoal_inj {g : Goal} {cs ds : List Char} (hl : Legible b b' g.args)
    (h : (groundGoal b g).toList ++ cs = (groundGoal b' g).toList ++ ds) :
    (∀ a ∈ g.args, argumentText b a = argumentText b' a) ∧ cs = ds := by
  rw [groundGoal_eq, groundGoal_eq] at h
  by_cases hargs : g.args = []
  · rw [if_pos hargs, if_pos hargs] at h
    exact ⟨by rw [hargs]; exact nofun, List.append_cancel_left h⟩
  · rw [if_neg hargs, if_neg hargs] at h
    simp only [String.toList_append, List.append_assoc] at h
    have hparen : ∀ es : List Char, Marked (")".toList ++ es) := fun es => ⟨')', rfl, by decide⟩
    obtain ⟨hall, hend⟩ :=
      arguments_inj hargs hl (hparen cs) (hparen ds) (List.append_cancel_left (List.append_cancel_left h))
    exact ⟨hall, List.append_cancel_left hend⟩

theorem groundGoals_inj : ∀ {goals : List Goal}, (∀ g ∈ goals, Legible b b' g.args) →
    Text.join ", " (goals.map (groundGoal b)) = Text.join ", " (goals.map (groundGoal b')) →
    ∀ g ∈ goals, ∀ a ∈ g.args, argumentText b a = argumentText b' a
  | [], _, _ => nofun
  | [g], hl, h => by
    have h' : (groundGoal b g).toList ++ [] = (groundGoal b' g).toList ++ [] := congrArg (·.toList ++ []) h
    simpa using (groundGoal_inj (hl g List.mem_cons_self) h').1
  | g :: g' :: more, hl, h => by
    have h' := congrArg String.toList h
    simp only [List.map_cons, Text.join_cons_cons, String.toList_append, List.append_assoc] at h'
    obtain ⟨hg, hrest⟩ := groundGoal_inj (hl g List.mem_cons_self) h'
    have hmore := groundGoals_inj (fun k hk => hl k (List.mem_cons_of_mem g hk))
      (String.toList_inj.1 (List.append_cancel_left hrest))
    exact List.forall_mem_cons.2 ⟨hg, hmore⟩

end Answer

/-! ## Values and what is shown for them

`Readable` asks of a constant that its name has no mark in it and does not begin like a variable's; then what is
shown for it tells it from all other values. -/

/-- **A constant that is not mistaken for something else in the text of an answer**: its name has no mark in it and
does not begin like a variable's. -/
def Readable (symbols : Symbols) : Binding → Prop
  | .const c => ∃ name, symbols.get? c = some name ∧ Unmarked name ∧ Answer.isShown name = true
  | _ => True

instance (symbols : Symbols) : DecidablePred (Readable symbols)
  | .const c => match h : symbols.get? c with
    | some name => decidable_of_iff (Unmarked name ∧ Answer.isShown name = true)
      ⟨fun hname => ⟨name, h, hname⟩, fun ⟨_, h', hname⟩ => Option.some.inj (h.symm.trans h') ▸ hname⟩
    | none => .isFalse fun ⟨_, h', _⟩ => nomatch h.symm.trans h'
  | .free _ => .isTrue trivial
  | .unset => .isTrue trivial

theorem unmarked_numbered (i : Nat) : Unmarked s!"_{i}" := by
  intro c hc
  rw [String.toList_append] at hc
  rcases List.mem_append.1 hc with hc | hc
  · obtain rfl : c = '_' := List.mem_singleton.1 hc
    decide
  · have hdigit : c.isDigit = true := Nat.isDigit_of_mem_toDigits (by decide) (by decide) (Nat.toList_repr ▸ hc)
    refine Bool.eq_false_iff.2 fun hmark => ?_
    have hc : c = ',' ∨ c = ')' := by simpa [isMark] using hmark
    rcases hc with rfl | rfl <;> exact absurd hdigit (by decide)

namespace Answer

variable {symbols : Symbols}

theorem showBinding_const {c : Nat} {name : String} (h : symbols.get? c = some name) :
    showBinding symbols (.const c) = name := by
  rw [showBinding, Symbols.name, h]
  rfl

theorem unmarked_showBinding : ∀ {v : Binding}, Readable symbols v → Unmarked (showBinding symbols v)
  | .const c, ⟨name, hname, hunmarked, _⟩ => by rwa [showBinding_const hname]
  | .free i, _ => unmarked_numbered i
  | .unset, _ => by
    intro c hc
    obtain rfl : c = '_' := List.mem_singleton.1 (show c ∈ "_".toList from hc)
    decide

theorem isShown_numbered (i : Nat) : isShown s!"_{i}" = false := by
  rw [isShown, String.toList_append]
  rfl

def isConst : Binding → Bool
  | .const _ => true
  | _ => false

theorem isShown_showBinding : ∀ {v : Binding}, Readable symbols v → isShown (showBinding symbols v) = isConst v
  | .const c, ⟨name, hname, _, hshown⟩ => by rw [showBinding_const hname, hshown, isConst]
  | .free i, _ => isShown_numbered i
  | .unset, _ => (by decide : isShown "_" = false)

theorem showBinding_inj {v w : Binding} (hv : Readable symbols v) (hw : Readable symbols w)
    (h : showBinding symbols v = showBinding symbols w) : v = w := by
  have hkind : isConst v = isConst w := by rw [← isShown_showBinding hv, h, isShown_showBinding hw]
  cases v <;> cases w <;> try cases hkind
  case const.const c d =>
    obtain ⟨name, hname, -⟩ := hv
    obtain ⟨name', hname', -⟩ := hw
    rw [showBinding_const hname, showBinding_const hname'] at h
    exact congrArg Binding.const (Interned.key_injective hname hname' h)
  case free.free i j => exact congrArg Binding.free (numbered_inj h)
  case free.unset i => exact absurd h (numbered_ne_blank i)
  case unset.free j => exact absurd h.symm (numbered_ne_blank j)
  case unset.unset => rfl

/-! ## The shown variables of a query

The values of the shown variables decide the text of the answer, and where they are readable they are decided by it. -/

def shownValues (q : QueryProgram) (s : State) : List Binding :=
  (q.names.zipIdx.filter fun v => isShown v.1).map fun v => s.register v.2

variable {q : QueryProgram} {s t : State}

theorem shownValues_eq_iff : shownValues q s = shownValues q t ↔
    ∀ i name, q.names[i]? = some name → isShown name = true → s.register i = t.register i := by
  rw [shownValues, shownValues, List.map_inj_left]
  constructor
  · exact fun h i name hi hshown => h (name, i) (List.mem_filter.2 ⟨List.mem_zipIdx_iff_getElem?.2 hi, hshown⟩)
  · intro h v hv
    obtain ⟨hmem, hshown⟩ := List.mem_filter.1 hv
    exact h v.2 v.1 (List.mem_zipIdx_iff_getElem?.1 hmem) hshown

theorem mem_shownValues {i : Nat} {name : String} (hi : q.names[i]? = some name)
    (hshown : isShown name = true) (s : State) : s.register i ∈ shownValues q s :=
  List.mem_map.2 ⟨(name, i), List.mem_filter.2 ⟨List.mem_zipIdx_iff_getElem?.2 hi, hshown⟩, rfl⟩

theorem bindingsOf_congr (h : shownValues q s = shownValues q t) :
    bindingsOf s q.names symbols = bindingsOf t q.names symbols := by
  rw [shownValues, shownValues, List.map_inj_left] at h
  exact congrArg (Std.ExtTreeMap.ofList · compare) (List.map_congr_left fun v hv => by rw [h v hv])

theorem getElem?_bindingsOf {names : List String} (hnodup : names.Nodup) {name text : String} :
    (bindingsOf s names symbols)[name]? = some text ↔
      ∃ i, names[i]? = some name ∧ isShown name = true ∧ text = showBinding symbols (s.register i) := by
  have hkeys : (((names.zipIdx.filter fun v => isShown v.1).map fun v =>
      (v.1, showBinding symbols (s.register v.2))).map (·.1)).Nodup := by
    rw [List.map_map]
    have hsub := (List.filter_sublist (l := names.zipIdx) (p := fun v => isShown v.1)).map Prod.fst
    rw [List.zipIdx_map_fst] at hsub
    exact hsub.nodup hnodup
  rw [bindingsOf, SortedMap.getElem?_ofList hkeys, List.mem_map]
  constructor
  · rintro ⟨v, hv, heq⟩
    cases heq
    obtain ⟨hmem, hshown⟩ := List.mem_filter.1 hv
    exact ⟨v.2, List.mem_zipIdx_iff_getElem?.1 hmem, hshown, rfl⟩
  · rintro ⟨i, hi, hshown, rfl⟩
    exact ⟨(name, i), List.mem_filter.2 ⟨List.mem_zipIdx_iff_getElem?.2 hi, hshown⟩, rfl⟩

theorem argumentText_shown (hnodup : q.names.Nodup) {i : Nat} {name : String} (hi : q.names[i]? = some name)
    (hshown : isShown name = true) :
    argumentText (bindingsOf s q.names symbols) (.var name) = showBinding symbols (s.register i) := by
  rw [argumentText, Std.ExtTreeMap.getD_eq_getD_getElem?, (getElem?_bindingsOf hnodup).2 ⟨i, hi, hshown, rfl⟩]
  rfl

def goalText (q : QueryProgram) (symbols : Symbols) (s : State) : String :=
  Text.join ", " (q.query.goals.map (groundGoal (bindingsOf s q.names symbols)))

theorem mem_of_standIns {names : List String} {name : String} (h : name ∈ standIns names)
    (hshown : isShown name = true) : name ∈ names := by
  obtain ⟨i, hi⟩ := List.mem_iff_getElem?.1 h
  rw [standIns, List.getElem?_map, getElem?_ruleVars, Option.map_map] at hi
  obtain ⟨name', hname', htext⟩ := Option.map_eq_some_iff.1 hi
  have htext : (ruleVar (0 + (names.take i).count "_") name').text = name := htext
  by_cases hblank : name' = "_"
  · rw [hblank, ruleVar_blank] at htext
    rw [← htext, RuleVar.text, isShown_numbered] at hshown
    cases hshown
  · rw [ruleVar_of_ne hblank] at htext
    exact htext ▸ List.mem_of_getElem? hname'

theorem legible_bindingsOf (hnodup : q.names.Nodup) (hs : ∀ v ∈ shownValues q s, Readable symbols v)
    (ht : ∀ v ∈ shownValues q t, Readable symbols v) (args : List Argument) :
    Legible (bindingsOf s q.names symbols) (bindingsOf t q.names symbols) args := by
  have hunmarked : ∀ {u : State} {name text : String}, (∀ v ∈ shownValues q u, Readable symbols v) →
      (bindingsOf u q.names symbols)[name]? = some text → Unmarked text := fun {u name text} hu h => by
    obtain ⟨i, hi, hshown, rfl⟩ := (getElem?_bindingsOf hnodup).1 h
    exact unmarked_showBinding (hu _ (mem_shownValues hi hshown u))
  intro a _
  cases a with
  | const name => exact .inl rfl
  | var name =>
    rw [argumentText, argumentText, Std.ExtTreeMap.getD_eq_getD_getElem?, Std.ExtTreeMap.getD_eq_getD_getElem?]
    -- both states have a value for the variable, or neither has
    cases hb : (bindingsOf s q.names symbols)[name]? with
    | some text =>
      obtain ⟨i, hi, hshown, -⟩ := (getElem?_bindingsOf hnodup).1 hb
      have hb' : (bindingsOf t q.names symbols)[name]? = some (showBinding symbols (t.register i)) :=
        (getElem?_bindingsOf hnodup).2 ⟨i, hi, hshown, rfl⟩
      rw [hb']
      exact .inr ⟨hunmarked hs hb, hunmarked ht hb'⟩
    | none =>
      cases hb' : (bindingsOf t q.names symbols)[name]? with
      | none => exact .inl rfl
      | some text =>
        obtain ⟨i, hi, hshown, -⟩ := (getElem?_bindingsOf hnodup).1 hb'
        rw [(getElem?_bindingsOf hnodup).2 ⟨i, hi, hshown, rfl⟩] at hb
        cases hb

/-- **Two states give answers with the same text just if the shown variables stand for the same in them**, if all
that they stand for is readable. -/
theorem goalText_eq_iff {p : Program} {query : Query} {table table' : Symbols}
    (hquery : p.compileQuery query table = (.ok q, table')) (hs : ∀ v ∈ shownValues q s, Readable symbols v)
    (ht : ∀ v ∈ shownValues q t, Readable symbols v) :
    goalText q symbols s = goalText q symbols t ↔ shownValues q s = shownValues q t := by
  obtain ⟨rfl, hnodup, hnames⟩ := names_compileQuery hquery
  constructor
  · intro h
    have hvalues := groundGoals_inj (fun g _ => legible_bindingsOf hnodup hs ht g.args) h
    rw [shownValues_eq_iff]
    intro i name hi hshown
    obtain ⟨g, hg, hname⟩ := List.mem_flatMap.1 (mem_of_standIns (hnames name (List.mem_of_getElem? hi)) hshown)
    obtain ⟨a, ha, hvar⟩ := List.mem_filterMap.1 hname
    cases a with
    | const c => cases hvar
    | var n =>
      cases hvar
      have hvalue := hvalues g hg _ ha
      rw [argumentText_shown hnodup hi hshown, argumentText_shown hnodup hi hshown] at hvalue
      exact showBinding_inj (hs _ (mem_shownValues hi hshown s)) (ht _ (mem_shownValues hi hshown t)) hvalue
  · intro h
    rw [goalText, goalText, bindingsOf_congr h]

/-! ## Forms of completed states

A completed state's form tells its constants, so that states of one form give one answer if no shown variable is
unbound. -/

theorem register_of_canonical {i c : Nat} (hcompleted : s.completed = true) (h : s.canonical = t.canonical)
    (hi : s.register i = .const c) : t.register i = .const c := by
  have hcompleted' : t.completed = true := (flags_of_canonical h).1 ▸ hcompleted
  rw [canonical_eq_map, canonical_eq_map, outline_of_completed hcompleted, outline_of_completed hcompleted'] at h
  have hrest : (State.outlineRegisters s.registers).map (tokenOf s.heap s.freeCells) ++ [] =
      (State.outlineRegisters t.registers).map (tokenOf t.heap t.freeCells) ++ [] :=
        congrArg (· ++ []) (List.cons.inj h).2
  obtain ⟨hregisters, -⟩ := outlineRegisters_inj (fun _ => rfl) (fun _ => rfl) hrest
  have htoken := congrArg (·[i]?) hregisters
  simp only [List.getElem?_map] at htoken
  rw [State.register] at hi
  split at hi
  · rename_i cell hcell
    rw [hcell, Option.map_some, tokenOf, hi] at htoken
    obtain ⟨r, hr, hmark⟩ := Option.map_eq_some_iff.1 htoken.symm
    rcases r with _ | cell'
    · cases hmark
    · rw [tokenOf] at hmark
      rw [State.register, hr]
      dsimp only
      split at hmark
      · rename_i d hd
        rw [hd, Mark.const.inj hmark]
      · cases hmark
      · cases hmark
  · cases hi

theorem shownValues_of_canonical (hcompleted : s.completed = true) (h : s.canonical = t.canonical)
    (hconst : ∀ v ∈ shownValues q s, isConst v = true) : shownValues q s = shownValues q t := by
  rw [shownValues_eq_iff]
  intro i name hi hshown
  have hvalue := hconst _ (mem_shownValues hi hshown s)
  cases hr : s.register i with
  | const c => exact (register_of_canonical hcompleted h hr).symm
  | free j => rw [hr] at hvalue; cases hvalue
  | unset => rw [hr] at hvalue; cases hvalue

end Answer

end ProofWalk
