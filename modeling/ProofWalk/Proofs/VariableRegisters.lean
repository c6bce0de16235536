import ProofWalk.Proofs.LeftmostResolution
/-!
# Proofs.VariableRegisters — which occurrences of variables share a register

Code names one register for each occurrence of a variable, in order.  Two occurrences share a register if they have
the same stand-in: a name stands for itself, and the `k`-th `_` of a clause for `_k` (`Shares`).  So every `_` has a
register of its own, and names are told apart, unless the clause holds a variable that is named like one of these
(`Shares.identifies_iff`).
-/
namespace ProofWalk

/-! ## Occurrences and registers

Occurrences are told by their place in the clause, head first, and registers by the instructions that name them. -/

/-- The names in the argument positions of goals that hold variables, in order. -/
def occurrences (goals : List Goal) : List String := goals.flatMap fun g => g.args.filterMap Argument.varName?

def Rule.goals (r : Rule) : List Goal := r.head :: (r.features ++ r.body)

def Instruction.register? : Instruction → Option Nat
  | initFreeVar register _ => some register
  | unifyBoundVar register _ => some register
  | pushFreeVar register => some register
  | pushBoundVar register => some register
  | featureVar register => some register
  | _ => none

/-- **The registers that code names**, one for each instruction about a variable. -/
def registersNamed (code : List Instruction) : List Nat := code.filterMap Instruction.register?

/-- **Code that identifies variables by their names**: it names one register for each occurrence, and the same one for
two of them if they have the same name other than `_`. -/
structure Identifies (names : List String) (code : List Instruction) : Prop where
  length : (registersNamed code).length = names.length
  same_iff : ∀ i j, i < names.length → j < names.length → i ≠ j →
    ((registersNamed code)[i]? = (registersNamed code)[j]? ↔ names[i]? = names[j]? ∧ names[i]? ≠ some "_")

def ruleVars : Nat → List String → List RuleVar
  | _, [] => []
  | count, name :: rest => ruleVar count name :: ruleVars (countAfter count (.var name)) rest

/-- **The stand-ins of occurrences**: a name stands for itself, and `_` for `_k` if it is the `k`-th. -/
def standIns (names : List String) : List String := (ruleVars 0 names).map RuleVar.text

/-- **Code in which two occurrences share a register if they have the same stand-in.** -/
structure Shares (names : List String) (code : List Instruction) : Prop where
  length : (registersNamed code).length = names.length
  same_iff : ∀ i j, i < names.length → j < names.length →
    ((registersNamed code)[i]? = (registersNamed code)[j]? ↔ (standIns names)[i]? = (standIns names)[j]?)

/-- **No variable is named like the stand-in of a `_`.** -/
def Unlike (names : List String) : Prop := ∀ rank, 1 ≤ rank → rank ≤ names.count "_" → s!"_{rank}" ∉ names

theorem countAfter_add (count : Nat) (name : String) (rest : List String) :
    countAfter count (.var name) + rest.count "_" = count + (name :: rest).count "_" := by
  rw [List.count_cons, countAfter]
  by_cases h : name = "_"
  · subst h
    simp only [if_true, beq_self_eq_true]
    omega
  · rw [if_neg h, if_neg (by simpa using h), Nat.add_zero]

theorem ruleVars_append (count : Nat) (names names' : List String) :
    ruleVars count (names ++ names') = ruleVars count names ++ ruleVars (count + names.count "_") names' := by
  induction names generalizing count with
  | nil => rfl
  | cons name names ih => rw [List.cons_append, ruleVars, ruleVars, ih, countAfter_add, List.cons_append]

/-- **The variable of an occurrence** depends on how many `_` come before. -/
theorem getElem?_ruleVars (count : Nat) (names : List String) (i : Nat) :
    (ruleVars count names)[i]? = names[i]?.map (ruleVar (count + (names.take i).count "_")) := by
  induction names generalizing count i with
  | nil => rfl
  | cons name names ih =>
    cases i with
    | zero => rfl
    | succ i =>
      rw [ruleVars, List.getElem?_cons_succ, ih, countAfter_add, List.getElem?_cons_succ, List.take_succ_cons]

theorem length_ruleVars (count : Nat) (names : List String) : (ruleVars count names).length = names.length := by
  induction names generalizing count with
  | nil => rfl
  | cons name names ih => rw [ruleVars, List.length_cons, List.length_cons, ih]

/-! ## Names and stand-ins

All about lists of names: which of them have equal stand-ins, and when these are the ones with equal names. -/

theorem ruleVar_of_ne {name : String} (h : name ≠ "_") (count : Nat) : (ruleVar count name).text = name := by
  rw [ruleVar, if_neg h, RuleVar.text]

theorem ruleVar_blank (count : Nat) : ruleVar count "_" = .anonymous (count + 1) := rfl

theorem numbered_inj {i j : Nat} (h : s!"_{i}" = s!"_{j}") : i = j :=
  RuleVar.anonymous.inj (RuleVar.text_inj (P := fun _ => False) nofun (.inl ⟨i, rfl⟩) (.inl ⟨j, rfl⟩) h)

theorem numbered_ne_blank (rank : Nat) : s!"_{rank}" ≠ "_" := by
  intro h
  have hlist := congrArg String.toList h
  rw [String.toList_append] at hlist
  exact Nat.toDigits_ne_nil ((Nat.toList_repr).symm.trans (List.cons.inj hlist).2)

theorem ruleVar_text_ne_blank (count : Nat) (name : String) : (ruleVar count name).text ≠ "_" := by
  by_cases h : name = "_"
  · rw [h, ruleVar_blank]
    exact numbered_ne_blank _
  · rwa [ruleVar_of_ne h]

theorem getElem?_standIns {names : List String} {i : Nat} {name : String} (h : names[i]? = some name) :
    (standIns names)[i]? = some (ruleVar ((names.take i).count "_") name).text := by
  rw [standIns, List.getElem?_map, getElem?_ruleVars, h, Nat.zero_add]
  rfl

theorem count_take_succ {names : List String} {i : Nat} (h : names[i]? = some "_") :
    (names.take (i + 1)).count "_" = (names.take i).count "_" + 1 := by
  rw [List.take_add_one, h, List.count_append]
  rfl

theorem count_take_mono (names : List String) {i j : Nat} (h : i ≤ j) :
    (names.take i).count "_" ≤ (names.take j).count "_" :=
  (List.take_prefix_take_left h).sublist.count_le "_"

theorem eq_of_count_take {names : List String} {i j : Nat} (hi : names[i]? = some "_") (hj : names[j]? = some "_")
    (h : (names.take i).count "_" = (names.take j).count "_") : i = j := by
  have hi' := count_take_succ hi
  have hj' := count_take_succ hj
  rcases Nat.lt_trichotomy i j with hlt | rfl | hlt
  · have hle : (names.take (i + 1)).count "_" ≤ (names.take j).count "_" := count_take_mono names hlt
    omega
  · rfl
  · have hle : (names.take (j + 1)).count "_" ≤ (names.take i).count "_" := count_take_mono names hlt
    omega

theorem exists_blank {names : List String} {rank : Nat} (h : rank < names.count "_") :
    ∃ i, names[i]? = some "_" ∧ (names.take i).count "_" = rank := by
  induction names generalizing rank with
  | nil => exact absurd h (Nat.not_lt_zero rank)
  | cons name names ih =>
    by_cases hname : name = "_"
    · subst hname
      rw [List.count_cons_self] at h
      cases rank with
      | zero => exact ⟨0, rfl, rfl⟩
      | succ rank =>
        obtain ⟨i, hi, hrank⟩ := ih (Nat.lt_of_succ_lt_succ h)
        exact ⟨i + 1, hi, by rw [List.take_succ_cons, List.count_cons_self, hrank]⟩
    · rw [List.count_cons_of_ne hname] at h
      obtain ⟨i, hi, hrank⟩ := ih h
      exact ⟨i + 1, hi, by rw [List.take_succ_cons, List.count_cons_of_ne hname, hrank]⟩

theorem Unlike.ne {names : List String} (h : Unlike names) {i j : Nat} (hi : names[i]? = some "_") {name : String}
    (hj : names[j]? = some name) : (RuleVar.anonymous ((names.take i).count "_" + 1)).text ≠ name := by
  rintro rfl
  have hle : (names.take (i + 1)).count "_" ≤ names.count "_" := (List.take_sublist (i + 1) names).count_le "_"
  rw [count_take_succ hi] at hle
  exact h _ (Nat.le_add_left 1 _) hle (List.mem_of_getElem? hj)

/-- **Occurrences have the same stand-in if they have the same name other than `_`**, where no name is like a
stand-in. -/
theorem Unlike.standIns_iff {names : List String} (h : Unlike names) {i j : Nat}
    (hij : i ≠ j) {name name' : String} (hi : names[i]? = some name) (hj : names[j]? = some name') :
    (ruleVar ((names.take i).count "_") name).text = (ruleVar ((names.take j).count "_") name').text ↔
      name = name' ∧ name ≠ "_" := by
  by_cases hname : name = "_" <;> by_cases hname' : name' = "_"
  · subst hname hname'
    exact iff_of_false (fun heq => hij (eq_of_count_take hi hj (Nat.succ.inj (numbered_inj heq)))) fun hne =>
      hne.2 rfl
  · subst hname
    rw [ruleVar_blank, ruleVar_of_ne hname']
    exact iff_of_false (h.ne hi hj) fun hne => hne.2 rfl
  · subst hname'
    rw [ruleVar_blank, ruleVar_of_ne hname]
    exact iff_of_false (fun heq => h.ne hj hi heq.symm) fun hne => hname hne.1
  · rw [ruleVar_of_ne hname, ruleVar_of_ne hname']
    exact (and_iff_left hname).symm

/-- **Registers tell variables apart as their names do just where no variable is named like the stand-in of a `_`.** -/
theorem Shares.identifies_iff {names : List String} {code : List Instruction} (h : Shares names code) :
    Identifies names code ↔ Unlike names := by
  constructor
  · -- a variable named like the stand-in of some `_` would share its register
    intro hidentifies rank hpos hle hmem
    obtain ⟨i, hi, hrank⟩ := exists_blank (show rank - 1 < names.count "_" by omega)
    obtain ⟨j, hj⟩ := List.mem_iff_getElem?.1 hmem
    have hlt := (List.getElem?_eq_some_iff.1 hi).1
    have hlt' := (List.getElem?_eq_some_iff.1 hj).1
    have hij : i ≠ j := by
      rintro rfl
      rw [hi] at hj
      exact numbered_ne_blank rank (Option.some.inj hj).symm
    have hsame : (standIns names)[i]? = (standIns names)[j]? := by
      rw [getElem?_standIns hi, getElem?_standIns hj, hrank, ruleVar_blank, ruleVar_of_ne (numbered_ne_blank rank),
        Nat.sub_add_cancel hpos]
      rfl
    exact ((hidentifies.same_iff i j hlt hlt' hij).1 ((h.same_iff i j hlt hlt').2 hsame)).2 hi
  · intro hunlike
    refine ⟨h.length, fun i j hlt hlt' hij => ?_⟩
    have hi := List.getElem?_eq_getElem hlt
    have hj := List.getElem?_eq_getElem hlt'
    rw [h.same_iff i j hlt hlt', getElem?_standIns hi, getElem?_standIns hj, Option.some_inj,
      hunlike.standIns_iff hij hi hj, hi, hj, Option.some_inj, Ne, Ne, Option.some_inj]

/-! ## Compiling

`Names` follows the compiler from arguments to clauses: the registers that a piece of code names are those that the
scope has for its stand-ins, and the scope only grows. -/

/-- **Code that names the registers of occurrences**, compiled in one scope and leaving another. -/
structure Names (s : Scope) (names : List String) (code : List Instruction) (s' : Scope) : Prop where
  grows : s.names <+: s'.names
  anonymous : s'.anonymous = s.anonymous + names.count "_"
  found : ∀ v ∈ ruleVars s.anonymous names, v.text ∈ s'.names
  registers : registersNamed code = (ruleVars s.anonymous names).map (registerOf s'.names)
  known : ∀ name ∈ s'.names, name ∈ s.names ∨ ∃ v ∈ ruleVars s.anonymous names, v.text = name
  nodup : s.names.Nodup → s'.names.Nodup

namespace Names

theorem silent (code : List Instruction) (h : registersNamed code = []) (s : Scope) : Names s [] code s :=
  ⟨List.prefix_rfl, rfl, nofun, h, fun _ => .inl, id⟩

theorem text_ne_blank {count : Nat} {names : List String} {v : RuleVar} (h : v ∈ ruleVars count names) :
    v.text ≠ "_" := by
  obtain ⟨i, hi⟩ := List.mem_iff_getElem?.1 h
  rw [getElem?_ruleVars] at hi
  obtain ⟨name, -, rfl⟩ := Option.map_eq_some_iff.1 hi
  exact ruleVar_text_ne_blank _ name

/-- **No register is named `_`**, so features cannot hold it. -/
theorem blank {s s' : Scope} {names : List String} {code : List Instruction}
    (h : Names s names code s') (hs : "_" ∉ s.names) : "_" ∉ s'.names := by
  intro hmem
  rcases h.known "_" hmem with hmem | ⟨v, hv, htext⟩
  · exact hs hmem
  · exact text_ne_blank hv htext

theorem append {s s' s'' : Scope} {names names' : List String} {code code' : List Instruction}
    (h : Names s names code s') (h' : Names s' names' code' s'') :
    Names s (names ++ names') (code ++ code') s'' where
  grows := h.grows.trans h'.grows
  anonymous := by rw [h'.anonymous, h.anonymous, List.count_append, Nat.add_assoc]
  found := by
    rw [ruleVars_append, ← h.anonymous]
    exact fun v hv => (List.mem_append.1 hv).elim (fun hv => h'.grows.subset (h.found v hv)) (h'.found v)
  registers := by
    have hregisters : (ruleVars s.anonymous names).map (registerOf s'.names) =
        (ruleVars s.anonymous names).map (registerOf s''.names) :=
      List.map_congr_left fun v hv => (idxOf_of_isPrefix h'.grows (h.found v hv)).symm
    rw [registersNamed, List.filterMap_append, ← registersNamed, ← registersNamed, h.registers,
      h'.registers, ruleVars_append, List.map_append, hregisters, h.anonymous]
  known := fun name hmem => by
    rw [ruleVars_append, ← h.anonymous]
    rcases h'.known name hmem with hmem | ⟨v, hv, htext⟩
    · exact (h.known name hmem).imp_right fun ⟨v, hv, htext⟩ => ⟨v, List.mem_append_left _ hv, htext⟩
    · exact .inr ⟨v, List.mem_append_right _ hv, htext⟩
  nodup := fun hs => h'.nodup (h.nodup hs)

theorem constant (c : String) (s : Scope) {i : Instruction} (hi : i.register? = none) :
    Names s [] [i] (Scope.constant c s).2 :=
  ⟨List.prefix_rfl, rfl, nofun, by rw [registersNamed, List.filterMap_cons_none hi]; rfl, fun _ => .inl, id⟩

theorem register (v : String) (s : Scope) {i : Instruction} (hi : i.register? = some (Scope.register v s).1.1) :
    Names s [v] [i] (Scope.register v s).2 := by
  obtain ⟨hgrows, hcount, hregister⟩ := register_compiled v s
  obtain ⟨hindex, hseen⟩ := hregister _ List.prefix_rfl
  have hnames : (Scope.register v s).2.names = s.names ∨ (ruleVar s.anonymous v).text ∉ s.names ∧
      (Scope.register v s).2.names = s.names ++ [(ruleVar s.anonymous v).text] := by
    obtain ⟨names, count, symbols⟩ := s
    rw [register_eq]
    cases hfind : names.findIdx? (· == (ruleVar count v).text) with
    | some j => exact .inl rfl
    | none => exact .inr ⟨fun hmem => absurd (List.findIdx?_eq_none_iff.1 hfind _ hmem) (by simp), rfl⟩
  refine ⟨hgrows.names, ?_, fun w hw => ?_, ?_, fun name hmem => ?_, fun hs => ?_⟩
  · rw [hcount]
    exact countAfter_add s.anonymous v []
  · obtain rfl : w = ruleVar s.anonymous v := List.mem_singleton.1 hw
    rw [← List.idxOf_lt_length_iff, ← registerOf, hindex]
    rcases hseen with ⟨-, hlt, hlength⟩ | ⟨-, heq, hlength⟩ <;> omega
  · rw [registersNamed, List.filterMap_cons_some hi, ruleVars, List.map_cons, hindex]
    rfl
  · rcases hnames with heq | ⟨-, heq⟩ <;> rw [heq] at hmem
    · exact .inl hmem
    · exact (List.mem_append.1 hmem).imp_right fun hmem =>
        ⟨_, List.mem_cons_self, (List.mem_singleton.1 hmem).symm⟩
  · rcases hnames with heq | ⟨hnew, heq⟩ <;> rw [heq]
    · exact hs
    · exact List.nodup_append.2 ⟨hs, List.nodup_singleton _,
        fun a ha b hb hab => hnew (List.mem_singleton.1 hb ▸ hab ▸ ha)⟩

theorem matchArguments : ∀ (args : List Argument) (offset : Int) (s : Scope),
    Names s (args.filterMap Argument.varName?) (Rule.matchArguments offset args s).1
      (Rule.matchArguments offset args s).2
  | [], _, s => silent [] rfl s
  | .const c :: rest, offset, s => (constant c s rfl).append
      (matchArguments rest (offset + 1) (Scope.constant c s).2)
  | .var v :: rest, offset, s => by
    refine (register v s (i := if (Scope.register v s).1.2 then .unifyBoundVar (Scope.register v s).1.1 offset else
      .initFreeVar (Scope.register v s).1.1 offset) ?_).append
        (matchArguments rest (offset + 1) (Scope.register v s).2)
    cases (Scope.register v s).1.2 <;> rfl

theorem pushArgument : ∀ (a : Argument) (s : Scope),
    Names s a.varName?.toList [(Rule.pushArgument a s).1] (Rule.pushArgument a s).2
  | .const c, s => constant c s rfl
  | .var v, s => by
    refine register v s (i := if (Scope.register v s).1.2 then .pushBoundVar (Scope.register v s).1.1 else
      .pushFreeVar (Scope.register v s).1.1) ?_
    cases (Scope.register v s).1.2 <;> rfl

section

variable {α β : Type} {occur : α → List String} {code : β → List Instruction}

theorem mapM {f : α → StateM Scope β} (hf : ∀ a s, Names s (occur a) (code (f a s).1) (f a s).2) :
    ∀ (l : List α) (s : Scope), Names s (l.flatMap occur) ((l.mapM f s).1.flatMap code) (l.mapM f s).2
  | [], s => silent [] rfl s
  | a :: l, s => by
    rw [List.mapM_cons]
    exact (hf a s).append (mapM hf l (f a s).2)

theorem mapM_ok {f : α → CompileM β}
    (hf : ∀ a s b s', "_" ∉ s.names → f a s = (.ok b, s') → Names s (occur a) (code b) s') :
    ∀ (l : List α) {s s' : Scope} {bs : List β}, "_" ∉ s.names → l.mapM f s = (.ok bs, s') →
      Names s (l.flatMap occur) (bs.flatMap code) s'
  | [], s, s', bs, _, h => by
    cases h
    exact silent [] rfl s
  | a :: l, s, s', bs, hs, h => by
    rw [List.mapM_cons] at h
    obtain ⟨b, s₁, hb, h⟩ := bind_eq_ok h
    obtain ⟨bs', s₂, hbs, h⟩ := bind_eq_ok h
    cases h
    have hfirst := hf a s b s₁ hs hb
    exact hfirst.append (mapM_ok hf l (hfirst.blank hs) hbs)

end

theorem goals (gs : List Goal) (s : Scope) :
    Names s (occurrences gs) (gs.mapM Rule.callCode s).1.flatten (gs.mapM Rule.callCode s).2 := by
  have hcall : ∀ (g : Goal) (s : Scope),
      Names s (g.args.filterMap Argument.varName?) (id (Rule.callCode g s).1) (Rule.callCode g s).2 :=
        fun g s => by
    have hpush : Names s (g.args.flatMap fun a => a.varName?.toList)
        ((g.args.mapM Rule.pushArgument s).1.flatMap fun i => [i]) (g.args.mapM Rule.pushArgument s).2 :=
          mapM pushArgument g.args s
    rw [List.flatMap_singleton', ← List.filterMap_eq_flatMap_toList] at hpush
    have hall := hpush.append (silent [.call g.label] rfl _)
    rw [List.append_nil] at hall
    exact hall
  have hall := mapM hcall gs s
  rw [List.flatMap_id] at hall
  exact hall

/-! ## Features

Features come behind the head and name registers that are there already.  A name that no register has is refused,
and so is `_`, which has none under this name. -/

theorem featureArgument {label : Label} :
    ∀ (a : Argument) (s : Scope) (i : Instruction) (s' : Scope), "_" ∉ s.names →
    Rule.featureArgument label a s = (.ok i, s') → Names s a.varName?.toList [i] s'
  | .const c, s, i, s', _, h => by
    have he : (Except.ok (.featureConst (Scope.constant c s).1), (Scope.constant c s).2) = (Except.ok i, s') := h
    cases he
    exact constant c s rfl
  | .var v, s, i, s', hs, h => by
    obtain ⟨rfl, hmem, rfl⟩ := featureArgument_var h
    have hv : v ≠ "_" := by
      rintro rfl
      exact hs hmem
    have hvars : ruleVars s'.anonymous [v] = [.named v] := by rw [ruleVars, ruleVar, if_neg hv, ruleVars]
    refine ⟨List.prefix_rfl, ?_, ?_, ?_, fun _ => .inl, id⟩
    · show s'.anonymous = s'.anonymous + [v].count "_"
      rw [List.count_eq_zero.2 fun h => hv (List.mem_singleton.1 h).symm, Nat.add_zero]
    · show ∀ w ∈ ruleVars s'.anonymous [v], w.text ∈ s'.names
      rw [hvars]
      exact fun w hw => List.mem_singleton.1 hw ▸ hmem
    · show [s'.names.idxOf v] = (ruleVars s'.anonymous [v]).map (registerOf s'.names)
      rw [hvars, List.map_cons, List.map_nil]
      rfl

theorem featureCode {label : Label} (g : Goal) (s : Scope) (code : List Instruction)
    (s' : Scope) (hs : "_" ∉ s.names) (h : Rule.featureCode label g s = (.ok code, s')) :
    Names s (g.args.filterMap Argument.varName?) code s' := by
  obtain ⟨args, s₁, hargs, h⟩ := bind_eq_ok h
  cases h
  have hall := mapM_ok featureArgument g.args hs hargs
  rw [List.flatMap_singleton', ← List.filterMap_eq_flatMap_toList] at hall
  exact (silent [.startFeature g.functor g.arity] rfl s).append hall

theorem featureList {label : Label} {features : List Goal} {s s' : Scope}
    {code : List Instruction} (hs : "_" ∉ s.names) (h : Rule.featureList label features s = (.ok code, s')) :
    Names s (occurrences features) code s' := by
  unfold Rule.featureList at h
  split at h
  · rename_i hempty
    obtain rfl := List.isEmpty_iff.1 hempty
    have he : (Except.ok [.startFeature "id" 1, .featureConst (Scope.constant Rule.defaultFeature s).1],
        (Scope.constant Rule.defaultFeature s).2) = (Except.ok code, s') := h
    cases he
    exact (silent [.startFeature "id" 1] rfl s).append (constant Rule.defaultFeature s rfl)
  · obtain ⟨codes, s₁, hcodes, h⟩ := bind_eq_ok h
    cases h
    have hall := mapM_ok featureCode features hs hcodes
    rwa [List.flatMap_id'] at hall

theorem featuresCode {label : Label} {features : List Goal} {s s' : Scope}
    {code : List Instruction} (hs : "_" ∉ s.names) (h : Rule.featuresCode label features s = (.ok code, s')) :
    Names s (occurrences features) code s' := by
  obtain ⟨built, s₁, hbuilt, h⟩ := bind_eq_ok h
  cases h
  have hall := ((silent [.clearFeatures] rfl s).append (featureList hs hbuilt)).append
    (silent [.reportFeatures] rfl _)
  rwa [List.append_nil] at hall

theorem bodyCode (gs : List Goal) (s : Scope) :
    Names s (occurrences gs) (Rule.bodyCode gs s).1 (Rule.bodyCode gs s).2 := by
  have hall := (goals gs s).append (silent [.proceed] rfl _)
  rwa [List.append_nil] at hall

/-! ## Rules and queries

A rule, and a query, is compiled in a scope of its own that begins without names, so the registers that its code
names are those of its own stand-ins. -/

/-- **Code compiled for a whole clause shares registers by stand-ins.** -/
theorem shares {symbols : Symbols} {names : List String} {code : List Instruction} {s : Scope}
    (h : Names ⟨[], 0, symbols⟩ names code s) : Shares names code := by
  have hlength : (registersNamed code).length = names.length := by
    rw [h.registers, List.length_map, length_ruleVars]
  refine ⟨hlength, fun i j hi hj => ?_⟩
  have hfound : ∀ {k : Nat} {v : RuleVar}, (ruleVars 0 names)[k]? = some v → v.text ∈ s.names := fun hv =>
    h.found _ (List.mem_of_getElem? hv)
  have hi' := List.getElem?_eq_getElem (show i < (ruleVars 0 names).length by rwa [length_ruleVars])
  have hj' := List.getElem?_eq_getElem (show j < (ruleVars 0 names).length by rwa [length_ruleVars])
  rw [h.registers, standIns, List.getElem?_map, List.getElem?_map, List.getElem?_map, List.getElem?_map, hi', hj',
    Option.map_some, Option.map_some, Option.map_some, Option.map_some, Option.some_inj, Option.some_inj]
  exact List.idxOf_inj (hfound hi')

end Names

theorem addRule_shares {p p' : Program} {r : Rule} {symbols symbols' : Symbols}
    (h : p.addRule r symbols = (.ok p', symbols')) :
    ∃ code, p' = p.append r.head.label code ∧ Shares (occurrences r.goals) code := by
  unfold Program.addRule at h
  dsimp only at h
  split at h
  · rename_i code scope hrun
    cases h
    obtain ⟨head, s₁, hhead, hrun⟩ := bind_eq_ok (s := (⟨[], 0, symbols⟩ : Scope)) hrun
    obtain ⟨features, s₂, hfeatures, hrun⟩ := bind_eq_ok hrun
    obtain ⟨body, s₃, hbody, hrun⟩ := bind_eq_ok hrun
    cases hrun
    cases hhead
    cases hbody
    have hmatch := Names.matchArguments r.head.args (-r.head.arity) ⟨[], 0, symbols⟩
    have hfeatures := Names.featuresCode (hmatch.blank List.not_mem_nil) hfeatures
    have hall := (hmatch.append hfeatures).append (Names.bodyCode r.body s₂)
    have hgoals : occurrences r.goals =
        r.head.args.filterMap Argument.varName? ++ occurrences r.features ++ occurrences r.body := by
      rw [Rule.goals, occurrences, List.flatMap_cons, List.flatMap_append, List.append_assoc]
      rfl
    rw [hgoals]
    exact ⟨_, rfl, hall.shares.length, hall.shares.same_iff⟩
  · cases h

theorem compileQuery_shares {p : Program} {query : Query} {q : QueryProgram} {symbols symbols' : Symbols}
    (h : p.compileQuery query symbols = (.ok q, symbols')) : Shares (occurrences query.goals) q.code.toList := by
  unfold Program.compileQuery at h
  split at h
  · cases h
  · cases h
    have hshares := (Names.bodyCode query.goals ⟨[], 0, symbols⟩).shares
    exact ⟨hshares.length, hshares.same_iff⟩

theorem names_compileQuery {p : Program} {query : Query} {q : QueryProgram} {symbols symbols' : Symbols}
    (h : p.compileQuery query symbols = (.ok q, symbols')) : q.query = query ∧ q.names.Nodup ∧
      ∀ name ∈ q.names, name ∈ standIns (occurrences query.goals) := by
  unfold Program.compileQuery at h
  split at h
  · cases h
  · cases h
    have hnames := Names.bodyCode query.goals ⟨[], 0, symbols⟩
    refine ⟨rfl, hnames.nodup List.nodup_nil, fun name hmem => ?_⟩
    rcases hnames.known name hmem with hmem | ⟨v, hv, htext⟩
    · exact absurd hmem List.not_mem_nil
    · exact List.mem_map.2 ⟨v, hv, htext⟩

/-- **Variables are identified by name unless one is named like the stand-in of a `_`.**  The code of an accepted rule
names one register for each argument that is a variable, and the same one for two of them if these have the same
stand-in.  So it tells variables apart by their names, and gives each `_` a register of its own, just if no variable of
the rule is named `_k` where at least `k` of them are `_`.  So does the code of an accepted query. -/
theorem registers_identify_iff (p : Program) (symbols symbols' : Symbols) :
    (∀ r p', p.addRule r symbols = (.ok p', symbols') → ∃ code, p' = p.append r.head.label code ∧
      Shares (occurrences r.goals) code ∧ (Identifies (occurrences r.goals) code ↔ Unlike (occurrences r.goals))) ∧
    ∀ query q, p.compileQuery query symbols = (.ok q, symbols') →
      Shares (occurrences query.goals) q.code.toList ∧
        (Identifies (occurrences query.goals) q.code.toList ↔ Unlike (occurrences query.goals)) := by
  constructor
  · intro r p' h
    obtain ⟨code, hcode, hshares⟩ := addRule_shares h
    exact ⟨code, hcode, hshares, hshares.identifies_iff⟩
  · intro query q h
    exact ⟨compileQuery_shares h, (compileQuery_shares h).identifies_iff⟩

/-- A rule with two `_` and with names that begin with `_` but have another number behind it. -/
def blankRule : Rule :=
  ⟨.ofNames "p" ["X", "_", "_3"], [.ofNames "q" ["_", "_x"], .ofNames "r" ["_3", "X"]], [.ofNames "f" ["_3"]]⟩

theorem registers_identify_iff_blank : ∃ p' symbols code, Program.empty.addRule blankRule ∅ = (.ok p', symbols) ∧
    p' = Program.empty.append blankRule.head.label code ∧
    occurrences blankRule.goals = ["X", "_", "_3", "_3", "_", "_x", "_3", "X"] ∧
    Identifies (occurrences blankRule.goals) code := by
  have hok : Program.empty.addRule blankRule ∅ = (.ok _, _) := eq_ok_of_isOk Program.empty (by decide +kernel)
  obtain ⟨code, hcode, -, hiff⟩ := (registers_identify_iff Program.empty ∅ _).1 blankRule _ hok
  refine ⟨_, _, code, hok, hcode, by decide, hiff.2 fun rank hpos hle => ?_⟩
  obtain rfl | rfl : rank = 1 ∨ rank = 2 := by
    have hcount : (occurrences blankRule.goals).count "_" = 2 := by decide
    omega
  · decide
  · decide

/-- In the query `p(_,_1)` the second variable is taken for the first, although it has another name. -/
theorem blank_captured : ∃ q symbols, Program.empty.compileQuery ⟨[.ofNames "p" ["_", "_1"]]⟩ ∅ =
    (.ok q, symbols) ∧
    registersNamed q.code.toList = [0, 0] ∧ ¬ Identifies
      (occurrences [.ofNames "p" ["_", "_1"]]) q.code.toList := by
  refine ⟨_, _, eq_ok_of_isOk default (by decide +kernel), by decide +kernel, fun h => ?_⟩
  have hsame := (h.same_iff 0 1 (by decide) (by decide) (by decide)).1 (by decide +kernel)
  exact absurd hsame.1 (by decide +kernel)

end ProofWalk
