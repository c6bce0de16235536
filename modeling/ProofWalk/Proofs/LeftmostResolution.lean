import Mathlib.Data.Countable.Basic
import Mathlib.Logic.Equiv.List
import ProofWalk.Proofs.HeadMatching
import ProofWalk.Proofs.Safety
/-!
# Proofs.LeftmostResolution — expansions are the resolvents of the first goal

A state that waits at a call reads as a goal list.  Its expansion has one child for each clause that resolves with
the first goal, in the order of the rules, and each child reads as the resolvent with the builtins at its front
taken away (`outlinks_resolve`).

The proof goes along a run through one clause.  The head solves equations (`Proofs.HeadMatching`), the features are
gathered aside, and then the state, which stands at the first instruction of the body, reads as the resolvent.  From
there the body is run (`Proofs.Derivation`), which takes builtins away until a call is made that branches.
-/
namespace ProofWalk

open Machine

/-! ## Bodies as goals

The code of a body can be read back as the goals that it was compiled from, by the terms of the registers. -/

theorem PushCode.goalsOf {met met' : Nat} {terms : List (Term Nat)} {code : List Instruction}
    (h : PushCode met terms met' code) (ρ : Nat → Term Unknown) (hand : List (Term Unknown))
    (rest : List Instruction) :
    goalsOf ρ hand (code ++ rest) = goalsOf ρ (hand ++ terms.map (Term.subst ρ)) rest := by
  induction h generalizing hand with
  | nil => simp
  | const h ih => exact (ih _).trans (by simp)
  | old hlt h ih => exact (ih _).trans (by simp)
  | new h ih => exact (ih _).trans (by simp)

theorem BodyCode.goalsOf {met met' : Nat} {goals : List (Atom Nat)} {code : List Instruction}
    (h : BodyCode met goals met' code) (ρ : Nat → Term Unknown) :
    goalsOf ρ [] code = goals.map (Atom.subst ρ) := by
  induction h with
  | nil => rfl
  | @cons _ _ _ goal goals push code _ hpush _ ih =>
    rw [hpush.goalsOf ρ [] (.call goal.label :: code), List.nil_append, ProofWalk.goalsOf, ih]
    rfl

/-! ## The resolvent in a state

A resolvent has variables of the goal list and variables of the clause, which have to be kept apart: the registers
of the clause come at a depth of their own (`merge`). -/

/-- The variables of a goal list and of a clause in one state: the registers of the clause come at a depth of their
own. -/
def merge (depth : Nat) : Unknown ⊕ Nat → Unknown
  | .inl (.cell root) => .cell root
  | .inl (.unmet d i) => .unmet (if d < depth then d else d + 1) i
  | .inr i => .unmet depth i

theorem merge_injective (depth : Nat) : Function.Injective (merge depth) := by
  rintro ((r | ⟨d, i⟩) | i) ((r' | ⟨d', i'⟩) | i') h
  · cases h; rfl
  · cases h
  · cases h
  · cases h
  · simp only [merge, Unknown.unmet.injEq] at h
    obtain ⟨hd, rfl⟩ := h
    have : d = d' := by split at hd <;> split at hd <;> omega
    rw [this]
  · simp only [merge, Unknown.unmet.injEq] at h
    obtain ⟨hd, -⟩ := h
    split at hd <;> omega
  · cases h
  · simp only [merge, Unknown.unmet.injEq] at h
    obtain ⟨hd, -⟩ := h
    split at hd <;> omega
  · cases h; rfl

theorem Heap.Sound.map_merge_term {h : Heap} (hs : h.Sound) {i : Nat} (hi : i < h.size) (depth : Nat) :
    ((h.term i).map .inl).map (merge depth) = h.term i := by
  rw [Term.map_map]
  show (h.term i).subst (fun u => .var (merge depth (.inl u))) = h.term i
  refine Standing.term_subst_of_cells hs ?_ hi
  exact fun _ _ => rfl

theorem Matched.merged_cell {before h : Heap} {equations : List (Term (Unknown ⊕ Nat) × Term (Unknown ⊕ Nat))}
    {σ : Unknown ⊕ Nat → Term (Unknown ⊕ Nat)} {registers : Registers}
    (hm : Matched before equations σ h registers)
    (hs : h.Sound) (depth : Nat) {i : Nat} (hi : i < before.size) :
    (before.term i).subst (fun u => (σ (.inl u)).map (merge depth)) = h.term i := by
  have hmatched := congrArg (Term.map (merge depth)) (hm.cells i hi)
  rw [hs.map_merge_term (hm.size ▸ hi)] at hmatched
  rw [← hmatched, Term.subst_map, Term.map_subst]

theorem Matched.merged_register {before h : Heap} {equations : List (Term (Unknown ⊕ Nat) × Term (Unknown ⊕ Nat))}
    {σ : Unknown ⊕ Nat → Term (Unknown ⊕ Nat)} {registers : Registers}
    (hm : Matched before equations σ h registers)
    (hs : h.Sound) (depth : Nat) {i cell : Nat} (hget : registers[i]? = some (some cell)) (hcell : cell < h.size) :
    (σ (.inr i)).map (merge depth) = h.term cell := by
  rw [hm.registers, headTerm, hget]
  exact hs.map_merge_term hcell depth

/-- **Behind the head, the state reads as the resolvent.** -/
theorem Matched.resolvent_eq {q : QueryProgram} {s s₁ : State} {size met : Nat}
    {label : Label} (hw : Waiting q label s) (hs : Standing q size met 0 .body s₁)
    {equations : List (Term (Unknown ⊕ Nat) × Term (Unknown ⊕ Nat))}
    {σ : Unknown ⊕ Nat → Term (Unknown ⊕ Nat)} (hm : Matched s.heap equations σ s₁.heap s₁.registers)
    (hstack : s₁.stack = s.stack) {body : List (Atom Nat)} {size' : Nat}
    (hbody : BodyCode met body size' (q.codeFrom s₁.pc)) :
    resolvent (callerGoals q s.heap s.stack) s.answers body (fun v => (σ v).map (merge s.stack.length)) =
      s₁.running q 0 := by
  have hregisters := hs.registers rfl
  have hshifts : s.Shifts s₁ fun u => (σ (.inl u)).map (merge s.stack.length) :=
    { stack := hstack
      cells := fun i hi => (hm.merged_cell hs.heap _ hi).symm
      unmet := fun depth hlt i => by
        rw [hm.unmet]
        show Term.var (Unknown.unmet (if depth < s.stack.length then depth else depth + 1) i) = _
        rw [if_pos hlt]
      saved := hw.sane.saved
      own := fun hnil => by
        obtain ⟨f, rest, hcons, -⟩ := hw.exists_caller
        rw [hnil] at hcons
        cases hcons }
  have hterms : registerTerm s₁.heap s₁.stack.length s₁.registers = fun i =>
      (σ (.inr i)).map (merge s.stack.length) := by
    funext i
    rw [registerTerm, hstack]
    rcases hget : s₁.registers[i]? with _ | (_ | cell)
    · rw [hm.registers, headTerm, hget]
      rfl
    · rw [hm.registers, headTerm, hget]
      rfl
    · exact (hm.merged_register hs.heap _ hget (hregisters.lt_bound (List.mem_of_getElem? hget))).symm
  have hgoals := hbody.goalsOf (registerTerm s₁.heap s₁.stack.length s₁.registers)
  rw [resolvent, State.running, ← hshifts.answers, ← hshifts.callers]
  show _ = (⟨ProofWalk.goalsOf _ [] _ ++ _, _⟩ : Reading Unknown)
  rw [hgoals, hterms]

/-! ## One clause

A run into a clause fails since its head does not unify, or comes behind the head with the solution, and goes on
from there. -/

section Clause

variable {K : Type} [Scalar K] {m : Machine K}

theorem features_run {size met hand : Nat} {rest : List Instruction} :
    ∀ {code : List Instruction}, FeatureCode met code →
    ∀ {r : Run K}, Standing m.query size met hand .features r.state → m.query.codeFrom r.state.pc = code ++ rest →
      ∃ r₁ pc, m.Continues r r₁ ∧ r₁.state = { r.state with pc := pc } ∧
        Standing m.query size met hand .features r₁.state ∧ m.query.codeFrom r₁.state.pc = rest
  | [], _, r, hs, hcode => ⟨r, r.state.pc, .refl r, rfl, hs, hcode⟩
  | i :: code, h, r, hs, hcode => by
    have hfits := hs.code
    rw [hcode] at hfits
    -- each instruction goes on with the next, in the same state but for the address
    have hnext : ∀ {r₁ : Run K}, m.execute i (counted r) = (.ok .next, r₁) →
        r₁.state = { r.state with pc := m.query.next r.state.pc } → Fits size .features met hand (code ++ rest) →
        ∃ r₂ pc, m.Continues r r₂ ∧ r₂.state = { r.state with pc := pc } ∧
          Standing m.query size met hand .features r₂.state ∧ m.query.codeFrom r₂.state.pc = rest := by
      intro r₁ hexec hstate hfits'
      have hs' := hs.advanced hcode hfits' id (Nat.le_refl _) fun _ => ⟨fun he => (by cases he), rfl⟩
      have hcode' := (QueryProgram.codeFrom_next hcode hfits'.ne_nil).1
      obtain ⟨r₂, pc, hgoes, hstate', hs₂, hcode₂⟩ := features_run (fun j hj => h j (List.mem_cons_of_mem _ hj))
        (r := r₁) (hstate ▸ hs') (by rw [hstate]; exact hcode')
      exact ⟨r₂, pc, (continues_next hcode hexec).trans hgoes, by rw [hstate', hstate], hs₂, hcode₂⟩
    rcases h i List.mem_cons_self with ⟨functor, arity, rfl⟩ | ⟨c, rfl⟩ | ⟨register, hlt, rfl⟩
    · cases hfits with | startFeature hfits
      exact hnext (execute_startFeature m (counted r) functor arity)
        (by rw [state_advanced, state_completeFeature]; rfl) hfits
    · cases hfits with | featureConst hfits
      exact hnext (execute_featureConst m (counted r) c) (by rw [state_advanced, state_addArgument]; rfl) hfits
    · cases hfits with | featureVar hregister hfits
      exact hnext (execute_featureVar m (counted r) (hs.register_ne_unset rfl hregister))
        (by rw [state_advanced, state_addArgument]; rfl) hfits

theorem clause_enters {s : State} {size address met : Nat} {head : Atom Nat} {text : String} {names : List String}
    {code rest : List Instruction} (hw : Waiting m.query head.label s)
    (harity : head.args.length = head.label.arity)
    (hcode : m.query.codeFrom address = .comment text :: .allocate size names :: (code ++ rest))
    (hhead : HeadCode 0 (-(head.label.arity : Int)) head.args met code) (hmet : met ≤ size)
    (hrest : Fits size .head met head.label.arity rest) :
    HeadOutcome m s.heap (headEquations ⟨head.label, s.heap.top head.label.arity⟩ head) size
      met head.label.arity rest (.resume { s with pc := address }) := by
  have hequations : topEquations s.heap head.args =
      headEquations ⟨head.label, s.heap.top head.label.arity⟩ head := by
    rw [topEquations, harity]
    rfl
  -- the clause is entered and its register file opened
  have hfits := hhead.fits (Int.le_refl _) (by rw [harity]; omega) hmet hrest
  have hs := (hw.entered (hcode ▸ .comment (.allocateRule hfits))).advanced hcode
    (.allocateRule hfits) (fun hc => by cases hc) (Nat.le_refl _) fun _ => ⟨fun he => (by cases he), rfl⟩
  have hcode₁ := (QueryProgram.codeFrom_next hcode (List.cons_ne_nil _ _)).1
  have hs₁ := hs.allocated hcode₁ hfits
  have hcode₂ := (QueryProgram.codeFrom_next hcode₁ hfits.ne_nil).1
  obtain ⟨r₂, hgoes, hstate₂⟩ : ∃ r₂ : Run K, m.Continues (.resume { s with pc := address }) r₂ ∧
      r₂.state =
        { s with registers := List.replicate size none, pc := m.query.next (m.query.next address) } :=
    ⟨_, (continues_next hcode (execute_comment m (counted (.resume { s with pc := address })) text)).trans
      (continues_next hcode₁ (execute_allocate m _ size names)), rfl⟩
  have houtcome := head_runs hhead (by rw [harity]; omega) (r := r₂) (hstate₂ ▸ hs₁)
    (by rw [hstate₂]; exact hcode₂) (by rw [hstate₂]; exact .start s.heap size)
  rw [List.nil_append, hequations] at houtcome
  exact houtcome.of_continues hgoes (by rw [hstate₂]; rfl)

/-- **A run through a clause** fails since its head does not unify, or comes to its body with the resolvent. -/
theorem clause_runs {s : State} {size address : Nat} {clause : Clause Nat}
    (hw : Waiting m.query clause.head.label s) (hclause : ClauseCode size clause (m.query.codeFrom address)) :
    (m.Dooms (.resume { s with pc := address }) ∧
        Clashes (headEquations ⟨clause.head.label, s.heap.top clause.head.label.arity⟩ clause.head)) ∨
      ∃ r₁ met, ∃ σ : Unknown ⊕ Nat → Term Unknown, m.Continues (.resume { s with pc := address }) r₁ ∧
        Standing m.query size met 0 .body r₁.state ∧
        MostGeneral (headEquations ⟨clause.head.label, s.heap.top clause.head.label.arity⟩ clause.head) σ ∧
        resolvent (callerGoals m.query s.heap s.stack) s.answers clause.body σ = r₁.state.running m.query 0 := by
  obtain ⟨text, names, met, head, features, body, hcode, hhead, hfeatures, hbody⟩ := hclause.parts
  have hfeats : Fits size .features met clause.head.label.arity (features ++ .reportFeatures :: body) :=
    hfeatures.fits (.reportFeatures hbody.fits)
  cases clause_enters hw hclause.arity hcode hhead hbody.le (.clearFeatures hfeats) with
  | clash hdooms hclash => exact .inl ⟨hdooms, hclash⟩
  | @matched r₃ σ hgoes₃ hs₃ hcode₃ hmatched hstack =>
    -- the features are gathered and reported
    have hs₄ := hs₃.advanced hcode₃ hfeats id (Nat.le_refl _) fun _ => ⟨fun he => (by cases he), rfl⟩
    have hcode₄ := (QueryProgram.codeFrom_next hcode₃ hfeats.ne_nil).1
    have hgoes₄ := continues_next hcode₃ (execute_clearFeatures m (counted r₃))
    obtain ⟨r₅, pc, hgoes₅, hstate, hs₅, hcode₅⟩ := features_run hfeatures
      (r := m.advanced (counted r₃).clearFeatures) hs₄ hcode₄
    have hs₆ := hs₅.advanced hcode₅ hbody.fits id (Nat.zero_le _) fun hne => absurd rfl hne
    have hcode₆ := (QueryProgram.codeFrom_next hcode₅ hbody.fits.ne_nil).1
    have hgoes₆ := continues_next hcode₅ (execute_reportFeatures m (counted r₅))
    have hmatched' :
        Matched s.heap (headEquations ⟨clause.head.label, s.heap.top clause.head.label.arity⟩ clause.head) σ
        r₅.state.heap r₅.state.registers := by
      rw [hstate]
      exact hmatched
    refine .inr ⟨_, met, _, (hgoes₃.trans (hgoes₄.trans hgoes₅)).trans hgoes₆, hs₆,
      hmatched.solves.mostGeneral.map (merge_injective s.stack.length), ?_⟩
    have hstack' : r₅.state.stack = s.stack := by
      rw [hstate]
      exact hstack
    exact Matched.resolvent_eq hw hs₆ hmatched' hstack' (hcode₆ ▸ hbody)

/-- **The way of a clause is what the clause makes of the goal list.** -/
theorem clauseWay_resolves {s : State} {size address : Nat} {clause : Clause Nat}
    (hw : Waiting m.query clause.head.label s) (hclause : ClauseCode size clause (m.query.codeFrom address))
    {way : Option (Outlink K)}
    (h : m.clauseWay s address = .ok way) :
    Resolves ⟨clause.head.label, s.heap.top clause.head.label.arity⟩
      (callerGoals m.query s.heap s.stack) s.answers clause (way.map fun o => o.target.state.reading m.query) := by
  rw [clauseWay_eq, wayFrom] at h
  rcases hrun : m.runFor m.limits.steps (.resume { s with pc := address } : Run K) with ⟨e | _, r⟩
  · rw [hrun] at h
    cases h
  · rw [hrun] at h
    have hway : way = if r.state.failed then none else some ⟨r.reported.getD .empty, .of r.state⟩ :=
      (Except.ok.inj h).symm
    rcases clause_runs hw hclause with ⟨hdooms, hclash⟩ | ⟨r₁, met, σ, hgoes, hs, hσ, hresolvent⟩
    · rw [hdooms _ _ hrun] at hway
      rw [hway]
      exact .clash hclash
    · obtain ⟨fuel, hrun₁⟩ := hgoes _ _ hrun
      have hderives := runFor_derives m fuel hs hrun₁
      rw [← hresolvent] at hderives
      cases hderives with
      | refuted hfailed hrefuted =>
        rw [hfailed] at hway
        rw [hway]
        exact .refuted hσ hrefuted
      | leads hrunning hleads hvariant =>
        rw [hrunning] at hway
        rw [hway]
        exact .resolved hσ hleads hvariant

end Clause

/-! ## Registers and variables

Resolution speaks of the variables of a rule and the machine of registers.  A register has the text of its variable
for a name, and a variable `_` has a text with its rank; so the two agree if no other variable is named like that
(`NamesApart`), which is asked of rules. -/

/-- **No variable is named `_` with a number behind it.** -/
def NamesApart (goals : List Goal) : Prop := ∀ goal ∈ goals, ∀ name, .var name ∈ goal.args →
    ∀ n : Nat, name ≠ s!"_{n}"

def Clause.Occurs {V : Type} (clause : Clause V) (v : V) : Prop :=
  .var v ∈ clause.head.args ∨ ∃ goal ∈ clause.body, .var v ∈ goal.args

theorem Clause.Occurs.map {V W : Type} {clause : Clause V} {v : V} (h : clause.Occurs v) (f : V → W) :
    (clause.map f).Occurs (f v) := by
  rcases h with h | ⟨goal, hgoal, h⟩
  · exact .inl (List.mem_map_of_mem h)
  · exact .inr ⟨goal.map f, List.mem_map_of_mem hgoal, List.mem_map_of_mem h⟩

theorem Clause.map_congr {V W : Type} {clause : Clause V} {f g : V → W} (h : ∀ v, clause.Occurs v → f v = g v) :
    clause.map f = clause.map g := by
  have hatom : ∀ a : Atom V, (∀ v, .var v ∈ a.args → f v = g v) → a.map f = a.map g := fun a ha =>
    congrArg (Atom.mk a.label) <| List.map_congr_left fun t ht => by
      cases t with
      | const c => rfl
      | var v => exact congrArg Term.var (ha v ht)
  exact congrArg₂ Clause.mk (hatom _ fun v hv => h v (.inl hv))
    (List.map_congr_left fun a ha => hatom a fun v hv => h v (.inr ⟨a, ha, hv⟩))

theorem ClauseCode.lt_size {size : Nat} {clause : Clause Nat} {code : List Instruction}
    (h : ClauseCode size clause code) {i : Nat} (hi : clause.Occurs i) : i < size := by
  obtain ⟨_, _, met, _, _, _, -, hhead, -, hbody⟩ := h.parts
  rw [hbody.lt_iff, hhead.lt_iff]
  exact hi.imp_left .inr

theorem mem_readArguments {symbols : Symbols} {v : RuleVar} : ∀ {count : Nat} {args : List Argument},
    .var v ∈ readArguments symbols count args → (∃ rank, v = .anonymous rank) ∨
      ∃ name, v = .named name ∧ .var name ∈ args
  | _, [], h => nomatch h
  | count, a :: rest, h => by
    rcases List.mem_cons.1 h with h | h
    · cases a with
      | const c => cases h
      | var name =>
        obtain rfl := Term.var.inj h
        unfold ruleVar
        split
        · exact .inl ⟨_, rfl⟩
        · exact .inr ⟨name, rfl, List.mem_cons_self⟩
    · exact (mem_readArguments h).imp_right fun ⟨name, hname, hmem⟩ => ⟨name, hname, List.mem_cons_of_mem _ hmem⟩

theorem mem_readGoals {symbols : Symbols} {a : Atom RuleVar} : ∀ {count : Nat} {goals : List Goal},
    a ∈ readGoals symbols count goals → ∃ goal ∈ goals, ∃ count', a.args = readArguments symbols count' goal.args
  | _, [], h => nomatch h
  | count, goal :: rest, h => by
    rcases List.mem_cons.1 h with rfl | h
    · exact ⟨goal, List.mem_cons_self, count, rfl⟩
    · obtain ⟨goal', hgoal', hargs⟩ := mem_readGoals h
      exact ⟨goal', List.mem_cons_of_mem _ hgoal', hargs⟩

theorem Rule.occurs {symbols : Symbols} {r : Rule} {v : RuleVar} (h : (r.clause symbols).Occurs v) :
    (∃ rank, v = .anonymous rank) ∨ ∃ name, v = .named name ∧
      ∃ goal ∈ r.head :: r.body, .var name ∈ goal.args := by
  rcases h with h | ⟨a, ha, h⟩
  · exact (mem_readArguments h).imp_right fun ⟨name, hname, hmem⟩ =>
      ⟨name, hname, r.head, List.mem_cons_self, hmem⟩
  · obtain ⟨goal, hgoal, count, hargs⟩ := mem_readGoals ha
    rw [hargs] at h
    exact (mem_readArguments h).imp_right fun ⟨name, hname, hmem⟩ =>
      ⟨name, hname, goal, List.mem_cons_of_mem _ hgoal, hmem⟩

theorem RuleVar.text_inj {P : String → Prop} (hapart : ∀ name, P name → ∀ n : Nat, name ≠ s!"_{n}") {v w : RuleVar}
    (hv : (∃ rank, v = .anonymous rank) ∨ ∃ name, v = .named name ∧ P name)
    (hw : (∃ rank, w = .anonymous rank) ∨ ∃ name, w = .named name ∧ P name) (h : v.text = w.text) : v = w := by
  rcases hv with ⟨rank, rfl⟩ | ⟨name, rfl, hname⟩ <;> rcases hw with ⟨rank', rfl⟩ | ⟨name', rfl, hname'⟩
  · have hrepr : Nat.toDigits 10 rank = Nat.toDigits 10 rank' := by
      rw [← Nat.toList_repr, ← Nat.toList_repr]
      have hlist := congrArg String.toList h
      simpa [RuleVar.text] using hlist
    have hvalue := congrArg (Nat.ofDigitChars 10 · 0) hrepr
    simp only [Nat.ofDigitChars_ten_toDigits] at hvalue
    rw [hvalue]
  · exact absurd h.symm (hapart name' hname' rank)
  · exact absurd h (hapart name hname rank')
  · exact congrArg RuleVar.named h

theorem countable_string : Countable String := by
  have hchar : Countable Char := Function.Injective.countable (f := Char.toNat) fun _ _ h => Char.toNat_inj.1 h
  exact Function.Injective.countable (f := String.toList) fun _ _ h => String.toList_inj.1 h

instance : Countable RuleVar := by
  have := countable_string
  let split : RuleVar → String ⊕ Nat := fun
    | .named name => .inl name
    | .anonymous rank => .inr rank
  refine Function.Injective.countable (f := split) fun v w h => ?_
  cases v <;> cases w <;> cases h <;> rfl

theorem exists_numbering {V : Type} [Countable V] {P : V → Prop} {f : V → Nat} {bound : Nat}
    (hlt : ∀ v, P v → f v < bound) (hinj : ∀ v w, P v → P w → f v = f w → v = w) :
    ∃ g : V → Nat, Function.Injective g ∧ ∀ v, P v → f v = g v := by
  classical
  obtain ⟨number, hnumber⟩ := exists_injective_nat V
  refine ⟨fun v => if P v then f v else bound + number v, fun v w h => ?_, fun v hv => (if_pos hv).symm⟩
  by_cases hv : P v <;> by_cases hw : P w <;> simp only [hv, hw, if_true, if_false] at h
  · exact hinj v w hv hw h
  · have := hlt v hv
    omega
  · have := hlt w hw
    omega
  · exact hnumber (Nat.add_left_cancel h)

/-- **The registers of a clause name its variables**, if names are apart. -/
theorem Rule.exists_registers {symbols : Symbols} {r : Rule}
    (hapart : NamesApart (r.head :: r.body)) {names : List String} {code : List Instruction}
    (h : ClauseCode names.length ((r.clause symbols).map (registerOf names)) code) :
    ∃ f : RuleVar → Nat, Function.Injective f ∧ (r.clause symbols).map (registerOf names) =
      (r.clause symbols).map f := by
  have hlt : ∀ v, (r.clause symbols).Occurs v → registerOf names v < names.length :=
    fun v hv => h.lt_size (hv.map _)
  have hinj : ∀ v w, (r.clause symbols).Occurs v → (r.clause symbols).Occurs w →
      registerOf names v = registerOf names w → v = w := fun v w hv hw heq => by
    have hmem : v.text ∈ names := List.idxOf_lt_length_iff.1 (hlt v hv)
    have htext : v.text = w.text := (List.idxOf_inj hmem).1 heq
    exact RuleVar.text_inj (fun name ⟨goal, hgoal, hname⟩ => hapart goal hgoal name hname)
      (Rule.occurs hv) (Rule.occurs hw) htext
  obtain ⟨f, hf, heq⟩ := exists_numbering hlt hinj
  exact ⟨f, hf, Clause.map_congr heq⟩

/-! ## Expansions

The ways of an expansion are those of the clauses, and each is what the clause makes of the goal list. -/

namespace Machine

variable {K : Type}

theorem collect_map {α β : Type} {R : α → β → Prop} {f : β → Except LogicError (Option (Outlink K))}
    {l : List α} {l' : List β} (hrelated : List.Forall₂ R l l') {outlinks : List (Outlink K)}
    (h : collect (l'.map f) = .ok outlinks) :
    ∃ outcomes : List (Option (Outlink K)), List.Forall₂ (fun a o => ∃ b, R a b ∧ f b = .ok o) l outcomes ∧
      outlinks = outcomes.reduceOption := by
  induction hrelated generalizing outlinks with
  | nil =>
    cases h
    exact ⟨[], .nil, rfl⟩
  | @cons a b l l' hab hrest ih =>
    obtain ⟨way, rest, hway, hcollect, rfl⟩ := collect_cons_eq_ok h
    obtain ⟨outcomes, houtcomes, rfl⟩ := ih hcollect
    refine ⟨way :: outcomes, .cons ⟨b, hab, hway⟩ houtcomes, ?_⟩
    cases way <;> rfl

variable [Scalar K] {m : Machine K}

theorem not_failed_of_clauseWay {s : State} {address : Nat} {o : Outlink K}
    (h : m.clauseWay s address = .ok (some o)) : o.target.state.failed = false := by
  rw [clauseWay_eq, wayFrom] at h
  split at h
  · split at h
    · cases h
    · rename_i hrunning
      cases h
      exact eq_false_of_ne_true hrunning
  · cases h

theorem completed_iff {q : QueryProgram} {s : State} (hs : Settled q s) (hfailed : s.failed = false) :
    s.completed = true ↔ (s.reading q).goals = [] := by
  cases hs with
  | waiting hw =>
    rw [hw.running.1]
    simp [State.reading, State.pendingGoals, hw.pending]
  | finished hf =>
    rw [hf.completed]
    simp [State.reading, State.pendingGoals, hf.pending, hf.stack, callerGoals]
  | refuted hr => rw [hr.failed.2] at hfailed; cases hfailed

/-- **The machine performs leftmost resolution.**  A reachable state that is neither completed nor failed reads as a
first goal and the rest.  If its expansion succeeds, it has one child for each clause of the first goal's predicate
whose head unifies with that goal and with which the builtins that then stand in front succeed, in the order of the
rules.  The child reads as the resolvent without these builtins, and it is completed when no goal is left. -/
theorem outlinks_resolve {rules : List Rule} {query : Query} {symbols : Symbols}
    (h : m.query.CompiledFrom rules query symbols) (hbases : m.bases = [])
    (hapart : ∀ r ∈ rules, NamesApart (r.head :: r.body)) {s : State} (hs : m.Reachable s)
    (hrunning : s.completed = false ∧ s.failed = false) {r : Run K} {outlinks : List (Outlink K)}
    (hok : (m.outlinks s r).1 = .ok outlinks) :
    ∃ goal rest, (s.reading m.query).goals = goal :: rest ∧
      Children goal rest (s.reading m.query).answers
        ((rules.filter (·.head.label = goal.label)).map (Rule.clause symbols))
        (outlinks.map fun o => o.target.state.reading m.query) ∧
      ∀ o ∈ outlinks, o.target.state.failed = false ∧
        (o.target.state.completed = true ↔ (o.target.state.reading m.query).goals = []) := by
  have hsettled := hs.settled h.fitting
  cases hsettled with
  | finished hf => rw [hf.completed] at hrunning; cases hrunning.1
  | refuted hr => rw [hr.failed.2] at hrunning; cases hrunning.2
  | @waiting label hw =>
    have hpending : s.pendingGoals = [⟨label, s.heap.top label.arity⟩] := by
      rw [State.pendingGoals, hw.pending]
      show [(⟨label, s.argumentCells.map s.heap.term⟩ : Atom Unknown)] = _
      rw [State.argumentCells, State.arity, hw.pending, Nat.min_eq_left hw.arity_le]
      rfl
    refine ⟨⟨label, s.heap.top label.arity⟩, callerGoals m.query s.heap s.stack,
      by rw [State.reading, hpending]; rfl, ?_⟩
    have hcollect := hok
    rw [m.fst_outlinks_eq_collect hw.running hw.pending hw.arity_le r, ways, hbases] at hcollect
    split at hcollect
    · cases hcollect
    · refine ⟨?_, fun o ho => ?_⟩
      · have hrules := (List.forall₂_and_left _ _).2 ⟨fun r hr => List.mem_filter.1 hr, h.rules_at label⟩
        obtain ⟨outcomes, houtcomes, rfl⟩ := collect_map hrules hcollect
        refine ⟨outcomes.map (Option.map fun o => o.target.state.reading m.query), ?_, List.reduceOption_map.symm⟩
        rw [List.forall₂_map_left_iff, List.forall₂_map_right_iff]
        refine houtcomes.imp fun r way hcompiled => ?_
        obtain ⟨address, ⟨⟨hmem, hlabel⟩, names, hcode⟩, hway⟩ := hcompiled
        obtain rfl : r.head.label = label := by simpa using hlabel
        obtain ⟨f, hf, heq⟩ := Rule.exists_registers (hapart r hmem) hcode
        rw [heq] at hcode
        exact (clauseWay_resolves hw hcode hway).of_map hf
      · obtain ⟨address, -, hway⟩ := List.mem_map.1 (exists_of_collect hcollect ho)
        have hfailed := not_failed_of_clauseWay hway
        exact ⟨hfailed, completed_iff ((Reachable.outlink hs hok ho).settled h.fitting) hfailed⟩

end Machine

/-! ## Paths, resolved -/

def Argument.isPlain : Argument → Bool
  | const _ => true
  | var name => name.toList.head? != some '_'

theorem namesApart_of_plain {goals : List Goal} (h : ∀ goal ∈ goals, ∀ a ∈ goal.args, a.isPlain = true) :
    NamesApart goals := by
  rintro goal hgoal name hname n rfl
  have hplain := h goal hgoal _ hname
  simp only [Argument.isPlain, String.toList_append, List.head?_append] at hplain
  exact absurd hplain (by simp [toString])

/-- The step along the edge binds `Z` in the goal behind it, once for each of the two rules. -/
theorem outlinks_resolve_path :
    Children (⟨⟨"edge", 2⟩, [.const 1, .var (.cell 3)]⟩ : Atom Unknown)
      [⟨⟨"path", 2⟩, [.var (.cell 3), .var (.cell 1)]⟩] [.var (.cell 1)]
      ((pathRules.filter (·.head.label = ⟨"edge", 2⟩)).map (Rule.clause pathTable))
      [(⟨[⟨⟨"path", 2⟩, [.const 2, .var (.cell 1)]⟩], [.var (.cell 1)]⟩ : Reading Unknown),
        ⟨[⟨⟨"path", 2⟩, [.const 2, .var (.cell 1)]⟩], [.var (.cell 1)]⟩] := by
  have hok := congrArg Prod.fst (eq_ok_of_isOk (x := pathMachine.outlinks (pathState [1]) pathMachine.initial) []
    (by decide +kernel))
  have hapart : ∀ r ∈ pathRules, NamesApart (r.head :: r.body) := fun r hr => namesApart_of_plain <| by
    revert r
    decide +kernel
  obtain ⟨goal, rest, hgoals, hchildren, -⟩ := Machine.outlinks_resolve pathMachine_compiled rfl hapart
    (pathState_reachable (by decide +kernel)) (by decide +kernel) hok
  have hreading : (pathState [1]).reading pathMachine.query =
      ⟨[⟨⟨"edge", 2⟩, [.const 1, .var (.cell 3)]⟩, ⟨⟨"path", 2⟩, [.var (.cell 3), .var (.cell 1)]⟩],
        [.var (.cell 1)]⟩ := by
    decide +kernel
  have hmap : ((pathMachine.outlinks (pathState [1]) pathMachine.initial).1.toOption.getD []).map
      (fun o => o.target.state.reading pathMachine.query) =
      [⟨[⟨⟨"path", 2⟩, [.const 2, .var (.cell 1)]⟩], [.var (.cell 1)]⟩,
        ⟨[⟨⟨"path", 2⟩, [.const 2, .var (.cell 1)]⟩], [.var (.cell 1)]⟩] := by
    decide +kernel
  rw [hreading] at hgoals hchildren
  rw [hmap] at hchildren
  cases hgoals
  exact hchildren

end ProofWalk
