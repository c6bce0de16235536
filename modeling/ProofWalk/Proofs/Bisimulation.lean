import ProofWalk.Proofs.CanonicalForm
import ProofWalk.Proofs.Safety
/-!
# Proofs.Bisimulation — states with the same canonical form go on alike

Two runs from states that look alike take the same instructions and go on looking alike, whatever the layout of
their heaps (`execute_lockstep`).  So merging states by their canonical form loses no answer and adds none
(`outlinks_alike`).

The proof follows the structure of an expansion.  One instruction is a case analysis over the instructions, each
case a lemma about heaps and states that look alike.  A run is an induction on the number of steps that are left,
and an expansion is the list of its ways, compared one by one.  Between expansions two states are compared by their
forms alone; looking alike comes out of equal forms at the start of each expansion, and goes into equal forms at its
end.
-/
namespace ProofWalk

open Machine

variable {K : Type}

/-! ## One instruction

`Lockstep` is what the same instruction comes to in two runs: both go on, with states that still look alike, or both
stop settled, with states of one form, or both meet the same fault.  The features that runs have gathered are
compared as they are written: an unbound variable is written by its rank, which is the same in both. -/

structure RunsAlike (r r' : Run K) : Prop where
  features : r.features = r'.features
  unfinished : r.unfinished = r'.unfinished
  /-- The features last reported. -/
  reported : r.reported = r'.reported

structure SettledAlike (s t : State) : Prop where
  failed : s.failed = t.failed
  canonical : s.canonical = t.canonical

/-- **What the same instruction comes to** in two runs. -/
inductive Lockstep (q : QueryProgram) : Except LogicError Control × Run K →
  Except LogicError Control × Run K → Prop
  | error {e : LogicError} {r r' : Run K} : Lockstep q (.error e, r) (.error e, r')
  | next {r r' : Run K} (hr : RunsAlike r r') {size met hand : Nat} {stage : Stage} {ρ : Nat → Nat → Prop}
      (hs : Standing q size met hand stage r.state) (ha : StatesAlike ρ hand r.state r'.state) :
      Lockstep q (.ok .next, r) (.ok .next, r')
  | stop {c : Control} {r r' : Run K} (hc : c ≠ .next) (hr : RunsAlike r r') (ha : SettledAlike r.state r'.state) :
      Lockstep q (.ok c, r) (.ok c, r')

namespace RunsAlike

variable {r r' : Run K}

theorem withState (hr : RunsAlike r r') (s t : State) : RunsAlike (r.withState s) (r'.withState t) :=
  ⟨hr.features, hr.unfinished, hr.reported⟩

theorem clearFeatures (hr : RunsAlike r r') : RunsAlike r.clearFeatures r'.clearFeatures := ⟨rfl, rfl, hr.reported⟩

variable [Scalar K]

theorem completeFeature (hr : RunsAlike r r') : RunsAlike r.completeFeature r'.completeFeature := by
  unfold Run.completeFeature
  rw [← hr.unfinished, ← hr.features]
  cases r.unfinished with
  | none => exact hr
  | some p =>
    dsimp only
    split
    · exact hr
    · exact ⟨rfl, rfl, hr.reported⟩

theorem addArgument (hr : RunsAlike r r') (arg : String) : RunsAlike (r.addArgument arg) (r'.addArgument arg) :=
  completeFeature ⟨hr.features, congrArg (Option.map _) hr.unfinished, hr.reported⟩

theorem startFeature (hr : RunsAlike r r') (p : PartialFeature) :
    RunsAlike (Run.completeFeature { r with unfinished := some p })
      (Run.completeFeature { r' with unfinished := some p }) :=
  completeFeature ⟨hr.features, rfl, hr.reported⟩

end RunsAlike

variable [Scalar K] (m : Machine K)

omit [Scalar K] in
theorem proceed_lockstep {r r' : Run K} (hr : RunsAlike r r') {size met hand hand' : Nat}
    {stage : Stage} {ρ : Nat → Nat → Prop} (hs : Standing m.query size met hand stage r.state)
    (ha : StatesAlike ρ hand r.state r'.state)
    {i : Instruction} {code : List Instruction} (hcode : m.query.codeFrom r.state.pc = i :: code)
    (hfits : Fits size stage met hand' code) (hallocated : stage.allocated = true) (hhand : hand' ≤ hand)
    (harity : stage ≠ .body → hand = hand') {change change' : Option Heap.Change}
    (hc : ChangesAlike ρ r.state.heap r'.state.heap change change') :
    Lockstep m.query (m.proceedWith change r) (m.proceedWith change' r') := by
  rw [proceedWith_eq, proceedWith_eq]
  cases hc with
  | none =>
    refine .stop (fun he => nomatch he) (hr.withState _ _) ⟨rfl, ?_⟩
    have hrunning := hs.running.1
    exact (canonical_of_failed (s := { r.state with failed := true }) ⟨hrunning, rfl⟩).trans
      (canonical_of_failed (s := { r'.state with failed := true }) ⟨ha.completed ▸ hrunning, rfl⟩).symm
  | some hf _ hcarries =>
    exact .next (hr.withState _ _) (hs.changed hcode hfits hallocated hf hhand harity)
      ((ha.changed hcarries (congrArg m.query.next ha.pc)).fewer hhand)

theorem call_lockstep {r r' : Run K} (hr : RunsAlike r r') {size met : Nat} {label : Label} {ρ : Nat → Nat → Prop}
    {code : List Instruction} (hs : Standing m.query size met label.arity .body r.state)
    (ha : StatesAlike ρ label.arity r.state r'.state) (hcode : m.query.codeFrom r.state.pc = .call label :: code)
    (hfits : Fits size .body met 0 code) :
    Lockstep m.query (m.execute (.call label) r) (m.execute (.call label) r') := by
  cases hb : Builtin.ofLabel? label with
  | some b =>
    have harity := arity_of_builtin hb
    rw [execute_builtin m r hb (harity ▸ ha.hand_le.1), execute_builtin m r' hb (harity ▸ ha.hand_le.2)]
    have hle := ha.hand_le
    have hfirst := ha.top 0 (by omega)
    have hsecond := ha.top 1 (by omega)
    rw [harity] at hfirst hsecond hle
    rw [show r.state.heap.size - 2 + 1 = r.state.heap.size - 1 by omega,
      show r'.state.heap.size - 2 + 1 = r'.state.heap.size - 1 by omega] at hsecond
    have hanswers := ha.heaps.run hfirst hsecond b
    rw [Nat.add_zero, Nat.add_zero] at hanswers
    revert hanswers
    generalize b.run r.state.heap (r.state.heap.size - 2) (r.state.heap.size - 1) = answer
    generalize b.run r'.state.heap (r'.state.heap.size - 2) (r'.state.heap.size - 1) = answer'
    intro hanswers
    cases hanswers with
    | error => exact .error
    | ok hc =>
      have hlock := proceed_lockstep m hr hs ha hcode hfits rfl (Nat.zero_le _) (fun hne => absurd rfl hne) hc
      rw [proceedWith_eq, proceedWith_eq] at hlock
      cases hc <;> exact hlock
  | none =>
    rw [execute_call m r hb ha.hand_le.1, execute_call m r' hb ha.hand_le.2, ha.stack.length_eq]
    split
    · exact .error
    · refine .stop (fun he => nomatch he) (hr.withState _ _) ⟨ha.failed, ?_⟩
      have hcalled : StatesAlike ρ label.arity
          { r.state with
            stack := ⟨m.query.next r.state.pc, r.state.registers, r.state.jumpTo⟩ :: r.state.stack,
            jumpTo := some label }
          { r'.state with
            stack := ⟨m.query.next r'.state.pc, r'.state.registers, r'.state.jumpTo⟩ :: r'.state.stack,
              jumpTo := some label } :=
        { ha with
          stack := .cons ⟨congrArg m.query.next ha.pc, ha.jumpTo, ha.registers⟩ ha.stack
          jumpTo := rfl }
      exact hcalled.canonical_eq (Nat.le_refl _)

omit [Scalar K] in
theorem return_lockstep {q : QueryProgram} {r r' : Run K} (hr : RunsAlike r r') {size : Nat} {ρ : Nat → Nat → Prop}
    (hs : Standing q size size 0 .body r.state) (ha : StatesAlike ρ 0 r.state r'.state) :
    Lockstep q ((returnToCaller : RunM K Control) r) ((returnToCaller : RunM K Control) r') := by
  have hstacks := ha.stack
  cases hstack : r.state.stack with
  | nil =>
    rw [hstack, List.forall₂_nil_left_iff] at hstacks
    rw [returnToCaller_nil r hstack, returnToCaller_nil r' hstacks]
    have hfinished : StatesAlike ρ 0 { r.state with completed := true, jumpTo := none }
        { r'.state with completed := true, jumpTo := none } := { ha with completed := rfl, jumpTo := rfl }
    exact .stop (fun he => nomatch he) (hr.withState _ _) ⟨ha.failed, hfinished.canonical_eq (Nat.le_refl _)⟩
  | cons f rest =>
    rw [hstack] at hstacks
    obtain ⟨f', rest', hf, hrest, hstack'⟩ := List.forall₂_cons_left_iff.1 hstacks
    rw [returnToCaller_cons r hstack, returnToCaller_cons r' hstack']
    obtain ⟨size, met, hs'⟩ := hs.returned hstack
    have ha' : StatesAlike ρ 0
        { r.state with pc := f.returnTo, registers := f.registers, jumpTo := f.caller, stack := rest }
        { r'.state with pc := f'.returnTo, registers := f'.registers, jumpTo := f'.caller, stack := rest' } :=
      { ha with registers := hf.registers, stack := hrest, pc := hf.returnTo, jumpTo := hf.caller }
    exact .next (hr.withState _ _) hs' ha'

omit [Scalar K] in
theorem gather_lockstep {r r' r₁ r₁' : Run K} {size met hand : Nat} {stage : Stage} {ρ : Nat → Nat → Prop}
    (hs : Standing m.query size met hand stage r.state) (ha : StatesAlike ρ hand r.state r'.state)
    {i : Instruction} {code : List Instruction} (hcode : m.query.codeFrom r.state.pc = i :: code)
    (hfits : Fits size .features met hand code) (hstage : stage ≠ .body ∧ stage.allocated = true)
    (hr : RunsAlike r₁ r₁')
    (h : r₁.state = r.state) (h' : r₁'.state = r'.state) :
    Lockstep m.query (.ok .next, m.advanced r₁) (.ok .next, m.advanced r₁') := by
  rw [← h] at hs ha hcode
  rw [← h'] at ha
  exact .next (hr.withState _ _) (hs.advanced hcode hfits (fun _ => hstage.2) (Nat.le_refl _) fun _ =>
    ⟨hstage.1, rfl⟩) (ha.advanced (congrArg m.query.next ha.pc))

omit [Scalar K] in
theorem writtenArgument_eq {s t : State} {ρ : Nat → Nat → Prop} {hand register cell cell' : Nat}
    (ha : StatesAlike ρ hand s t) (harity : s.arity ≤ hand) (hget : s.registers[register]? = some (some cell))
    (hget' : t.registers[register]? = some (some cell')) (hcells : CellsAlike ρ s.heap t.heap cell cell') :
    m.writtenArgument t (t.register register) = m.writtenArgument s (s.register register) := by
  rw [State.register_eq hget, State.register_eq hget']
  rcases ha.heaps.resolve_cases hcells with ⟨c, hi, hj⟩ | ⟨a, b, hab, hi, hj, hroot, hroot'⟩
  · rw [hi, hj]
    rfl
  · rw [hi, hj, writtenArgument, writtenArgument, ha.variableRank_eq harity hab hroot hroot']

/-- **The same instruction does the same in both runs.** -/
theorem execute_lockstep {r r' : Run K} (hr : RunsAlike r r') {size met hand : Nat}
    {stage : Stage} {ρ : Nat → Nat → Prop} (hs : Standing m.query size met hand stage r.state)
    (ha : StatesAlike ρ hand r.state r'.state)
    {i : Instruction} {code : List Instruction} (hcode : m.query.codeFrom r.state.pc = i :: code) :
    Lockstep m.query (m.execute i r) (m.execute i r') := by
  have hfits := hs.code
  rw [hcode] at hfits
  have hpc : m.query.next r.state.pc = m.query.next r'.state.pc := congrArg m.query.next ha.pc
  cases hfits with
  | comment h =>
    rw [execute_comment, execute_comment]
    exact .next (hr.withState _ _) (hs.advanced hcode h (fun hc => nomatch hc) (Nat.le_refl _) fun _ =>
      ⟨fun he => (nomatch he), rfl⟩) (ha.advanced hpc)
  | allocateRule h =>
    rw [execute_allocate, execute_allocate]
    exact .next (hr.withState _ _) (hs.allocated hcode h)
      { ha with pc := hpc, registers := .fresh _ }
  | allocateQuery h =>
    rw [execute_allocate, execute_allocate]
    exact .next (hr.withState _ _) (hs.allocated hcode h)
      { ha with pc := hpc, registers := .fresh _ }
  | initFreeVar hlow hhigh hmet h =>
    have hlength := (hs.registers rfl).length
    have hcell := hs.cellAt_nonneg hlow
    have hcell' := ha.argument_nonneg hlow
    rw [execute_initFreeVar m r hcell hhigh (hlength.symm ▸ hmet),
      execute_initFreeVar m r' hcell' hhigh (ha.registers.length_eq ▸ hlength.symm ▸ hmet)]
    exact .next (hr.withState _ _) (hs.initialized hcode h hmet (cellAt_lt hhigh hcell))
      { ha with pc := hpc, registers := ha.registers.set _ (ha.argument hlow hhigh) }
  | @unifyConst _ _ c _ _ hlow hhigh h =>
    have hcell := hs.cellAt_nonneg hlow
    have hcell' := ha.argument_nonneg hlow
    have hlock := proceed_lockstep m hr hs ha hcode h rfl (Nat.le_refl _) (fun _ => rfl)
      (ha.heaps.matchConst (ha.argument hlow hhigh) c)
    rw [proceedWith_eq, proceedWith_eq] at hlock
    rw [execute_unifyConst m r _ hcell hhigh, execute_unifyConst m r' _ hcell' hhigh]
    exact hlock
  | unifyBoundVar hlow hhigh hregister h =>
    obtain ⟨cell, hlt, hget⟩ := (hs.registers rfl).isSet _ hregister
    obtain ⟨cell', hget', hcells⟩ := ha.registers.get hget
    have hcell := hs.cellAt_nonneg hlow
    have hcell' := ha.argument_nonneg hlow
    have hlock := proceed_lockstep m hr hs ha hcode h rfl (Nat.le_refl _) (fun _ => rfl)
      (ha.heaps.unifier hcells (ha.argument hlow hhigh))
    rw [proceedWith_eq, proceedWith_eq] at hlock
    rw [execute_unifyBoundVar m r hget hcell hhigh, execute_unifyBoundVar m r' hget' hcell' hhigh]
    exact hlock
  | clearFeatures h =>
    rw [execute_clearFeatures, execute_clearFeatures]
    exact gather_lockstep m hs ha hcode h ⟨fun he => (nomatch he), rfl⟩ hr.clearFeatures rfl rfl
  | startFeature h =>
    rw [execute_startFeature, execute_startFeature]
    exact gather_lockstep m hs ha hcode h ⟨fun he => (nomatch he), rfl⟩ (hr.startFeature _)
      (state_completeFeature _) (state_completeFeature _)
  | featureConst h =>
    rw [execute_featureConst, execute_featureConst]
    exact gather_lockstep m hs ha hcode h ⟨fun he => (nomatch he), rfl⟩ (hr.addArgument _) (state_addArgument _ _)
      (state_addArgument _ _)
  | @featureVar _ _ register _ hregister h =>
    obtain ⟨cell, hlt, hget⟩ := (hs.registers rfl).isSet _ hregister
    obtain ⟨cell', hget', hcells⟩ := ha.registers.get hget
    have hset : r'.state.register register ≠ .unset := by
      rw [State.register_eq hget']
      exact ha.heaps.sound'.resolve_ne_unset hcells.lt'
    have harity := hs.arity fun he => nomatch he
    have hwritten := writtenArgument_eq m ha (Nat.le_of_eq harity) hget hget' hcells
    rw [execute_featureVar m r (hs.register_ne_unset rfl hregister), execute_featureVar m r' hset, hwritten]
    exact gather_lockstep m hs ha hcode h ⟨fun he => (nomatch he), rfl⟩ (hr.addArgument _) (state_addArgument _ _)
      (state_addArgument _ _)
  | reportFeatures h =>
    rw [execute_reportFeatures, execute_reportFeatures]
    exact .next ⟨hr.features, hr.unfinished, congrArg some hr.features⟩
      (hs.advanced hcode h id (Nat.zero_le _) fun hne => absurd rfl hne) ((ha.advanced hpc).fewer (Nat.zero_le _))
  | pushConst h =>
    rw [execute_pushConst, execute_pushConst]
    obtain ⟨hcarries, hnew⟩ := ha.heaps.pushConst _
    exact .next (hr.withState _ _) (hs.pushedConst hcode h _)
      (ha.pushed hcarries hnew (ha.registers.carried hcarries) hpc)
  | pushFreeVar hmet h =>
    have hlength := (hs.registers rfl).length
    rw [execute_pushFreeVar m r (hlength.symm ▸ hmet),
      execute_pushFreeVar m r' (ha.registers.length_eq ▸ hlength.symm ▸ hmet)]
    obtain ⟨hcarries, hnew⟩ := ha.heaps.pushFree
    exact .next (hr.withState _ _) (hs.pushedFree hcode h hmet)
      (ha.pushed hcarries hnew ((ha.registers.carried hcarries).set _ hnew) hpc)
  | pushBoundVar hregister h =>
    obtain ⟨cell, hlt, hget⟩ := (hs.registers rfl).isSet _ hregister
    obtain ⟨cell', hget', hcells⟩ := ha.registers.get hget
    rw [execute_pushBoundVar m r hget, execute_pushBoundVar m r' hget']
    obtain ⟨hcarries, hnew⟩ := ha.heaps.pushRef hcells
    exact .next (hr.withState _ _) (hs.pushedBound hcode h hlt)
      (ha.pushed hcarries hnew (ha.registers.carried hcarries) hpc)
  | call h => exact call_lockstep m hr hs ha hcode h
  | proceed =>
    rw [execute_proceed, execute_proceed]
    exact return_lockstep hr hs ha

/-! ## Runs and ways

A run comes to settled states of one form or to the same fault, and so does each way on.  Where a rule or a fact is
tried, both succeed or both fail. -/

inductive RanAlike : Except LogicError Unit × Run K → Except LogicError Unit × Run K → Prop
  | error {e : LogicError} {r r' : Run K} : RanAlike (.error e, r) (.error e, r')
  | ok {r r' : Run K} (hr : RunsAlike r r') (ha : SettledAlike r.state r'.state) :
      RanAlike (.ok (), r) (.ok (), r')

/-- **Runs from states that look alike come to the same.** -/
theorem runFor_alike : ∀ (fuel : Nat) {r r' : Run K}, RunsAlike r r' → ∀ {size met hand : Nat} {stage : Stage}
    {ρ : Nat → Nat → Prop}, Standing m.query size met hand stage r.state → StatesAlike ρ hand r.state r'.state →
    RanAlike (m.runFor fuel r) (m.runFor fuel r')
  | 0, _, _, _, _, _, _, _, _, _, _ => .error
  | fuel + 1, r, r', hr, _, _, _, _, _, hs, ha => by
    obtain ⟨i, code, hcode⟩ := List.exists_cons_of_ne_nil hs.code.ne_nil
    have hfetch := QueryProgram.fetch_of_codeFrom hcode
    rw [runFor_succ m r fuel hfetch, runFor_succ m r' fuel (ha.pc ▸ hfetch)]
    have hr' : RunsAlike (counted r) (counted r') := ⟨hr.features, hr.unfinished, hr.reported⟩
    have hstep := execute_lockstep m hr' hs ha hcode
    generalize m.execute i (counted r) = outcome at hstep ⊢
    generalize m.execute i (counted r') = outcome' at hstep ⊢
    cases hstep with
    | error => exact .error
    | next hr hs ha => exact runFor_alike fuel hr hs ha
    | @stop c _ _ hc hr ha =>
      cases c with
      | next => exact absurd rfl hc
      | branch => exact .ok hr ha
      | halt => exact .ok hr ha

inductive WaysAlike : Except LogicError (Option (Outlink K)) → Except LogicError (Option (Outlink K)) → Prop
  | error {e : LogicError} : WaysAlike (.error e) (.error e)
  | fail : WaysAlike (.ok none) (.ok none)
  | way {o o' : Outlink K} (hfeatures : o.features = o'.features)
      (hform : o.target.state.canonical = o'.target.state.canonical) : WaysAlike (.ok (some o)) (.ok (some o'))

theorem wayFrom_alike {s t : State} {size met hand : Nat} {stage : Stage} {ρ : Nat → Nat → Prop}
    (hs : Standing m.query size met hand stage s) (ha : StatesAlike ρ hand s t) {features : Run K → Features K}
    (hfeatures : ∀ {r r' : Run K}, RunsAlike r r' → features r = features r') :
    WaysAlike (m.wayFrom s features) (m.wayFrom t features) := by
  have hresume : RunsAlike (.resume s : Run K) (.resume t) := ⟨rfl, rfl, rfl⟩
  have hran := runFor_alike m m.limits.steps hresume hs ha
  rw [wayFrom, wayFrom]
  generalize m.runFor m.limits.steps (.resume s : Run K) = outcome at hran ⊢
  generalize m.runFor m.limits.steps (.resume t : Run K) = outcome' at hran ⊢
  cases hran with
  | error => exact .error
  | @ok r r' hr ha =>
    dsimp only
    rw [← ha.failed]
    cases r.state.failed with
    | true => exact .fail
    | false => exact .way (hfeatures hr) ha.canonical

/-- **Expansions that agree**: the same fault, or outlinks that agree one by one in their features and in the
canonical forms that they lead to. -/
inductive ExpansionsAlike : Except LogicError (List (Outlink K)) → Except LogicError (List (Outlink K)) → Prop
  | error {e : LogicError} : ExpansionsAlike (.error e) (.error e)
  | ok {outlinks outlinks' : List (Outlink K)} (h : List.Forall₂ (fun o o' => o.features = o'.features ∧
      o.target.state.canonical = o'.target.state.canonical) outlinks outlinks') :
        ExpansionsAlike (.ok outlinks) (.ok outlinks')

omit [Scalar K] in
theorem collect_alike {ways ways' : List (Except LogicError (Option (Outlink K)))}
    (h : List.Forall₂ WaysAlike ways ways') : ExpansionsAlike (collect ways) (collect ways') := by
  induction h with
  | nil => exact .ok .nil
  | @cons way way' ways ways' hway hways hrest =>
    cases hway with
    | error => exact .error
    | fail =>
      rw [collect, collect]
      generalize collect ways = rest at hrest ⊢
      generalize collect ways' = rest' at hrest ⊢
      cases hrest with
      | error => exact .error
      | ok h => exact .ok h
    | way hfeatures hform =>
      rw [collect, collect]
      generalize collect ways = rest at hrest ⊢
      generalize collect ways' = rest' at hrest ⊢
      cases hrest with
      | error => exact .error
      | ok h => exact .ok (.cons ⟨hfeatures, hform⟩ h)

omit [Scalar K] in
theorem matchAll_alike {ρ : Nat → Nat → Prop} :
    ∀ {cells cells' : List Nat} {h h' : Heap} (args : List Nat), HeapsAlike ρ h h' →
    List.Forall₂ (CellsAlike ρ h h') cells cells' →
    match matchAll h (cells.zip args), matchAll h' (cells'.zip args) with
    | some h₁, some h₁' => Carries ρ h h' ρ h₁ h₁'
    | none, none => True
    | _, _ => False
  | _, _, _, _, [], hh, .nil => ⟨hh, id⟩
  | _, _, _, _, [], hh, .cons _ _ => ⟨hh, id⟩
  | _, _, _, _, _ :: _, hh, .nil => ⟨hh, id⟩
  | i :: cells, j :: cells', h, h', arg :: args, hh, .cons hij hcells => by
    rw [List.zip_cons_cons, List.zip_cons_cons, matchAll, matchAll]
    have hchange := hh.matchConst hij arg
    generalize h.matchConst i arg = change at hchange ⊢
    generalize h'.matchConst j arg = change' at hchange ⊢
    cases hchange with
    | none => trivial
    | @some change change' _ _ hcarries =>
      have hrest := matchAll_alike args hcarries.heaps (hcells.imp fun _ _ hcell => hcarries.cells hcell)
      show match matchAll (h.apply change) (cells.zip args), matchAll (h'.apply change') (cells'.zip args) with
        | some h₁, some h₁' => Carries ρ h h' ρ h₁ h₁'
        | none, none => True
        | _, _ => False
      generalize matchAll (h.apply change) (cells.zip args) = rest at hrest ⊢
      generalize matchAll (h'.apply change') (cells'.zip args) = rest' at hrest ⊢
      rcases rest with _ | h₁ <;> rcases rest' with _ | h₁'
      · trivial
      · exact hrest
      · exact hrest
      · exact ⟨hrest.heaps, fun hcell => hrest.cells (hcarries.cells hcell)⟩

/-! ## Expansions

A waiting state and its form list the same ways, so the two lists of ways agree place by place. -/

omit [Scalar K] in
theorem boundCells_alike {s t : State} {label : Label} {ρ : Nat → Nat → Prop}
    (ha : StatesAlike ρ label.arity s t) : boundCells s label.arity = boundCells t label.arity ∧
      List.Forall₂ (CellsAlike ρ s.heap t.heap) (List.range' (s.heap.size - label.arity) label.arity)
        (List.range' (t.heap.size - label.arity) label.arity) := by
  have hcells : List.Forall₂ (CellsAlike ρ s.heap t.heap) (List.range' (s.heap.size - label.arity) label.arity)
      (List.range' (t.heap.size - label.arity) label.arity) := by
    rw [List.range'_eq_map_range, List.range'_eq_map_range]
    exact List.forall₂_map_left_iff.2 (List.forall₂_map_right_iff.2 (List.forall₂_same.2 fun k hk =>
      ha.top k (List.mem_range.1 hk)))
  refine ⟨?_, hcells⟩
  rw [boundCells, boundCells, ← List.forall₂_eq_eq_eq, List.forall₂_map_left_iff, List.forall₂_map_right_iff]
  refine hcells.imp fun i j hij => ?_
  rcases ha.heaps.resolve_cases hij with ⟨c, hi, hj⟩ | ⟨a, b, -, hi, hj, -, -⟩ <;> rw [hi, hj]

variable {m}

theorem ways_alike (hq : m.query.Fitting) {s t : State} {label : Label} {ρ : Nat → Nat → Prop}
    (hs : Waiting m.query label s) (ht : Waiting m.query label t) (ha : StatesAlike ρ label.arity s t) :
    List.Forall₂ WaysAlike (m.ways s label) (m.ways t label) := by
  refine List.rel_append ?_ ?_
  · obtain ⟨f, rest, hstack, -, -⟩ := hs.exists_caller
    obtain ⟨f', rest', hstack', -, -⟩ := ht.exists_caller
    have hstacks := ha.stack
    rw [hstack, hstack'] at hstacks
    obtain ⟨hf, hrest⟩ := List.forall₂_cons.1 hstacks
    obtain ⟨hbound, hcells⟩ := boundCells_alike ha
    refine List.rel_flatMap (R := Eq) (List.forall₂_refl _) fun b b' hb => ?_
    subst hb
    refine List.forall₂_map_left_iff.2 (List.forall₂_map_right_iff.2 (List.forall₂_same.2 fun fact _ => ?_))
    rw [m.factWay_eq hs.arity_le hstack, m.factWay_eq ht.arity_le hstack', ← hbound]
    split
    · have hmatch := matchAll_alike fact.args ha.heaps hcells
      rcases hm : matchAll s.heap ((List.range' (s.heap.size - label.arity) label.arity).zip fact.args)
        with _ | h₁ <;>
        rcases hm' : matchAll t.heap ((List.range' (t.heap.size - label.arity) label.arity).zip fact.args)
          with _ | h₁' <;>
        rw [hm, hm'] at hmatch
      · exact .fail
      · exact hmatch.elim
      · exact hmatch.elim
      · obtain ⟨size, met, hstanding⟩ := hs.answered hstack hm
        have hreturned : StatesAlike ρ 0 (returned { s with heap := h₁ } f rest)
            (returned { t with heap := h₁' } f' rest') :=
          { heaps := hmatch.heaps
            registers := hf.registers.carried hmatch
            stack := hrest.imp fun _ _ hg => ⟨hg.returnTo, hg.caller, hg.registers.carried hmatch⟩
            pc := hf.returnTo
            jumpTo := hf.caller
            completed := ha.completed
            failed := ha.failed
            hand_le := ⟨Nat.zero_le _, Nat.zero_le _⟩
            top := fun k hk => absurd hk (Nat.not_lt_zero k) }
        exact wayFrom_alike m hstanding hreturned fun _ => rfl
    · exact .fail
  · refine List.forall₂_map_left_iff.2
      (List.forall₂_map_right_iff.2 (List.forall₂_same.2 fun address haddress => ?_))
    obtain ⟨size, hfits⟩ := hq.clauses label address haddress
    have hstanding := hs.entered hfits
    rw [m.clauseWay_eq, m.clauseWay_eq]
    exact wayFrom_alike m hstanding (ha.advanced rfl) fun hr => by rw [hr.reported]

/-- **Settled states of one form have expansions that agree.** -/
theorem expand_alike (hq : m.query.Fitting) {s t : State} (hs : Settled m.query s) (ht : Settled m.query t)
    (hform : s.canonical = t.canonical) : ExpansionsAlike (m.expand s) (m.expand t) := by
  obtain ⟨hcompleted, hfailed⟩ := flags_of_canonical hform
  cases hs with
  | finished hs =>
    rw [m.expand_of_stopped (.inl hs.completed), m.expand_of_stopped (.inl (hcompleted ▸ hs.completed))]
    exact .ok .nil
  | refuted hs =>
    rw [m.expand_of_stopped (.inr hs.failed.2), m.expand_of_stopped (.inr (hfailed hs.failed.1 ▸ hs.failed.2))]
    exact .ok .nil
  | @waiting label hs =>
    cases ht with
    | finished ht => rw [hs.running.1, ht.completed] at hcompleted; cases hcompleted
    | refuted ht => have := hfailed hs.running.1; rw [hs.running.2, ht.failed.2] at this; cases this
    | @waiting label' ht =>
      have harity : s.arity = label.arity := by rw [State.arity, hs.pending]
      have harity' : t.arity = label'.arity := by rw [State.arity, ht.pending]
      have ha := alike_of_canonical hs.running ht.running hs.sane ht.sane (harity ▸ hs.arity_le)
        (harity' ▸ ht.arity_le) hform
      have hlabel := ha.jumpTo
      rw [hs.pending, ht.pending] at hlabel
      cases hlabel
      rw [harity] at ha
      rw [m.expand_eq_collect hs.running hs.pending hs.arity_le,
        m.expand_eq_collect ht.running ht.pending ht.arity_le]
      by_cases hempty : ((m.query.clauses label).isEmpty && (m.bases.filter (·.claims label)).isEmpty) = true
      · rw [if_pos hempty, if_pos hempty]
        exact .error
      · rw [if_neg hempty, if_neg hempty]
        exact collect_alike (ways_alike hq hs ht ha)

/-- **Merging states by canonical form is sound.**  Reachable states with the same canonical form have expansions
that agree, whatever was run before. -/
theorem outlinks_alike {rules : List Rule} {query : Query} {symbols : Symbols}
    (h : m.query.CompiledFrom rules query symbols) {s t : State} (hs : m.Reachable s) (ht : m.Reachable t)
    (hform : s.canonical = t.canonical) (r r' : Run K) :
    ExpansionsAlike (m.outlinks s r).1 (m.outlinks t r').1 := by
  have hs := hs.settled h.fitting
  have ht := ht.settled h.fitting
  rw [m.outlinks_eq_expand s r, m.outlinks_eq_expand t r']
  exact expand_alike h.fitting hs ht hform

/-- The two ways along the edge lead to one form, though the second one leaves more cells behind. -/
theorem outlinks_alike_path :
    (pathState [0, 1]).canonical = (pathState [1, 1]).canonical ∧
      (pathState [0, 1]).heap.size < (pathState [1, 1]).heap.size ∧
      ExpansionsAlike (pathMachine.outlinks (pathState [0, 1]) pathMachine.initial).1
        (pathMachine.outlinks (pathState [1, 1]) pathMachine.initial).1 := by
  have hform : (pathState [0, 1]).canonical = (pathState [1, 1]).canonical := by decide +kernel
  exact ⟨hform, by decide +kernel, outlinks_alike pathMachine_compiled (pathState_reachable (by decide +kernel))
    (pathState_reachable (by decide +kernel)) hform _ _⟩

end ProofWalk
