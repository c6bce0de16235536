import ProofWalk.Proofs.CodeShape
import ProofWalk.Proofs.Heap
import ProofWalk.Proofs.RunSteps
/-!
# Proofs.Standing — what holds between two instructions

A running state stands at code that fits (`Standing`): the registers that the code takes as met are set, and no
others, the cells that it takes as at hand are on the heap, and every saved caller stands at code of its own.  Each
instruction keeps this or stops in a settled state (`Settled`), and faults of the code itself never arise
(`execute_stepped`); hence neither do they in a run (`runFor_settled`).
-/
namespace ProofWalk

open Machine

/-! ## Registers and callers

How far a register file is filled is a number, because code meets its registers in order. -/

/-- **A register file in which exactly the first `met` registers are set**, to cells below a bound. -/
structure RegistersFit (bound size met : Nat) (registers : Registers) : Prop where
  length : registers.length = size
  isSet : ∀ i < met, ∃ cell < bound, registers[i]? = some (some cell)
  isUnset : ∀ i, met ≤ i → i < size → registers[i]? = some none

namespace RegistersFit

variable {bound bound' size met : Nat} {registers : Registers}

theorem fresh (bound size : Nat) : RegistersFit bound size 0 (List.replicate size none) where
  length := List.length_replicate
  isSet _ hi := absurd hi (Nat.not_lt_zero _)
  isUnset _ _ hi := List.getElem?_replicate_of_lt hi

theorem mono (h : RegistersFit bound size met registers) (hle : bound ≤ bound') :
    RegistersFit bound' size met registers where
  length := h.length
  isSet i hi := by
    obtain ⟨cell, hcell, hget⟩ := h.isSet i hi
    exact ⟨cell, Nat.lt_of_lt_of_le hcell hle, hget⟩
  isUnset := h.isUnset

theorem set (h : RegistersFit bound size met registers) (hmet : met < size) {cell : Nat} (hcell : cell < bound) :
    RegistersFit bound size (met + 1) (registers.set met (some cell)) where
  length := List.length_set.trans h.length
  isSet i hi := by
    by_cases he : met = i
    · subst he
      exact ⟨cell, hcell, by rw [List.getElem?_set_self (by rw [h.length]; exact hmet)]⟩
    · obtain ⟨cell', hcell', hget⟩ := h.isSet i (by omega)
      exact ⟨cell', hcell', by rw [List.getElem?_set_ne he, hget]⟩
  isUnset i hle hi := by
    rw [List.getElem?_set_ne (by omega)]
    exact h.isUnset i (by omega) hi

theorem lt_bound (h : RegistersFit bound size met registers) {cell : Nat} (hmem : some cell ∈ registers) :
    cell < bound := by
  obtain ⟨i, hi, hget⟩ := List.mem_iff_getElem.1 hmem
  have hget : registers[i]? = some (some cell) := by rw [List.getElem?_eq_getElem hi, hget]
  by_cases hmet : i < met
  · obtain ⟨cell', hcell', hget'⟩ := h.isSet i hmet
    rw [hget] at hget'
    cases hget'
    exact hcell'
  · rw [h.isUnset i (by omega) (h.length ▸ hi)] at hget
    cases hget

theorem isSome (h : RegistersFit bound size size registers) : ∀ register ∈ registers, register.isSome := by
  intro register hmem
  obtain ⟨i, hi, rfl⟩ := List.mem_iff_getElem.1 hmem
  obtain ⟨cell, -, hget⟩ := h.isSet i (h.length ▸ hi)
  rw [List.getElem?_eq_getElem hi] at hget
  rw [Option.some.inj hget]
  rfl

end RegistersFit

/-- **A saved caller stands behind a call**, with the registers that the rest of its code takes as met. -/
def Frame.Stands (q : QueryProgram) (bound : Nat) (f : Frame) : Prop :=
  ∃ size met, Fits size .body met 0 (q.codeFrom f.returnTo) ∧ RegistersFit bound size met f.registers ∧
    (f.caller = none → size = q.names.length)

/-- **The callers of a predicate, or of the query, which alone has none.** -/
def Callers (q : QueryProgram) (bound : Nat) : Option Label → List Frame → Prop
  | owner, [] => owner = none
  | owner, f :: rest => owner ≠ none ∧ f.Stands q bound ∧ Callers q bound f.caller rest

theorem Callers.mono {q : QueryProgram} {bound bound' : Nat} (hle : bound ≤ bound') : ∀ {owner : Option Label}
    {stack : List Frame}, Callers q bound owner stack → Callers q bound' owner stack
  | _, [], h => h
  | _, _ :: _, ⟨hne, ⟨size, met, hfits, hregisters, hsize⟩, hrest⟩ =>
    ⟨hne, ⟨size, met, hfits, hregisters.mono hle, hsize⟩, hrest.mono hle⟩

theorem Callers.lt_bound {q : QueryProgram} {bound : Nat} : ∀ {owner : Option Label} {stack : List Frame},
    Callers q bound owner stack → ∀ f ∈ stack, ∀ cell, some cell ∈ f.registers → cell < bound
  | _, [], _ => fun _ hf => nomatch hf
  | _, f :: rest, ⟨_, ⟨_, _, _, hregisters, _⟩, hrest⟩ => by
    intro g hg cell hcell
    rcases List.mem_cons.1 hg with rfl | hg
    · exact hregisters.lt_bound hcell
    · exact hrest.lt_bound g hg cell hcell

theorem State.register_eq {s : State} {i cell : Nat} (h : s.registers[i]? = some (some cell)) :
    s.register i = s.heap.resolve cell := by
  rw [State.register, h]

/-! ## Running and settled states

What an instruction does to a state is said once for each kind of step (`advanced`, `called`, `returned` and the
others), and the instructions are gone through with these. -/

/-- **A running state that stands at code which fits.** -/
structure Standing (q : QueryProgram) (size met hand : Nat) (stage : Stage) (s : State) : Prop where
  running : s.completed = false ∧ s.failed = false
  heap : s.heap.Sound
  code : Fits size stage met hand (q.codeFrom s.pc)
  hand_le : hand ≤ s.heap.size
  registers : stage.allocated = true → RegistersFit s.heap.size size met s.registers
  callers : Callers q s.heap.size s.jumpTo s.stack
  query : s.jumpTo = none → size = q.names.length
  arity : stage ≠ .body → s.arity = hand

/-- **A state whose references and registers stay inside the heap.** -/
structure State.Sane (s : State) : Prop where
  heap : s.heap.Sound
  registers : ∀ cell, some cell ∈ s.registers → cell < s.heap.size
  saved : ∀ f ∈ s.stack, ∀ cell, some cell ∈ f.registers → cell < s.heap.size

structure Waiting (q : QueryProgram) (label : Label) (s : State) : Prop where
  running : s.completed = false ∧ s.failed = false
  pending : s.jumpTo = some label
  arity_le : label.arity ≤ s.heap.size
  callers : Callers q s.heap.size s.jumpTo s.stack
  sane : s.Sane

structure Finished (q : QueryProgram) (s : State) : Prop where
  completed : s.completed = true
  pending : s.jumpTo = none
  stack : s.stack = []
  length : s.registers.length = q.names.length
  isSome : ∀ register ∈ s.registers, register.isSome
  sane : s.Sane

structure Refuted (s : State) : Prop where
  failed : s.completed = false ∧ s.failed = true
  sane : s.Sane

/-- **A state in which a run may stop.** -/
inductive Settled (q : QueryProgram) (s : State) : Prop
  | waiting {label : Label} (h : Waiting q label s)
  | finished (h : Finished q s)
  | refuted (h : Refuted s)

theorem Settled.sane {q : QueryProgram} {s : State} (h : Settled q s) : s.Sane := by
  cases h with
  | waiting h => exact h.sane
  | finished h => exact h.sane
  | refuted h => exact h.sane

namespace Standing

variable {q : QueryProgram} {size met hand : Nat} {stage : Stage} {s : State}

theorem sane (h : Standing q size met hand stage s) (hstage : stage.allocated = true) : s.Sane where
  heap := h.heap
  registers _ hcell := (h.registers hstage).lt_bound hcell
  saved := h.callers.lt_bound

theorem refuted (h : Standing q size met hand stage s) (hstage : stage.allocated = true) :
    Refuted { s with failed := true } where
  failed := ⟨h.running.1, rfl⟩
  sane := ⟨h.heap, (h.sane hstage).registers, (h.sane hstage).saved⟩

theorem stepped (h : Standing q size met hand stage s) {i : Instruction} {code : List Instruction}
    (hcode : q.codeFrom s.pc = i :: code) {met' hand' : Nat} {stage' : Stage}
    (hfits : Fits size stage' met' hand' code)
    {heap : Heap} (hsound : heap.Sound) (hgrow : s.heap.size ≤ heap.size) (hhand : hand' ≤ heap.size)
    {registers : Registers} (hregisters : stage'.allocated = true → RegistersFit heap.size size met' registers)
    (harity : stage' ≠ .body → s.arity = hand') :
    Standing q size met' hand' stage' { s with heap := heap, registers := registers, pc := q.next s.pc } where
  running := h.running
  heap := hsound
  code := by
    have hnext := (QueryProgram.codeFrom_next hcode hfits.ne_nil).1
    show Fits size stage' met' hand' (q.codeFrom (q.next s.pc))
    rw [hnext]
    exact hfits
  hand_le := hhand
  registers := hregisters
  callers := h.callers.mono hgrow
  query := h.query
  arity := harity

theorem cellAt_nonneg (h : Standing q size met hand stage s) {offset : Int} (hlow : -(hand : Int) ≤ offset) :
    0 ≤ (s.heap.size : Int) + offset := by
  have := h.hand_le
  omega

variable {i : Instruction} {code : List Instruction}

theorem advanced (h : Standing q size met hand stage s) (hcode : q.codeFrom s.pc = i :: code)
    {hand' : Nat} {stage' : Stage} (hfits : Fits size stage' met hand' code)
    (hallocated : stage'.allocated = true → stage.allocated = true)
    (hhand : hand' ≤ hand) (harity : stage' ≠ .body → stage ≠ .body ∧ hand = hand') :
    Standing q size met hand' stage' { s with pc := q.next s.pc } :=
  h.stepped hcode hfits h.heap (Nat.le_refl _) (Nat.le_trans hhand h.hand_le)
    (fun hs => h.registers (hallocated hs)) fun hne => (h.arity (harity hne).1).trans (harity hne).2

theorem allocated (h : Standing q size 0 hand .allocating s) (hcode : q.codeFrom s.pc = i :: code) {stage' : Stage}
    (hfits : Fits size stage' 0 hand code) :
    Standing q size 0 hand stage' { s with registers := List.replicate size none, pc := q.next s.pc } :=
  h.stepped hcode hfits h.heap (Nat.le_refl _) h.hand_le (fun _ => .fresh _ _) fun _ =>
    h.arity fun he => nomatch he

theorem initialized (h : Standing q size met hand .head s) (hcode : q.codeFrom s.pc = i :: code)
    (hfits : Fits size .head (met + 1) hand code) (hmet : met < size) {cell : Nat} (hcell : cell < s.heap.size) :
    Standing q size (met + 1) hand .head
      { s with registers := s.registers.set met (some cell), pc := q.next s.pc } :=
  h.stepped hcode hfits h.heap (Nat.le_refl _) h.hand_le (fun _ => (h.registers rfl).set hmet hcell)
    fun _ => h.arity fun he => nomatch he

theorem changed (h : Standing q size met hand stage s) (hcode : q.codeFrom s.pc = i :: code) {hand' : Nat}
    (hfits : Fits size stage met hand' code) (hallocated : stage.allocated = true) {change : Heap.Change}
    (hchange : change.Fits s.heap) (hhand : hand' ≤ hand) (harity : stage ≠ .body → hand = hand') :
    Standing q size met hand' stage { s with heap := s.heap.apply change, pc := q.next s.pc } :=
  have hgrow := Nat.le_of_eq (Heap.size_apply s.heap change).symm
  h.stepped hcode hfits (h.heap.apply hchange) hgrow (Nat.le_trans hhand (Nat.le_trans h.hand_le hgrow))
    (fun _ => (h.registers hallocated).mono hgrow) fun hne => (h.arity hne).trans (harity hne)

theorem pushedConst (h : Standing q size met hand .body s) (hcode : q.codeFrom s.pc = i :: code)
    (hfits : Fits size .body met (hand + 1) code) (c : Nat) :
    Standing q size met (hand + 1) .body { s with heap := s.heap.pushConst c, pc := q.next s.pc } :=
  h.stepped hcode hfits (h.heap.push (.const c) fun _ hj => nomatch hj) (Heap.size_push _ _ ▸ Nat.le_succ _)
    (Heap.size_push _ _ ▸ Nat.succ_le_succ h.hand_le)
    (fun _ => (h.registers rfl).mono (Heap.size_push _ _ ▸ Nat.le_succ _)) fun hne => absurd rfl hne

theorem pushedFree (h : Standing q size met hand .body s) (hcode : q.codeFrom s.pc = i :: code)
    (hfits : Fits size .body (met + 1) (hand + 1) code) (hmet : met < size) :
    Standing q size (met + 1) (hand + 1) .body
      { s with heap := s.heap.pushFree, registers := s.registers.set met (some s.heap.size), pc := q.next s.pc } :=
  h.stepped hcode hfits (h.heap.push _ fun j hj => by cases hj; exact Nat.le_refl _)
    (Heap.size_push _ _ ▸ Nat.le_succ _) (Heap.size_push _ _ ▸ Nat.succ_le_succ h.hand_le)
    (fun _ => ((h.registers rfl).mono (Heap.size_push _ _ ▸ Nat.le_succ _)).set hmet
      (Heap.size_push _ _ ▸ Nat.lt_succ_self _))
    fun hne => absurd rfl hne

theorem pushedBound (h : Standing q size met hand .body s) (hcode : q.codeFrom s.pc = i :: code)
    (hfits : Fits size .body met (hand + 1) code) {cell : Nat} (hcell : cell < s.heap.size) :
    Standing q size met (hand + 1) .body
      { s with heap := s.heap.push (.ref (s.heap.deref cell)), pc := q.next s.pc } :=
  h.stepped hcode hfits (h.heap.push _ fun j hj => by cases hj; exact Nat.le_of_lt (h.heap.deref_lt hcell))
    (Heap.size_push _ _ ▸ Nat.le_succ _) (Heap.size_push _ _ ▸ Nat.succ_le_succ h.hand_le)
    (fun _ => (h.registers rfl).mono (Heap.size_push _ _ ▸ Nat.le_succ _)) fun hne => absurd rfl hne

/-- **A call that branches leaves a state that waits** behind its caller. -/
theorem called {label : Label} (h : Standing q size met label.arity .body s) (hcode : q.codeFrom s.pc = i :: code)
    (hfits : Fits size .body met 0 code) :
    Waiting q label { s with stack := ⟨q.next s.pc, s.registers, s.jumpTo⟩ :: s.stack, jumpTo := some label } := by
  have hnext := (QueryProgram.codeFrom_next hcode hfits.ne_nil).1
  have hstands : Frame.Stands q s.heap.size ⟨q.next s.pc, s.registers, s.jumpTo⟩ :=
    ⟨size, met, by rw [hnext]; exact hfits, h.registers rfl, h.query⟩
  have hcallers : Callers q s.heap.size (some label) (⟨q.next s.pc, s.registers, s.jumpTo⟩ :: s.stack) :=
    ⟨fun he => (nomatch he), hstands, h.callers⟩
  exact
    { running := h.running
      pending := rfl
      arity_le := h.hand_le
      callers := hcallers
      sane := ⟨h.heap, (h.sane rfl).registers, hcallers.lt_bound⟩ }

/-- **A caller that is returned to stands.** -/
theorem returned {size' : Nat} {stage : Stage} (h : Standing q size' met hand stage s)
    {f : Frame} {rest : List Frame} (hstack : s.stack = f :: rest) : ∃ size met, Standing q size met 0 .body
      { s with pc := f.returnTo, registers := f.registers, jumpTo := f.caller, stack := rest } := by
  have hcallers := h.callers
  rw [hstack] at hcallers
  obtain ⟨-, ⟨size, met, hfits, hregisters, hsize⟩, hrest⟩ := hcallers
  exact ⟨size, met,
    { running := h.running
      heap := h.heap
      code := hfits
      hand_le := Nat.zero_le _
      registers := fun _ => hregisters
      callers := hrest
      query := hsize
      arity := fun hne => absurd rfl hne }⟩

/-- **A query that returns has succeeded.** -/
theorem finished (h : Standing q size size 0 .body s) (hstack : s.stack = []) :
    Finished q { s with completed := true, jumpTo := none } := by
  have hcallers := h.callers
  rw [hstack] at hcallers
  have hregisters := h.registers rfl
  exact
    { completed := rfl
      pending := rfl
      stack := hstack
      length := hregisters.length.trans (h.query hcallers)
      isSome := hregisters.isSome
      sane := ⟨h.heap, (h.sane rfl).registers, (h.sane rfl).saved⟩ }

theorem register_ne_unset (h : Standing q size met hand stage s)
    (hallocated : stage.allocated = true) {register : Nat} (hlt : register < met) :
    s.register register ≠ .unset := by
  obtain ⟨cell, hcell, hget⟩ := (h.registers hallocated).isSet register hlt
  rw [State.register_eq hget]
  exact h.heap.resolve_ne_unset hcell

end Standing

/-! ## One instruction

Faults are divided here: those that rules and facts may lead to, like a precondition of a builtin, and those that
only code could meet that the compiler does not make. -/

/-- **Faults that rules, facts and bounds may lead to**; all others would be faults of the code itself. -/
def LogicError.Foreseen : LogicError → Prop
  | unknownPredicate _ => True
  | builtinPrecondition _ _ => True
  | stepLimitExceeded _ => True
  | callStackOverflow _ _ => True
  | _ => False

/-- **What one instruction may come to.** -/
def Stepped {K : Type} (q : QueryProgram) : Except LogicError Control × Run K → Prop
  | (.error e, _) => e.Foreseen
  | (.ok .next, r) => ∃ size met hand stage, Standing q size met hand stage r.state
  | (.ok _, r) => Settled q r.state

theorem Builtin.run_fits (b : Builtin) {h : Heap} (hs : h.Sound) (first second : Nat) (hfirst : first < h.size) :
    match b.run h first second with
    | .ok (some change) => change.Fits h
    | .ok none => True
    | .error e => e.Foreseen := by
  cases hrun : b.run h first second with
  | error e =>
    obtain ⟨message, rfl⟩ := Builtin.error_of_run hrun
    trivial
  | ok answer =>
    cases answer with
    | none => trivial
    | some change =>
      obtain rfl | ⟨root, value, -, hr, rfl⟩ := Builtin.change_of_run hrun
      · exact .keep
      · rcases hs.resolve_cases hfirst with ⟨c, hc, -⟩ | ⟨hr', hcell⟩
        · rw [hc] at hr
          cases hr
        · rw [hr'] at hr
          cases hr
          exact .bindConst hcell

variable {K : Type} [Scalar K] (m : Machine K)

/-- **What a call comes to** at code that fits. -/
theorem call_stepped {size met : Nat} {label : Label} {code : List Instruction} {r : Run K}
    (hs : Standing m.query size met label.arity .body r.state)
    (hcode : m.query.codeFrom r.state.pc = .call label :: code)
    (hfits : Fits size .body met 0 code) : Stepped m.query (m.execute (.call label) r) := by
  cases hb : Builtin.ofLabel? label with
  | some b =>
    have hsize : 2 ≤ r.state.heap.size := arity_of_builtin hb ▸ hs.hand_le
    rw [execute_builtin m r hb hsize]
    have hrun := b.run_fits hs.heap (r.state.heap.size - 2) (r.state.heap.size - 1) (by omega)
    rcases hb : b.run r.state.heap (r.state.heap.size - 2) (r.state.heap.size - 1) with e | (_ | change)
    · rw [hb] at hrun
      exact hrun
    · exact .refuted (hs.refuted rfl)
    · rw [hb] at hrun
      exact ⟨_, _, _, _, hs.changed hcode hfits rfl hrun (Nat.zero_le _) (fun hne => absurd rfl hne)⟩
  | none =>
    rw [execute_call m r hb hs.hand_le]
    split
    · exact trivial
    · exact .waiting (hs.called hcode hfits)

omit [Scalar K] in
/-- **What a return comes to**: the caller stands, or the query has succeeded. -/
theorem return_stepped {q : QueryProgram} {size : Nat} {r : Run K} (hs : Standing q size size 0 .body r.state) :
    Stepped q ((returnToCaller : RunM K Control) r) := by
  cases hstack : r.state.stack with
  | nil =>
    rw [returnToCaller_nil r hstack]
    exact .finished (hs.finished hstack)
  | cons f rest =>
    rw [returnToCaller_cons r hstack]
    obtain ⟨size, met, hs'⟩ := hs.returned hstack
    exact ⟨size, met, 0, .body, hs'⟩

/-- **Every instruction keeps the state standing, settles it, or meets a foreseen fault.** -/
theorem execute_stepped {size met hand : Nat} {stage : Stage} {r : Run K}
    (hs : Standing m.query size met hand stage r.state) {i : Instruction} {code : List Instruction}
    (hcode : m.query.codeFrom r.state.pc = i :: code) :
    Stepped m.query (m.execute i r) := by
  have hfits := hs.code
  rw [hcode] at hfits
  cases hfits with
  | comment h =>
    rw [execute_comment]
    exact ⟨_, _, _, _, hs.advanced hcode h (fun hc => nomatch hc) (Nat.le_refl _) fun _ =>
      ⟨fun he => (nomatch he), rfl⟩⟩
  | allocateRule h =>
    rw [execute_allocate]
    exact ⟨_, _, _, _, hs.allocated hcode h⟩
  | allocateQuery h =>
    rw [execute_allocate]
    exact ⟨_, _, _, _, hs.allocated hcode h⟩
  | initFreeVar hlow hhigh hmet h =>
    have hcell := hs.cellAt_nonneg hlow
    rw [execute_initFreeVar m r hcell hhigh ((hs.registers rfl).length.symm ▸ hmet)]
    exact ⟨_, _, _, _, hs.initialized hcode h hmet (cellAt_lt hhigh hcell)⟩
  | unifyConst hlow hhigh h =>
    have hcell := hs.cellAt_nonneg hlow
    rw [execute_unifyConst m r _ hcell hhigh]
    split
    · rename_i change hm
      have hchange := Heap.matchConst_fits hs.heap (cellAt_lt hhigh hcell) hm
      exact ⟨_, _, _, _, hs.changed hcode h rfl hchange (Nat.le_refl _) fun _ => rfl⟩
    · exact .refuted (hs.refuted rfl)
  | unifyBoundVar hlow hhigh hregister h =>
    obtain ⟨cell, hlt, hget⟩ := (hs.registers rfl).isSet _ hregister
    have hcell := hs.cellAt_nonneg hlow
    rw [execute_unifyBoundVar m r hget hcell hhigh]
    split
    · rename_i change hu
      have hchange := Heap.unifier_fits hs.heap hlt (cellAt_lt hhigh hcell) hu
      exact ⟨_, _, _, _, hs.changed hcode h rfl hchange (Nat.le_refl _) fun _ => rfl⟩
    · exact .refuted (hs.refuted rfl)
  | clearFeatures h =>
    rw [execute_clearFeatures]
    exact ⟨_, _, _, _, hs.advanced hcode h id (Nat.le_refl _) fun _ => ⟨fun he => (nomatch he), rfl⟩⟩
  | startFeature h =>
    rw [execute_startFeature]
    refine ⟨size, met, hand, .features, ?_⟩
    rw [state_advanced, state_completeFeature]
    exact hs.advanced hcode h id (Nat.le_refl _) fun _ => ⟨fun he => (nomatch he), rfl⟩
  | featureConst h =>
    rw [execute_featureConst]
    refine ⟨size, met, hand, .features, ?_⟩
    rw [state_advanced, state_addArgument]
    exact hs.advanced hcode h id (Nat.le_refl _) fun _ => ⟨fun he => (nomatch he), rfl⟩
  | featureVar hregister h =>
    rw [execute_featureVar m r (hs.register_ne_unset rfl hregister)]
    refine ⟨size, met, hand, .features, ?_⟩
    rw [state_advanced, state_addArgument]
    exact hs.advanced hcode h id (Nat.le_refl _) fun _ => ⟨fun he => (nomatch he), rfl⟩
  | reportFeatures h =>
    rw [execute_reportFeatures]
    exact ⟨_, _, _, _, hs.advanced hcode h id (Nat.zero_le _) fun hne => absurd rfl hne⟩
  | pushConst h =>
    rw [execute_pushConst]
    exact ⟨_, _, _, _, hs.pushedConst hcode h _⟩
  | pushFreeVar hmet h =>
    rw [execute_pushFreeVar m r ((hs.registers rfl).length.symm ▸ hmet)]
    exact ⟨_, _, _, _, hs.pushedFree hcode h hmet⟩
  | pushBoundVar hregister h =>
    obtain ⟨cell, hlt, hget⟩ := (hs.registers rfl).isSet _ hregister
    rw [execute_pushBoundVar m r hget]
    exact ⟨_, _, _, _, hs.pushedBound hcode h hlt⟩
  | call h => exact call_stepped m hs hcode h
  | proceed =>
    rw [execute_proceed]
    exact return_stepped hs

/-! ## Runs

By induction on the steps that are left. -/

def RanTo (q : QueryProgram) {α : Type} : Except LogicError α × Run K → Prop
  | (.error e, _) => e.Foreseen
  | (.ok _, r) => Settled q r.state

/-- **A run from a standing state settles it or meets a foreseen fault.** -/
theorem runFor_settled : ∀ (fuel : Nat) {size met hand : Nat} {stage : Stage} {r : Run K},
    Standing m.query size met hand stage r.state → RanTo m.query (m.runFor fuel r)
  | 0, _, _, _, _, _, _ => trivial
  | fuel + 1, _, _, _, _, r, hs => by
    obtain ⟨i, code, hcode⟩ := List.exists_cons_of_ne_nil hs.code.ne_nil
    rw [runFor_succ m r fuel (QueryProgram.fetch_of_codeFrom hcode)]
    have hstep := execute_stepped m (r := counted r) hs hcode
    generalize m.execute i (counted r) = outcome at hstep ⊢
    rcases outcome with ⟨e | c, r'⟩
    · exact hstep
    · cases c with
      | next =>
        obtain ⟨size', met', hand', stage', hs'⟩ := hstep
        exact runFor_settled fuel hs'
      | branch => exact hstep
      | halt => exact hstep

end ProofWalk
