import ProofWalk.Graph.Prune
import ProofWalk.Proofs.Safety
/-!
# Proofs.OpenCalls — the stack mirrors the calls that are open

A clause is open from when it is entered until it returns.  `Underway` keeps account of the open clauses by these
two events, with no look at what the frames save.  The stack has a frame for each open clause and one for the query:
each returns behind a call of the predicate above it, into a clause of its own predicate, with a register file of
the length that this clause allocates (`Nested`).  Hence the filter that hides calls hides the states in which such
a clause is open.

The list of open clauses is a history, which no state records; that it is unique for a state, and what it has to do
with the stack, is what is proved.  Stack and history change together only at calls and returns, and every other
instruction leaves both alone.
-/
namespace ProofWalk

/-! ## Clauses in the code

Code that fits goes on to a return without any other return in between.  So a clause spans the code from its first
address to that of its return (`Spans`), and where a run stands inside it, it stays inside until it returns. -/

def Instruction.Inner : Instruction → Prop
  | .allocate _ _ => False
  | .proceed => False
  | _ => True

theorem Fits.exists_return {size met hand : Nat} {stage : Stage} {code : List Instruction}
    (h : Fits size stage met hand code) (hstage : stage.allocated = true) :
    ∃ before rest, code = before ++ .proceed :: rest ∧ ∀ i ∈ before, i.Inner := by
  induction h with
  | comment => cases hstage
  | allocateRule => cases hstage
  | allocateQuery => cases hstage
  | proceed => exact ⟨[], _, rfl, nofun⟩
  | _ =>
    rename_i ih
    obtain ⟨before, rest, rfl, hinner⟩ := ih rfl
    exact ⟨_ :: before, rest, rfl, List.forall_mem_cons.2 ⟨trivial, hinner⟩⟩

namespace QueryProgram

def openings (q : QueryProgram) : Option Label → List Nat
  | some label => q.clauses label
  | none => [q.entry]

/-- **A clause of a predicate, or the query, from its first address to that of its return.** -/
structure Spans (q : QueryProgram) (owner : Option Label) (size first last : Nat) : Prop where
  opens : first ∈ q.openings owner
  comment : ∃ text, q.fetch first = some (.comment text)
  allocates : ∃ names, q.fetch (first + 1) = some (.allocate size names)
  order : first + 1 < last
  inner : ∀ pc, first + 1 < pc → pc < last → ∃ i, q.fetch pc = some i ∧ i.Inner
  returns : q.fetch last = some .proceed

theorem fetch_add (q : QueryProgram) (pc i : Nat) : q.fetch (pc + i) = (q.codeFrom pc)[i]? := by
  rw [fetch_eq, codeFrom, codeFrom, List.head?_drop, List.getElem?_drop]

theorem lt_size_of_fetch {q : QueryProgram} {pc : Nat} {i : Instruction} (h : q.fetch pc = some i) :
    pc < q.size := by
  rw [← Nat.zero_add pc, fetch_add, codeFrom, List.drop_zero, Array.getElem?_toList] at h
  have hlt := (Array.getElem?_eq_some_iff.1 h).1
  rwa [Array.size_append] at hlt

theorem spans_of_fits {q : QueryProgram} {owner : Option Label} {size hand first : Nat}
    (hopens : first ∈ q.openings owner) (hfits : Fits size .opening 0 hand (q.codeFrom first)) :
    ∃ last, q.Spans owner size first last := by
  have hcode : ∃ text names before rest,
      q.codeFrom first = .comment text :: .allocate size names :: (before ++ .proceed :: rest) ∧
        ∀ i ∈ before, i.Inner := by
    generalize q.codeFrom first = code at hfits
    cases hfits with
    | comment h =>
      cases h with
      | allocateRule h | allocateQuery h =>
        obtain ⟨before, rest, rfl, hinner⟩ := h.exists_return rfl
        exact ⟨_, _, before, rest, rfl, hinner⟩
  obtain ⟨text, names, before, rest, hcode, hinner⟩ := hcode
  have hfetch : ∀ i, q.fetch (first + (i + 2)) = (before ++ .proceed :: rest)[i]? := fun i => by
    rw [fetch_add, hcode, List.getElem?_cons_succ, List.getElem?_cons_succ]
  refine ⟨first + (before.length + 2), hopens, ⟨text, ?_⟩, ⟨names, ?_⟩, by omega, fun pc hlow hhigh => ?_, ?_⟩
  · rw [← Nat.add_zero first, fetch_add, hcode, List.getElem?_cons_zero]
  · rw [fetch_add, hcode, List.getElem?_cons_succ, List.getElem?_cons_zero]
  · obtain ⟨i, rfl⟩ := Nat.exists_eq_add_of_le (show first + 2 ≤ pc from hlow)
    have hi : i < before.length := by omega
    refine ⟨before[i], ?_, hinner _ (List.getElem_mem hi)⟩
    rw [Nat.add_assoc, Nat.add_comm 2 i, hfetch, List.getElem?_append_left hi, List.getElem?_eq_getElem hi]
  · rw [hfetch, List.getElem?_append_right (Nat.le_refl _), Nat.sub_self, List.getElem?_cons_zero]

end QueryProgram

/-! ## Frames

What a call saves is described by the code around it: the instruction before the address to return to is a call of
the predicate above, and the registers are those of the clause that the address lies in. -/

/-- **What a call of a predicate saves**: the way back, behind the call, into a clause of the predicate that calls
or into the query, and the registers of this clause. -/
def Frame.Saves (q : QueryProgram) (callee : Label) (f : Frame) : Prop :=
  ∃ first last site, q.Spans f.caller f.registers.length first last ∧ first + 1 < site ∧ site < last ∧
    q.fetch site = some (.call callee) ∧ f.returnTo = site + 1

/-- **The frames below a predicate**, each saved at a call of the one above; the query alone has none. -/
def Nested (q : QueryProgram) : Option Label → List Frame → Prop
  | owner, [] => owner = none
  | owner, f :: rest => ∃ callee, owner = some callee ∧ f.Saves q callee ∧ Nested q f.caller rest

theorem Nested.frame {q : QueryProgram} : ∀ {owner : Option Label} {stack : List Frame}, Nested q owner stack →
    ∀ {i : Nat} {f : Frame}, stack[i]? = some f →
      ∃ callee, (owner :: stack.map Frame.caller)[i]? = some (some callee) ∧ f.Saves q callee
  | _, [], _, _, _, hf => nomatch hf
  | _, _ :: _, ⟨callee, hcallee, hsaves, _⟩, 0, _, hf => by
    cases hf
    exact ⟨callee, congrArg some hcallee, hsaves⟩
  | _, _ :: _, ⟨_, _, _, hrest⟩, _ + 1, _, hf => hrest.frame hf

structure State.Inside (q : QueryProgram) (s : State) (size first last : Nat) : Prop where
  spans : q.Spans s.jumpTo size first last
  low : first ≤ s.pc
  high : s.pc ≤ last
  registers : first + 1 < s.pc → s.registers.length = size

theorem State.Inside.next {q : QueryProgram} {s : State} {size first last : Nat} (h : s.Inside q size first last)
    {i : Instruction} (hfetch : q.fetch s.pc = some i) (hi : i ≠ .proceed) :
    s.pc < last ∧ q.next s.pc = s.pc + 1 := by
  have hlt : s.pc < last := Nat.lt_of_le_of_ne h.high fun he => by
    rw [he, h.spans.returns] at hfetch
    exact hi (Option.some.inj hfetch).symm
  exact ⟨hlt, if_pos (Nat.lt_of_le_of_lt hlt (QueryProgram.lt_size_of_fetch h.spans.returns))⟩

theorem State.Inside.past_head {q : QueryProgram} {s : State} {size first last : Nat}
    (h : s.Inside q size first last) {label : Label} (hfetch : q.fetch s.pc = some (.call label)) :
    first + 1 < s.pc := by
  obtain ⟨text, hcomment⟩ := h.spans.comment
  obtain ⟨names, hallocate⟩ := h.spans.allocates
  have hlow := h.low
  have hne : first ≠ s.pc := fun he => by
    rw [he, hfetch] at hcomment
    cases hcomment
  have hne' : first + 1 ≠ s.pc := fun he => by
    rw [he, hfetch] at hallocate
    cases hallocate
  omega

theorem QueryProgram.Spans.inside {q : QueryProgram} {s : State} {size last : Nat}
    (h : q.Spans s.jumpTo size s.pc last) : s.Inside q size s.pc last :=
  ⟨h, Nat.le_refl _, Nat.le_of_lt (Nat.lt_of_succ_lt h.order),
    fun hpc => absurd hpc (Nat.not_lt_of_ge (Nat.le_succ _))⟩

open Machine

theorem Frame.Saves.inside {q : QueryProgram} {callee : Label} {f : Frame} (h : f.Saves q callee)
    (s : State) (rest : List Frame) : ∃ size first last, (returned s f rest).Inside q size first last := by
  obtain ⟨first, last, site, hspans, hlow, hhigh, -, hreturn⟩ := h
  have hpc : (returned s f rest).pc = site + 1 := hreturn
  exact ⟨f.registers.length, first, last, hspans, by omega, by omega, fun _ => rfl⟩

theorem Settled.exists_waiting {q : QueryProgram} {s : State} (h : Settled q s)
    (hrunning : s.completed = false ∧ s.failed = false) : ∃ label, Waiting q label s := by
  cases h with
  | @waiting label h => exact ⟨label, h⟩
  | finished h =>
    rw [h.completed] at hrunning
    cases hrunning.1
  | refuted h =>
    rw [h.failed.2] at hrunning
    cases hrunning.2

theorem opened_injective {opened opened' : List Label}
    (h : opened.map some ++ [none] = opened'.map some ++ [none]) : opened = opened' :=
  List.map_injective_iff.2 (fun _ _ he => Option.some.inj he) (List.append_cancel_right h)

theorem State.inCall_iff {s : State} {p : Label → Bool} {label : Label} {opened : List Label}
    (hpending : s.jumpTo = some label) (hcallers : s.stack.map Frame.caller = opened.map some ++ [none]) :
    s.inCall p = true ↔ p label = true ∨ ∃ l ∈ opened, p l = true := by
  have hstack : (s.stack.any fun f => f.caller.any p) = (s.stack.map Frame.caller).any (·.any p) := by
    rw [List.any_map]
    rfl
  rw [inCall, hstack, hpending, hcallers]
  simp

/-! ## One instruction

An instruction pushes a frame, pops one, or leaves the stack alone (`Happens`); this is the one place where the
instructions are gone through. -/

structure KeepsStack (q : QueryProgram) (i : Instruction) (s s' : State) : Prop where
  stack : s'.stack = s.stack
  jumpTo : s'.jumpTo = s.jumpTo
  pc : s'.pc = q.next s.pc
  length : i.Inner → s'.registers.length = s.registers.length
  allocated : ∀ size names, i = .allocate size names → s'.registers.length = size

namespace Machine

variable {K : Type}

/-- **What an instruction does to stack and control.** -/
inductive Happens (m : Machine K) (i : Instruction) (s : State) : Control → State → Prop
  | quiet {s' : State} (hi : i ≠ .proceed) (h : KeepsStack m.query i s s') : Happens m i s .next s'
  | returned {f : Frame} {rest : List Frame} (hi : i = .proceed) (hstack : s.stack = f :: rest) :
      Happens m i s .next (returned s f rest)
  | called {label : Label} (hi : i = .call label) (hroom : s.stack.length < m.limits.stack) :
      Happens m i s .branch
        { s with stack := ⟨m.query.next s.pc, s.registers, s.jumpTo⟩ :: s.stack, jumpTo := some label }
  | halted {s' : State} (h : s'.completed = true ∨ s'.failed = true) : Happens m i s .halt s'

theorem Happens.inner {m : Machine K} {i : Instruction} {s s' : State} (hi : i.Inner) (hstack : s'.stack = s.stack)
    (hjump : s'.jumpTo = s.jumpTo) (hpc : s'.pc = m.query.next s.pc)
    (hlength : s'.registers.length = s.registers.length) :
    Happens m i s .next s' := by
  refine .quiet ?_ ⟨hstack, hjump, hpc, fun _ => hlength, ?_⟩
  · rintro rfl
    exact hi
  · rintro size names rfl
    exact hi.elim

section

variable [Scalar K] (m : Machine K)

theorem execute_happens {size met hand : Nat} {stage : Stage} {r r' : Run K} {i : Instruction}
    {code : List Instruction} {c : Control} (hs : Standing m.query size met hand stage r.state)
    (hcode : m.query.codeFrom r.state.pc = i :: code)
    (hrun : m.execute i r = (.ok c, r')) : Happens m i r.state c r'.state := by
  have hfits := hs.code
  rw [hcode] at hfits
  cases hfits with
  | comment h =>
    rw [execute_comment] at hrun
    cases hrun
    exact .inner trivial rfl rfl rfl rfl
  | allocateRule h | allocateQuery h =>
    rw [execute_allocate] at hrun
    cases hrun
    refine .quiet nofun ⟨rfl, rfl, rfl, False.elim, fun _ _ he => ?_⟩
    cases he
    exact List.length_replicate
  | initFreeVar hlow hhigh hmet h =>
    rw [execute_initFreeVar m r (hs.cellAt_nonneg hlow) hhigh ((hs.registers rfl).length.symm ▸ hmet)] at hrun
    cases hrun
    exact .inner trivial rfl rfl rfl List.length_set
  | unifyConst hlow hhigh h =>
    rw [execute_unifyConst m r _ (hs.cellAt_nonneg hlow) hhigh] at hrun
    split at hrun
    · cases hrun
      exact .inner trivial rfl rfl rfl rfl
    · cases hrun
      exact .halted (.inr rfl)
  | unifyBoundVar hlow hhigh hregister h =>
    obtain ⟨cell, -, hget⟩ := (hs.registers rfl).isSet _ hregister
    rw [execute_unifyBoundVar m r hget (hs.cellAt_nonneg hlow) hhigh] at hrun
    split at hrun
    · cases hrun
      exact .inner trivial rfl rfl rfl rfl
    · cases hrun
      exact .halted (.inr rfl)
  | clearFeatures h =>
    rw [execute_clearFeatures] at hrun
    cases hrun
    exact .inner trivial rfl rfl rfl rfl
  | startFeature h =>
    rw [execute_startFeature] at hrun
    cases hrun
    rw [state_advanced, state_completeFeature]
    exact .inner trivial rfl rfl rfl rfl
  | featureConst h =>
    rw [execute_featureConst] at hrun
    cases hrun
    rw [state_advanced, state_addArgument]
    exact .inner trivial rfl rfl rfl rfl
  | featureVar hregister h =>
    rw [execute_featureVar m r (hs.register_ne_unset rfl hregister)] at hrun
    cases hrun
    rw [state_advanced, state_addArgument]
    exact .inner trivial rfl rfl rfl rfl
  | reportFeatures h =>
    rw [execute_reportFeatures] at hrun
    cases hrun
    exact .inner trivial rfl rfl rfl rfl
  | pushConst h =>
    rw [execute_pushConst] at hrun
    cases hrun
    exact .inner trivial rfl rfl rfl rfl
  | pushFreeVar hmet h =>
    rw [execute_pushFreeVar m r ((hs.registers rfl).length.symm ▸ hmet)] at hrun
    cases hrun
    exact .inner trivial rfl rfl rfl List.length_set
  | pushBoundVar hregister h =>
    obtain ⟨cell, -, hget⟩ := (hs.registers rfl).isSet _ hregister
    rw [execute_pushBoundVar m r hget] at hrun
    cases hrun
    exact .inner trivial rfl rfl rfl rfl
  | @call _ label _ h =>
    cases hb : Builtin.ofLabel? label with
    | some b =>
      rw [execute_builtin m r hb (arity_of_builtin hb ▸ hs.hand_le)] at hrun
      split at hrun
      · cases hrun
        exact .inner trivial rfl rfl rfl rfl
      · cases hrun
        exact .halted (.inr rfl)
      · cases hrun
    | none =>
      rw [execute_call m r hb hs.hand_le] at hrun
      split at hrun
      · cases hrun
      · rename_i hroom
        cases hrun
        exact .called rfl (Nat.lt_of_not_le hroom)
  | proceed =>
    rw [execute_proceed] at hrun
    cases hstack : r.state.stack with
    | nil =>
      rw [returnToCaller_nil r hstack] at hrun
      cases hrun
      exact .halted (.inl rfl)
    | cons f rest =>
      rw [returnToCaller_cons r hstack] at hrun
      cases hrun
      exact .returned rfl hstack

/-! ## Open clauses

`InClause` and `AtCall` say how stack and open clauses correspond between two instructions and at a call.  Each
event keeps the correspondence: entering a clause, calling, and returning to the caller. -/

inductive Phase
  | running
  | waiting

/-- **The states on the way of a machine, with the clauses that are open there**, the latest first, each by its
predicate.  A clause of the pending predicate opens when it is entered, and closes when it returns; a fact opens
none. -/
inductive Underway (m : Machine K) : Phase → List Label → State → Prop
  | start : Underway m .running [] (.start m.query.entry)
  | step {opened : List Label} {r r' : Run K} {i : Instruction} (h : Underway m .running opened r.state)
      (hfetch : m.query.fetch r.state.pc = some i) (hi : i ≠ .proceed) (hrun : m.execute i r = (.ok .next, r')) :
      Underway m .running opened r'.state
  | call {opened : List Label} {r r' : Run K} {i : Instruction} (h : Underway m .running opened r.state)
      (hfetch : m.query.fetch r.state.pc = some i) (hrun : m.execute i r = (.ok .branch, r')) :
      Underway m .waiting opened r'.state
  | enter {opened : List Label} {s : State} {label : Label} {address : Nat} (h : Underway m .waiting opened s)
      (hlabel : s.jumpTo = some label) (haddress : address ∈ m.query.clauses label) :
      Underway m .running (label :: opened) { s with pc := address }
  | leave {opened : List Label} {label : Label} {r r' : Run K} (h : Underway m .running (label :: opened) r.state)
      (hfetch : m.query.fetch r.state.pc = some .proceed) (hrun : m.execute .proceed r = (.ok .next, r')) :
      Underway m .running opened r'.state
  | answer {opened : List Label} {s : State} {label : Label} {b : FactBase K} {fact : Fact K}
      {heap : Heap} {f : Frame}
      {rest : List Frame} (h : Underway m .waiting opened s) (hlabel : s.jumpTo = some label) (hb : b ∈ m.bases)
      (hfact : fact ∈ b.factsOf label)
      (hmatch : matchAll s.heap ((List.range' (s.heap.size - label.arity) label.arity).zip fact.args) = some heap)
      (hstack : s.stack = f :: rest) : Underway m .running opened (returned { s with heap := heap } f rest)

end

section

variable {m : Machine K}

/-- **A running state whose stack mirrors the open clauses.** -/
structure InClause (m : Machine K) (opened : List Label) (s : State) : Prop where
  standing : ∃ size met hand stage, Standing m.query size met hand stage s
  inside : ∃ size first last, s.Inside m.query size first last
  nested : Nested m.query s.jumpTo s.stack
  room : s.stack.length ≤ m.limits.stack
  owners : s.jumpTo :: s.stack.map Frame.caller = opened.map some ++ [none]

/-- **A waiting state whose callers mirror the open clauses.** -/
structure AtCall (m : Machine K) (opened : List Label) (s : State) : Prop where
  waiting : ∃ label, Waiting m.query label s
  nested : Nested m.query s.jumpTo s.stack
  room : s.stack.length ≤ m.limits.stack
  callers : s.stack.map Frame.caller = opened.map some ++ [none]

def Mirrors (m : Machine K) : Phase → List Label → State → Prop
  | .running => InClause m
  | .waiting => AtCall m

variable {opened : List Label} {s s' : State}

theorem InClause.quiet (h : InClause m opened s) {i : Instruction}
    (hfetch : m.query.fetch s.pc = some i) (hi : i ≠ .proceed) (hquiet : KeepsStack m.query i s s')
    (hstanding : ∃ size met hand stage, Standing m.query size met hand stage s') :
    InClause m opened s' := by
  obtain ⟨size, first, last, hinside⟩ := h.inside
  obtain ⟨hlast, hnext⟩ := hinside.next hfetch hi
  obtain ⟨hspans, hlow, -, hregisters⟩ := hinside
  refine ⟨hstanding, ⟨size, first, last, ?_, ?_, ?_, ?_⟩, ?_, ?_, ?_⟩
  · rw [hquiet.jumpTo]
    exact hspans
  · rw [hquiet.pc, hnext]
    omega
  · rw [hquiet.pc, hnext]
    omega
  · rw [hquiet.pc, hnext]
    intro hpc
    rcases Nat.eq_or_lt_of_le (Nat.le_of_lt_succ hpc) with hpc | hpc
    · -- At the end of the head the registers are those that have just been allocated.
      obtain ⟨names, hallocate⟩ := hspans.allocates
      rw [hpc, hfetch] at hallocate
      exact hquiet.allocated size names (Option.some.inj hallocate)
    · obtain ⟨i', hfetch', hinner⟩ := hspans.inner s.pc hpc (by omega)
      rw [hfetch] at hfetch'
      cases hfetch'
      rw [hquiet.length hinner]
      exact hregisters hpc
  · rw [hquiet.jumpTo, hquiet.stack]
    exact h.nested
  · rw [hquiet.stack]
    exact h.room
  · rw [hquiet.jumpTo, hquiet.stack]
    exact h.owners

theorem InClause.called (h : InClause m opened s) {label : Label}
    (hfetch : m.query.fetch s.pc = some (.call label)) (hroom : s.stack.length < m.limits.stack)
    (hwaiting : ∃ label', Waiting m.query label'
      { s with stack := ⟨m.query.next s.pc, s.registers, s.jumpTo⟩ :: s.stack, jumpTo := some label }) :
    AtCall m opened
      { s with stack := ⟨m.query.next s.pc, s.registers, s.jumpTo⟩ :: s.stack, jumpTo := some label } := by
  obtain ⟨size, first, last, hinside⟩ := h.inside
  obtain ⟨hlast, hnext⟩ := hinside.next hfetch nofun
  have hfirst : first + 1 < s.pc := hinside.past_head hfetch
  have hspans : m.query.Spans s.jumpTo s.registers.length first last := by
    rw [hinside.registers hfirst]
    exact hinside.spans
  exact
    { waiting := hwaiting
      nested := ⟨label, rfl, ⟨first, last, s.pc, hspans, hfirst, hlast, hfetch, hnext⟩, h.nested⟩
      room := hroom
      callers := h.owners }

theorem AtCall.entered (hq : m.query.Fitting) (h : AtCall m opened s) {label : Label} {address : Nat}
    (hlabel : s.jumpTo = some label) (haddress : address ∈ m.query.clauses label) :
    InClause m (label :: opened) { s with pc := address } := by
  obtain ⟨label', hwaiting⟩ := h.waiting
  obtain rfl : label' = label := Option.some.inj (hwaiting.pending.symm.trans hlabel)
  obtain ⟨size, hfits⟩ := hq.clauses label' address haddress
  have hopens : address ∈ m.query.openings s.jumpTo := by
    rw [hlabel]
    exact haddress
  obtain ⟨last, hspans⟩ := QueryProgram.spans_of_fits hopens hfits
  exact
    { standing := ⟨_, _, _, _, hwaiting.entered hfits⟩
      inside := ⟨size, address, last, QueryProgram.Spans.inside (s := { s with pc := address }) hspans⟩
      nested := h.nested
      room := h.room
      owners := by
        show s.jumpTo :: s.stack.map Frame.caller = _
        rw [hlabel, h.callers]
        rfl }

theorem inClause_returned {owner : Option Label} {f : Frame} {rest : List Frame}
    (hnested : Nested m.query owner (f :: rest)) (hroom : (f :: rest).length ≤ m.limits.stack)
    (hcallers : (f :: rest).map Frame.caller = opened.map some ++ [none])
    (hstanding : ∃ size met hand stage, Standing m.query size met hand stage (returned s f rest)) :
    InClause m opened (returned s f rest) := by
  obtain ⟨callee, -, hsaves, hrest⟩ := hnested
  exact ⟨hstanding, hsaves.inside s rest, hrest, Nat.le_of_succ_le hroom, hcallers⟩

theorem inClause_start (hq : m.query.Fitting) : InClause m [] (.start m.query.entry) := by
  have hopens : m.query.entry ∈ m.query.openings none := List.mem_singleton_self _
  obtain ⟨last, hspans⟩ := QueryProgram.spans_of_fits hopens hq.entry
  exact
    { standing := ⟨_, _, _, _, standing_start hq⟩
      inside := ⟨_, _, last, QueryProgram.Spans.inside (s := .start m.query.entry) hspans⟩
      nested := rfl
      room := Nat.zero_le _
      owners := rfl }

variable [Scalar K]

theorem InClause.executed {r r' : Run K} (h : InClause m opened r.state) {i : Instruction} {c : Control}
    (hfetch : m.query.fetch r.state.pc = some i) (hrun : m.execute i r = (.ok c, r')) :
    Stepped m.query ((.ok c, r') : Except LogicError Control × Run K) ∧ Happens m i r.state c r'.state := by
  obtain ⟨size, met, hand, stage, hstanding⟩ := h.standing
  obtain ⟨code, hcode⟩ : ∃ code, m.query.codeFrom r.state.pc = i :: code :=
    List.head?_eq_some_iff.1 (m.query.fetch_eq _ ▸ hfetch)
  exact ⟨hrun ▸ execute_stepped m hstanding hcode, execute_happens m hstanding hcode hrun⟩

omit [Scalar K] in
theorem InClause.opened_ne_nil (h : InClause m opened s) (hhappens : Happens m .proceed s .next s') :
    opened ≠ [] := by
  rintro rfl
  cases hhappens with
  | quiet hi => exact hi rfl
  | returned _ hstack =>
    have howners := h.owners
    rw [hstack] at howners
    cases (List.cons.inj howners).2

/-- **On the way of a machine the stack mirrors the open clauses.** -/
theorem Underway.mirrors (hq : m.query.Fitting) {phase : Phase} (h : Underway m phase opened s) :
    Mirrors m phase opened s := by
  -- An instruction is read twice: for what it does to the stack, and for how the state that it leaves stands.
  induction h with
  | start => exact inClause_start hq
  | @step opened r r' i h hfetch hi hrun ih =>
    obtain ⟨hstepped, hhappens⟩ := ih.executed hfetch hrun
    replace hstepped : ∃ size met hand stage, Standing m.query size met hand stage r'.state := hstepped
    generalize r'.state = s' at hhappens hstepped ⊢
    cases hhappens with
    | quiet _ hquiet => exact ih.quiet hfetch hi hquiet hstepped
    | returned hproceed => exact absurd hproceed hi
  | @call opened r r' i h hfetch hrun ih =>
    obtain ⟨hstepped, hhappens⟩ := ih.executed hfetch hrun
    obtain ⟨_, _, _, _, hstanding⟩ := ih.standing
    replace hstepped : Settled m.query r'.state := hstepped
    generalize r'.state = s' at hhappens hstepped ⊢
    cases hhappens with
    | called hi hroom => exact ih.called (hi ▸ hfetch) hroom (hstepped.exists_waiting hstanding.running)
  | enter h hlabel haddress ih => exact ih.entered hq hlabel haddress
  | @leave opened label r r' h hfetch hrun ih =>
    obtain ⟨hstepped, hhappens⟩ := ih.executed hfetch hrun
    replace hstepped : ∃ size met hand stage, Standing m.query size met hand stage r'.state := hstepped
    generalize r'.state = s' at hhappens hstepped ⊢
    cases hhappens with
    | quiet hi => exact absurd rfl hi
    | returned _ hstack =>
      have howners := ih.owners
      rw [hstack] at howners
      exact inClause_returned (hstack ▸ ih.nested) (hstack ▸ ih.room) (List.cons.inj howners).2 hstepped
  | @answer opened s label b fact heap f rest h hlabel hb hfact hmatch hstack ih =>
    -- A fact opens no clause: the pending call is answered, and the frame above goes on.
    obtain ⟨label', hwaiting⟩ := ih.waiting
    obtain rfl : label' = label := Option.some.inj (hwaiting.pending.symm.trans hlabel)
    obtain ⟨size, met, hstanding⟩ := hwaiting.answered hstack hmatch
    exact inClause_returned (hstack ▸ ih.nested) (hstack ▸ ih.room) (hstack ▸ ih.callers)
      ⟨size, met, 0, .body, hstanding⟩

/-! ## Runs

A run between two branching points takes a state on the way of the machine to another, so every reachable state is
on it. -/

def Stops (m : Machine K) (s : State) : Prop :=
  (s.completed = true ∨ s.failed = true) ∨ ∃ opened, Underway m .waiting opened s

theorem Underway.runFor (hq : m.query.Fitting) : ∀ (fuel : Nat) {opened : List Label} {r r' : Run K},
    Underway m .running opened r.state → m.runFor fuel r = (.ok (), r') → Stops m r'.state
  | 0, _, _, _, _, hrun => by cases hrun
  | fuel + 1, opened, r, r', h, hrun => by
    have hclause : InClause m opened r.state := h.mirrors hq
    obtain ⟨_, _, _, _, hstanding⟩ := hclause.standing
    obtain ⟨i, code, hcode⟩ := List.exists_cons_of_ne_nil hstanding.code.ne_nil
    have hfetch := QueryProgram.fetch_of_codeFrom hcode
    rw [runFor_succ m r fuel hfetch] at hrun
    rcases hexecute : m.execute i (counted r) with ⟨e | c, r₁⟩
    · rw [hexecute] at hrun
      cases hrun
    · rw [hexecute] at hrun
      obtain ⟨-, hhappens⟩ := InClause.executed (r := counted r) hclause hfetch hexecute
      cases c with
      | next =>
        obtain ⟨opened', hnext⟩ : ∃ opened', Underway m .running opened' r₁.state := by
          by_cases hi : i = .proceed
          · subst hi
            obtain ⟨label, rest, rfl⟩ := List.exists_cons_of_ne_nil (hclause.opened_ne_nil hhappens)
            exact ⟨rest, .leave (r := counted r) h hfetch hexecute⟩
          · exact ⟨opened, .step (r := counted r) h hfetch hi hexecute⟩
        exact Underway.runFor hq fuel hnext hrun
      | branch =>
        cases hrun
        exact .inr ⟨opened, .call (r := counted r) h hfetch hexecute⟩
      | halt =>
        cases hrun
        cases hhappens with
        | halted h => exact .inl h

theorem Underway.wayFrom (hq : m.query.Fitting) (h : Underway m .running opened s) {features : Run K → Features K}
    {o : Outlink K} (hway : m.wayFrom s features = .ok (some o)) : Stops m o.target.state := by
  rw [Machine.wayFrom] at hway
  split at hway
  · rename_i r hrun
    split at hway
    · cases hway
    · cases hway
      exact Underway.runFor hq _ (r := .resume s) h hrun
  · cases hway

/-- **Whatever a waiting state leads to is on the way of the machine.** -/
theorem Underway.outlink (hq : m.query.Fitting) (h : Underway m .waiting opened s) {r : Run K}
    {outlinks : List (Outlink K)} {o : Outlink K} (houtlinks : (m.outlinks s r).1 = .ok outlinks)
    (ho : o ∈ outlinks) : Stops m o.target.state := by
  have hcall : AtCall m opened s := h.mirrors hq
  obtain ⟨label, hwaiting⟩ := hcall.waiting
  rw [m.fst_outlinks_eq_collect hwaiting.running hwaiting.pending hwaiting.arity_le] at houtlinks
  split at houtlinks
  · cases houtlinks
  · rcases List.mem_append.1 (exists_of_collect houtlinks ho) with hway | hway
    · obtain ⟨b, hb, hway⟩ := List.mem_flatMap.1 hway
      obtain ⟨fact, hfact, hway⟩ := List.mem_map.1 hway
      obtain ⟨f, rest, hstack, -, -⟩ := hwaiting.exists_caller
      rw [m.factWay_eq hwaiting.arity_le hstack] at hway
      split at hway
      · split at hway
        · rename_i heap hmatch
          have hanswer : Underway m .running opened (returned { s with heap := heap } f rest) :=
            .answer h hwaiting.pending (List.mem_filter.1 hb).1 hfact hmatch hstack
          exact hanswer.wayFrom hq hway
        · cases hway
      · cases hway
    · obtain ⟨address, haddress, hway⟩ := List.mem_map.1 hway
      rw [m.clauseWay_eq] at hway
      exact (Underway.enter h hwaiting.pending haddress).wayFrom hq hway

theorem Reachable.stops (hq : m.query.Fitting) (h : m.Reachable s) : Stops m s := by
  induction h with
  | @start r f h =>
    rw [m.start_eq] at h
    rcases hrun : m.runFor m.limits.steps (m.atStart r) with ⟨e | _, r'⟩
    · rw [hrun] at h
      cases h
    · rw [hrun] at h
      cases h
      exact Underway.runFor hq _ (r := m.atStart r) .start hrun
  | @outlink s r outlinks o hs houtlinks ho ih =>
    rcases ih with hstopped | ⟨opened, hunderway⟩
    · rw [m.outlinks_of_stopped hstopped] at houtlinks
      cases houtlinks
      cases ho
    · exact hunderway.outlink hq houtlinks ho

/-- **The stack mirrors the open calls.**  A reachable state that waits at a call has one list of open clauses.  Its
frames belong to these and to the query, in this order; each returns behind a call of the predicate above it, into a
clause of its own predicate, with a register file of the length that this clause allocates; and there are at most as
many as may be.  So what is in a call of some kind is the call that is pending and the clauses that are open, and
these are what the filter for calls hides. -/
theorem stack_mirrors_open_calls {rules : List Rule} {query : Query} {symbols : Symbols}
    (h : m.query.CompiledFrom rules query symbols) (hs : m.Reachable s)
    (hrunning : s.completed = false ∧ s.failed = false) :
    ∃ label opened, s.jumpTo = some label ∧ m.Underway .waiting opened s ∧
      (∀ opened', m.Underway .waiting opened' s → opened' = opened) ∧
      s.stack.map Frame.caller = opened.map some ++ [none] ∧
      (∀ (i : Nat) f, s.stack[i]? = some f →
        ∃ callee, (s.jumpTo :: s.stack.map Frame.caller)[i]? = some (some callee) ∧ f.Saves m.query callee) ∧
      1 ≤ s.stack.length ∧ s.stack.length ≤ m.limits.stack ∧
      (∀ p, s.inCall p = true ↔ p label = true ∨ ∃ l ∈ opened, p l = true) ∧
      ∀ hidden, hidingCalls hidden s = false ↔ label ∈ hidden ∨ ∃ l ∈ opened, l ∈ hidden := by
  rcases hs.stops h.fitting with hstopped | ⟨opened, hunderway⟩
  · rw [hrunning.1, hrunning.2] at hstopped
    simp at hstopped
  · have hcall : AtCall m opened s := hunderway.mirrors h.fitting
    obtain ⟨label, hwaiting⟩ := hcall.waiting
    have hlength : s.stack.length = opened.length + 1 := by
      simpa using congrArg List.length hcall.callers
    have hin := fun p => State.inCall_iff (p := p) hwaiting.pending hcall.callers
    refine ⟨label, opened, hwaiting.pending, hunderway, fun opened' hunderway' => ?_, hcall.callers,
      fun _ _ hf => hcall.nested.frame hf, by omega, hcall.room, hin, fun hidden => ?_⟩
    · have hcall' : AtCall m opened' s := hunderway'.mirrors h.fitting
      exact opened_injective (hcall'.callers.symm.trans hcall.callers)
    · rw [hidingCalls, Bool.not_eq_false', hin]
      simp

end

end Machine

/-- The first edge of a path is asked for in a clause about paths, so hiding what is about paths hides this state. -/
theorem stack_mirrors_open_calls_path : pathMachine.query.CompiledFrom pathRules pathQuery pathTable ∧
    pathMachine.Reachable (pathState [0]) ∧ (pathState [0]).completed = false ∧ (pathState [0]).failed = false ∧
    pathMachine.Underway .waiting [⟨"path", 2⟩] (pathState [0]) ∧
      hidingCalls [⟨"path", 2⟩] (pathState [0]) = false := by
  have hreachable : pathMachine.Reachable (pathState [0]) := pathState_reachable (by decide +kernel)
  have hrunning : (pathState [0]).completed = false ∧ (pathState [0]).failed = false := by decide +kernel
  obtain ⟨label, opened, -, hunderway, -, hcallers, -, -, -, -, hhidden⟩ :=
    Machine.stack_mirrors_open_calls pathMachine_compiled hreachable hrunning
  have hstack : (pathState [0]).stack.map Frame.caller = [⟨"path", 2⟩].map some ++ [none] := by decide +kernel
  obtain rfl : opened = [⟨"path", 2⟩] := opened_injective (hcallers.symm.trans hstack)
  exact ⟨pathMachine_compiled, hreachable, hrunning.1, hrunning.2, hunderway,
    (hhidden _).2 (.inr ⟨_, List.mem_singleton_self _, List.mem_singleton_self _⟩)⟩

end ProofWalk
