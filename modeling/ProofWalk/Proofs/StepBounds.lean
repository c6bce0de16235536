import Mathlib.Algebra.GroupWithZero.Nat
import Mathlib.Data.List.MinMax
import Mathlib.Order.Nat
import ProofWalk.Proofs.OpenCalls
/-!
# Proofs.StepBounds — runs end within a bound that the code sets

From one branching point to the next a run goes through the rest of one clause and of its callers, and never back.
So the instructions that lie ahead, up to the return of the running clause and from each frame on up to the return
there, are a measure that every instruction lowers (`InClause.lowered`).  No clause is longer than the longest,
hence runs end, whatever the limit on steps is, and a limit that is large enough for the deepest stack is never met
(`runs_bounded`).
-/
namespace ProofWalk

/-! ## How far it is to a return

An address of a clause is followed by others up to the return that ends the clause, since compiled code has no
jumps. -/

namespace QueryProgram

/-- **The number of instructions from an address up to the next return**, this one included. -/
def toReturn (q : QueryProgram) (pc : Nat) : Nat := (q.codeFrom pc).idxOf .proceed + 1

/-- The addresses at which the query and the clauses of all predicates begin. -/
def firsts (q : QueryProgram) : List Nat := q.entry :: q.program.labels.flatMap q.clauses

/-- **The largest number of instructions in a clause or in the query**, each from its first one to its return. -/
def longest (q : QueryProgram) : Nat := (q.firsts.map q.toReturn).foldr max 0

theorem mem_firsts {q : QueryProgram} : ∀ {owner : Option Label} {first : Nat}, first ∈ q.openings owner →
    first ∈ q.firsts
  | none, _, h => List.mem_singleton.1 h ▸ List.mem_cons_self
  | some label, first, h => by
    refine List.mem_cons_of_mem _ (List.mem_flatMap.2 ⟨label, Std.ExtTreeMap.mem_keys.2 ?_, h⟩)
    have h : first ∈ q.program.clauses label := h
    rw [Program.clauses, List.mem_reverse, Std.ExtTreeMap.getD_eq_getD_getElem?] at h
    rw [Std.ExtTreeMap.mem_iff_isSome_getElem?]
    cases hget : q.program.rules[label]? with
    | none =>
      rw [hget] at h
      cases h
    | some addresses => rfl

theorem toReturn_le_longest {q : QueryProgram} {first : Nat} (h : first ∈ q.firsts) :
    q.toReturn first ≤ q.longest :=
  List.le_max_of_le (List.mem_map_of_mem h) (Nat.le_refl _)

theorem codeFrom_of_fetch {q : QueryProgram} {pc : Nat} {i : Instruction} (h : q.fetch pc = some i) :
    q.codeFrom pc = i :: q.codeFrom (pc + 1) := by
  obtain ⟨code, hcode⟩ := List.head?_eq_some_iff.1 (q.fetch_eq pc ▸ h)
  have htail := congrArg List.tail hcode
  rw [codeFrom, List.tail_drop] at htail
  rw [hcode, codeFrom, htail, List.tail_cons]

theorem toReturn_of_proceed {q : QueryProgram} {pc : Nat} (h : q.fetch pc = some .proceed) :
    q.toReturn pc = 1 := by
  rw [toReturn, codeFrom_of_fetch h, List.idxOf_cons_self]

/-- **Short of a return, the next address is nearer to it.** -/
theorem toReturn_of_ne {q : QueryProgram} {pc : Nat} {i : Instruction}
    (h : q.fetch pc = some i) (hi : i ≠ .proceed) : q.toReturn pc = q.toReturn (pc + 1) + 1 := by
  rw [toReturn, codeFrom_of_fetch h, List.idxOf_cons_ne _ hi, toReturn]

namespace Spans

variable {q : QueryProgram} {owner : Option Label} {size first last : Nat}

theorem fetch_ne (h : q.Spans owner size first last) {pc : Nat} (hlow : first ≤ pc) (hhigh : pc < last) :
    ∃ i, q.fetch pc = some i ∧ i ≠ .proceed := by
  rcases Nat.lt_or_ge (first + 1) pc with hin | hbefore
  · obtain ⟨i, hi, hinner⟩ := h.inner pc hin hhigh
    exact ⟨i, hi, by rintro rfl; exact hinner⟩
  · obtain ⟨text, hcomment⟩ := h.comment
    obtain ⟨names, hallocate⟩ := h.allocates
    obtain rfl | rfl : pc = first ∨ pc = first + 1 := by omega
    · exact ⟨_, hcomment, nofun⟩
    · exact ⟨_, hallocate, nofun⟩

theorem toReturn_eq (h : q.Spans owner size first last) :
    ∀ (ahead : Nat) {pc : Nat}, first ≤ pc → pc + ahead = last → q.toReturn pc = ahead + 1
  | 0, pc, _, hlast => toReturn_of_proceed (by rw [← h.returns, ← hlast, Nat.add_zero])
  | ahead + 1, pc, hlow, hlast => by
    obtain ⟨i, hi, hne⟩ := h.fetch_ne hlow (by omega : pc < last)
    rw [toReturn_of_ne hi hne, h.toReturn_eq ahead (Nat.le_succ_of_le hlow) (by omega)]

theorem toReturn_le (h : q.Spans owner size first last) {pc : Nat} (hlow : first ≤ pc) (hhigh : pc ≤ last) :
    q.toReturn pc ≤ q.longest := by
  have horder := h.order
  refine Nat.le_trans ?_ (toReturn_le_longest (mem_firsts h.opens))
  rw [h.toReturn_eq (last - pc) hlow (by omega), h.toReturn_eq (last - first) (Nat.le_refl _) (by omega)]
  omega

end Spans

/-- **The instructions ahead of a state**: those up to the return of its clause, and of each caller in turn. -/
def ahead (q : QueryProgram) (s : State) : Nat :=
  q.toReturn s.pc + (s.stack.map fun f => q.toReturn f.returnTo).sum

theorem sum_saved_le {q : QueryProgram} : ∀ {owner : Option Label} {stack : List Frame}, Nested q owner stack →
    (stack.map fun f => q.toReturn f.returnTo).sum ≤ stack.length * q.longest
  | _, [], _ => Nat.zero_le _
  | _, f :: rest, ⟨_, _, ⟨first, last, site, hspans, hlow, hhigh, _, hreturn⟩, hnested⟩ => by
    have hframe : q.toReturn f.returnTo ≤ q.longest := hspans.toReturn_le (by omega) (by omega)
    rw [List.map_cons, List.sum_cons, List.length_cons, Nat.succ_mul, Nat.add_comm]
    exact Nat.add_le_add (sum_saved_le hnested) hframe

end QueryProgram

namespace Machine

open QueryProgram

variable {K : Type} {m : Machine K} {opened : List Label} {s s' : State}

/-- **What is ahead of a clause is bounded by its callers and the longest clause.** -/
theorem InClause.ahead_le (h : InClause m opened s) :
    m.query.ahead s ≤ (1 + s.stack.length) * m.query.longest := by
  obtain ⟨size, first, last, hinside⟩ := h.inside
  rw [Nat.add_mul, Nat.one_mul]
  exact Nat.add_le_add (hinside.spans.toReturn_le hinside.low hinside.high) (sum_saved_le h.nested)

/-! ## Instructions count no steps

Steps are counted between instructions.  So an instruction does the same under every limit, which lets runs with
different limits be compared. -/

/-- **A part of an instruction**: it counts no steps and does not know the limit on them. -/
def Stepless {α : Type} (x : RunM K α) : Prop :=
  ∀ n : Nat, Meets (fun r : Run K => r.steps = n) x fun outcome => ∀ limit, outcome ≠
    .error (.stepLimitExceeded limit)

section Stepless

variable {α β : Type}

theorem stepless_pure (a : α) : Stepless (pure a : RunM K α) := fun _ => meets_pure fun _ => nofun

theorem stepless_throw {e : LogicError} (h : ∀ limit, e ≠ .stepLimitExceeded limit) :
    Stepless (throw e : RunM K α) :=
  fun _ _ hr => ⟨fun limit he => h limit (Except.error.inj he), hr⟩

theorem stepless_state : Stepless (state : RunM K State) := fun _ _ hr => ⟨fun _ => nofun, hr⟩

theorem stepless_modify {f : Run K → Run K} (h : ∀ r, (f r).steps = r.steps) :
    Stepless (modify f : RunM K PUnit) :=
  fun _ r hr => ⟨fun _ => nofun, (h r).trans hr⟩

theorem stepless_setState (s : State) : Stepless (setState s : RunM K Unit) := stepless_modify fun _ => rfl

theorem Stepless.bind {x : RunM K α} {f : α → RunM K β} (hx : Stepless x) (hf : ∀ a, Stepless (f a)) :
    Stepless (x >>= f) :=
  fun n => (hx n).bind (fun a _ => hf a n) fun _ he limit heq =>
    he limit (congrArg Except.error (Except.error.inj heq))

theorem stepless_advance (m : Machine K) : Stepless m.advance :=
  stepless_state.bind fun _ => (stepless_setState _).bind fun _ => stepless_pure _

theorem stepless_fail : Stepless (fail : RunM K Control) :=
  stepless_state.bind fun _ => (stepless_setState _).bind fun _ => stepless_pure _

theorem stepless_changeHeap (change : Heap.Change) : Stepless (changeHeap change : RunM K Unit) :=
  stepless_state.bind fun _ => stepless_setState _

theorem stepless_proceedWith (m : Machine K) : ∀ change : Option Heap.Change, Stepless (m.proceedWith change)
  | some change => (stepless_changeHeap change).bind fun _ => stepless_advance m
  | none => stepless_fail

theorem stepless_relative (offset : Int) : Stepless (relative offset : RunM K Nat) := by
  refine stepless_state.bind fun s => ?_
  dsimp only
  split
  · exact stepless_pure _
  · exact stepless_throw nofun

theorem stepless_readRegister (i : Nat) : Stepless (readRegister i : RunM K Nat) := by
  refine stepless_state.bind fun s => ?_
  split
  · exact stepless_pure _
  · exact stepless_throw nofun

theorem stepless_writeRegister (i cell : Nat) : Stepless (writeRegister i cell : RunM K Unit) := by
  refine stepless_state.bind fun s => ?_
  split
  · exact stepless_setState _
  · exact stepless_throw nofun

theorem stepless_topCells (arity : Nat) : Stepless (topCells arity : RunM K (List Nat)) := by
  refine stepless_state.bind fun s => ?_
  dsimp only
  split
  · exact stepless_pure _
  · exact stepless_throw nofun

theorem stepless_unifyConst (cell constant : Nat) : Stepless (unifyConst cell constant : RunM K Bool) := by
  refine stepless_state.bind fun s => ?_
  split
  · exact (stepless_changeHeap _).bind fun _ => stepless_pure _
  · exact stepless_pure _

theorem stepless_unifyAll : ∀ pairs : List (Nat × Nat), Stepless (unifyAll pairs : RunM K Bool)
  | [] => stepless_pure _
  | (cell, constant) :: rest => (stepless_unifyConst cell constant).bind fun matched => by
    split
    · exact stepless_unifyAll rest
    · exact stepless_pure _

theorem stepless_returnToCaller : Stepless (returnToCaller : RunM K Control) := by
  refine stepless_state.bind fun s => ?_
  split
  · exact (stepless_setState _).bind fun _ => stepless_pure _
  · exact (stepless_setState _).bind fun _ => stepless_pure _

theorem stepless_call (m : Machine K) (label : Label) : Stepless (m.call label) := by
  refine (stepless_topCells label.arity).bind fun cells => ?_
  split
  · refine stepless_state.bind fun s => ?_
    split
    · exact stepless_proceedWith m _
    · rename_i e herror
      obtain ⟨message, rfl⟩ := Builtin.error_of_run herror
      exact stepless_throw nofun
  · refine stepless_state.bind fun s => ?_
    split
    · exact stepless_throw nofun
    · exact (stepless_setState _).bind fun _ => stepless_pure _

theorem stepless_featureArgument (m : Machine K) (register : Nat) : Stepless (m.featureArgument register) := by
  refine stepless_state.bind fun s => ?_
  split
  · exact stepless_pure _
  · exact stepless_pure _
  · exact stepless_throw nofun

variable [Scalar K]

theorem steps_completeFeature (r : Run K) : r.completeFeature.steps = r.steps := by
  unfold Run.completeFeature
  split
  · rfl
  · split <;> rfl

theorem stepless_addArgument (arg : String) : Stepless (modify fun r : Run K => r.addArgument arg) :=
  stepless_modify fun r => steps_completeFeature
    { r with unfinished := r.unfinished.map fun p => { p with args := p.args ++ [arg] } }

theorem stepless_startFeature (functor : String) (arity : Nat) :
    Stepless (modify fun r : Run K => { r with unfinished := some ⟨functor, arity, []⟩ }.completeFeature) :=
  stepless_modify fun r => steps_completeFeature { r with unfinished := some ⟨functor, arity, []⟩ }

/-- **No instruction counts steps**: only the run from one to the next does. -/
theorem stepless_execute (m : Machine K) (i : Instruction) : Stepless (m.execute i) := by
  have hadvance := stepless_advance m
  cases i with
  | comment => exact hadvance
  | allocate =>
    rw [execute]
    exact stepless_state.bind fun _ => (stepless_setState _).bind fun _ => hadvance
  | initFreeVar =>
    rw [execute]
    exact (stepless_relative _).bind fun _ => (stepless_writeRegister _ _).bind fun _ => hadvance
  | unifyConst =>
    rw [execute]
    exact (stepless_relative _).bind fun _ => stepless_state.bind fun _ => stepless_proceedWith m _
  | unifyBoundVar =>
    rw [execute]
    exact (stepless_readRegister _).bind fun _ => (stepless_relative _).bind fun _ =>
      stepless_state.bind fun _ => stepless_proceedWith m _
  | pushConst =>
    rw [execute]
    exact stepless_state.bind fun _ => (stepless_setState _).bind fun _ => hadvance
  | pushFreeVar =>
    rw [execute]
    exact stepless_state.bind fun _ => (stepless_setState _).bind fun _ =>
      (stepless_writeRegister _ _).bind fun _ => hadvance
  | pushBoundVar =>
    rw [execute]
    exact (stepless_readRegister _).bind fun _ => stepless_state.bind fun _ =>
      (stepless_setState _).bind fun _ => hadvance
  | call label => exact stepless_call m label
  | proceed => exact stepless_returnToCaller
  | clearFeatures =>
    rw [execute]
    exact (stepless_modify fun _ => rfl).bind fun _ => hadvance
  | startFeature functor arity =>
    rw [execute]
    exact (stepless_startFeature functor arity).bind fun _ => hadvance
  | featureConst =>
    rw [execute]
    exact (stepless_addArgument _).bind fun _ => hadvance
  | featureVar =>
    rw [execute]
    exact (stepless_featureArgument m _).bind fun arg => (stepless_addArgument arg).bind fun _ => hadvance
  | reportFeatures =>
    rw [execute]
    exact (stepless_modify fun _ => rfl).bind fun _ => hadvance

end Stepless

variable [Scalar K]

/-! ## Runs

The measure bounds the steps of a run from wherever it stands in a clause; the induction is on the limit. -/

/-- **Every instruction after which a run goes on lowers what is ahead**: in a clause it leaves one instruction less
before the return, and a return leaves what its frame has ahead. -/
theorem InClause.lowered {r r' : Run K} (h : InClause m opened r.state) {i : Instruction}
    (hfetch : m.query.fetch r.state.pc = some i) (hrun : m.execute i r = (.ok .next, r')) :
    ∃ opened', InClause m opened' r'.state ∧ m.query.ahead r.state = m.query.ahead r'.state + 1 := by
  obtain ⟨hstepped, hhappens⟩ := h.executed hfetch hrun
  replace hstepped : ∃ size met hand stage, Standing m.query size met hand stage r'.state := hstepped
  have howners := h.owners
  have hnested := h.nested
  have hroom := h.room
  generalize r'.state = s' at hhappens hstepped ⊢
  cases hhappens with
  | quiet hi hquiet =>
    obtain ⟨size, first, last, hinside⟩ := h.inside
    refine ⟨opened, h.quiet hfetch hi hquiet hstepped, ?_⟩
    rw [ahead, ahead, hquiet.stack, hquiet.pc, (hinside.next hfetch hi).2, toReturn_of_ne hfetch hi]
    omega
  | @returned f rest hi hstack =>
    rw [hstack] at howners hnested hroom
    have hne : opened ≠ [] := by
      rintro rfl
      cases (List.cons.inj howners).2
    obtain ⟨label, opened', rfl⟩ := List.exists_cons_of_ne_nil hne
    refine ⟨opened', inClause_returned hnested hroom (List.cons.inj howners).2 hstepped, ?_⟩
    have hleft : m.query.ahead (returned r.state f rest) =
        m.query.toReturn f.returnTo + (rest.map fun f => m.query.toReturn f.returnTo).sum := rfl
    rw [hleft, ahead, hstack, toReturn_of_proceed (hi ▸ hfetch), List.map_cons, List.sum_cons, Nat.add_comm]

/-- **An outcome within a bound**: no more instructions have been counted, and a limit that is no lower has not been
met. -/
def Within {α : Type} (bound limit : Nat) (outcome : Except LogicError α × Run K) : Prop :=
  outcome.2.steps ≤ bound ∧ (bound ≤ limit → ∀ n, outcome.1 ≠ .error (.stepLimitExceeded n))

omit [Scalar K] in
theorem Within.mono {α : Type} {bound bound' limit : Nat} {outcome : Except LogicError α × Run K}
    (h : Within bound limit outcome) (hle : bound ≤ bound') : Within bound' limit outcome :=
  ⟨h.1.trans hle, fun hlimit => h.2 (hle.trans hlimit)⟩

/-- **A run counts no more instructions than lie ahead of it**, and is not cut short if it may run that many. -/
theorem InClause.runFor_within : ∀ (fuel : Nat) {opened : List Label} {r : Run K}, InClause m opened r.state →
    (m.runFor fuel r).2.steps ≤ r.steps + m.query.ahead r.state ∧
      (m.query.ahead r.state ≤ fuel → ∀ n, (m.runFor fuel r).1 ≠ .error (.stepLimitExceeded n))
  | 0, _, r, _ => by
    refine ⟨Nat.le_add_right _ _, fun hle => absurd hle ?_⟩
    rw [ahead, toReturn]
    omega
  | fuel + 1, opened, r, h => by
    obtain ⟨_, _, _, _, hstanding⟩ := h.standing
    obtain ⟨i, code, hcode⟩ := List.exists_cons_of_ne_nil hstanding.code.ne_nil
    have hfetch := QueryProgram.fetch_of_codeFrom hcode
    obtain ⟨hlimit, hsteps⟩ := stepless_execute m i (r.steps + 1) (counted r) rfl
    have hpos : 1 ≤ m.query.ahead r.state := by
      rw [ahead, toReturn]
      omega
    rw [runFor_succ m r fuel hfetch]
    rcases hexecute : m.execute i (counted r) with ⟨e | c, r₁⟩
    · rw [hexecute] at hlimit hsteps
      dsimp only at hsteps
      exact ⟨by dsimp only; omega, fun _ n he => hlimit n (congrArg Except.error (Except.error.inj he))⟩
    · rw [hexecute] at hsteps
      dsimp only at hsteps
      cases c with
      | next =>
        obtain ⟨opened', hnext, hlowered⟩ := InClause.lowered (r := counted r) h hfetch hexecute
        replace hlowered : m.query.ahead r.state = m.query.ahead r₁.state + 1 := hlowered
        obtain ⟨hle, hends⟩ := InClause.runFor_within fuel hnext
        exact ⟨by dsimp only; omega, fun hfuel => hends (by omega)⟩
      | branch => exact ⟨by dsimp only; omega, fun _ _ => nofun⟩
      | halt => exact ⟨by dsimp only; omega, fun _ _ => nofun⟩

theorem InClause.run_within {α : Type} {r : Run K} (h : InClause m opened r.state)
    (hr : r.steps = 0) {f : Unit → RunM K α} (hf : ∀ a, Stepless (f a)) :
    Within ((1 + r.state.stack.length) * m.query.longest) m.limits.steps ((m.run >>= f) r) := by
  have hrun : (m.run >>= f) r = (m.runFor m.limits.steps >>= f) r := by
    show (m.runFor (m.limits.steps - r.steps) >>= f) r = _
    rw [hr, Nat.sub_zero]
  obtain ⟨hsteps, hends⟩ := h.runFor_within m.limits.steps
  rw [hr, Nat.zero_add] at hsteps
  rw [hrun]
  suffices hwithin : Within (m.query.ahead r.state) m.limits.steps ((m.runFor m.limits.steps >>= f) r) from
    hwithin.mono h.ahead_le
  rcases hcase : m.runFor m.limits.steps r with ⟨e | a, r'⟩
  · rw [hcase] at hsteps hends
    rw [bind_error hcase]
    exact ⟨hsteps, fun hle n he => hends hle n (congrArg Except.error (Except.error.inj he))⟩
  · rw [hcase] at hsteps
    rw [bind_ok hcase]
    obtain ⟨hlimit, hsame⟩ := hf a r'.steps r' rfl
    exact ⟨hsame ▸ hsteps, fun _ => hlimit⟩

/-! ## Ways on from a call

The way of a rule or of a fact starts on a count of zero, so each has the whole bound to itself.  What is reported
behind its run counts no steps. -/

omit [Scalar K] in
def report : RunM K (Option (Outlink K)) := do
  let r ← get
  if r.state.failed then return none
  else
    set { r with reported := none }
    return some ⟨r.reported.getD .empty, .of r.state⟩

omit [Scalar K] in
theorem report_eq (r : Run K) : (report : RunM K (Option (Outlink K))) r =
    if r.state.failed then (.ok none, r) else (.ok (some ⟨r.reported.getD .empty, .of r.state⟩),
      { r with reported := none }) := by
  show (if r.state.failed then (pure none : RunM K (Option (Outlink K)))
    else set { r with reported := none } >>= fun _ => pure (some ⟨r.reported.getD .empty, .of r.state⟩)) r = _
  split <;> rfl

omit [Scalar K] in
theorem stepless_report : Stepless (report : RunM K (Option (Outlink K))) := by
  intro n r hr
  rw [report_eq]
  split
  · exact ⟨fun _ => nofun, hr⟩
  · exact ⟨fun _ => nofun, hr⟩

theorem AtCall.clause_within (hq : m.query.Fitting) (h : AtCall m opened s) {label : Label}
    (hlabel : s.jumpTo = some label) {address : Nat} (haddress : address ∈ m.query.clauses label) (r : Run K) :
    Within ((1 + s.stack.length) * m.query.longest) m.limits.steps (m.clauseOutlink s address r) :=
  (h.entered hq hlabel haddress).run_within (r := .resume { s with pc := address }) rfl fun _ => stepless_report

theorem AtCall.finish_within (h : AtCall m opened s) {f : Frame} {rest : List Frame}
    (hstack : s.stack = f :: rest) {heap : Heap}
    (hstanding : ∃ size met, Standing m.query size met 0 .body (returned { s with heap := heap } f rest))
    (features : Features K) :
    Within ((1 + s.stack.length) * m.query.longest) m.limits.steps
      (m.finishCall features ((Run.resume s).withState { s with heap := heap })) := by
  obtain ⟨size, met, hstanding⟩ := hstanding
  have hclause : InClause m opened (returned { s with heap := heap } f rest) :=
    inClause_returned (hstack ▸ h.nested) (hstack ▸ h.room) (hstack ▸ h.callers) ⟨size, met, 0, .body, hstanding⟩
  have hreturn : (returnToCaller : RunM K Control) ((Run.resume s).withState { s with heap := heap }) =
      (.ok .next, .resume (returned { s with heap := heap } f rest)) := returnToCaller_cons _ hstack
  have hshorter : (returned { s with heap := heap } f rest).stack.length ≤ s.stack.length := by
    rw [hstack]
    exact Nat.le_succ _
  unfold finishCall
  rw [bind_ok hreturn]
  have hwithin := hclause.run_within (r := .resume (returned { s with heap := heap } f rest)) rfl
    fun _ => stepless_state.bind fun s => stepless_pure (if s.failed then none
      else some (⟨features, .of s⟩ : Outlink K))
  exact hwithin.mono (Nat.mul_le_mul_right _ (Nat.add_le_add_left hshorter 1))

theorem AtCall.fact_within (h : AtCall m opened s) {label : Label} (hlabel : s.jumpTo = some label)
    {bound : List (Option Nat)} {fact : Fact K} (hagrees : fact.agrees bound = true) (r : Run K) :
    Within ((1 + s.stack.length) * m.query.longest) m.limits.steps (m.factOutlink s label bound fact r) := by
  obtain ⟨label', hwaiting⟩ := h.waiting
  obtain rfl : label' = label := Option.some.inj (hwaiting.pending.symm.trans hlabel)
  obtain ⟨f, rest, hstack, -, -⟩ := hwaiting.exists_caller
  have hcells : (topCells label'.arity : RunM K (List Nat)) (.resume s) =
      (.ok (List.range' (s.heap.size - label'.arity) label'.arity), .resume s) :=
        topCells_eq (.resume s) hwaiting.arity_le
  have hway : m.factOutlink s label' bound fact r = ((topCells label'.arity : RunM K (List Nat)) >>= fun cells =>
      unifyAll (cells.zip fact.args) >>= fun b =>
        if b then m.finishCall ((∅ : Features K).insert (FactBase.feature label') fact.weight)
          else pure none) (.resume s) := by
    rw [factOutlink, if_pos hagrees]
    rfl
  have hunify :=
    unifyAll_eq (K := K) ((List.range' (s.heap.size - label'.arity) label'.arity).zip fact.args) (.resume s)
  have hheap : (Run.resume s : Run K).state.heap = s.heap := rfl
  rw [hheap] at hunify
  rw [hway, bind_ok hcells]
  split at hunify
  · rename_i heap hmatch
    rw [bind_ok hunify, if_pos rfl]
    exact h.finish_within hstack (hwaiting.answered hstack hmatch) _
  · obtain ⟨r', hr'⟩ := hunify
    obtain ⟨-, hsteps⟩ :=
      stepless_unifyAll (K := K) ((List.range' (s.heap.size - label'.arity) label'.arity).zip fact.args) 0
      (.resume s) rfl
    rw [hr'] at hsteps
    rw [bind_ok hr']
    exact ⟨hsteps ▸ Nat.zero_le _, fun _ _ => nofun⟩

/-- **Every way on from a call ends within the bound**, so a limit that is no lower is not met in an expansion. -/
theorem AtCall.outlinks_within (hq : m.query.Fitting) (h : AtCall m opened s)
    (hlimit : (1 + s.stack.length) * m.query.longest ≤ m.limits.steps) (r : Run K) (n : Nat) :
    (m.outlinks s r).1 ≠ .error (.stepLimitExceeded n) := by
  obtain ⟨label, hwaiting⟩ := h.waiting
  rw [m.fst_outlinks_eq_collect hwaiting.running hwaiting.pending hwaiting.arity_le]
  split
  · nofun
  · intro herror
    rcases List.mem_append.1 (error_of_collect herror) with hway | hway
    · obtain ⟨b, -, hway⟩ := List.mem_flatMap.1 hway
      obtain ⟨fact, -, hway⟩ := List.mem_map.1 hway
      rw [factWay] at hway
      by_cases hagrees : fact.agrees (boundCells s label.arity) = true
      · exact (h.fact_within hwaiting.pending hagrees (.resume s)).2 hlimit n hway
      · rw [factOutlink, if_neg hagrees] at hway
        cases hway
    · obtain ⟨address, haddress, hway⟩ := List.mem_map.1 hway
      exact (h.clause_within hq hwaiting.pending haddress (.resume s)).2 hlimit n hway

theorem start_within (hq : m.query.Fitting) (r : Run K) : Within m.query.longest m.limits.steps (m.start r) := by
  have hstart := (inClause_start (m := m) hq).run_within
    (r := m.atStart r) rfl
    (fun _ => stepless_state.bind fun s => stepless_pure (Frozen.of s))
  exact hstart.mono (by rw [show (m.atStart r).state.stack.length = 0 from rfl, Nat.add_zero, Nat.one_mul])

omit [Scalar K] in
def withSteps (m : Machine K) (n : Nat) : Machine K := { m with limits := { m.limits with steps := n } }

omit [Scalar K] in
theorem AtCall.withSteps (h : AtCall m opened s) (n : Nat) : AtCall (m.withSteps n) opened s where
  waiting := h.waiting
  nested := h.nested
  room := h.room
  callers := h.callers

/-- **Runs end within a bound that the code sets.**  Let a machine stand at a call, and be given any limit on
steps.  The way of each clause and of each fact that agrees counts at most one more than the number of frames times
the instructions of the longest clause, and if the limit is no lower, then it is not met.  So a machine whose limit
is no lower than that for the deepest stack never meets it, neither at the start nor in an expansion of a reachable
state. -/
theorem runs_bounded {rules : List Rule} {query : Query} {symbols : Symbols}
    (h : m.query.CompiledFrom rules query symbols) :
    (∀ s label, m.Reachable s → s.completed = false ∧ s.failed = false →
      s.jumpTo = some label → ∀ (n : Nat) (r : Run K), (∀ address ∈ m.query.clauses label,
        Within ((1 + s.stack.length) * m.query.longest) n ((m.withSteps n).clauseOutlink s address r)) ∧
      ∀ (bound : List (Option Nat)) (fact : Fact K), fact.agrees bound = true →
        Within ((1 + s.stack.length) * m.query.longest) n ((m.withSteps n).factOutlink s label bound fact r)) ∧
    ((m.limits.stack + 1) * m.query.longest ≤ m.limits.steps →
      (∀ r n, (m.start r).1 ≠ .error (.stepLimitExceeded n)) ∧
      ∀ s, m.Reachable s → ∀ r n, (m.outlinks s r).1 ≠ .error (.stepLimitExceeded n)) := by
  refine ⟨fun s label hs hrunning hlabel n r => ?_, fun hlimit => ⟨fun r n => ?_, fun s hs r n => ?_⟩⟩
  · rcases hs.stops h.fitting with hstopped | ⟨opened, hunderway⟩
    · rw [hrunning.1, hrunning.2] at hstopped
      simp at hstopped
    · have hcall : AtCall (m.withSteps n) opened s := (hunderway.mirrors h.fitting : AtCall m opened s).withSteps n
      exact ⟨fun address haddress => hcall.clause_within (m := m.withSteps n) h.fitting hlabel haddress r,
        fun bound fact hagrees => hcall.fact_within hlabel hagrees r⟩
  · refine (start_within h.fitting r).2 (Nat.le_trans ?_ hlimit) n
    exact Nat.le_mul_of_pos_left _ (Nat.succ_pos _)
  · rcases hs.stops h.fitting with hstopped | ⟨opened, hunderway⟩
    · rw [m.outlinks_of_stopped hstopped]
      nofun
    · have hcall : AtCall m opened s := hunderway.mirrors h.fitting
      refine hcall.outlinks_within h.fitting (Nat.le_trans (Nat.mul_le_mul_right _ ?_) hlimit) r n
      have hroom := hcall.room
      omega

end Machine

/-- No clause about paths has more than 15 instructions: with two frames on the stack 45 steps are enough, and with
ten 165. -/
theorem runs_bounded_path : (pathMachine.withSteps 165).query.CompiledFrom pathRules pathQuery pathTable ∧
    (pathMachine.withSteps 165).query.longest = 15 ∧
    (pathMachine.Reachable (pathState [0]) ∧ (pathState [0]).stack.length = 2 ∧
      ∀ (n : Nat) (r : Run Float), ∀ address ∈ pathMachine.query.clauses ⟨"edge", 2⟩,
        Machine.Within 45 n ((pathMachine.withSteps n).clauseOutlink (pathState [0]) address r)) ∧
    ∀ s, (pathMachine.withSteps 165).Reachable s → ∀ r n,
      ((pathMachine.withSteps 165).outlinks s r).1 ≠ .error (.stepLimitExceeded n) := by
  have hlongest : pathMachine.query.longest = 15 := by decide +kernel
  have hreachable : pathMachine.Reachable (pathState [0]) := pathState_reachable (by decide +kernel)
  have hrunning : (pathState [0]).completed = false ∧ (pathState [0]).failed = false := by decide +kernel
  have hlabel : (pathState [0]).jumpTo = some ⟨"edge", 2⟩ := by decide +kernel
  have hstack : (pathState [0]).stack.length = 2 := by decide +kernel
  have hways := (Machine.runs_bounded (m := pathMachine) pathMachine_compiled).1 _ _ hreachable hrunning hlabel
  have hends := (Machine.runs_bounded (m := pathMachine.withSteps 165) pathMachine_compiled).2 (by
    show (10 + 1) * pathMachine.query.longest ≤ 165
    rw [hlongest])
  rw [hlongest, hstack] at hways
  exact ⟨pathMachine_compiled, hlongest, ⟨hreachable, hstack, fun n r => (hways n r).1⟩, hends.2⟩

end ProofWalk
