import ProofWalk.Machine.Outlinks
import ProofWalk.Proofs.Computations
/-!
# Proofs.RunSteps — what one instruction does to a run

One equation for each instruction, under the conditions in which it meets no fault: the offset lies on the heap, the
register is in the file.  Later modules cite these equations and do not open the instructions again.
-/
namespace ProofWalk
namespace Machine

variable {K : Type}

def cellAt (size : Nat) (offset : Int) : Nat := (size + offset).toNat

theorem cellAt_lt {size : Nat} {offset : Int} (h : offset < 0) (h0 : 0 ≤ size + offset) :
    cellAt size offset < size := by
  unfold cellAt
  omega

theorem relative_eq {offset : Int} (r : Run K) (h0 : 0 ≤ r.state.heap.size + offset) (h1 : offset < 0) :
    (relative offset : RunM K Nat) r = (.ok (cellAt r.state.heap.size offset), r) := by
  show (if 0 ≤ (r.state.heap.size : Int) + offset ∧ (r.state.heap.size : Int) + offset < r.state.heap.size then
      pure (cellAt r.state.heap.size offset)
    else throw (LogicError.invalidHeapReference (Word.signed ((r.state.heap.size : Int) + offset))
      r.state.heap.size) : RunM K Nat) r = _
  rw [if_pos ⟨h0, by omega⟩]
  rfl

theorem state_eq (r : Run K) : (state : RunM K State) r = (.ok r.state, r) := rfl

theorem readRegister_eq {i cell : Nat} (r : Run K) (h : r.state.registers[i]? = some (some cell)) :
    (readRegister i : RunM K Nat) r = (.ok cell, r) := by
  unfold readRegister
  rw [bind_ok (state_eq r), h]
  rfl

theorem writeRegister_eq {i : Nat} (cell : Nat) (r : Run K) (h : i < r.state.registers.length) :
    (writeRegister i cell : RunM K Unit) r =
      (.ok (), r.withState { r.state with registers := r.state.registers.set i (some cell) }) := by
  show (if i < r.state.registers.length then
      (setState { r.state with registers := r.state.registers.set i (some cell) } : RunM K Unit)
    else throw (LogicError.unboundRegister i r.state.pc)) r = _
  rw [if_pos h]
  rfl

theorem topCells_eq {arity : Nat} (r : Run K) (h : arity ≤ r.state.heap.size) :
    (topCells arity : RunM K (List Nat)) r = (.ok (List.range' (r.state.heap.size - arity) arity), r) := by
  show (if arity ≤ r.state.heap.size
    then (pure (List.range' (r.state.heap.size - arity) arity) : RunM K (List Nat))
    else throw (LogicError.invalidHeapReference (Word.signed ((r.state.heap.size : Int) - arity))
      r.state.heap.size)) r = _
  rw [if_pos h]
  rfl

/-! ## Instructions

An equation gives the run behind the instruction and how execution goes on (`Control`): with the next instruction,
or not at all since a call branches or the query has been decided. -/

def advanced (m : Machine K) (r : Run K) : Run K := r.withState { r.state with pc := m.query.next r.state.pc }

theorem state_advanced (m : Machine K) (r : Run K) :
    (m.advanced r).state = { r.state with pc := m.query.next r.state.pc } := rfl

def failing (r : Run K) : Run K := r.withState { r.state with failed := true }

theorem proceedWith_eq (m : Machine K) (change : Option Heap.Change) (r : Run K) :
    m.proceedWith change r =
      match change with
      | some change => (.ok .next, m.advanced (r.withState { r.state with heap := r.state.heap.apply change }))
      | none => (.ok .halt, failing r) := by
  cases change <;> rfl

theorem heap_proceedWith (m : Machine K) (change : Option Heap.Change) (r : Run K) :
    (m.proceedWith change r).2.state.heap = (change.map r.state.heap.apply).getD r.state.heap := by
  rw [proceedWith_eq]
  cases change <;> rfl

theorem unifyConst_eq (cell constant : Nat) (r : Run K) : (unifyConst cell constant : RunM K Bool) r =
    (.ok (r.state.heap.unifyConst cell constant).isSome,
      r.withState { r.state with heap := (r.state.heap.unifyConst cell constant).getD r.state.heap }) := by
  unfold unifyConst Heap.unifyConst
  rw [bind_ok (state_eq r)]
  cases r.state.heap.matchConst cell constant with
  | none => rfl
  | some change => rfl

variable [Scalar K] (m : Machine K) (r : Run K)

theorem execute_comment (text : String) : m.execute (.comment text) r = (.ok .next, m.advanced r) := rfl

theorem execute_allocate (size : Nat) (names : List String) :
    m.execute (.allocate size names) r =
      (.ok .next, m.advanced (r.withState { r.state with registers := List.replicate size none })) := rfl

theorem execute_initFreeVar {register : Nat} {offset : Int} (h0 : 0 ≤ r.state.heap.size + offset) (h1 : offset < 0)
    (hr : register < r.state.registers.length) :
    m.execute (.initFreeVar register offset) r =
      (.ok .next, m.advanced (r.withState { r.state with
        registers := r.state.registers.set register (some (cellAt r.state.heap.size offset)) })) := by
  show (relative offset >>= fun cell => writeRegister register cell >>= fun _ => m.advance) r = _
  rw [bind_ok (relative_eq r h0 h1), bind_ok (writeRegister_eq _ r hr)]
  rfl

theorem execute_unifyConst (constant : Nat) {offset : Int}
    (h0 : 0 ≤ r.state.heap.size + offset) (h1 : offset < 0) : m.execute (.unifyConst constant offset) r =
      match r.state.heap.matchConst (cellAt r.state.heap.size offset) constant with
      | some change => (.ok .next, m.advanced (r.withState { r.state with heap := r.state.heap.apply change }))
      | none => (.ok .halt, failing r) := by
  show (relative offset >>= fun cell => state >>= fun s => m.proceedWith (s.heap.matchConst cell constant)) r = _
  rw [bind_ok (relative_eq r h0 h1)]
  exact proceedWith_eq m _ r

theorem execute_unifyBoundVar {register cell : Nat} {offset : Int}
    (hr : r.state.registers[register]? = some (some cell))
    (h0 : 0 ≤ r.state.heap.size + offset) (h1 : offset < 0) :
    m.execute (.unifyBoundVar register offset) r =
      match r.state.heap.unifier cell (cellAt r.state.heap.size offset) with
      | some change => (.ok .next, m.advanced (r.withState { r.state with heap := r.state.heap.apply change }))
      | none => (.ok .halt, failing r) := by
  show (readRegister register >>= fun a => relative offset >>= fun b => state >>= fun s =>
    m.proceedWith (s.heap.unifier a b)) r = _
  rw [bind_ok (readRegister_eq r hr), bind_ok (relative_eq r h0 h1)]
  exact proceedWith_eq m _ r

theorem execute_pushConst (constant : Nat) :
    m.execute (.pushConst constant) r =
      (.ok .next, m.advanced (r.withState { r.state with heap := r.state.heap.pushConst constant })) := rfl

theorem execute_pushFreeVar {register : Nat} (hr : register < r.state.registers.length) :
    m.execute (.pushFreeVar register) r =
      (.ok .next, m.advanced (r.withState { r.state with
        heap := r.state.heap.pushFree
        registers := r.state.registers.set register (some r.state.heap.size) })) := by
  have hw := writeRegister_eq r.state.heap.size (r.withState { r.state with heap := r.state.heap.pushFree }) hr
  exact (bind_ok hw).trans rfl

theorem execute_pushBoundVar {register cell : Nat} (hr : r.state.registers[register]? = some (some cell)) :
    m.execute (.pushBoundVar register) r =
      (.ok .next, m.advanced (r.withState { r.state with
        heap := r.state.heap.push (.ref (r.state.heap.deref cell)) })) := by
  show (readRegister register >>= fun cell => state >>= fun s =>
    setState { s with heap := s.heap.push (.ref (s.heap.deref cell)) } >>= fun _ => m.advance) r = _
  rw [bind_ok (readRegister_eq r hr)]
  rfl

theorem execute_clearFeatures : m.execute .clearFeatures r = (.ok .next, m.advanced r.clearFeatures) := rfl

omit m in
@[simp] theorem state_completeFeature : r.completeFeature.state = r.state := by
  unfold Run.completeFeature
  split
  · rfl
  · split <;> rfl

omit m in
@[simp] theorem state_addArgument (arg : String) : (r.addArgument arg).state = r.state := by
  rw [Run.addArgument, state_completeFeature]

theorem execute_startFeature (functor : String) (arity : Nat) :
    m.execute (.startFeature functor arity) r =
      (.ok .next, m.advanced { r with unfinished := some ⟨functor, arity, []⟩ }.completeFeature) := rfl

theorem execute_featureConst (constant : Nat) :
    m.execute (.featureConst constant) r = (.ok .next, m.advanced (r.addArgument (m.symbols.name constant))) := rfl

/-- How a binding is written as an argument of a feature. -/
def writtenArgument (m : Machine K) (s : State) : Binding → String
  | .const c => m.symbols.name c
  | .free root => s!"_{s.variableRank root}"
  | .unset => ""

theorem execute_featureVar {register : Nat} (hr : r.state.register register ≠ .unset) :
    m.execute (.featureVar register) r =
      (.ok .next, m.advanced (r.addArgument (m.writtenArgument r.state (r.state.register register)))) := by
  show (m.featureArgument register >>= fun arg => (modify (·.addArgument arg) : RunM K PUnit) >>=
    fun _ => m.advance) r = _
  have harg : m.featureArgument register r = (.ok (m.writtenArgument r.state (r.state.register register)), r) := by
    show (match r.state.register register with
      | .const c => (pure (m.symbols.name c) : RunM K String)
      | .free root => pure s!"_{r.state.variableRank root}"
      | .unset => throw (LogicError.unboundRegister register r.state.pc)) r = _
    cases hb : r.state.register register with
    | const c => rfl
    | free root => rfl
    | unset => exact absurd hb hr
  rw [bind_ok harg]
  rfl

theorem execute_reportFeatures :
    m.execute .reportFeatures r = (.ok .next, m.advanced { r with reported := some r.features }) := rfl

omit [Scalar K] in
theorem returnToCaller_cons {f : Frame} {rest : List Frame} (h : r.state.stack = f :: rest) :
    (returnToCaller : RunM K Control) r =
      (.ok .next, r.withState { r.state with
        pc := f.returnTo, registers := f.registers, jumpTo := f.caller, stack := rest }) := by
  unfold returnToCaller
  rw [bind_ok (state_eq r), h]
  rfl

omit [Scalar K] in
theorem returnToCaller_nil (h : r.state.stack = []) :
    (returnToCaller : RunM K Control) r =
      (.ok .halt, r.withState { r.state with completed := true, jumpTo := none }) := by
  obtain ⟨⟨heap, registers, stack, pc, jumpTo, completed, failed⟩, features, unfinished, reported, steps⟩ := r
  obtain rfl : stack = [] := h
  rfl

theorem execute_proceed : m.execute .proceed r = (returnToCaller : RunM K Control) r := rfl

theorem label_of_builtin {label : Label} {b : Builtin} (h : Builtin.ofLabel? label = some b) :
    label = b.label := by
  unfold Builtin.ofLabel? at h
  split at h
  · cases h; assumption
  · split at h
    · cases h; assumption
    · split at h
      · cases h; assumption
      · cases h

theorem arity_of_builtin {label : Label} {b : Builtin} (h : Builtin.ofLabel? label = some b) :
    label.arity = 2 := by
  rw [label_of_builtin h]
  cases b <;> rfl

/-- **A builtin runs in place** on the two cells on top of the heap. -/
theorem execute_builtin {label : Label} {b : Builtin} (hb : Builtin.ofLabel? label = some b)
    (hsize : 2 ≤ r.state.heap.size) :
    m.execute (.call label) r =
      match b.run r.state.heap (r.state.heap.size - 2) (r.state.heap.size - 1) with
      | .ok (some change) =>
        (.ok .next, m.advanced (r.withState { r.state with heap := r.state.heap.apply change }))
      | .ok none => (.ok .halt, failing r)
      | .error e => (.error e, r) := by
  have harity := arity_of_builtin hb
  have hcells : List.range' (r.state.heap.size - label.arity) label.arity =
      [r.state.heap.size - 2, r.state.heap.size - 1] := by
    rw [harity, show r.state.heap.size - 1 = r.state.heap.size - 2 + 1 by omega]
    rfl
  show ((topCells label.arity : RunM K (List Nat)) >>= _) r = _
  rw [bind_ok (topCells_eq r (by omega)), hb, hcells]
  show ((state : RunM K State) >>= _) r = _
  rw [bind_ok (state_eq r)]
  rcases b.run r.state.heap (r.state.heap.size - 2) (r.state.heap.size - 1) with e | (_ | change)
  · rfl
  · rfl
  · rfl

/-- **Any other call saves the caller and stops**, unless the stack is full. -/
theorem execute_call {label : Label} (hb : Builtin.ofLabel? label = none)
    (hsize : label.arity ≤ r.state.heap.size) : m.execute (.call label) r =
      if m.limits.stack ≤ r.state.stack.length then (.error (.callStackOverflow m.limits.stack label), r)
      else (.ok .branch, r.withState { r.state with
        stack := ⟨m.query.next r.state.pc, r.state.registers, r.state.jumpTo⟩ :: r.state.stack
        jumpTo := some label }) := by
  show ((topCells label.arity : RunM K (List Nat)) >>= _) r = _
  rw [bind_ok (topCells_eq r hsize), hb]
  show (if m.limits.stack ≤ r.state.stack.length then throw (LogicError.callStackOverflow m.limits.stack label)
    else setState { r.state with
      stack := ⟨m.query.next r.state.pc, r.state.registers, r.state.jumpTo⟩ :: r.state.stack
      jumpTo := some label } >>= fun _ => pure .branch : RunM K Control) r = _
  split <;> rfl

/-! ## Runs

A run counts its steps, and it stops at the limit. -/

def counted (r : Run K) : Run K := { r with steps := r.steps + 1 }

/-- **One instruction after another**: what follows an instruction depends on its control only. -/
theorem runFor_succ {i : Instruction} (fuel : Nat) (hi : m.query.fetch r.state.pc = some i) :
    m.runFor (fuel + 1) r =
      match m.execute i (counted r) with
      | (.ok .next, r') => m.runFor fuel r'
      | (.ok _, r') => (.ok (), r')
      | (.error e, r') => (.error e, r') := by
  have hcount : (modify fun r => { r with steps := r.steps + 1 } : RunM K PUnit) r = (.ok (), counted r) := rfl
  have hfetch : m.query.fetch (counted r).state.pc = some i := hi
  rw [runFor, bind_ok hcount, bind_ok (state_eq _), hfetch]
  show (m.execute i >>= _) (counted r) = _
  rcases he : m.execute i (counted r) with ⟨e | c, r'⟩
  · rw [bind_error he]
  · rw [bind_ok he]
    cases c <;> rfl

end Machine
end ProofWalk
