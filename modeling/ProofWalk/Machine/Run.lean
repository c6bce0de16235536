import ProofWalk.Code.Program
import ProofWalk.Machine.Builtin
import ProofWalk.Machine.Canonical
import ProofWalk.Machine.Facts
import ProofWalk.Weight.Features
/-!
# Machine.Run — running instructions up to the next branching point

Execution is deterministic between branching points.  A branching point is a call of a predicate that rules or facts
define: the machine stops there, with the call pending.  It also stops when the query has succeeded or failed.
Builtins and returns run on.

A run works on one state and gathers the features of the clause that it is in (`Run`): the ones that are complete,
and one under construction, which counts once it has all its arguments.  A fault leaves the run as it was when the
fault arose.  `RunM` is the monad of such computations.

Arguments of a call are the topmost cells of the heap.  An instruction of a head addresses them by offsets from the
top (`relative`), and a call takes their heap indices in order (`topCells`).  A register of a feature is written as
its constant, or by the rank of its variable in the canonical form of the state at hand.

`execute` is the single step, and tells whether to go on, and where.  `runFor` takes at most as many steps as it is
told; `run` allows what the limits of the machine say, and a run that has not stopped by then is a fault.
-/
namespace ProofWalk

structure Limits where
  /-- How many instructions run from a branching point to the next. -/
  steps : Nat
  stack : Nat
deriving DecidableEq, Inhabited, Repr

def Limits.usual : Limits := ⟨100000, 1000⟩

/-- **A query ready to run**: its code, the facts beside it, and the bounds on its expansions. -/
structure Machine (K : Type) where
  query : QueryProgram
  bases : List (FactBase K)
  limits : Limits
  symbols : Symbols

/-- **How execution goes on after an instruction.** -/
inductive Control
  | next
  /-- Not at all: a call branches. -/
  | branch
  /-- Not at all: the query has succeeded or failed. -/
  | halt
deriving DecidableEq, Inhabited, Repr

structure PartialFeature where
  functor : String
  /-- The number of arguments that it will have. -/
  arity : Nat
  args : List String
deriving DecidableEq, Inhabited, Repr

/-- **A run of a machine.** -/
structure Run (K : Type) where
  state : State
  /-- The features gathered since they were last cleared. -/
  features : Features K
  unfinished : Option PartialFeature
  /-- The features last reported. -/
  reported : Option (Features K)
  steps : Nat

namespace Run

variable {K : Type}

/-! ## Runs

A run carries what lies between two branching points: the features gathered so far, one that is still being written,
and the features reported last. -/

def resume (s : State) : Run K := ⟨s, .empty, none, none, 0⟩

@[inline] def withState (r : Run K) (s : State) : Run K := { r with state := s }

def clearFeatures (r : Run K) : Run K := { r with features := .empty, unfinished := none }

variable [Scalar K]

def completeFeature (r : Run K) : Run K :=
  match r.unfinished with
  | none => r
  | some p =>
    if p.args.length < p.arity then r
    else
      let name := if p.arity = 0 then p.functor else p.functor ++ "(" ++ Text.join "," p.args ++ ")"
      { r with unfinished := none, features := r.features.count name }

def addArgument (r : Run K) (arg : String) : Run K :=
  completeFeature { r with unfinished := r.unfinished.map fun p => { p with args := p.args ++ [arg] } }

end Run

abbrev RunM (K : Type) := ExceptT LogicError (StateM (Run K))

namespace Machine

variable {K : Type}

@[inline] def state : RunM K State := do return (← get).state

@[inline] def setState (s : State) : RunM K Unit := modify (·.withState s)

/-! ## Registers and arguments

Arguments are addressed by negative offsets from the top of the heap, registers by number.  Both lead to faults
where nothing is there. -/

def relative (offset : Int) : RunM K Nat := do
  let size := (← state).heap.size
  let index := (size : Int) + offset
  if 0 ≤ index ∧ index < size then return index.toNat
  else throw (.invalidHeapReference (Word.signed index) size)

def readRegister (i : Nat) : RunM K Nat := do
  let s ← state
  match s.registers[i]? with
  | some (some cell) => return cell
  | _ => throw (.unboundRegister i s.pc)

def writeRegister (i cell : Nat) : RunM K Unit := do
  let s ← state
  if i < s.registers.length then setState { s with registers := s.registers.set i (some cell) }
  else throw (.unboundRegister i s.pc)

/-- **The heap indices of the top cells**, which are the arguments of a call of that arity. -/
def topCells (arity : Nat) : RunM K (List Nat) := do
  let size := (← state).heap.size
  if arity ≤ size then return List.range' (size - arity) arity
  else throw (.invalidHeapReference (Word.signed ((size : Int) - arity)) size)

def pendingArgument (position : Nat) : RunM K Binding := do
  let s ← state
  let cells ← topCells s.arity
  match cells[position]? with
  | some cell => return s.heap.resolve cell
  | none => throw (.invalidHeapReference (Word.signed position) s.arity)

def changeHeap (change : Heap.Change) : RunM K Unit := do
  let s ← state
  setState { s with heap := s.heap.apply change }

def unifyConst (cell constant : Nat) : RunM K Bool := do
  match (← state).heap.matchConst cell constant with
  | some change => changeHeap change; return true
  | none => return false

def advance (m : Machine K) : RunM K Control := do
  let s ← state
  setState { s with pc := m.query.next s.pc }
  return .next

def fail : RunM K Control := do
  setState { ← state with failed := true }
  return .halt

def proceedWith (m : Machine K) : Option Heap.Change → RunM K Control
  | some change => do
    changeHeap change
    m.advance
  | none => fail

/-! ## Instructions

Every instruction says how execution goes on.  One that fails marks the state as failed and halts, which is no
fault. -/

/-- **Return to the caller**; the query itself, which has none, succeeds. -/
def returnToCaller : RunM K Control := do
  let s ← state
  match s.stack with
  | f :: rest =>
    setState { s with pc := f.returnTo, registers := f.registers, jumpTo := f.caller, stack := rest }
    return .next
  | [] =>
    setState { s with completed := true, jumpTo := none }
    return .halt

/-- **Call a predicate**: run a builtin in place, and stop at any other call with the caller saved. -/
def call (m : Machine K) (label : Label) : RunM K Control := do
  let cells ← topCells label.arity
  match Builtin.ofLabel? label, cells with
  | some b, first :: second :: _ =>
    match b.run (← state).heap first second with
    | .ok change => m.proceedWith change
    | .error e => throw e
  | _, _ =>
    let s ← state
    if m.limits.stack ≤ s.stack.length then throw (.callStackOverflow m.limits.stack label)
    else
      setState { s with
        stack := ⟨m.query.next s.pc, s.registers, s.jumpTo⟩ :: s.stack
        jumpTo := some label }
      return .branch

def featureArgument (m : Machine K) (register : Nat) : RunM K String := do
  let s ← state
  match s.register register with
  | .const c => return m.symbols.name c
  | .free root => return s!"_{s.variableRank root}"
  | .unset => throw (.unboundRegister register s.pc)

variable [Scalar K]

def execute (m : Machine K) : Instruction → RunM K Control
  | .comment _ => m.advance
  | .allocate size _ => do
    setState { ← state with registers := List.replicate size none }
    m.advance
  | .initFreeVar register offset => do
    writeRegister register (← relative offset)
    m.advance
  | .unifyConst constant offset => do
    let cell ← relative offset
    m.proceedWith ((← state).heap.matchConst cell constant)
  | .unifyBoundVar register offset => do
    let a ← readRegister register
    let b ← relative offset
    m.proceedWith ((← state).heap.unifier a b)
  | .pushConst constant => do
    let s ← state
    setState { s with heap := s.heap.pushConst constant }
    m.advance
  | .pushFreeVar register => do
    let s ← state
    let top := s.heap.size
    setState { s with heap := s.heap.pushFree }
    writeRegister register top
    m.advance
  | .pushBoundVar register => do
    let cell ← readRegister register
    let s ← state
    setState { s with heap := s.heap.push (.ref (s.heap.deref cell)) }
    m.advance
  | .call label => m.call label
  | .proceed => returnToCaller
  | .clearFeatures => do
    modify Run.clearFeatures
    m.advance
  | .startFeature functor arity => do
    modify fun r => { r with unfinished := some ⟨functor, arity, []⟩ }.completeFeature
    m.advance
  | .featureConst constant => do
    modify (·.addArgument (m.symbols.name constant))
    m.advance
  | .featureVar register => do
    let arg ← m.featureArgument register
    modify (·.addArgument arg)
    m.advance
  | .reportFeatures => do
    modify fun r => { r with reported := some r.features }
    m.advance

/-! ## Whole runs

A step is counted before its instruction is fetched, so that the limit bounds all runs. -/

/-- Run up to a branching point, success or failure, for at most so many more instructions. -/
def runFor (m : Machine K) : Nat → RunM K Unit
  | 0 => throw (.stepLimitExceeded m.limits.steps)
  | fuel + 1 => do
    modify fun r => { r with steps := r.steps + 1 }
    let pc := (← state).pc
    match m.query.fetch pc with
    | none => throw (.invalidAddress pc)
    | some i =>
      match ← m.execute i with
      | .next => m.runFor fuel
      | _ => return

def run (m : Machine K) : RunM K Unit := do m.runFor (m.limits.steps - (← get).steps)

/-- **Run the query from its start to its first branching point.** -/
def start (m : Machine K) : RunM K Frozen := do
  modify fun r => { r.clearFeatures with state := .start m.query.entry, steps := 0 }
  m.run
  return .of (← state)

def initial (m : Machine K) : Run K := .resume (.start m.query.entry)

end Machine

end ProofWalk
