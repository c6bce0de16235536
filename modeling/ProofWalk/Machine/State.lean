import ProofWalk.Clause.Label
import ProofWalk.Interned
import ProofWalk.Machine.Heap
/-!
# Machine.State — states of the machine

A state is where the machine stands: its heap, the registers of the running clause, the stack of callers, the
address of the next instruction and the call that is pending, if any.  The arguments of a pending call lie on top of
the heap.  A register holds a heap index once it is set, and a frame is what a call saves of its caller: where to
return to, the registers, and the predicate that the caller belongs to.  Two flags tell whether the query has
succeeded or failed.

Pruning asks of a state whether a predicate of some kind is being called or has a caller on the stack (`inCall`).
-/
namespace ProofWalk

def Binding.describe (symbols : Symbols) : Binding → String
  | const c => symbols.name c
  | free i => s!"_{i}"
  | unset => "?"

abbrev Registers := List (Option Nat)

/-- **What a call saves of its caller.** -/
structure Frame where
  returnTo : Nat
  registers : Registers
  /-- The predicate that the caller belongs to; none for the query. -/
  caller : Option Label
deriving DecidableEq, Inhabited, Repr

structure State where
  heap : Heap
  registers : Registers
  /-- The callers, the latest first. -/
  stack : List Frame
  pc : Nat
  /-- The predicate that is being called or run. -/
  jumpTo : Option Label
  completed : Bool
  failed : Bool
deriving DecidableEq, Inhabited, Repr

namespace State

def start (pc : Nat) : State := ⟨#[], [], [], pc, none, false, false⟩

def register (s : State) (i : Nat) : Binding :=
  match s.registers[i]? with
  | some (some cell) => s.heap.resolve cell
  | _ => .unset

def arity (s : State) : Nat :=
  match s.jumpTo with
  | some label => label.arity
  | none => 0

def argumentCells (s : State) : List Nat := List.range' (s.heap.size - s.arity) (min s.arity s.heap.size)

/-- **Whether a predicate of some kind is being called or has a caller on the stack.** -/
def inCall (s : State) (p : Label → Bool) : Bool :=
  s.jumpTo.any p || s.stack.any fun f => f.caller.any p

def describe (s : State) (symbols : Symbols) : String :=
  if s.completed then
    "done [" ++ Text.join "," ((List.range s.registers.length).map fun i => (s.register i).describe symbols) ++ "]"
  else if s.failed then "failed"
  else
    match s.jumpTo with
    | some label =>
      label.functor ++ "(" ++ Text.join "," (s.argumentCells.map fun i => (s.heap.resolve i).describe symbols) ++
        s!") @{s.pc} depth {s.stack.length}"
    | none => s!"pc {s.pc}"

end State

end ProofWalk
