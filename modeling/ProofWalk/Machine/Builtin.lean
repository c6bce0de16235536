import ProofWalk.Code.LogicError
import ProofWalk.Machine.Heap
/-!
# Machine.Builtin — predicates that run in place

A call of a builtin succeeds or fails at once and makes no branch.  Each builtin has two arguments: `eq` and `neq`
compare two constants; `assign` binds its first argument to the constant that is its second, or compares them where
the first is bound already.  An argument that has to be a constant and is not bound to one is a fault.  Running one
gives the change that it makes to the heap, if it succeeds.
-/
namespace ProofWalk

/-- **The builtins**, each of two arguments. -/
inductive Builtin
  /-- Both arguments are the same constant. -/
  | eq
  /-- The arguments are different constants. -/
  | neq
  /-- The first argument becomes, or already is, the second. -/
  | assign
deriving DecidableEq, Inhabited, Repr

namespace Builtin

def label : Builtin → Label
  | eq => ⟨"eq", 2⟩
  | neq => ⟨"neq", 2⟩
  | assign => ⟨"assign", 2⟩

def ofLabel? (l : Label) : Option Builtin :=
  if l = label eq then some eq else if l = label neq then some neq
    else if l = label assign then some assign else none

def bound (b : Builtin) (h : Heap) (cell position : Nat) : Except LogicError Nat :=
  match h.resolve cell with
  | .const c => .ok c
  | _ => .error (.builtinPrecondition b.label s!"argument {position} must be bound")

/-- **Run a builtin on its two arguments**: the change that it makes to the heap, or nothing if it fails. -/
def run (b : Builtin) (h : Heap) (first second : Nat) : Except LogicError (Option Heap.Change) :=
  match b with
  | eq => do
    let x ← b.bound h first 1
    let y ← b.bound h second 2
    return if x = y then some .keep else none
  | neq => do
    let x ← b.bound h first 1
    let y ← b.bound h second 2
    return if x = y then none else some .keep
  | assign => do
    let value ← b.bound h second 2
    match h.resolve first with
    | .free root => return some (.bind root (.const value))
    | .const c => return if c = value then some .keep else none
    | .unset => throw (.builtinPrecondition b.label "argument 1 is not a heap cell")

end Builtin

end ProofWalk
