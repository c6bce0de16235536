/-!
# Machine.Heap — cells, references and unification

The heap holds constants and references.  A reference to itself is an unbound variable; any other reference is
followed until a constant or an unbound variable is reached.  Binding a variable overwrites its cell.

`deref` follows a chain of references for as many steps as the heap has cells, and no chain without a cycle is
longer.  What a cell stands for (`resolve`) is then a constant, an unbound variable, or nothing if the index lies
outside.  Unification is computed in two parts: `matchConst` and `unifier` find the change that would make two
things equal, if there is one, and `Change.apply` makes it.  So a failure changes nothing, by its form.
-/
namespace ProofWalk

inductive Cell
  | const (constant : Nat)
  /-- A reference to a cell; to itself, if the cell is an unbound variable. -/
  | ref (index : Nat)
deriving DecidableEq, Inhabited, Repr

/-- **What a cell or a register stands for.** -/
inductive Binding
  | const (constant : Nat)
  /-- An unbound variable, by the cell at the end of its references. -/
  | free (root : Nat)
  | unset
deriving DecidableEq, Inhabited, Repr

abbrev Heap := Array Cell

namespace Heap

def follow (h : Heap) : Nat → Nat → Nat
  | 0, i => i
  | fuel + 1, i =>
    match h[i]? with
    | some (.ref j) => if j = i then i else follow h fuel j
    | _ => i

/-- **The cell at the end of a chain of references**; no chain without a cycle is longer than the heap. -/
def deref (h : Heap) (i : Nat) : Nat := follow h (h.size + 1) i

def resolve (h : Heap) (i : Nat) : Binding :=
  match h[h.deref i]? with
  | some (.const c) => .const c
  | some (.ref _) => .free (h.deref i)
  | none => .unset

def pushConst (h : Heap) (c : Nat) : Heap := h.push (.const c)

def pushFree (h : Heap) : Heap := h.push (.ref h.size)

/-- **What unifying asks of a heap.** -/
inductive Change
  | keep
  /-- To overwrite the cell of an unbound variable. -/
  | bind (root : Nat) (cell : Cell)
deriving DecidableEq, Inhabited, Repr

def apply (h : Heap) : Change → Heap
  | .keep => h
  | .bind root cell => h.setIfInBounds root cell

def matchConst (h : Heap) (i c : Nat) : Option Change :=
  match h.resolve i with
  | .const d => if d = c then some .keep else none
  | .free root => some (.bind root (.const c))
  | .unset => none

def unifier (h : Heap) (a b : Nat) : Option Change :=
  let a := h.deref a
  let b := h.deref b
  if a = b then some .keep
  else
    match h[a]?, h[b]? with
    | some (.const x), some (.const y) => if x = y then some .keep else none
    | some (.ref _), some _ => some (.bind a (.ref b))
    | some (.const _), some (.ref _) => some (.bind b (.ref a))
    | _, _ => none

def unifyConst (h : Heap) (i c : Nat) : Option Heap := (h.matchConst i c).map h.apply

/-- **Unify two cells**; nothing if they stand for different constants. -/
def unify (h : Heap) (a b : Nat) : Option Heap := (h.unifier a b).map h.apply

end Heap

end ProofWalk
