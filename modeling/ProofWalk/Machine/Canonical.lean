import ProofWalk.Machine.Form
import ProofWalk.Machine.State
/-!
# Machine.Canonical — states up to the names of variables and the layout of the heap

The canonical form of a state lists what decides how it goes on, and numbers the unbound variables in order of first
occurrence.  Of a completed state only the bindings of the query count, of a failed state nothing does.  States with
the same form are one node of a proof graph.

The form is computed in two steps.  `outline` lists, in a fixed order, the tokens and cells of a state that count:
the address, the pending call and its arguments, the registers, and the frames of the callers.  `markItems` then
turns each cell into a token, carrying along the list of the unbound variables met so far; a cell that is bound is
its constant, and any other the rank of its variable in that list.  Features name unbound variables by these ranks
too (`variableRank`); a variable that does not occur in the form has the next rank.

A `Frozen` state is kept together with its form, which is computed once, and a `StateTable` numbers frozen states by
their forms.
-/
namespace ProofWalk

namespace State

inductive Item
  | mark (m : Mark)
  /-- What a register or an argument holds. -/
  | cell (index : Option Nat)
deriving DecidableEq, Inhabited, Repr

def outlineRegisters (registers : Registers) : List Item :=
  .mark (.number registers.length) :: registers.map .cell

def outlineFrame (f : Frame) : List Item :=
  .mark (.word "frame") :: .mark (.number f.returnTo) :: .mark (.label f.caller) :: outlineRegisters f.registers

/-- **What decides how a state goes on**, in a fixed order. -/
def outline (s : State) : List Item :=
  if s.completed then .mark (.word "done") :: outlineRegisters s.registers
  else if s.failed then [.mark (.word "failed")]
  else
    [.mark (.word "pc"), .mark (.number s.pc), .mark (.label s.jumpTo), .mark (.word "args")] ++
      s.argumentCells.map (fun i => .cell (some i)) ++ .mark (.word "regs") :: outlineRegisters s.registers ++
      s.stack.flatMap outlineFrame

def markItem (h : Heap) (met : Numbering) : Item → Mark × Numbering
  | .mark m => (m, met)
  | .cell none => (.unset, met)
  | .cell (some i) =>
    match h.resolve i with
    | .const c => (.const c, met)
    | .unset => (.unset, met)
    | .free root =>
      let (met, rank) := met.intern root
      (.var rank, met)

def markItems (h : Heap) (met : Numbering) : List Item → List Mark × Numbering
  | [] => ([], met)
  | item :: rest =>
    let (m, met) := markItem h met item
    let (ms, met) := markItems h met rest
    (m :: ms, met)

/-- **The tokens of the canonical form.** -/
def canonical (s : State) : List Mark := (markItems s.heap ∅ s.outline).1

def freeCells (s : State) : Numbering := (markItems s.heap ∅ s.outline).2

def variableRank (s : State) (i : Nat) : Nat :=
  let vars := s.freeCells
  (vars.find? (s.heap.deref i)).getD vars.size

end State

/-- **A state together with its canonical form.** -/
structure Frozen where
  state : State
  form : Form
  form_eq : form = .of state.canonical

namespace Frozen

def of (s : State) : Frozen := ⟨s, .of s.canonical, rfl⟩

instance : Inhabited Frozen := ⟨of default⟩

def text (f : Frozen) : String := f.form.text

@[simp] theorem marks_form (f : Frozen) : f.form.marks = f.state.canonical := by rw [f.form_eq, Form.marks_of]

/-- **States share a form when their tokens agree.** -/
theorem form_eq_form_iff {f g : Frozen} : f.form = g.form ↔ f.state.canonical = g.state.canonical :=
  ⟨fun h => by rw [← f.marks_form, h, marks_form], fun h => Form.ext (by simpa using h)⟩

end Frozen

/-- **Tables of states**, in which states with the same canonical form share a number. -/
abbrev StateTable := Interned Frozen.form

def StateTable.single (f : Frozen) : StateTable := (Interned.intern .empty f).1

end ProofWalk
