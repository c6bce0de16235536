import ProofWalk.Clause.Label
/-!
# Code.Instruction — the instructions of the machine

Arguments of a call lie on top of the heap.  The instructions of a head address them by offsets from the top,
`-arity` to `-1`.  Constants are numbers of the program's symbol table, registers are numbers in the register file.
A variable has a register for the time of one clause: what is met for the first time is stored there, and what is
met again is unified with what the register refers to.
-/
namespace ProofWalk

inductive Instruction
  /-- Text for the reader of a listing; does nothing. -/
  | comment (text : String)
  /-- Open a register file of `size` unset registers with the given names. -/
  | allocate (size : Nat) (names : List String)
  /-- Set a register to the heap cell at an offset from the top. -/
  | initFreeVar (register : Nat) (offset : Int)
  /-- Unify the heap cell at an offset from the top with a constant. -/
  | unifyConst (constant : Nat) (offset : Int)
  /-- Unify a register with the heap cell at an offset from the top. -/
  | unifyBoundVar (register : Nat) (offset : Int)
  | pushConst (constant : Nat)
  /-- Push an unbound variable and set a register to it. -/
  | pushFreeVar (register : Nat)
  /-- Push a reference to what a register holds. -/
  | pushBoundVar (register : Nat)
  | call (label : Label)
  | proceed
  | clearFeatures
  /-- Start a feature with a number of arguments. -/
  | startFeature (functor : String) (arity : Nat)
  /-- Give a constant as the next argument of the started feature. -/
  | featureConst (constant : Nat)
  /-- Give what a register holds as the next argument of the started feature. -/
  | featureVar (register : Nat)
  | reportFeatures
deriving DecidableEq, Inhabited, Repr

def Instruction.text : Instruction → String
  | comment text => "% " ++ text
  | allocate size names => s!"allocate {size} [" ++ Text.join "," names ++ "]"
  | initFreeVar register offset => s!"initfreevar r{register} {offset}"
  | unifyConst constant offset => s!"unifyconst #{constant} {offset}"
  | unifyBoundVar register offset => s!"unifyboundvar r{register} {offset}"
  | pushConst constant => s!"pushconst #{constant}"
  | pushFreeVar register => s!"pushfreevar r{register}"
  | pushBoundVar register => s!"pushboundvar r{register}"
  | call label => "callp " ++ label.text
  | proceed => "returnp"
  | clearFeatures => "fclear"
  | startFeature functor arity => "fpushstart " ++ functor ++ s!"/{arity}"
  | featureConst constant => s!"fpushconst #{constant}"
  | featureVar register => s!"fpushboundvar r{register}"
  | reportFeatures => "freport"

end ProofWalk
