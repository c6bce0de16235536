import ProofWalk.Text.Uppercase
import ProofWalk.Text.Join
/-!
# Clause.Goal — arguments and goals

The language has no function symbols: a goal is a functor applied to constants and variables, as in `friend(X,
bob)`.  Names are told apart by their first character: a variable starts with a capital letter or an underscore
(`isVariableName`).  A constant may also be built directly from any text, which is what a quoted atom does.

The written form of a goal (`Goal.text`) leaves out the parentheses where there are no arguments.
-/
namespace ProofWalk

inductive Argument
  | const (name : String)
  | var (name : String)
deriving DecidableEq, Inhabited, Repr

def isVariableName (name : String) : Bool := name.toList.head?.any fun c => Text.isUppercase c || c == '_'

namespace Argument

def ofName (name : String) : Argument := if isVariableName name then var name else const name

def name : Argument → String
  | const n => n
  | var n => n

def isVariable : Argument → Bool
  | const _ => false
  | var _ => true

def varName? : Argument → Option String
  | const _ => none
  | var n => some n

end Argument

/-- **A functor applied to arguments**, as in `friend(X, bob)`. -/
structure Goal where
  functor : String
  args : List Argument
deriving DecidableEq, Inhabited, Repr

namespace Goal

def ofNames (functor : String) (names : List String) : Goal := ⟨functor, names.map .ofName⟩

def arity (g : Goal) : Nat := g.args.length

def isGround (g : Goal) : Bool := g.args.all fun a => !a.isVariable

def text (g : Goal) : String :=
  if g.args.isEmpty then g.functor else g.functor ++ "(" ++ Text.join "," (g.args.map Argument.name) ++ ")"

end Goal

end ProofWalk
