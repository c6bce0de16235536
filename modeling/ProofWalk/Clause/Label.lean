import ProofWalk.Clause.Goal
import ProofWalk.SortedMap
import ProofWalk.Word
/-!
# Clause.Label — predicates by functor and arity

A label is what a call names: a functor and a number of arguments, as in `friend/2`.  Labels are ordered by functor
and then by arity.  A label is read by splitting a text at its last slash (`ofText`): what follows it is an arity,
decimal digits after an optional plus sign, that fits in 64 bits, and a text without one is a functor with no
arguments.
-/
namespace ProofWalk

/-- **A predicate**, by functor and number of arguments. -/
structure Label where
  functor : String
  arity : Nat
deriving DecidableEq, Inhabited, Repr

namespace Label

/-- Labels are ordered by functor, then by arity. -/
instance : Ord Label where
  compare := compareLex (compareOn functor) (compareOn arity)

instance : Std.TransOrd Label := inferInstanceAs (Std.TransCmp (compareLex _ _))

instance : Std.LawfulEqOrd Label where
  compare_self := Std.ReflCmp.compare_self
  eq_of_compare {l l'} h := by
    obtain ⟨hfunctor, harity⟩ := compareLex_eq_eq.1 h
    obtain ⟨_, _⟩ := l
    obtain ⟨_, _⟩ := l'
    cases Std.LawfulEqOrd.eq_of_compare hfunctor
    cases Std.LawfulEqOrd.eq_of_compare harity
    rfl

def text (l : Label) : String := l.functor ++ "/" ++ toString l.arity

def arity? (digits : List Char) : Option Nat :=
  let digits := match digits with
    | '+' :: rest => rest
    | _ => digits
  if digits.isEmpty || !digits.all Char.isDigit then none
  else
    let n := digits.foldl (fun n c => 10 * n + (c.toNat - 48)) 0
    if n < Word.bound then some n else none

/-- **Read a label**, split at its last slash; a text without a readable arity is a functor with no arguments. -/
def ofText (key : String) : Label :=
  let backwards := key.toList.reverse
  match backwards.dropWhile (· != '/') with
  | [] => ⟨key, 0⟩
  | _ :: before =>
    match arity? (backwards.takeWhile (· != '/')).reverse with
    | some n => ⟨String.ofList before.reverse, n⟩
    | none => ⟨key, 0⟩

end Label

def Goal.label (g : Goal) : Label := ⟨g.functor, g.arity⟩

end ProofWalk
