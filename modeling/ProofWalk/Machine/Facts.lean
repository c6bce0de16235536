import ProofWalk.Code.LogicError
import ProofWalk.Interned
/-!
# Machine.Facts — weighted ground facts

A fact base resolves calls of the predicates that it has facts for, beside the rules of the program.  Its facts are
ground and each carries a weight.  They are kept by predicate, in the order in which they were added, and arguments
of facts are numbers of the symbol table; `add` refuses a goal with a variable and names the variable, but the
constants before it stay numbered.  An edge that a fact makes has one feature, named for the predicate, with the
weight as its value.
-/
namespace ProofWalk

structure Fact (K : Type) where
  /-- The arguments, by number of constant. -/
  args : List Nat
  weight : K

def Fact.agrees {K : Type} (fact : Fact K) (bound : List (Option Nat)) : Bool :=
  (fact.args.zip bound).all fun (arg, b) => b.all (· == arg)

/-- **Named facts.** -/
structure FactBase (K : Type) where
  name : String
  /-- The facts of each predicate, the last one first. -/
  facts : SortedMap Label (List (Fact K))

namespace FactBase

variable {K : Type}

def empty (name : String) : FactBase K := ⟨name, ∅⟩

def size (b : FactBase K) : Nat := b.facts.foldl (fun count _ facts => count + facts.length) 0

def factsOf (b : FactBase K) (label : Label) : List (Fact K) := (b.facts.getD label []).reverse

/-- **Whether the base resolves calls of a predicate**: it has a fact for it. -/
def claims (b : FactBase K) (label : Label) : Bool := b.facts.contains label

def feature (label : Label) : String := "db(" ++ label.text ++ ")"

def numberArguments : List Argument → Symbols → Except String (List Nat) × Symbols
  | [], symbols => (.ok [], symbols)
  | .var v :: _, symbols => (.error v, symbols)
  | .const c :: rest, symbols =>
    let (symbols, i) := symbols.intern c
    match numberArguments rest symbols with
    | (.ok is, symbols) => (.ok (i :: is), symbols)
    | (.error v, symbols) => (.error v, symbols)

/-- **Add a ground fact.**  A goal with a variable is refused, but the constants before the variable stay numbered. -/
def add (b : FactBase K) (goal : Goal) (weight : K) (symbols : Symbols) :
    Except LogicError (FactBase K) × Symbols :=
  match numberArguments goal.args symbols with
  | (.ok args, symbols) =>
    (.ok { b with facts := b.facts.upsert goal.label fun old => ⟨args, weight⟩ :: old.getD [] }, symbols)
  | (.error v, symbols) =>
    (.error (.malformedState ("fact " ++ goal.text ++ " is not ground (variable " ++ v ++ ")")), symbols)

end FactBase

end ProofWalk
