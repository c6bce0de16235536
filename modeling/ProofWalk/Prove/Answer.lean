import ProofWalk.Graph.ProofGraph
import ProofWalk.Prove.Mass
/-!
# Prove.Answer — the answers in a result

Each completed state that holds mass answers the query with its variables bound.  States that answer alike, by the
text of the query's goals with their values, are one answer.  The mass of an answer over the mass of all answers is
its probability.

A variable is shown in answers if its name does not start with an underscore.  While answers are gathered, a `Tally`
keeps for each text the mass of all its states, and the one of them with the greatest mass, whose bindings are
shown.  Answers are listed with the more probable first, and equally probable ones by text.
-/
namespace ProofWalk

structure Answer (K : Type) where
  goal : String
  bindings : SortedMap String String
  /-- The share of the mass of all answers. -/
  probability : K
  /-- The state of greatest mass that gives this answer. -/
  state : Nat

namespace Answer

variable {K : Type}

def text [Written K] (a : Answer K) : String := Written.fixed 6 a.probability ++ "\t" ++ a.goal

def showBinding (symbols : Symbols) : Binding → String
  | .const c => symbols.name c
  | .free i => s!"_{i}"
  | .unset => "_"

def isShown (name : String) : Bool := name.toList.head? != some '_'

def bindingsOf (s : State) (names : List String) (symbols : Symbols) : SortedMap String String :=
  .ofList ((names.zipIdx.filter fun v => isShown v.1).map fun v => (v.1, showBinding symbols (s.register v.2)))

def groundGoal (bindings : SortedMap String String) (g : Goal) : String :=
  let arguments := g.args.map fun a => match a with
    | .var name => bindings.getD name name
    | .const name => name
  if arguments.isEmpty then g.functor else g.functor ++ "(" ++ Text.join "," arguments ++ ")"

variable [Scalar K]

def ofState (q : QueryProgram) (symbols : Symbols) (s : State) (id : Nat) (mass : K) : Answer K :=
  let bindings := bindingsOf s q.names symbols
  ⟨Text.join ", " (q.query.goals.map (groundGoal bindings)), bindings, mass, id⟩

/-- Answers by goal, each with the greatest mass of a state that gives it, and the mass of all. -/
structure Tally (K : Type) where
  byGoal : SortedMap String (Answer K × K)
  total : K

def Tally.add (t : Tally K) (a : Answer K) : Tally K :=
  let mass := a.probability
  { byGoal := t.byGoal.upsert a.goal fun old => match old with
      | none => (a, mass)
      | some (b, best) =>
        let b := { b with probability := b.probability + mass }
        if best < mass then ({ b with state := a.state }, mass) else (b, best)
    total := t.total + mass }

def stands (a b : Answer K) : Bool :=
  match Scalar.order b.probability a.probability with
  | .lt => true
  | .gt => false
  | .eq => decide (a.goal ≤ b.goal)

def answering (g : ProofGraph K) (result : ProofVector K) : List (Answer K) :=
  result.toList.filterMap fun e => match g.state? e.1 with
    | some s =>
      if s.completed && !decide (e.2 ≤ (0 : K))
        then some (ofState g.machine.query g.machine.symbols s e.1 e.2) else none
    | none => none

/-- **The answers of a result**, most probable first. -/
def all (g : ProofGraph K) (result : ProofVector K) : List (Answer K) :=
  let tally := (answering g result).foldl Tally.add (⟨.empty, 0⟩ : Tally K)
  if tally.total ≤ 0 then []
  else
    (tally.byGoal.values.map fun v => { v.1 with probability := v.1.probability / tally.total }).mergeSort stands

end Answer

end ProofWalk
