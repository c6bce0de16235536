import ProofWalk.Machine.Run
/-!
# Machine.Outlinks — every way to go on from a branching point

A state that waits at a call goes on in one way for each matching fact, base by base, and then in one way for each
rule of the called predicate, in program order, each run to its next branching point.  Ways that fail are left out.
Each way carries the features that it reports: those of the rule, or the one feature of the fact.

All ways are computed on one run, one after the other, and each begins by putting the run back to the state that
goes on (`restore`), so that it makes no difference what has been run before.  A fact is compared with the arguments
that are bound before it is unified with them, and a call that it answers returns to its caller at once
(`finishCall`).

Completed and failed states have no ways on.  A call that nothing resolves is a fault, and a fault in one way is a
fault of the whole expansion.  `expand` is the expansion on a fresh run.
-/
namespace ProofWalk

/-- **A way to go on**: its features and the state that it leads to. -/
structure Outlink (K : Type) where
  features : Features K
  target : Frozen

namespace Machine

variable {K : Type} [Scalar K]

def restore (s : State) : RunM K Unit := set (Run.resume s : Run K)

/-- **Finish the pending call as a success** and run on to the next branching point; nothing if that fails. -/
def finishCall (m : Machine K) (features : Features K) : RunM K (Option (Outlink K)) := do
  match ← returnToCaller with
  | .next => m.run
  | _ => pure ()
  let s ← state
  return if s.failed then none else some ⟨features, .of s⟩

def unifyAll : List (Nat × Nat) → RunM K Bool
  | [] => return true
  | (cell, constant) :: rest => do if ← unifyConst cell constant then unifyAll rest else return false

/-- **The way in which a fact continues a state** that calls a predicate with the given arguments, where they are
bound; nothing if the fact does not match or the run from there fails. -/
def factOutlink (m : Machine K) (s : State) (label : Label) (bound : List (Option Nat)) (fact : Fact K) :
    RunM K (Option (Outlink K)) := do
  if fact.agrees bound then
    restore s
    let cells ← topCells label.arity
    if ← unifyAll (cells.zip fact.args) then
      m.finishCall ((∅ : Features K).insert (FactBase.feature label) fact.weight)
    else return none
  else return none

def factOutlinks (m : Machine K) (s : State) (label : Label) (bound : List (Option Nat)) :
    List (Fact K) → RunM K (List (Outlink K))
  | [] => return []
  | fact :: rest => do
    let here ← m.factOutlink s label bound fact
    return here.toList ++ (← m.factOutlinks s label bound rest)

def boundArguments : List Nat → RunM K (List (Option Nat))
  | [] => return []
  | position :: rest => do
    let b ← pendingArgument position
    let rest ← boundArguments rest
    return (match b with | .const c => some c | _ => none) :: rest

def baseOutlinks (m : Machine K) (s : State) (label : Label) (b : FactBase K) : RunM K (List (Outlink K)) := do
  restore s
  let bound ← boundArguments (List.range label.arity)
  m.factOutlinks s label bound (b.factsOf label)

def basesOutlinks (m : Machine K) (s : State) (label : Label) : List (FactBase K) → RunM K (List (Outlink K))
  | [] => return []
  | b :: rest => do
    let here ← m.baseOutlinks s label b
    return here ++ (← m.basesOutlinks s label rest)

def clauseOutlink (m : Machine K) (s : State) (address : Nat) : RunM K (Option (Outlink K)) := do
  restore { s with pc := address }
  m.run
  let r ← get
  if r.state.failed then return none
  else
    set { r with reported := none }
    return some ⟨r.reported.getD .empty, .of r.state⟩

def clauseOutlinks (m : Machine K) (s : State) : List Nat → RunM K (List (Outlink K))
  | [] => return []
  | address :: rest => do
    let here ← m.clauseOutlink s address
    return here.toList ++ (← m.clauseOutlinks s rest)

/-- **Every way to go on from a state.**  Completed and failed states have none; a call that nothing resolves is a
fault, and a fault in one way is a fault of the whole expansion. -/
def outlinks (m : Machine K) (s : State) : RunM K (List (Outlink K)) := do
  if s.completed || s.failed then return []
  match s.jumpTo with
  | none => throw (.malformedState s!"no pending call at pc {s.pc}")
  | some label =>
    let bases := m.bases.filter (·.claims label)
    let fromFacts ← m.basesOutlinks s label bases
    let clauses := m.query.clauses label
    if clauses.isEmpty && bases.isEmpty then throw (.unknownPredicate label)
    else return fromFacts ++ (← m.clauseOutlinks s clauses)

def startState (m : Machine K) : Except LogicError Frozen := (m.start m.initial).1

/-- **Every way to go on from a state**, whatever was run before. -/
def expand (m : Machine K) (s : State) : Except LogicError (List (Outlink K)) := (m.outlinks s m.initial).1

end Machine

end ProofWalk
