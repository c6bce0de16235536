import ProofWalk.Graph.Prune
import ProofWalk.Graph.StateGraph
/-!
# Graph.ProofGraph — proof graphs of either representation

A proof graph is of one of the two representations, and an operation on it is the one that fits (`either`).  What
the two have in common is told by functions of the same names: the machine, the states by number, which of them are
completed, and which have been expanded.  A look at all edges (`allEdges`) is one at the expanded states in order;
it expands none.
-/
namespace ProofWalk

inductive ProofGraph (K : Type)
  | state (g : StateGraph K)
  | cachingId (g : IdGraph K)

namespace ProofGraph

variable {K : Type}

def kind : ProofGraph K → GraphKind
  | state _ => .state
  | cachingId _ => .cachingId

def states : ProofGraph K → StateTable
  | state g => g.states
  | cachingId g => g.states

def machine : ProofGraph K → Machine K
  | state g => g.machine
  | cachingId g => g.machine

def size (g : ProofGraph K) : Nat := g.states.size

def state? (g : ProofGraph K) (id : Nat) : Option State := (g.states.get? id).map (·.state)

def isCompleted (g : ProofGraph K) (id : Nat) : Bool := (g.state? id).any (·.completed)

def isExpanded (g : ProofGraph K) (id : Nat) : Bool :=
  match g with
  | state g => (g.edges.get? id).isSome
  | cachingId g => (g.rows.get? id).isSome

abbrev Op (K : Type) := GraphM (ProofGraph K) K

/-- **The operation that fits the representation.** -/
@[inline] def either {α : Type} (onState : StateGraph.Op K α) (onId : IdGraph.Op K α) : Op K α :=
  ExceptT.mk fun
    | ⟨state g, features, counts⟩ =>
      let (r, ⟨g, features, counts⟩) := onState.run ⟨g, features, counts⟩
      (r, ⟨state g, features, counts⟩)
    | ⟨cachingId g, features, counts⟩ =>
      let (r, ⟨g, features, counts⟩) := onId.run ⟨g, features, counts⟩
      (r, ⟨cachingId g, features, counts⟩)

variable [Scalar K]

/-- **The graph of a query** in a representation, over a table of features. -/
def build (kind : GraphKind) (m : Machine K) (features : Symbols) : Except LogicError (ProofGraph K × Symbols) :=
  match kind with
  | .state => do return (state (← StateGraph.build m), features)
  | .cachingId => do
    let (g, features) ← IdGraph.build m features
    return (cachingId g, features)

def outlinks (id : Nat) : Op K (List (Edge K)) := either (StateGraph.outlinks id) (IdGraph.outlinks id)

def degree (id : Nat) (trueLoop : Bool) : Op K Nat :=
  either (StateGraph.degree id trueLoop) (IdGraph.degree id trueLoop)

def weightedOutlinks [Exponential K] (id : Nat) (w : Weighter K) (trueLoop : Bool) : Op K (List (Link K)) :=
  either (StateGraph.weightedOutlinks id w trueLoop) (IdGraph.weightedOutlinks id w trueLoop)

def freeze (w : Weighter K) : Op K Unit := either (pure ()) (IdGraph.freeze w)

def edgesIfExpanded (id : Nat) : Op K (List (Edge K)) := do
  if (← GraphM.graph).isExpanded id then outlinks id else return []

def expandedEdges : List Nat → Op K (List (Nat × Edge K))
  | [] => return []
  | id :: rest => do
    let here ← edgesIfExpanded id
    return here.map (id, ·) ++ (← expandedEdges rest)

def allEdges : Op K (List (Nat × Edge K)) := do expandedEdges (List.range (← GraphM.graph).size)

end ProofGraph

end ProofWalk
