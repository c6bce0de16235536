import ProofWalk.Proofs.Explorations
/-!
# Proofs.CarriedRuns — one machine for all expansions of a graph

The graphs of this library compute the ways on from each state on a fresh run of their machine (`Machine.waysOn`).
It would do as well to keep one run with a graph and to start each expansion on what the one before it has left: a
heap and registers, a count of steps and the features reported last, whether it came to an end or to a fault.
`RunningGraph` is a graph that does so, and `requests_eq` is the result here: it gives the same replies to the same
requests and becomes the same graph, whatever run it starts with.

An expansion puts the machine back to the state that it expands before it looks at anything, so that what it finds
does not depend on the run (`Machine.outlinks_eq_expand`).  A request expands its state, if that is due, before it
does anything else; `ProofGraph.enter` is that first part, for ways on from wherever, and `Request.run_enter` says
that a request to a graph where it has been done for the right ways on is a request to the graph itself.
-/
namespace ProofWalk

variable {K : Type}

theorem either_ofState {α : Type} {onState : StateGraph.Op K α} {onId : IdGraph.Op K α}
    {s t : Store (StateGraph K) K} (h : onState s = onState t) :
    ProofGraph.either onState onId (ofState s) = ProofGraph.either onState onId (ofState t) := by
  show ((onState s).1, ofState (onState s).2) = ((onState t).1, ofState (onState t).2)
  rw [h]

theorem either_ofId {α : Type} {onState : StateGraph.Op K α} {onId : IdGraph.Op K α} {s t : Store (IdGraph K) K}
    (h : onId s = onId t) : ProofGraph.either onState onId (ofId s) = ProofGraph.either onState onId (ofId t) := by
  show ((onId s).1, ofId (onId s).2) = ((onId t).1, ofId (onId t).2)
  rw [h]

variable [Scalar K]

/-! ## Expansions on what is left of a run

A fault makes a state a dead end, and it leaves a run behind like any other end of an expansion. -/

def Machine.waysOnFrom (m : Machine K) (r : Run K) (f : Frozen) : List (Outlink K) × Run K :=
  ((m.outlinks f.state r).1.toOption.getD [], (m.outlinks f.state r).2)

theorem Machine.waysOnFrom_eq (m : Machine K) (r : Run K) (f : Frozen) : (m.waysOnFrom r f).1 = m.waysOn f := by
  unfold waysOnFrom waysOn
  rw [m.outlinks_eq_expand f.state r]
  cases m.expand f.state <;> rfl

/-! ## Edges put on record

Putting edges on record is the part of an expansion that changes the graph.  Where it has been done, a request finds
its state expanded. -/

/-- A graph with some ways on from a state on record as its edges, and their targets numbered. -/
def StateGraph.enter (id : Nat) (ways : List (Outlink K)) (s : Store (StateGraph K) K) : Store (StateGraph K) K :=
  let (here, states) := numberOutlinks ways s.graph.states
  ⟨⟨s.graph.machine, states, s.graph.edges.insert id here⟩, numberFeatures here s.features, s.counts⟩

def IdGraph.enter (id : Nat) (ways : List (Outlink K)) (s : Store (IdGraph K) K) : Store (IdGraph K) K :=
  let (edges, states) := numberOutlinks ways s.graph.states
  let (here, features) := rowOf edges s.features
  ⟨{ s.graph with states, rows := s.graph.rows.insert id here }, features, s.counts⟩

def ProofGraph.enter (id : Nat) (ways : List (Outlink K)) : Store (ProofGraph K) K → Store (ProofGraph K) K
  | ⟨.state g, features, counts⟩ => ofState (StateGraph.enter id ways ⟨g, features, counts⟩)
  | ⟨.cachingId g, features, counts⟩ => ofId (IdGraph.enter id ways ⟨g, features, counts⟩)

namespace StateGraph

variable {id : Nat} {s : Store (StateGraph K) K} {f : Frozen} (h : s.graph.edges.get? id = none)
  (hstate : s.graph.states.get? id = some f)

include h hstate

theorem outlinks_enter : outlinks id (enter id (s.graph.machine.waysOn f) s) = outlinks id s := by
  rw [outlinks_of_state h hstate]
  exact outlinks_of_edges (Slots.get?_insert_self ..)

theorem degree_enter (trueLoop : Bool) :
    degree id trueLoop (enter id (s.graph.machine.waysOn f) s) = degree id trueLoop s := by
  unfold degree
  exact bind_congr_run (outlinks_enter h hstate)

theorem weightedOutlinks_enter [Exponential K] (w : Weighter K) (trueLoop : Bool) :
    weightedOutlinks id w trueLoop (enter id (s.graph.machine.waysOn f) s) = weightedOutlinks id w trueLoop s := by
  unfold weightedOutlinks
  exact bind_congr_run (outlinks_enter h hstate)

end StateGraph

namespace IdGraph

variable {id : Nat} {s : Store (IdGraph K) K} {f : Frozen} (h : s.graph.rows.get? id = none)
  (hstate : s.graph.states.get? id = some f)

include h hstate

theorem row_enter : row id (enter id (s.graph.machine.waysOn f) s) = row id s := by
  rw [row_of_state h hstate]
  exact row_of_rows (Slots.get?_insert_self ..)

theorem outlinks_enter : outlinks id (enter id (s.graph.machine.waysOn f) s) = outlinks id s := by
  unfold outlinks
  exact bind_congr_run (row_enter h hstate)

theorem degree_enter (trueLoop : Bool) :
    degree id trueLoop (enter id (s.graph.machine.waysOn f) s) = degree id trueLoop s := by
  unfold degree
  exact bind_congr_run (row_enter h hstate)

theorem weightedOutlinks_enter [Exponential K] (w : Weighter K) (trueLoop : Bool) :
    weightedOutlinks id w trueLoop (enter id (s.graph.machine.waysOn f) s) = weightedOutlinks id w trueLoop s := by
  have hrow : weightedRow id w (enter id (s.graph.machine.waysOn f) s) = weightedRow id w s := by
    unfold weightedRow
    exact bind_congr_run (row_enter h hstate)
  unfold weightedOutlinks
  exact bind_congr_run hrow

end IdGraph

variable [Exponential K]

theorem Request.run_enter_state {r : Request K} {s : Store (StateGraph K) K} {f : Frozen}
    (h : s.graph.edges.get? r.id = none) (hstate : s.graph.states.get? r.id = some f) :
    r.run (ofState (StateGraph.enter r.id (s.graph.machine.waysOn f) s)) = r.run (ofState s) := by
  cases r with
  | outlinks id => exact bind_congr_run (either_ofState (StateGraph.outlinks_enter h hstate))
  | degree id trueLoop => exact bind_congr_run (either_ofState (StateGraph.degree_enter h hstate trueLoop))
  | weightedOutlinks id w trueLoop =>
    exact bind_congr_run (either_ofState (StateGraph.weightedOutlinks_enter h hstate w trueLoop))

theorem Request.run_enter_id {r : Request K} {s : Store (IdGraph K) K} {f : Frozen}
    (h : s.graph.rows.get? r.id = none) (hstate : s.graph.states.get? r.id = some f) :
    r.run (ofId (IdGraph.enter r.id (s.graph.machine.waysOn f) s)) = r.run (ofId s) := by
  cases r with
  | outlinks id => exact bind_congr_run (either_ofId (IdGraph.outlinks_enter h hstate))
  | degree id trueLoop => exact bind_congr_run (either_ofId (IdGraph.degree_enter h hstate trueLoop))
  | weightedOutlinks id w trueLoop =>
    exact bind_congr_run (either_ofId (IdGraph.weightedOutlinks_enter h hstate w trueLoop))

/-- **A request begins with the expansion of its state**, if that is due, so that it may as well have been done
before. -/
theorem Request.run_enter (r : Request K) {s : Store (ProofGraph K) K} {f : Frozen}
    (h : s.graph.isExpanded r.id = false) (hstate : s.graph.states.get? r.id = some f) :
    r.run (ProofGraph.enter r.id (s.graph.machine.waysOn f) s) = r.run s := by
  obtain ⟨g | g, features, counts⟩ := s
  · exact Request.run_enter_state (s := ⟨g, features, counts⟩)
      (Option.not_isSome_iff_eq_none.1 (Bool.eq_false_iff.1 h)) hstate
  · exact Request.run_enter_id (s := ⟨g, features, counts⟩)
      (Option.not_isSome_iff_eq_none.1 (Bool.eq_false_iff.1 h)) hstate

/-! ## Graphs that keep their run

Only a request that expands a state changes the run. -/

/-- **A graph that keeps the run of its machine** from one expansion to the next. -/
structure RunningGraph (K : Type) where
  store : Store (ProofGraph K) K
  run : Run K

namespace RunningGraph

/-- **A request to a graph that keeps its run.**  If its state has yet to be expanded, the machine goes on with the run
for that, and the ways on that it finds go on record first. -/
def request (r : Request K) (k : RunningGraph K) : Except (ProverError K) (Reply K) × RunningGraph K :=
  match k.store.graph.isExpanded r.id, k.store.graph.states.get? r.id with
  | false, some f =>
    let (ways, run) := k.store.graph.machine.waysOnFrom k.run f
    let (reply, store) := r.run (ProofGraph.enter r.id ways k.store)
    (reply, ⟨store, run⟩)
  | _, _ =>
    let (reply, store) := r.run k.store
    (reply, ⟨store, k.run⟩)

theorem request_eq (r : Request K) (k : RunningGraph K) :
    (k.request r).1 = (r.run k.store).1 ∧ (k.request r).2.store = (r.run k.store).2 := by
  unfold request
  split
  · rename_i f hexpanded hstate
    dsimp only
    rw [Machine.waysOnFrom_eq, r.run_enter hexpanded hstate]
    exact ⟨rfl, rfl⟩
  · exact ⟨rfl, rfl⟩

def requests : List (Request K) → RunningGraph K → List (Except (ProverError K) (Reply K)) × RunningGraph K
  | [], k => ([], k)
  | r :: rest, k =>
    let (reply, k) := k.request r
    let (replies, k) := requests rest k
    (reply :: replies, k)

end RunningGraph

def replies : List (Request K) → Store (ProofGraph K) K → List (Except (ProverError K) (Reply K))
  | [], _ => []
  | r :: rest, s => (r.run s).1 :: replies rest (r.run s).2

/-- **A graph may keep the run of its machine**, whatever is left of it: it gives the replies, and becomes the
graph, of one that starts each expansion afresh. -/
theorem RunningGraph.requests_eq (rs : List (Request K)) (k : RunningGraph K) :
    (k.requests rs).1 = replies rs k.store ∧ (k.requests rs).2.store = explore rs k.store := by
  induction rs generalizing k with
  | nil => exact ⟨rfl, rfl⟩
  | cons r rest ih =>
    obtain ⟨hreply, hstore⟩ := request_eq r k
    obtain ⟨hreplies, hlast⟩ := ih (k.request r).2
    rw [hstore] at hreplies hlast
    exact ⟨congrArg₂ List.cons hreply hreplies, hlast⟩

end ProofWalk
