import ProofWalk.Proofs.Bisimulation
import ProofWalk.Proofs.RegularGraphs
/-!
# Proofs.Explorations — the order of requests does not matter

A request expands at most one state and otherwise only weighs (`request_moves`).  So in a graph that has been asked
anything every state is one that the machine reaches, and the edges on record for a state stand for the ways on from
it (`Explored`).  States of one form go on alike; therefore graphs that were asked different things in different
orders have the same edges, read by form, for every state that both have expanded.

Numbers of states depend on the order of requests, and so do the states themselves: a table keeps the first state of
a form that it meets.  Results are therefore said by forms, and the soundness of merging states by form carries them
from one graph to another.
-/
namespace ProofWalk

variable {K : Type}

/-! ## Edges that stand for outlinks

`EdgesFor` relates edges to ways on, place by place, by the table in which the targets have been numbered. -/

/-- **Edges with the features of outlinks**, each to the number of a state with the form of the target. -/
def EdgesFor (states : StateTable) : List (Edge K) → List (Outlink K) → Prop :=
  List.Forall₂ fun e o => e.features = o.features ∧ states.find? o.target.form = some e.child

theorem StateTable.keeps_of_extends {states states' : StateTable} (h : Extends states.get? states'.get?) :
    states.Keeps states' := by
  intro form i hi
  obtain ⟨f, hf, rfl⟩ := Interned.find?_eq_some_iff.1 hi
  exact Interned.find?_eq_some_iff.2 ⟨f, h i f hf, rfl⟩

theorem EdgesFor.extends {states states' : StateTable} {edges : List (Edge K)} {outlinks : List (Outlink K)}
    (h : EdgesFor states edges outlinks) (hstates : Extends states.get? states'.get?) :
    EdgesFor states' edges outlinks :=
  h.imp fun _ _ he => ⟨he.1, StateTable.keeps_of_extends hstates _ _ he.2⟩

theorem EdgesFor.mem_child_iff {states : StateTable} {edges : List (Edge K)} {outlinks : List (Outlink K)}
    (h : EdgesFor states edges outlinks) (j : Nat) :
    (∃ e ∈ edges, e.child = j) ↔ ∃ o ∈ outlinks, states.find? o.target.form = some j := by
  constructor
  · rintro ⟨e, he, rfl⟩
    obtain ⟨o, ho, -, hchild⟩ := exists_of_forall₂ h.flip he
    exact ⟨o, ho, hchild⟩
  · rintro ⟨o, ho, hj⟩
    obtain ⟨e, he, -, hchild⟩ := exists_of_forall₂ h ho
    exact ⟨e, he, Option.some.inj (hchild.symm.trans hj)⟩

theorem EdgesFor.form_iff {states : StateTable} {edges : List (Edge K)} {outlinks : List (Outlink K)}
    (h : EdgesFor states edges outlinks) (form : Form) :
    (∃ e ∈ edges, states.find? form = some e.child) ↔ ∃ o ∈ outlinks, o.target.form = form := by
  constructor
  · rintro ⟨e, he, hform⟩
    obtain ⟨o, ho, -, hchild⟩ := exists_of_forall₂ h.flip he
    obtain ⟨f, hf, rfl⟩ := Interned.find?_eq_some_iff.1 hform
    obtain ⟨f', hf', hsame⟩ := Interned.find?_eq_some_iff.1 hchild
    rw [hf] at hf'
    cases hf'
    exact ⟨o, ho, hsame.symm⟩
  · rintro ⟨o, ho, rfl⟩
    obtain ⟨e, he, -, hchild⟩ := exists_of_forall₂ h ho
    exact ⟨e, he, hchild⟩

theorem numberOutlinks_edgesFor (outlinks : List (Outlink K)) (states : StateTable) :
    EdgesFor (numberOutlinks outlinks states).2 (numberOutlinks outlinks states).1 outlinks := by
  induction outlinks generalizing states with
  | nil => exact .nil
  | cons o rest ih =>
    have hkeeps := StateTable.keeps_of_extends (numberOutlinks_extends rest (states.intern o.target).1)
    exact .cons ⟨rfl, hkeeps _ _ (Interned.find?_intern states o.target)⟩ (ih _)

theorem numberOutlinks_cases {outlinks : List (Outlink K)} {states : StateTable} {id : Nat} {f : Frozen}
    (h : (numberOutlinks outlinks states).2.get? id = some f) :
    states.get? id = some f ∨ ∃ o ∈ outlinks, o.target = f := by
  induction outlinks generalizing states with
  | nil => exact .inl h
  | cons o rest ih =>
    rcases ih h with hnew | ⟨o', ho', rfl⟩
    · rcases Interned.get?_intern_cases hnew with hold | rfl
      · exact .inl hold
      · exact .inr ⟨o, List.mem_cons_self, rfl⟩
    · exact .inr ⟨o', List.mem_cons_of_mem _ ho', rfl⟩

def byForm (outlinks : List (Outlink K)) : List (Features K × Form) :=
  outlinks.map fun o => (o.features, o.target.form)

theorem EdgesFor.byForm {states : StateTable} {edges : List (Edge K)} {outlinks : List (Outlink K)}
    (h : EdgesFor states edges outlinks) :
    edges.map (fun e => (e.features, (states.get? e.child).map Frozen.form)) =
      (byForm outlinks).map fun e => (e.1, some e.2) := by
  induction h with
  | nil => rfl
  | cons he _ ih =>
    obtain ⟨f, hf, hform⟩ := Interned.find?_eq_some_iff.1 he.2
    rw [List.map_cons, ih, hf, he.1, Option.map_some, hform]
    rfl

/-! ## Weighing

Weighing on a graph with numbered features takes parameters into the snapshot, and changes nothing else, whether it
fails or not. -/

namespace IdGraph

variable [Scalar K]

/-- The stores with a given graph and table, whatever has been counted and looked up. -/
structure Beside (g : IdGraph K) (table : Symbols) (s : Store (IdGraph K) K) : Prop where
  graph : s.graph = { g with frozen := s.graph.frozen }
  features : s.features = table

variable {g : IdGraph K} {table : Symbols} (w : Weighter K)

omit [Scalar K] in
theorem beside_frozenFor : Meets (Beside g table) (discard (frozenFor w)) fun _ => True := by
  intro s hs
  have hdiscard : (discard (frozenFor w) : Op K Unit) = frozenFor w >>= fun _ => pure () := by
    rw [bind_pure_comp]
    rfl
  rw [hdiscard, bind_ok (frozenFor_eq w s)]
  refine ⟨trivial, ?_, hs.features⟩
  show { s.graph with frozen := some (snapshot w s.graph) } = { g with frozen := some (snapshot w s.graph) }
  rw [hs.graph]

theorem beside_parameter (i : Nat) : Meets (Beside g table) (parameter w i) fun _ => True := by
  intro s hs
  obtain ⟨x, values, counts, -, -, hrun⟩ := parameter_eq w i s
  rw [hrun]
  refine ⟨trivial, ?_, hs.features⟩
  show { s.graph with frozen := some { snapshot w s.graph with values } } =
    { g with frozen := some { snapshot w s.graph with values } }
  rw [hs.graph]

theorem beside_products (entries : List (Nat × K)) :
    Meets (Beside g table) (products w entries) fun _ => True := by
  induction entries with
  | nil => exact meets_pure trivial
  | cons e rest ih =>
    refine (beside_parameter w e.1).bind (fun x _ => ?_) fun _ _ => trivial
    exact ih.bind (fun xs _ => meets_pure trivial) fun _ _ => trivial

variable [Exponential K]

theorem beside_weighVector (v : SparseVector K) : Meets (Beside g table) (weighVector w v) fun _ => True := by
  unfold weighVector
  refine (beside_products w v.toList).bind (fun terms _ => ?_) fun _ _ => trivial
  intro s hs
  rw [bind_ok (GraphM.get_eq s)]
  cases w.check (w.squash.apply (Scalar.sum terms)) (featureNames s.features v) with
  | ok x => exact ⟨trivial, hs⟩
  | error e => exact ⟨trivial, hs⟩

theorem beside_weighEdges (row : SparseRow K) : Meets (Beside g table) (weighEdges w row) fun _ => True := by
  induction row with
  | nil => exact meets_pure trivial
  | cons e rest ih =>
    refine (beside_weighVector w e.features).bind (fun x _ => ?_) fun _ _ => trivial
    exact ih.bind (fun xs _ => meets_pure trivial) fun _ _ => trivial

theorem beside_loops (id : Nat) (asked : Bool) : Meets (Beside g table) (loops w id asked) fun _ => True := by
  unfold loops
  split
  · refine meets_graph fun s _ => ?_
    exact (beside_weighVector w _).bind (fun x _ => meets_pure trivial) fun _ _ => trivial
  · exact meets_pure trivial

theorem beside_weightedOutlinks (trueLoop : Bool) {id : Nat} {s s' : Store (IdGraph K) K} {here : SparseRow K}
    (h : row id s = (.ok here, s')) : Beside s'.graph s'.features (weightedOutlinks id w trueLoop s).2 := by
  have hrest : Meets (Beside s'.graph s'.features)
      (discard (frozenFor w) >>= fun _ => weighEdges w here >>= fun links =>
        GraphM.graph >>= fun g => loops w id (trueLoop && g.isCompleted id) >>= fun looped =>
        impliedWeight g.restart w >>= fun restart =>
        pure (links.map (fun l => (⟨l.1, l.2, .derived⟩ : Link K)) ++ looped ++ [⟨0, restart, .restart⟩]))
      fun _ => True := by
    refine (beside_frozenFor w).bind (fun _ _ => ?_) fun _ _ => trivial
    refine (beside_weighEdges w here).bind (fun links _ => meets_graph fun t _ => ?_) fun _ _ => trivial
    refine (beside_loops w id _).bind (fun looped _ => ?_) fun _ _ => trivial
    exact (beside_weighVector w _).bind (fun restart _ => meets_pure trivial) fun _ _ => trivial
  unfold weightedOutlinks weightedRow
  rw [bind_assoc, bind_ok h]
  simp only [bind_assoc]
  exact (hrest s' ⟨rfl, rfl⟩).2

end IdGraph

/-! ## What a request does

A graph after a request either tells what it told before (`Still`), or one more state is expanded (`Expands`).
These two cases are proved for each request in each representation, and all that follows is about `Moves` only. -/

/-- **Whether a graph has some edges on record for a state.** -/
def Recorded (s : Store (ProofGraph K) K) (id : Nat) (edges : List (Edge K)) : Prop :=
  match s.graph with
  | .state g => g.edges.get? id = some edges
  | .cachingId g => ∃ row, g.rows.get? id = some row ∧ RowFor s.features edges row

theorem recorded_ofState {s : Store (StateGraph K) K} {id : Nat} {edges : List (Edge K)} :
    Recorded (ofState s) id edges ↔ s.graph.edges.get? id = some edges := Iff.rfl

/-- **Graphs that tell the same**, but for weights. -/
structure Still (s s' : Store (ProofGraph K) K) : Prop where
  machine : s'.graph.machine = s.graph.machine
  states : s'.graph.states = s.graph.states
  expanded : s'.graph.isExpanded = s.graph.isExpanded
  recorded : ∀ id edges, Recorded s id edges → Recorded s' id edges

theorem Still.refl (s : Store (ProofGraph K) K) : Still s s := ⟨rfl, rfl, rfl, fun _ _ h => h⟩

variable [Scalar K]

/-- **A graph in which one more state is expanded**: there the ways on from it are on record, with their targets
numbered. -/
structure Expands (id : Nat) (f : Frozen) (s s' : Store (ProofGraph K) K) : Prop where
  state : s.graph.states.get? id = some f
  machine : s'.graph.machine = s.graph.machine
  states : s'.graph.states = (numberOutlinks (s.graph.machine.waysOn f) s.graph.states).2
  here : Recorded s' id (numberOutlinks (s.graph.machine.waysOn f) s.graph.states).1
  expanded : ∀ i, s'.graph.isExpanded i → i = id ∨ s.graph.isExpanded i
  recorded : ∀ i edges, Recorded s i edges → Recorded s' i edges

/-- **What a request may do to a graph.** -/
inductive Moves (s s' : Store (ProofGraph K) K) : Prop
  | still (h : Still s s')
  | expands (id : Nat) (f : Frozen) (h : Expands id f s s')

theorem Moves.trans_still {s s' s'' : Store (ProofGraph K) K} (h : Moves s s') (h' : Still s' s'') :
    Moves s s'' := by
  cases h with
  | still h =>
    exact .still ⟨h'.machine.trans h.machine, h'.states.trans h.states, h'.expanded.trans h.expanded,
      fun id edges hid => h'.recorded id edges (h.recorded id edges hid)⟩
  | expands id f h =>
    refine .expands id f ⟨h.state, h'.machine.trans h.machine, h'.states.trans h.states,
      h'.recorded _ _ h.here, fun i hi => ?_, fun i edges hi => h'.recorded i edges (h.recorded i edges hi)⟩
    rw [h'.expanded] at hi
    exact h.expanded i hi

namespace StateGraph

variable {id : Nat} {s s' : Store (StateGraph K) K}

theorem outlinks_moves (id : Nat) (s : Store (StateGraph K) K) :
    Moves (ofState s) (ofState (outlinks id s).2) := by
  rcases hedges : s.graph.edges.get? id with _ | edges
  · rcases hstate : s.graph.states.get? id with _ | f
    · rw [outlinks_of_none hedges hstate]
      exact .still (.refl _)
    · rw [outlinks_of_state hedges hstate]
      refine .expands id f ⟨hstate, rfl, rfl, Slots.get?_insert_self .., fun i hi => ?_, fun i edges hi => ?_⟩
      · by_cases hne : id = i
        · exact .inl hne.symm
        · replace hi : (((s.graph.edges.insert id _).get? i).isSome : Prop) := hi
          rw [Slots.get?_insert_ne _ hne] at hi
          exact .inr hi
      · exact s.graph.edges.extends_insert hedges _ i edges hi
  · rw [outlinks_of_edges hedges]
    exact .still (.refl _)

omit [Scalar K] in
theorem still_of_graph (h : s'.graph = s.graph) : Still (ofState s) (ofState s') := by
  have hgraph : (ofState s').graph = (ofState s).graph := congrArg ProofGraph.state h
  refine ⟨by rw [hgraph], by rw [hgraph], by rw [hgraph], fun id edges hid => ?_⟩
  rw [recorded_ofState] at hid ⊢
  rw [h, hid]

theorem degree_moves (id : Nat) (trueLoop : Bool) (s : Store (StateGraph K) K) :
    Moves (ofState s) (ofState (degree id trueLoop s).2) := by
  have hmoves := outlinks_moves id s
  rcases hout : outlinks id s with ⟨e | edges, s'⟩ <;> rw [hout] at hmoves
  · rw [degree_error hout]
    exact hmoves
  · rw [degree_eq hout]
    exact hmoves

theorem weightedOutlinks_moves [Exponential K] (id : Nat) (w : Weighter K) (trueLoop : Bool)
    (s : Store (StateGraph K) K) : Moves (ofState s) (ofState (weightedOutlinks id w trueLoop s).2) := by
  have hmoves := outlinks_moves id s
  rcases hout : outlinks id s with ⟨e | edges, s'⟩ <;> rw [hout] at hmoves
  · rw [weightedOutlinks_error hout]
    exact hmoves
  · exact hmoves.trans_still (still_of_graph (weightedOutlinks_eq w trueLoop hout).2)

end StateGraph

namespace IdGraph

theorem row_moves (id : Nat) (s : Store (IdGraph K) K) : Moves (ofId s) (ofId (row id s).2) := by
  rcases hrows : s.graph.rows.get? id with _ | here
  · rcases hstate : s.graph.states.get? id with _ | f
    · rw [row_of_none hrows hstate]
      exact .still (.refl _)
    · rw [row_of_state hrows hstate]
      obtain ⟨hkeeps, hstands⟩ :=
        rowOf_stands (numberOutlinks (s.graph.machine.waysOn f) s.graph.states).1 s.features
      refine .expands id f ⟨hstate, rfl, rfl, ⟨_, Slots.get?_insert_self .., hstands⟩, fun i hi => ?_, ?_⟩
      · by_cases hne : id = i
        · exact .inl hne.symm
        · replace hi : (((s.graph.rows.insert id _).get? i).isSome : Prop) := hi
          rw [Slots.get?_insert_ne _ hne] at hi
          exact .inr hi
      · rintro i edges ⟨row, hrow, hfor⟩
        exact ⟨row, s.graph.rows.extends_insert hrows _ i row hrow, hfor.keeps hkeeps⟩
  · rw [row_of_rows hrows]
    exact .still (.refl _)

omit [Scalar K] in
theorem Beside.still {s s' : Store (IdGraph K) K} (h : Beside s.graph s.features s') :
    Still (ofId s) (ofId s') := by
  have hgraph : (ofId s').graph = .cachingId { s.graph with frozen := s'.graph.frozen } :=
    congrArg ProofGraph.cachingId h.graph
  refine ⟨by rw [hgraph]; rfl, by rw [hgraph]; rfl, by rw [hgraph]; rfl, ?_⟩
  rintro id edges ⟨row, hrow, hfor⟩
  refine ⟨row, ?_, h.features ▸ hfor⟩
  rw [h.graph]
  exact hrow

theorem outlinks_moves (id : Nat) (s : Store (IdGraph K) K) : Moves (ofId s) (ofId (outlinks id s).2) := by
  have hmoves := row_moves id s
  rcases hrow : row id s with ⟨e | here, s'⟩ <;> rw [hrow] at hmoves
  · rw [outlinks_error hrow]
    exact hmoves
  · unfold outlinks
    rw [bind_ok hrow]
    exact hmoves

theorem degree_moves (id : Nat) (trueLoop : Bool) (s : Store (IdGraph K) K) :
    Moves (ofId s) (ofId (degree id trueLoop s).2) := by
  have hmoves := row_moves id s
  rcases hrow : row id s with ⟨e | here, s'⟩ <;> rw [hrow] at hmoves
  · rw [degree_error hrow]
    exact hmoves
  · rw [degree_eq hrow]
    exact hmoves

theorem weightedOutlinks_moves [Exponential K] (id : Nat) (w : Weighter K) (trueLoop : Bool)
    (s : Store (IdGraph K) K) : Moves (ofId s) (ofId (weightedOutlinks id w trueLoop s).2) := by
  have hmoves := row_moves id s
  rcases hrow : row id s with ⟨e | here, s'⟩ <;> rw [hrow] at hmoves
  · rw [weightedOutlinks_error hrow]
    exact hmoves
  · exact hmoves.trans_still (beside_weightedOutlinks w trueLoop hrow).still

end IdGraph

/-- **A request expands one state at most**, whether it fails or not. -/
theorem request_moves [Exponential K] (r : Request K) (s : Store (ProofGraph K) K) : Moves s (r.run s).2 := by
  obtain ⟨g | g, features, counts⟩ := s
  · cases r with
    | outlinks id =>
      rw [Request.run_outlinks]
      exact StateGraph.outlinks_moves id ⟨g, features, counts⟩
    | degree id trueLoop =>
      rw [Request.run_degree]
      exact StateGraph.degree_moves id trueLoop ⟨g, features, counts⟩
    | weightedOutlinks id w trueLoop =>
      rw [Request.run_weightedOutlinks]
      exact StateGraph.weightedOutlinks_moves id w trueLoop ⟨g, features, counts⟩
  · cases r with
    | outlinks id =>
      rw [Request.run_outlinks]
      exact IdGraph.outlinks_moves id ⟨g, features, counts⟩
    | degree id trueLoop =>
      rw [Request.run_degree]
      exact IdGraph.degree_moves id trueLoop ⟨g, features, counts⟩
    | weightedOutlinks id w trueLoop =>
      rw [Request.run_weightedOutlinks]
      exact IdGraph.weightedOutlinks_moves id w trueLoop ⟨g, features, counts⟩

/-! ## Graphs that have been explored

`Explored` holds of a graph that has just been built, and moves keep it.  They also keep what a graph has told
(`Stands`): states keep their numbers, and expanded states their edges. -/

/-- **What holds of a graph of a machine**, whatever it has been asked. -/
structure Explored (m : Machine K) (s : Store (ProofGraph K) K) : Prop where
  machine : s.graph.machine = m
  reachable : ∀ id f, s.graph.states.get? id = some f → m.Reachable f.state
  recorded : ∀ id, s.graph.isExpanded id → ∃ f edges, s.graph.states.get? id = some f ∧ Recorded s id edges ∧
    EdgesFor s.graph.states edges (m.waysOn f)

/-- **What a graph has told it tells ever after**: states keep their numbers and expanded states keep their edges. -/
structure Stands (s s' : Store (ProofGraph K) K) : Prop where
  states : ∀ id f, s.graph.states.get? id = some f → s'.graph.states.get? id = some f
  edges : ∀ id edges, s.graph.isExpanded id → (ProofGraph.outlinks id s).1 = .ok edges →
    s'.graph.isExpanded id ∧ (ProofGraph.outlinks id s').1 = .ok edges

variable {m : Machine K} {s s' : Store (ProofGraph K) K}

theorem outlinks_of_recorded {id : Nat} {edges : List (Edge K)} (h : Recorded s id edges) :
    s.graph.isExpanded id ∧ ProofGraph.outlinks id s = (.ok edges, s) := by
  obtain ⟨g | g, features, counts⟩ := s
  · have hrun : StateGraph.outlinks id ⟨g, features, counts⟩ = (.ok edges, ⟨g, features, counts⟩) :=
      StateGraph.outlinks_of_edges h
    refine ⟨Option.isSome_of_eq_some h, ?_⟩
    show ((StateGraph.outlinks id ⟨g, features, counts⟩).1,
      ofState (StateGraph.outlinks id ⟨g, features, counts⟩).2) = _
    rw [hrun]
    rfl
  · obtain ⟨row, hrow, hfor⟩ := h
    have hrun : IdGraph.outlinks id ⟨g, features, counts⟩ = (.ok edges, ⟨g, features, counts⟩) :=
      IdGraph.outlinks_eq (IdGraph.row_of_rows hrow) hfor
    refine ⟨Option.isSome_of_eq_some hrow, ?_⟩
    show ((IdGraph.outlinks id ⟨g, features, counts⟩).1, ofId (IdGraph.outlinks id ⟨g, features, counts⟩).2) = _
    rw [hrun]
    rfl

theorem Machine.mem_waysOn {f : Frozen} {o : Outlink K} :
    o ∈ m.waysOn f ↔ ∃ outlinks, m.expand f.state = .ok outlinks ∧ o ∈ outlinks := by
  unfold Machine.waysOn
  cases m.expand f.state with
  | error e => simp
  | ok outlinks => simp

theorem Machine.Reachable.waysOn {f : Frozen} (hf : m.Reachable f.state) {o : Outlink K} (ho : o ∈ m.waysOn f) :
    m.Reachable o.target.state := by
  obtain ⟨outlinks, hexpand, ho⟩ := Machine.mem_waysOn.1 ho
  exact .outlink hf hexpand ho

theorem Moves.extends (h : Moves s s') : Extends s.graph.states.get? s'.graph.states.get? := by
  cases h with
  | still h =>
    rw [h.states]
    exact .refl _
  | expands id f h =>
    rw [h.states]
    exact numberOutlinks_extends _ _

theorem Moves.recorded (h : Moves s s') {id : Nat} {edges : List (Edge K)} (hid : Recorded s id edges) :
    Recorded s' id edges := by
  cases h with
  | still h => exact h.recorded id edges hid
  | expands _ _ h => exact h.recorded id edges hid

namespace Explored

theorem moves (h : Explored m s) (hmoves : Moves s s') : Explored m s' := by
  have hstates := hmoves.extends
  have hold : ∀ id, s.graph.isExpanded id → ∃ f edges, s'.graph.states.get? id = some f ∧ Recorded s' id edges ∧
      EdgesFor s'.graph.states edges (m.waysOn f) := by
    intro id hid
    obtain ⟨f, edges, hf, hedges, hfor⟩ := h.recorded id hid
    exact ⟨f, edges, hstates id f hf, hmoves.recorded hedges, hfor.extends hstates⟩
  cases hmoves with
  | still hs =>
    refine ⟨hs.machine.trans h.machine, fun id f hf => ?_, fun id hid => ?_⟩
    · rw [hs.states] at hf
      exact h.reachable id f hf
    · rw [hs.expanded] at hid
      exact hold id hid
  | expands id f hs =>
    have hnumbered := hs.states
    have hhere := hs.here
    rw [h.machine] at hnumbered hhere
    refine ⟨hs.machine.trans h.machine, fun i f' hf' => ?_, fun i hi => ?_⟩
    · rw [hnumbered] at hf'
      rcases numberOutlinks_cases hf' with hf' | ⟨o, ho, rfl⟩
      · exact h.reachable i f' hf'
      · exact (h.reachable id f hs.state).waysOn ho
    · rcases hs.expanded i hi with rfl | hi
      · refine ⟨f, _, hstates i f hs.state, hhere, ?_⟩
        rw [hnumbered]
        exact numberOutlinks_edgesFor _ _
      · exact hold i hi

theorem build {kind : GraphKind} {features features' : Symbols} {g : ProofGraph K}
    (h : ProofGraph.build kind m features = .ok (g, features')) (counts : SortedMap Nat FeatureCounts) :
    Explored m ⟨g, features', counts⟩ := by
  rcases hstart : m.startState with e | start
  · cases kind <;> simp [ProofGraph.build, StateGraph.build, IdGraph.build, hstart, bind, Except.bind] at h
  · have hreachable : ∀ (id : Nat) (f : Frozen), (StateTable.single start).get? id = some f →
        m.Reachable f.state := by
      intro id f hf
      rcases Interned.get?_intern_cases hf with hf | rfl
      · cases hf
      · exact .start hstart
    cases kind <;> simp only [ProofGraph.build, StateGraph.build, IdGraph.build, hstart, bind,
      Except.bind, pure, Except.pure, Except.ok.injEq, Prod.mk.injEq] at h <;> obtain ⟨rfl, rfl⟩ := h
    · exact ⟨rfl, hreachable, fun id hid => by simp [ProofGraph.isExpanded] at hid⟩
    · exact ⟨rfl, hreachable, fun id hid => by simp [ProofGraph.isExpanded] at hid⟩

end Explored

theorem Stands.refl (s : Store (ProofGraph K) K) : Stands s s := ⟨fun _ _ h => h, fun _ _ hid h => ⟨hid, h⟩⟩

theorem Stands.trans {s'' : Store (ProofGraph K) K} (h : Stands s s') (h' : Stands s' s'') : Stands s s'' where
  states id f hf := h'.states id f (h.states id f hf)
  edges id edges hid hedges := by
    obtain ⟨hid', hedges'⟩ := h.edges id edges hid hedges
    exact h'.edges id edges hid' hedges'

theorem Explored.stands (h : Explored m s) (hmoves : Moves s s') : Stands s s' where
  states := hmoves.extends
  edges id edges hid hedges := by
    obtain ⟨f, edges', -, hrecorded, -⟩ := h.recorded id hid
    obtain ⟨-, hrun⟩ := outlinks_of_recorded hrecorded
    rw [hrun] at hedges
    cases hedges
    obtain ⟨hid', hrun'⟩ := outlinks_of_recorded (hmoves.recorded hrecorded)
    exact ⟨hid', by rw [hrun']⟩

/-! ## Explorations

The edges of an expanded state by form are the ways on from any reachable state of its form, so that two graphs of
one machine agree on them. -/

/-- **Reachable states of one form go on alike.** -/
theorem waysOn_alike (hq : m.query.Fitting) {f f' : Frozen} (hf : m.Reachable f.state) (hf' : m.Reachable f'.state)
    (hform : f.form = f'.form) : byForm (m.waysOn f) = byForm (m.waysOn f') := by
  have halike := expand_alike hq (hf.settled hq) (hf'.settled hq) (Frozen.form_eq_form_iff.1 hform)
  unfold Machine.waysOn
  generalize m.expand f.state = outlinks, m.expand f'.state = outlinks' at halike
  cases halike with
  | error => rfl
  | ok h =>
    rw [byForm, byForm, ← List.forall₂_eq_eq_eq, List.forall₂_map_left_iff, List.forall₂_map_right_iff]
    exact h.imp fun o o' ho => Prod.ext ho.1 (Frozen.form_eq_form_iff.2 ho.2)

def edgesByForm (s : Store (ProofGraph K) K) (id : Nat) :
    Except (ProverError K) (List (Features K × Option Form)) :=
  (ProofGraph.outlinks id s).1.map fun edges => edges.map fun e =>
    (e.features, (s.graph.states.get? e.child).map Frozen.form)

theorem Explored.edgesByForm_eq (hq : m.query.Fitting) (h : Explored m s) {id : Nat}
    (hid : s.graph.isExpanded id) {f : Frozen} (hf : m.Reachable f.state)
    (hform : s.graph.states.find? f.form = some id) :
    edgesByForm s id = .ok ((byForm (m.waysOn f)).map fun e => (e.1, some e.2)) := by
  obtain ⟨f', edges, hf', hrecorded, hfor⟩ := h.recorded id hid
  obtain ⟨f'', hf'', hforms⟩ := Interned.find?_eq_some_iff.1 hform
  rw [hf'] at hf''
  cases hf''
  rw [edgesByForm, (outlinks_of_recorded hrecorded).2, ← waysOn_alike hq (h.reachable id f' hf') hf hforms,
    ← hfor.byForm]
  rfl

variable [Exponential K]

def explore (requests : List (Request K)) (s : Store (ProofGraph K) K) : Store (ProofGraph K) K :=
  requests.foldl (fun s r => (r.run s).2) s

theorem Explored.explore (h : Explored m s) (requests : List (Request K)) :
    Explored m (explore requests s) ∧ Stands s (explore requests s) := by
  induction requests generalizing s with
  | nil => exact ⟨h, .refl _⟩
  | cons r rest ih =>
    have hmoves := request_moves r s
    obtain ⟨hexplored, hstands⟩ := ih (h.moves hmoves)
    exact ⟨hexplored, (h.stands hmoves).trans hstands⟩

/-- **The graph of a query does not depend on the order in which it is explored.**  Two graphs of one machine, of
whatever representations, have the same edges by form, in order, for each form of which both have expanded the
state; and in one graph no state changes its number and no expanded state its edges. -/
theorem explorations_agree {rules : List Rule} {query : Query} {symbols : Symbols}
    (hm : m.query.CompiledFrom rules query symbols) {kind kind' : GraphKind}
    {features features' table table' : Symbols} {g g' : ProofGraph K}
    (hg : ProofGraph.build kind m features = .ok (g, table))
    (hg' : ProofGraph.build kind' m features' = .ok (g', table'))
    (counts counts' : SortedMap Nat FeatureCounts) (requests requests' later : List (Request K)) :
    let s := explore requests ⟨g, table, counts⟩
    let t := explore requests' ⟨g', table', counts'⟩
    (∀ form i j, s.graph.states.find? form = some i → t.graph.states.find? form = some j →
      s.graph.isExpanded i → t.graph.isExpanded j →
      ∃ edges : List (Features K × Form), edgesByForm s i = .ok (edges.map fun e => (e.1, some e.2)) ∧
        edgesByForm t j = .ok (edges.map fun e => (e.1, some e.2))) ∧
    Stands s (explore later s) := by
  intro s t
  obtain ⟨hs, -⟩ := (Explored.build hg counts).explore requests
  obtain ⟨ht, -⟩ := (Explored.build hg' counts').explore requests'
  refine ⟨fun form i j hi hj hexpanded hexpanded' => ?_, (hs.explore later).2⟩
  obtain ⟨f, hf, rfl⟩ := Interned.find?_eq_some_iff.1 hi
  have hreachable := hs.reachable i f hf
  exact ⟨byForm (m.waysOn f), hs.edgesByForm_eq hm.fitting hexpanded hreachable hi,
    ht.edgesByForm_eq hm.fitting hexpanded' hreachable hj⟩

/-! ## Paths -/

def leftFirst : List (Request Float) := [.outlinks 0, .outlinks 1, .outlinks 2, .outlinks 4]

def rightFirst : List (Request Float) := [.outlinks 0, .degree 2 true, .outlinks 3, .outlinks 1]

def onwardForm : Form := (Frozen.of (pathState [0, 1])).form

def onwardPlace (kind : GraphKind) (requests : List (Request Float)) (id : Nat) : Option (Option Nat × Bool) :=
  (ProofGraph.build kind pathMachine ∅).toOption.map fun built =>
    let s := explore requests ⟨built.1, built.2, ∅⟩
    (s.graph.states.find? onwardForm, s.graph.isExpanded id)

/-- What is expanded first numbers the states, but the edges are the same. -/
theorem explorations_agree_path : pathMachine.query.CompiledFrom pathRules pathQuery pathTable ∧
    ∃ g table g' table', ProofGraph.build .state pathMachine ∅ = .ok (g, table) ∧
      ProofGraph.build .cachingId pathMachine ∅ = .ok (g', table') ∧
      let s := explore leftFirst ⟨g, table, ∅⟩
      let t := explore rightFirst ⟨g', table', ∅⟩
      s.graph.states.find? onwardForm = some 4 ∧ t.graph.states.find? onwardForm = some 3 ∧
        (∃ edges : List (Features Float × Form), edgesByForm s 4 = .ok (edges.map fun e => (e.1, some e.2)) ∧
          edgesByForm t 3 = .ok (edges.map fun e => (e.1, some e.2))) ∧ Stands s (explore rightFirst s) := by
  have hleft : onwardPlace .state leftFirst 4 = some (some 4, true) := by decide +kernel
  have hright : onwardPlace .cachingId rightFirst 3 = some (some 3, true) := by decide +kernel
  obtain ⟨⟨g, table⟩, hg, hplace⟩ := Option.map_eq_some_iff.1 hleft
  obtain ⟨⟨g', table'⟩, hg', hplace'⟩ := Option.map_eq_some_iff.1 hright
  replace hg := Machine.eq_ok_of_toOption hg
  replace hg' := Machine.eq_ok_of_toOption hg'
  obtain ⟨hnumber, hexpanded⟩ := Prod.mk.inj hplace
  obtain ⟨hnumber', hexpanded'⟩ := Prod.mk.inj hplace'
  obtain ⟨hagree, hstands⟩ := explorations_agree pathMachine_compiled hg hg' ∅ ∅ leftFirst rightFirst rightFirst
  exact ⟨pathMachine_compiled, g, table, g', table', hg, hg', hnumber, hnumber',
    hagree onwardForm 4 3 hnumber hnumber' hexpanded hexpanded', hstands⟩

end ProofWalk
