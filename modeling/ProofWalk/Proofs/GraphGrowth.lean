import ProofWalk.Graph.ProofGraph
import ProofWalk.Proofs.SteadyAnswers
/-!
# Proofs.GraphGrowth — what a proof graph has answered it answers ever after

A proof graph grows as it is asked.  States keep their numbers, an expanded state keeps its edges, and a snapshot of
parameters keeps those that it holds; therefore the weighted edges of a state and its degree are steady answers.

A steady answer is one that is given again whenever it is asked for again, on any graph that has grown from the one
that gave it.  The notion is that of `Growth`, an order on graphs with an invariant, and each operation is shown to
be steady in terms of those that it is made of.  Failures are not steady answers, and nothing is said of them here.
-/
namespace ProofWalk

namespace GraphM

variable {G K : Type}

theorem get_eq (s : Store G K) : (get : GraphM G K (Store G K)) s = (.ok s, s) := rfl

theorem graph_eq (s : Store G K) : (graph : GraphM G K G) s = (.ok s.graph, s) := rfl

end GraphM

/-! ## Graphs with feature dictionaries

These grow by states and by the edges of states.  The lemmas `outlinks_of_*` are the three cases of an expansion,
and later proofs use them in place of the definition. -/

namespace StateGraph

variable {K : Type}

/-- **State graphs grow** by states and by the edges of states; only states of a sound graph have edges. -/
def growth (K : Type) : Growth (StateGraph K) where
  sound g := ∀ id, (g.edges.get? id).isSome → (g.states.get? id).isSome
  grows g g' := Extends g.states.get? g'.states.get? ∧ Extends g.edges.get? g'.edges.get?
  refl _ := ⟨.refl _, .refl _⟩
  trans h h' := ⟨h.1.trans h'.1, h.2.trans h'.2⟩

theorem isCompleted_eq {g g' : StateGraph K} {id : Nat} (hs : (growth K).sound g) (h : (growth K).grows g g')
    (hid : (g.edges.get? id).isSome) : g'.isCompleted id = g.isCompleted id := by
  unfold isCompleted
  rw [h.1.eq (hs id hid)]

variable [Scalar K]

theorem outlinks_of_edges {id : Nat} {s : Store (StateGraph K) K} {here : List (Edge K)}
    (h : s.graph.edges.get? id = some here) : outlinks id s = (.ok here, s) := by
  obtain ⟨⟨machine, states, edges⟩, features, counts⟩ := s
  unfold outlinks ExceptT.mk
  dsimp only
  rw [show edges.get? id = some here from h]

theorem outlinks_of_none {id : Nat} {s : Store (StateGraph K) K} (h : s.graph.edges.get? id = none)
    (hstate : s.graph.states.get? id = none) :
    outlinks id s = (.error (.graph (.unknownState id s.graph.states.size)), s) := by
  obtain ⟨⟨machine, states, edges⟩, features, counts⟩ := s
  unfold outlinks ExceptT.mk
  dsimp only
  rw [show edges.get? id = none from h, show states.get? id = none from hstate]

theorem outlinks_of_state {id : Nat} {s : Store (StateGraph K) K} {f : Frozen} (h : s.graph.edges.get? id = none)
    (hstate : s.graph.states.get? id = some f) :
    let (here, states) := numberOutlinks (s.graph.machine.waysOn f) s.graph.states
    outlinks id s = (.ok here, ⟨⟨s.graph.machine, states, s.graph.edges.insert id here⟩,
      numberFeatures here s.features, s.counts⟩) := by
  obtain ⟨⟨machine, states, edges⟩, features, counts⟩ := s
  unfold outlinks ExceptT.mk
  dsimp only
  rw [show edges.get? id = none from h, show states.get? id = some f from hstate]

theorem steady_outlinks (id : Nat) : (growth K).Steady (outlinks id) := by
  intro s hs
  rcases he : s.graph.edges.get? id with _ | here
  · rcases hf : s.graph.states.get? id with _ | f
    · rw [outlinks_of_none he hf]
      exact ⟨hs, (growth K).refl _, fun _ h => nomatch h⟩
    · have hrun := outlinks_of_state he hf
      have hstates := numberOutlinks_extends (s.graph.machine.waysOn f) s.graph.states
      rcases hnumber : numberOutlinks (s.graph.machine.waysOn f) s.graph.states with ⟨here, states⟩
      rw [hnumber] at hrun hstates
      rw [hrun]
      refine ⟨?_, ⟨hstates, s.graph.edges.extends_insert he here⟩, ?_⟩
      · intro i hi
        by_cases hid : id = i
        · subst hid
          exact hstates.isSome (by rw [hf]; rfl)
        · rw [Slots.get?_insert_ne _ hid] at hi
          exact hstates.isSome (hs i hi)
      · rintro _ ⟨⟩ t _ hst
        rw [outlinks_of_edges (hst.2 id here (Slots.get?_insert_self ..))]
  · rw [outlinks_of_edges he]
    refine ⟨hs, (growth K).refl _, ?_⟩
    rintro _ ⟨⟩ t _ hst
    rw [outlinks_of_edges (hst.2 id here he)]

theorem edges_of_outlinks {id : Nat} {s : Store (StateGraph K) K} {a : List (Edge K)}
    (h : (outlinks id s).1 = .ok a) : (outlinks id s).2.graph.edges.get? id = some a := by
  rcases he : s.graph.edges.get? id with _ | here
  · rcases hf : s.graph.states.get? id with _ | f
    · rw [outlinks_of_none he hf] at h
      cases h
    · rw [outlinks_of_state he hf] at h ⊢
      cases h
      exact Slots.get?_insert_self ..
  · rw [outlinks_of_edges he] at h ⊢
    cases h
    exact he

theorem steady_degree (id : Nat) (trueLoop : Bool) : (growth K).Steady (degree id trueLoop) := by
  unfold degree
  refine (steady_outlinks id).bind_having (fun _ _ h => Option.isSome_of_eq_some (edges_of_outlinks h))
    (fun _ _ hid h => h.2.isSome hid) fun edges => ?_
  refine Growth.steady_graph (fun g g' hg h => ?_) fun _ => Growth.steady_pure _
  rw [isCompleted_eq hg.1 h hg.2]

variable [Exponential K]

theorem steady_weighEdges {Γ : Growth (StateGraph K)} (w : Weighter K) (edges : List (Edge K)) :
    Γ.Steady (weighEdges w edges) := by
  induction edges with
  | nil => exact Growth.steady_pure _
  | cons e rest ih =>
    refine (Growth.steady_weigh w _).bind fun weight => ?_
    exact ih.bind fun _ => Growth.steady_pure _

theorem steady_loops {Γ : Growth (StateGraph K)} (w : Weighter K) (id : Nat) (asked : Bool) :
    Γ.Steady (loops w id asked) := by
  unfold loops
  split
  · exact (Growth.steady_weigh w _).bind fun _ => Growth.steady_pure _
  · exact Growth.steady_pure _

/-- **The weighted edges of a state are settled when they are first asked for.** -/
theorem steady_weightedOutlinks (id : Nat) (w : Weighter K) (trueLoop : Bool) :
    (growth K).Steady (weightedOutlinks id w trueLoop) := by
  unfold weightedOutlinks
  refine (steady_outlinks id).bind_having (fun _ _ h => Option.isSome_of_eq_some (edges_of_outlinks h))
    (fun _ _ hid h => h.2.isSome hid) fun edges => ?_
  refine (steady_weighEdges w edges).bind fun links => ?_
  refine Growth.steady_graph (fun g g' hg h => ?_) fun g => ?_
  · rw [isCompleted_eq hg.1 h hg.2]
  · refine (steady_loops w id _).bind fun looped => ?_
    exact (Growth.steady_weigh w _).bind fun _ => Growth.steady_pure _

end StateGraph

/-! ## Graphs with numbered features

These grow by states, rows and parameters that have been looked up.  They are compared for one weighter at a time: a
snapshot for another weighter counts as none. -/

namespace IdGraph

variable {K : Type}

def snapshot (w : Weighter K) (g : IdGraph K) : FrozenParams K := (g.frozen.filter (·.isOf w)).getD (.start w)

/-- **What a graph keeps under requests with one weighter.** -/
structure Grows (w : Weighter K) (g g' : IdGraph K) : Prop where
  states : Extends g.states.get? g'.states.get?
  rows : Extends g.rows.get? g'.rows.get?
  restart : g'.restart = g.restart
  trueLoop : g'.trueLoop = g.trueLoop
  values : Extends (fun i => (snapshot w g).values[i]?) fun i => (snapshot w g').values[i]?

/-- **Id graphs grow** by states, rows and looked-up parameters; only states of a sound graph have rows. -/
def growth (w : Weighter K) : Growth (IdGraph K) where
  sound g := ∀ id, (g.rows.get? id).isSome → (g.states.get? id).isSome
  grows := Grows w
  refl _ := ⟨.refl _, .refl _, rfl, rfl, .refl _⟩
  trans h h' := ⟨h.states.trans h'.states, h.rows.trans h'.rows, h'.restart.trans h.restart,
    h'.trueLoop.trans h.trueLoop, h.values.trans h'.values⟩

theorem isCompleted_eq {w : Weighter K} {g g' : IdGraph K} {id : Nat} (hs : (growth w).sound g) (h : Grows w g g')
    (hid : (g.rows.get? id).isSome) : g'.isCompleted id = g.isCompleted id := by
  unfold isCompleted
  rw [h.states.eq (hs id hid)]

theorem isOf_snapshot (w : Weighter K) (g : IdGraph K) : (snapshot w g).isOf w := by
  unfold snapshot
  cases h : g.frozen.filter (·.isOf w) with
  | none => simp [FrozenParams.isOf, FrozenParams.start]
  | some f => exact (Option.filter_eq_some_iff.1 h).2

theorem snapshot_of_isOf {w : Weighter K} {g : IdGraph K} {f : FrozenParams K} (h : f.isOf w) :
    snapshot w { g with frozen := some f } = f := by
  simp [snapshot, Option.filter, h]

theorem frozenFor_eq (w : Weighter K) (s : Store (IdGraph K) K) :
    frozenFor w s = (.ok (snapshot w s.graph),
      { s with graph := { s.graph with frozen := some (snapshot w s.graph) } }) := by
  unfold frozenFor
  rw [bind_ok (GraphM.graph_eq s)]
  cases h : s.graph.frozen.filter (·.isOf w) with
  | none =>
    simp only [snapshot, h]
    rfl
  | some f =>
    have hfrozen : s.graph.frozen = some f := (Option.filter_eq_some_iff.1 h).1
    have hsnapshot : snapshot w s.graph = f := by simp [snapshot, h]
    have hgraph : { s.graph with frozen := some f } = s.graph := by rw [← hfrozen]
    rw [hsnapshot, hgraph]
    rfl

theorem steady_frozenFor (w : Weighter K) : (growth w).Steady (discard (frozenFor w)) := by
  have hrun : ∀ t : Store (IdGraph K) K, (discard (frozenFor w) : Op K Unit) t =
      (.ok (), { t with graph := { t.graph with frozen := some (snapshot w t.graph) } }) := by
    intro t
    have hdiscard : (discard (frozenFor w) : Op K Unit) = frozenFor w >>= fun _ => pure () := by
      rw [bind_pure_comp]
      rfl
    rw [hdiscard, bind_ok (frozenFor_eq w t)]
    rfl
  intro s hs
  rw [hrun]
  refine ⟨hs, ⟨.refl _, .refl _, rfl, rfl, ?_⟩, fun a ha t _ _ => by rw [hrun]⟩
  rw [snapshot_of_isOf (isOf_snapshot w s.graph)]
  exact .refl _

variable [Scalar K]

/-! ### Rows

The lemmas `row_of_*` are the three cases here: a row that is on record, a state that has yet to be expanded, and no
state. -/

theorem row_of_rows {id : Nat} {s : Store (IdGraph K) K} {here : SparseRow K}
    (h : s.graph.rows.get? id = some here) : row id s = (.ok here, s) := by
  obtain ⟨⟨machine, states, rows, restart, trueLoop, frozen⟩, features, counts⟩ := s
  unfold row ExceptT.mk
  dsimp only
  rw [show rows.get? id = some here from h]

theorem row_of_none {id : Nat} {s : Store (IdGraph K) K} (h : s.graph.rows.get? id = none)
    (hstate : s.graph.states.get? id = none) :
    row id s = (.error (.graph (.unknownState id s.graph.states.size)), s) := by
  obtain ⟨⟨machine, states, rows, restart, trueLoop, frozen⟩, features, counts⟩ := s
  unfold row ExceptT.mk
  dsimp only
  rw [show rows.get? id = none from h, show states.get? id = none from hstate]

theorem row_of_state {id : Nat} {s : Store (IdGraph K) K} {f : Frozen} (h : s.graph.rows.get? id = none)
    (hstate : s.graph.states.get? id = some f) :
    let (edges, states) := numberOutlinks (s.graph.machine.waysOn f) s.graph.states
    let (here, features) := rowOf edges s.features
    row id s = (.ok here, ⟨{ s.graph with states, rows := s.graph.rows.insert id here }, features, s.counts⟩) := by
  obtain ⟨⟨machine, states, rows, restart, trueLoop, frozen⟩, features, counts⟩ := s
  unfold row ExceptT.mk
  dsimp only
  rw [show rows.get? id = none from h, show states.get? id = some f from hstate]

theorem steady_row (w : Weighter K) (id : Nat) : (growth w).Steady (row id) := by
  intro s hs
  rcases he : s.graph.rows.get? id with _ | here
  · rcases hf : s.graph.states.get? id with _ | f
    · rw [row_of_none he hf]
      exact ⟨hs, (growth w).refl _, fun _ h => nomatch h⟩
    · have hrun := row_of_state he hf
      have hstates := numberOutlinks_extends (s.graph.machine.waysOn f) s.graph.states
      rcases hnumber : numberOutlinks (s.graph.machine.waysOn f) s.graph.states with ⟨edges, states⟩
      rw [hnumber] at hrun hstates
      rcases hrow : rowOf edges s.features with ⟨here, features⟩
      simp only [hrow] at hrun
      rw [hrun]
      refine ⟨?_, ⟨hstates, s.graph.rows.extends_insert he here, rfl, rfl, .refl _⟩, ?_⟩
      · intro i hi
        by_cases hid : id = i
        · subst hid
          exact hstates.isSome (by rw [hf]; rfl)
        · rw [Slots.get?_insert_ne _ hid] at hi
          exact hstates.isSome (hs i hi)
      · rintro _ ⟨⟩ t _ hst
        rw [row_of_rows (hst.rows id here (Slots.get?_insert_self ..))]
  · rw [row_of_rows he]
    refine ⟨hs, (growth w).refl _, ?_⟩
    rintro _ ⟨⟩ t _ hst
    rw [row_of_rows (hst.rows id here he)]

theorem rows_of_row {id : Nat} {s : Store (IdGraph K) K} {a : SparseRow K} (h : (row id s).1 = .ok a) :
    ((row id s).2.graph.rows.get? id).isSome := by
  rcases he : s.graph.rows.get? id with _ | here
  · rcases hf : s.graph.states.get? id with _ | f
    · rw [row_of_none he hf] at h
      cases h
    · have hrun := row_of_state he hf
      rw [hrun]
      simp
  · rw [row_of_rows he, he]
    rfl

theorem steady_degree (w : Weighter K) (id : Nat) (trueLoop : Bool) : (growth w).Steady (degree id trueLoop) := by
  unfold degree
  refine (steady_row w id).bind_having (fun _ _ => rows_of_row) (fun _ _ hid h => h.rows.isSome hid) fun row => ?_
  refine Growth.steady_graph (fun g g' hg h => ?_) fun _ => Growth.steady_pure _
  rw [isCompleted_eq hg.1 h hg.2]

/-! ### Parameters

A parameter comes from the snapshot if it has been looked up for this weighter, and is put there if not; either way
the snapshot has it afterwards. -/

theorem lookUp_eq (w : Weighter K) (i : Nat) (s : Store (IdGraph K) K) :
    ∃ x counts, lookUp w i s = (.ok x, { s with counts }) := by
  unfold lookUp
  rw [bind_ok (GraphM.get_eq s)]
  cases s.features.get? i with
  | none => exact ⟨_, _, rfl⟩
  | some name => exact ⟨_, _, rfl⟩

theorem parameter_eq (w : Weighter K) (i : Nat) (s : Store (IdGraph K) K) :
    ∃ x values counts, Extends (fun j => (snapshot w s.graph).values[j]?) (fun j => values[j]?) ∧
      values[i]? = some x ∧ parameter w i s = (.ok x,
        { s with graph := { s.graph with frozen := some { snapshot w s.graph with values } }, counts }) := by
  unfold parameter
  rw [bind_ok (frozenFor_eq w s)]
  cases hx : (snapshot w s.graph).values[i]? with
  | some x => exact ⟨x, _, _, .refl _, hx, rfl⟩
  | none =>
    obtain ⟨x, counts, hlook⟩ :=
      lookUp_eq w i { s with graph := { s.graph with frozen := some (snapshot w s.graph) } }
    refine ⟨x, (snapshot w s.graph).values.insert i x, counts, fun j y hj => ?_, by simp, ?_⟩
    · have hne : i ≠ j := by
        rintro rfl
        exact absurd (hx.symm.trans hj) nofun
      simpa [Std.ExtTreeMap.getElem?_insert, hne] using hj
    · exact (bind_ok hlook).trans rfl

theorem steady_parameter (w : Weighter K) (i : Nat) : (growth w).Steady (parameter w i) := by
  intro s hs
  obtain ⟨x, values, counts, hvalues, hi, hrun⟩ := parameter_eq w i s
  have hsnapshot : snapshot w (parameter w i s).2.graph = { snapshot w s.graph with values } := by
    rw [hrun]
    exact snapshot_of_isOf (isOf_snapshot w s.graph)
  refine ⟨?_, ⟨?_, ?_, ?_, ?_, ?_⟩, fun a ha t _ hst => ?_⟩
  · rw [hrun]
    exact hs
  · rw [hrun]
    exact .refl _
  · rw [hrun]
    exact .refl _
  · rw [hrun]
  · rw [hrun]
  · rw [hsnapshot]
    exact hvalues
  · rw [hrun] at ha
    cases ha
    -- the larger graph has the parameter in its snapshot, and so does not look it up again
    obtain ⟨y, values', counts', hvalues', hi', hrun'⟩ := parameter_eq w i t
    have hknown : (snapshot w t.graph).values[i]? = some x := hst.values i x (by rw [hsnapshot]; exact hi)
    have hkept : values'[i]? = some x := hvalues' i x hknown
    rw [hrun']
    rw [hi'] at hkept
    exact congrArg Except.ok (Option.some.inj hkept)

theorem steady_products (w : Weighter K) (entries : List (Nat × K)) : (growth w).Steady (products w entries) := by
  induction entries with
  | nil => exact Growth.steady_pure _
  | cons e rest ih =>
    refine (steady_parameter w e.1).bind fun x => ?_
    exact ih.bind fun _ => Growth.steady_pure _

/-! ### Weighted edges

What is weighed is a row that stays, by parameters that stay. -/

variable [Exponential K]

omit [Exponential K] in
theorem check_congr {w : Weighter K} {y x : K} {names names' : List (String × K)} (h : w.check y names = .ok x) :
    w.check y names' = .ok x := by
  unfold Weighter.check at h ⊢
  by_cases hlegal : (Scalar.isFinite y && decide (0 ≤ y)) = true
  · rw [if_pos hlegal] at h ⊢
    exact h
  · rw [if_neg hlegal] at h ⊢
    by_cases hstrict : w.strict = true
    · rw [if_pos hstrict] at h
      cases h
    · rw [if_neg hstrict] at h ⊢
      exact h

theorem steady_weighVector (w : Weighter K) (v : SparseVector K) : (growth w).Steady (weighVector w v) := by
  unfold weighVector
  refine (steady_products w v.toList).bind fun terms => ?_
  let checked (t : Store (IdGraph K) K) := w.check (w.squash.apply (Scalar.sum terms)) (featureNames t.features v)
  refine Growth.steady_of_quiet (fun t => (checked t).mapError .weight) (fun t => ?_) fun s t a ha => ?_
  · rw [bind_ok (GraphM.get_eq t)]
    show _ = ((w.check (w.squash.apply (Scalar.sum terms)) (featureNames t.features v)).mapError _, t)
    cases w.check (w.squash.apply (Scalar.sum terms)) (featureNames t.features v) with
    | ok x => rfl
    | error e => rfl
  · cases hs : checked s with
    | ok x =>
      have ht : checked t = .ok x := check_congr hs
      rw [hs] at ha
      rw [ht]
      exact ha
    | error e =>
      rw [hs] at ha
      cases ha

theorem steady_weighEdges (w : Weighter K) (row : SparseRow K) : (growth w).Steady (weighEdges w row) := by
  induction row with
  | nil => exact Growth.steady_pure _
  | cons e rest ih =>
    refine (steady_weighVector w e.features).bind fun weight => ?_
    exact ih.bind fun _ => Growth.steady_pure _

theorem steady_loops (w : Weighter K) (id : Nat) (asked : Bool) : (growth w).Steady (loops w id asked) := by
  unfold loops
  split
  · refine Growth.steady_graph (fun g g' _ h => ?_) fun g => ?_
    · rw [h.trueLoop]
    · exact (steady_weighVector w _).bind fun _ => Growth.steady_pure _
  · exact Growth.steady_pure _

/-- **The weighted edges of a state are settled when they are first asked for**, as long as the weighter is the
same. -/
theorem steady_weightedOutlinks (id : Nat) (w : Weighter K) (trueLoop : Bool) :
    (growth w).Steady (weightedOutlinks id w trueLoop) := by
  have hkept : ∀ g g' : IdGraph K, (g.rows.get? id).isSome → Grows w g g' → (g'.rows.get? id).isSome :=
    fun _ _ hid h => h.rows.isSome hid
  unfold weightedOutlinks weightedRow
  rw [bind_assoc]
  refine (steady_row w id).bind_having (fun _ _ => rows_of_row) hkept fun row => ?_
  rw [bind_assoc]
  refine ((steady_frozenFor w).having hkept).bind fun _ => ?_
  refine ((steady_weighEdges w row).having hkept).bind fun links => ?_
  refine Growth.steady_graph (fun g g' hg h => ?_) fun g => ?_
  · rw [isCompleted_eq hg.1 h hg.2, h.restart]
  · refine ((steady_loops w id _).having hkept).bind fun looped => ?_
    exact ((steady_weighVector w _).having hkept).bind fun _ => Growth.steady_pure _

end IdGraph

/-! ## Graphs of either representation

A graph never changes its representation, so that growth is growth in it. -/

namespace ProofGraph

variable {K : Type}

/-- **Proof graphs grow** and keep their representation. -/
def growth (w : Weighter K) : Growth (ProofGraph K) where
  sound
    | .state g => (StateGraph.growth K).sound g
    | .cachingId g => (IdGraph.growth w).sound g
  grows
    | .state g, .state g' => (StateGraph.growth K).grows g g'
    | .cachingId g, .cachingId g' => (IdGraph.growth w).grows g g'
    | _, _ => False
  refl
    | .state g => (StateGraph.growth K).refl g
    | .cachingId g => (IdGraph.growth w).refl g
  trans {g g' g''} h h' := by
    cases g <;> cases g' <;> cases g'' <;> first | exact h.elim | exact h'.elim | skip
    · exact (StateGraph.growth K).trans h h'
    · exact (IdGraph.growth w).trans h h'

theorem steady_either {α : Type} {w : Weighter K} {onState : StateGraph.Op K α} {onId : IdGraph.Op K α}
    (hstate : (StateGraph.growth K).Steady onState) (hid : (IdGraph.growth w).Steady onId) :
    (growth w).Steady (either onState onId) := by
  rintro ⟨g | g, features, counts⟩ hs
  · obtain ⟨hsound, hgrows, hanswer⟩ := hstate ⟨g, features, counts⟩ hs
    refine ⟨hsound, hgrows, fun a ha t ht hst => ?_⟩
    obtain ⟨g' | g', features', counts'⟩ := t
    · exact hanswer a ha ⟨g', features', counts'⟩ ht hst
    · exact hst.elim
  · obtain ⟨hsound, hgrows, hanswer⟩ := hid ⟨g, features, counts⟩ hs
    refine ⟨hsound, hgrows, fun a ha t ht hst => ?_⟩
    obtain ⟨g' | g', features', counts'⟩ := t
    · exact hst.elim
    · exact hanswer a ha ⟨g', features', counts'⟩ ht hst

variable [Scalar K]

theorem steady_degree (w : Weighter K) (id : Nat) (trueLoop : Bool) : (growth w).Steady (degree id trueLoop) :=
  steady_either (StateGraph.steady_degree id trueLoop) (IdGraph.steady_degree w id trueLoop)

theorem steady_weightedOutlinks [Exponential K] (id : Nat) (w : Weighter K) (trueLoop : Bool) :
    (growth w).Steady (weightedOutlinks id w trueLoop) :=
  steady_either (StateGraph.steady_weightedOutlinks id w trueLoop) (IdGraph.steady_weightedOutlinks id w trueLoop)

/-- **The graph of a query is sound.** -/
theorem sound_build {kind : GraphKind} {m : Machine K} {features features' : Symbols}
    {g : ProofGraph K} (w : Weighter K) (h : build kind m features = .ok (g, features')) : (growth w).sound g := by
  cases kind with
  | state =>
    cases hstart : m.startState with
    | error e => simp [build, StateGraph.build, hstart, bind, Except.bind] at h
    | ok start =>
      simp only [build, StateGraph.build, hstart, bind, Except.bind, pure, Except.pure,
        Except.ok.injEq, Prod.mk.injEq] at h
      obtain ⟨rfl, -⟩ := h
      intro id hid
      simp at hid
  | cachingId =>
    cases hstart : m.startState with
    | error e => simp [build, IdGraph.build, hstart, bind, Except.bind] at h
    | ok start =>
      simp only [build, IdGraph.build, hstart, bind, Except.bind, pure, Except.pure,
        Except.ok.injEq, Prod.mk.injEq] at h
      obtain ⟨rfl, -⟩ := h
      intro id hid
      simp at hid

end ProofGraph

end ProofWalk
