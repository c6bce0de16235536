import ProofWalk.Proofs.Explorations
import ProofWalk.Proofs.PrunedAnswers
/-!
# Proofs.ConsistentGraphs — numbers of states stay in step with states and rows

A graph with numbered features keeps its states, an index of their canonical forms, and rows that lag behind the
states: a state is expanded when it is first asked for, and pruning renumbers everything.  Whatever is asked of a
graph and however often it is pruned, with success or without, numbers stand for states with different forms, and
the edges on record lead to states (`Consistent`).  Unlike regularity this needs nothing of the weighters: weighing
only changes the snapshot.

A step is one request, one snapshot or one pruning, and may fail.  Each kind of step has a lemma that says what it
leaves, and from these come both that a step keeps a graph consistent and what the next step does (`Accountable`).
The history of a graph is a list of steps, and the result is an induction over it.
-/
namespace ProofWalk

variable {K : Type}

namespace IdGraph

/-- **A graph of a machine whose numbers stand for states**, one for each canonical form, and whose edges lead to
states. -/
structure Consistent [Scalar K] (m : Machine K) (start : Frozen) (g : IdGraph K) : Prop where
  machine : g.machine = m
  start : g.states.get? 0 = some start
  /-- The numbers in use are those below the size. -/
  states : ∀ id, (g.states.get? id).isSome ↔ id < g.states.size
  distinct : ∀ id id' f f', g.states.get? id = some f → g.states.get? id' = some f' →
    f.state.canonical = f'.state.canonical → id = id'
  /-- The index finds a state under its number. -/
  found : ∀ id f, g.states.get? id = some f → g.states.find? f.form = some id
  expanded : ∀ id row, g.rows.get? id = some row → id < g.states.size
  children : ∀ id row, g.rows.get? id = some row → ∀ e ∈ row, e.child < g.states.size
  /-- A state that cannot be expanded is on record without edges, if at all. -/
  faults : ∀ id f row fault, g.states.get? id = some f → m.expand f.state = .error fault →
    g.rows.get? id = some row → row = []

/-- **What a pruning that succeeds makes of the numbers**: survivors are renumbered from 0 on in their old order and
keep their states. -/
structure Renumbers (visible : Visibility) (numbers : List (Option Nat)) (g g' : IdGraph K) : Prop where
  /-- Each old state is told whether it has a new number. -/
  length : numbers.length = g.states.size
  survivors : ∀ id, (∃ j, numbers[id]? = some (some j)) ↔
    id = 0 ∨ ∃ f, g.states.get? id = some f ∧ (f.state.completed = true ∨ visible f.state = true)
  onto : ∀ j, (∃ id : Nat, numbers[id]? = some (some j)) ↔ j < g'.states.size
  increasing : ∀ id id' j j' : Nat, numbers[id]? = some (some j) →
    numbers[id']? = some (some j') → id < id' → j < j'
  states : ∀ id j : Nat, numbers[id]? = some (some j) → g'.states.get? j = g.states.get? id

variable [Scalar K] {m : Machine K} {start : Frozen} {g : IdGraph K} {table : Symbols} {s s' : Store (IdGraph K) K}

/-! ## Consistency

That numbers stand for different forms is seen to by the table of states itself, whichever table it is; what has to
be kept up is that the start is there and that edges lead to states. -/

theorem consistent_of (hmachine : g.machine = m) (hstart : g.states.get? 0 = some start)
    (hexpanded : ∀ id row, g.rows.get? id = some row → id < g.states.size)
    (hchildren : ∀ id row, g.rows.get? id = some row → ∀ e ∈ row, e.child < g.states.size)
    (hfaults : ∀ id f row fault, g.states.get? id = some f → m.expand f.state = .error fault →
      g.rows.get? id = some row → row = []) : Consistent m start g where
  machine := hmachine
  start := hstart
  states := Interned.isSome_get?_iff g.states
  distinct _ _ _ _ hf hf' hsame := Interned.key_injective hf hf' (Frozen.form_eq_form_iff.2 hsame)
  found _ f hf := Interned.find?_eq_some_iff.2 ⟨f, hf, rfl⟩
  expanded := hexpanded
  children := hchildren
  faults := hfaults

theorem consistent_build {features : Symbols} (h : build m features = .ok (g, table)) :
    ∃ start, m.startState = .ok start ∧ Consistent m start g := by
  obtain ⟨start, hstart, h⟩ := except_bind_eq_ok h
  cases h
  have hroot : (StateTable.single start).get? 0 = some start := rfl
  have hnone : ∀ id row, (Slots.empty : Slots (SparseRow K)).get? id ≠ some row := fun id row h => by simp at h
  exact ⟨start, hstart, consistent_of rfl hroot (fun id row h => absurd h (hnone id row))
    (fun id row h => absurd h (hnone id row)) fun id _ row _ _ _ h => absurd h (hnone id row)⟩

omit [Scalar K] in
theorem Beside.trans (h : Beside g table s) (h' : Beside s.graph s.features s') : Beside g table s' where
  graph := by rw [h'.graph, h.graph]
  features := h'.features.trans h.features

theorem Consistent.beside (h : Consistent m start g) (hs : Beside g table s) : Consistent m start s.graph := by
  rw [hs.graph]
  exact ⟨h.machine, h.start, h.states, h.distinct, h.found, h.expanded, h.children, h.faults⟩

theorem Consistent.pos (h : Consistent m start g) : 0 < g.states.size :=
  (h.states 0).1 (Option.isSome_of_eq_some h.start)

/-! ## Requests

A request expands its state and changes nothing else but the snapshot.  Where the state cannot be expanded, because
its expansion meets a fault, no state is added and no edges are recorded: the row is empty, and later requests find
it so. -/

theorem waysOn_of_error {f : Frozen} {fault : LogicError} (h : m.expand f.state = .error fault) :
    m.waysOn f = [] := by
  rw [Machine.waysOn, h]

theorem rowOf_eq_nil {edges : List (Edge K)} {features : Symbols} (h : edges = []) :
    rowOf edges features = ([], features) := by
  subst h
  rfl

theorem row_of_fault {id : Nat} {f : Frozen} {fault : LogicError} (hrow : s.graph.rows.get? id = none)
    (hstate : s.graph.states.get? id = some f) (hfault : s.graph.machine.expand f.state = .error fault) :
    row id s = (.ok [], { s with graph := { s.graph with rows := s.graph.rows.insert id [] } }) := by
  have hrun := row_of_state hrow hstate
  rw [waysOn_of_error hfault] at hrun
  exact hrun

theorem Consistent.row (h : Consistent m start s.graph) (id : Nat) : Consistent m start (row id s).2.graph := by
  rcases hrow : s.graph.rows.get? id with _ | here
  · rcases hstate : s.graph.states.get? id with _ | f
    · rw [row_of_none hrow hstate]
      exact h
    · have hrun := row_of_state hrow hstate
      have hstates := numberOutlinks_extends (s.graph.machine.waysOn f) s.graph.states
      have hchildren := numberOutlinks_children (s.graph.machine.waysOn f) s.graph.states
      have hnothing : (s.graph.machine.waysOn f = []) →
          (numberOutlinks (s.graph.machine.waysOn f) s.graph.states).1 = [] := by
        intro hnone
        rw [hnone]
        rfl
      rcases hnumber : numberOutlinks (s.graph.machine.waysOn f) s.graph.states with ⟨edges, states⟩
      rw [hnumber] at hrun hstates hchildren hnothing
      obtain ⟨-, hstands⟩ := rowOf_stands edges s.features
      have hgrown : ∀ {i : Nat}, i < s.graph.states.size → i < states.size := fun {i} hi =>
        (Interned.isSome_get?_iff _ _).1 (hstates.isSome ((Interned.isSome_get?_iff _ _).2 hi))
      rw [hrun]
      refine consistent_of h.machine (hstates 0 start h.start) (fun i row hi => ?_) (fun i row hi e he => ?_)
        fun i f' row fault hf' hfault hi => ?_
      · by_cases hne : id = i
        · subst hne
          exact hgrown ((h.states id).1 (Option.isSome_of_eq_some hstate))
        · rw [Slots.get?_insert_ne _ hne] at hi
          exact hgrown (h.expanded i row hi)
      · by_cases hne : id = i
        · subst hne
          rw [Slots.get?_insert_self] at hi
          cases hi
          obtain ⟨edge, hedge, hchild⟩ := hstands.child_mem e he
          rw [← hchild]
          exact (Interned.isSome_get?_iff _ _).1 (hchildren edge hedge)
        · rw [Slots.get?_insert_ne _ hne] at hi
          exact hgrown (h.children i row hi e he)
      · by_cases hne : id = i
        · subst hne
          have hsame := hstates id f hstate
          rw [hf'] at hsame
          cases hsame
          rw [Slots.get?_insert_self] at hi
          cases hi
          rw [← h.machine] at hfault
          rw [rowOf_eq_nil (hnothing (waysOn_of_error hfault))]
        · -- a state on record was there before
          rw [Slots.get?_insert_ne _ hne] at hi
          obtain ⟨old, hold⟩ := Option.isSome_iff_exists.1 ((h.states i).2 (h.expanded i row hi))
          have hsame := hstates i old hold
          rw [hf'] at hsame
          cases hsame
          exact h.faults i _ row fault hold hfault hi
  · rw [row_of_rows hrow]
    exact h

variable [Exponential K]

def asked (s : Store (IdGraph K) K) : Request K → Store (IdGraph K) K
  | .outlinks id => (outlinks id s).2
  | .degree id trueLoop => (degree id trueLoop s).2
  | .weightedOutlinks id w trueLoop => (weightedOutlinks id w trueLoop s).2

/-- **A request expands its state and changes nothing else but the snapshot.** -/
theorem beside_asked (s : Store (IdGraph K) K) (r : Request K) :
    Beside (row r.id s).2.graph (row r.id s).2.features (asked s r) := by
  cases r with
  | outlinks id =>
    show Beside (row id s).2.graph (row id s).2.features (outlinks id s).2
    rcases hrow : row id s with ⟨e | here, s'⟩
    · rw [outlinks_error hrow]
      exact ⟨rfl, rfl⟩
    · rw [outlinks, bind_ok hrow]
      exact ⟨rfl, rfl⟩
  | degree id trueLoop =>
    show Beside (row id s).2.graph (row id s).2.features (degree id trueLoop s).2
    rcases hrow : row id s with ⟨e | here, s'⟩
    · rw [degree_error hrow]
      exact ⟨rfl, rfl⟩
    · rw [degree_eq hrow]
      exact ⟨rfl, rfl⟩
  | weightedOutlinks id w trueLoop =>
    show Beside (row id s).2.graph (row id s).2.features (weightedOutlinks id w trueLoop s).2
    rcases hrow : row id s with ⟨e | here, s'⟩
    · rw [weightedOutlinks_error hrow]
      exact ⟨rfl, rfl⟩
    · exact beside_weightedOutlinks w trueLoop hrow

theorem Consistent.asked (h : Consistent m start s.graph) (r : Request K) : Consistent m start (asked s r).graph :=
  (h.row r.id).beside (beside_asked s r)

theorem asked_of_fault (r : Request K) {f : Frozen} {fault : LogicError} (hrow : s.graph.rows.get? r.id = none)
    (hstate : s.graph.states.get? r.id = some f) (hfault : s.graph.machine.expand f.state = .error fault) :
    (IdGraph.asked s r).graph.states = s.graph.states ∧ (IdGraph.asked s r).graph.rows =
      s.graph.rows.insert r.id [] := by
  have hbeside := beside_asked s r
  rw [row_of_fault hrow hstate hfault] at hbeside
  rw [hbeside.graph]
  exact ⟨rfl, rfl⟩

/-! ## Weighing for a pruning

Pruning weighs rows, some of them twice, and asks for nothing that has not been expanded; so all but the snapshot
stays. -/

variable {w : Weighter K} {visible : Visibility} {options : PruneOptions K}

omit [Exponential K] in
theorem beside_row {id : Nat} (hid : (g.rows.get? id).isSome) :
    Meets (Beside g table) (row id) (· = .ok (g.rowAt id)) := by
  intro s hs
  obtain ⟨here, hhere⟩ := Option.isSome_iff_exists.1 hid
  have hrows : s.graph.rows.get? id = some here := by
    rw [hs.graph]
    exact hhere
  rw [row_of_rows hrows, rowAt, hhere]
  exact ⟨rfl, hs⟩

theorem beside_weightedRow {id : Nat} (hid : (g.rows.get? id).isSome) :
    Meets (Beside g table) (weightedRow id w) fun _ => True := by
  unfold weightedRow
  refine (beside_row hid).bind_ok ?_
  exact (beside_frozenFor w).bind (fun _ _ => beside_weighEdges w _) fun _ _ => trivial

theorem beside_links {id : Nat} (hid : (g.rows.get? id).isSome) (trueLoop : Bool) :
    Meets (Beside g table) (weightedOutlinks id w trueLoop) fun _ => True := by
  intro s hs
  obtain ⟨hrow, -⟩ := beside_row hid s hs
  have hrun : row id s = (.ok (g.rowAt id), s) := by
    obtain ⟨here, hhere⟩ := Option.isSome_iff_exists.1 hid
    have hrows : s.graph.rows.get? id = some here := by
      rw [hs.graph]
      exact hhere
    rw [row_of_rows hrows, rowAt, hhere, Option.getD_some]
  exact ⟨trivial, hs.trans (beside_weightedOutlinks w trueLoop hrun)⟩

theorem beside_sharesOf {ids : List Nat} (hids : ∀ id ∈ ids, (g.rows.get? id).isSome) :
    Meets (Beside g table) (sharesOf w ids) fun _ => True := by
  induction ids with
  | nil => exact meets_pure trivial
  | cons id rest ih =>
    obtain ⟨hid, hrest⟩ := List.forall_mem_cons.1 hids
    refine (beside_links hid false).bind (fun links _ => ?_) fun _ _ => trivial
    exact (ih hrest).bind (fun _ _ => meets_pure trivial) fun _ _ => trivial

def Remade (g : IdGraph K) (survives : Nat → Bool) (options : PruneOptions K) (subproof : Nat) (ids : List Nat) :
    Except (ProverError K) (List (Nat × SparseRow K)) → Prop
  | .ok rows => rows.map (·.1) = ids ∧ ∀ e ∈ rows, ∃ transitions weighted,
      e.2 = prunedRow survives transitions options subproof (g.rowAt e.1) weighted
  | .error _ => True

theorem beside_prunedRows (survives : Nat → Bool) (transitions : Slots (List (Nat × K)))
    (subproof : Nat) {ids : List Nat} (hids : ∀ id ∈ ids, (g.rows.get? id).isSome) : Meets (Beside g table)
      (prunedRows w survives transitions options subproof ids) (Remade g survives options subproof ids) := by
  induction ids with
  | nil => exact meets_pure ⟨rfl, nofun⟩
  | cons id rest ih =>
    obtain ⟨hid, hrest⟩ := List.forall_mem_cons.1 hids
    refine (beside_weightedRow hid).bind (fun weighted _ => ?_) fun _ _ => trivial
    refine (beside_row hid).bind_ok ?_
    refine (ih hrest).bind (fun rows hrows => meets_pure ?_) fun _ _ => trivial
    exact ⟨congrArg (id :: ·) hrows.1, List.forall_mem_cons.2 ⟨⟨transitions, weighted, rfl⟩, hrows.2⟩⟩

theorem beside_survivingRows (w : Weighter K) (visible : Visibility) (options : PruneOptions K) (g : IdGraph K)
    (table : Symbols) (subproof : Nat) : Meets (Beside g table) (survivingRows w visible options g subproof)
      (Remade g (g.survives visible) options subproof (g.expanded.filter (g.survives visible))) := by
  have hexpanded : ∀ p : Nat → Bool, ∀ id ∈ g.expanded.filter p, (g.rows.get? id).isSome := fun p id hid =>
    (List.mem_filter.1 (List.mem_filter.1 hid).1).2
  refine (beside_sharesOf (hexpanded _)).bind (fun transitions _ => ?_) fun _ _ => trivial
  exact beside_prunedRows (g.survives visible) transitions subproof (hexpanded _)

/-! ## The rows of survivors

The new row of a survivor has edges to survivors only, which makes redirecting them to new numbers safe. -/

section

variable {survives : Nat → Bool} {transitions : Slots (List (Nat × K))} {subproof : Nat}

omit [Exponential K] in
theorem survives_of_mass {attenuation epsilon : K} {hops : Nat}
    (l : List (SparseEdge K × (Nat × K))) {v : Virtual K}
    (hv : ∀ id, (v[id]?).isSome → survives id = true) (id : Nat)
    (hid : ((l.foldl (fun v e => if survives e.1.child then v
      else follow survives transitions attenuation epsilon hops e.1.child e.2.2 v) v)[id]?).isSome) :
    survives id = true := by
  induction l generalizing v with
  | nil => exact hv id hid
  | cons e rest ih =>
    refine ih (fun i hi => ?_) hid
    dsimp only at hi
    split at hi
    · exact hv i hi
    · rw [follow_eq] at hi
      rcases isSome_addAll hi with hold | ⟨d, hd, rfl⟩
      · exact hv i hold
      · exact (delivered_mem hd).1

omit [Exponential K] in
theorem survives_of_mem_prunedRow {row : SparseRow K} {weighted : List (Nat × K)} {e : SparseEdge K}
    (he : e ∈ prunedRow survives transitions options subproof row weighted) : survives e.child = true := by
  unfold prunedRow at he
  dsimp only at he
  rw [foldl_bridge (SortedMap.nodup_keys _)] at he
  rcases List.mem_append.1 he with hold | hnew
  · obtain ⟨i, hi, rfl⟩ := List.mem_mapIdx.1 hold
    rw [child_reinforced]
    exact (List.mem_filter.1 (List.getElem_mem hi)).2
  · obtain ⟨p, hp, rfl⟩ := List.mem_map.1 hnew
    have hmass := Std.ExtTreeMap.mem_toList_iff_getElem?_eq_some.1 (List.mem_filter.1 hp).1
    exact survives_of_mass _ (fun id hid => by simp at hid) p.1 (Option.isSome_of_eq_some hmass)

omit [Exponential K] in
theorem prunedRow_nil (weighted : List (Nat × K)) :
    prunedRow survives transitions options subproof [] weighted = [] := by
  have hempty : (∅ : Virtual K).toList = [] := toList_eq .nil fun v hv => by simp at hv
  show (∅ : Virtual K).toList.foldl (bridge subproof) [] = []
  rw [hempty]
  rfl

omit [Scalar K] [Exponential K] in
theorem get?_renumbered_cases {number : Nat → Option Nat} {rows : List (Nat × SparseRow K)}
    (hnodup : (rows.map (·.1)).Nodup) {j : Nat}
    (hinjective : ∀ u u', number u = some j → number u' = some j → u = u') {row : SparseRow K}
    (h : (renumbered number rows).get? j = some row) :
    ∃ e ∈ rows, number e.1 = some j ∧ row = redirected number e.2 := by
  by_cases hsource : ∃ e ∈ rows, number e.1 = some j
  · obtain ⟨e, he, hj⟩ := hsource
    rw [renumbered, get?_foldl_place .empty hnodup hinjective he hj] at h
    exact ⟨e, he, hj, (Option.some.inj h).symm⟩
  · rw [renumbered, get?_foldl_place_of_ne .empty fun e he hj => hsource ⟨e, he, hj⟩, Slots.get?_empty] at h
    cases h

end

/-! ## Pruning

A pruning fails before it changes anything, or it keeps all states, or it leaves the graph of the survivors. -/

/-- **What a pruning may do**: it fails, and only the table of features and the snapshot have changed; all states
survive, and nothing has changed; or the graph is that of the survivors, with rows made from theirs. -/
theorem prune_cases (w : Weighter K) (visible : Visibility) (options : PruneOptions K) (s : Store (IdGraph K) K) :
    (∃ e s' table, prune w visible options s = (.error e, s') ∧ Beside s.graph table s') ∨
    (s.graph.survivors visible = List.range s.graph.states.size ∧
      prune w visible options s = (.ok ((List.range s.graph.states.size).map (s.graph.newNumber visible)), s)) ∨
    ∃ rows t table subproof, Beside s.graph table t ∧
      Remade s.graph (s.graph.survives visible) options subproof
        (s.graph.expanded.filter (s.graph.survives visible)) (.ok rows) ∧
      prune w visible options s = (.ok ((List.range s.graph.states.size).map (s.graph.newNumber visible)),
        { t with graph := t.graph.onlySurvivors s.graph visible rows }) := by
  cases hall : (List.range s.graph.states.size).all (s.graph.survives visible) with
  | true =>
    have hsurvivors := survivors_of_all hall
    refine .inr (.inl ⟨hsurvivors, ?_⟩)
    rw [prune_of_all hall, newNumbers_of_all hsurvivors]
  | false =>
    obtain ⟨hremade, hbeside⟩ :=
      beside_survivingRows w visible options s.graph (s.features.intern subproofFeature).1
      (s.features.intern subproofFeature).2 { s with features := (s.features.intern subproofFeature).1 } ⟨rfl, rfl⟩
    rw [prune_of_rows hall]
    rcases hrows : survivingRows w visible options s.graph (s.features.intern subproofFeature).2
      { s with features := (s.features.intern subproofFeature).1 } with ⟨e | rows, t⟩
    · rw [hrows] at hbeside
      exact .inl ⟨e, t, _, rfl, hbeside⟩
    · rw [hrows] at hbeside hremade
      exact .inr (.inr ⟨rows, t, _, _, hbeside, hremade, rfl⟩)

omit [Exponential K] in
theorem Consistent.renumbers (h : Consistent m start g) {g' : IdGraph K}
    (hstates : ∀ j, g'.states.get? j = (g.survivors visible)[j]?.bind g.states.get?) :
    Renumbers visible ((List.range g.states.size).map (g.newNumber visible)) g g' where
  length := by rw [List.length_map, List.length_range]
  survivors id := by
    simp only [getElem?_newNumbers]
    rw [← List.mem_iff_getElem?, mem_survivors, survives_iff]
    refine and_iff_right_of_imp ?_
    rintro (rfl | ⟨f, hf, -⟩)
    · exact h.pos
    · exact (h.states id).1 (Option.isSome_of_eq_some hf)
  onto j := by
    simp only [getElem?_newNumbers]
    rw [← Interned.isSome_get?_iff, hstates]
    constructor
    · rintro ⟨id, hid⟩
      rw [hid]
      exact (h.states id).2 (mem_survivors.1 (List.mem_of_getElem? hid)).1
    · intro hj
      cases hid : (g.survivors visible)[j]? with
      | none =>
        rw [hid] at hj
        cases hj
      | some id => exact ⟨id, rfl⟩
  increasing id id' j j' hj hj' hlt := by
    rw [getElem?_newNumbers] at hj hj'
    obtain ⟨hbound, rfl⟩ := List.getElem?_eq_some_iff.1 hj
    obtain ⟨hbound', rfl⟩ := List.getElem?_eq_some_iff.1 hj'
    -- survivors at later places are later states
    rcases Nat.lt_trichotomy j j' with hjj' | rfl | hjj'
    · exact hjj'
    · exact absurd hlt (Nat.lt_irrefl _)
    · exact absurd hlt
        (Nat.lt_asymm (List.pairwise_iff_getElem.1 (survivors_pairwise g visible) _ _ hbound' hbound hjj'))
  states id j hj := by
    rw [hstates, getElem?_newNumbers.1 hj, Option.bind_some]

omit [Exponential K] in
theorem Consistent.onlySurvivors (h : Consistent m start s.graph) {t : Store (IdGraph K) K}
    (ht : Beside s.graph table t) {rows : List (Nat × SparseRow K)} {subproof : Nat}
      (hrows : Remade s.graph (s.graph.survives visible) options subproof
      (s.graph.expanded.filter (s.graph.survives visible)) (.ok rows)) :
    Consistent m start (t.graph.onlySurvivors s.graph visible rows) := by
  obtain ⟨hsources, hremade⟩ := hrows
  have hstates := get?_survivingStates s.graph visible
  have hnodup : (rows.map (·.1)).Nodup := by
    rw [hsources]
    exact (List.nodup_range.filter _).filter _
  have hsource : ∀ {j : Nat} {row : SparseRow K}, (renumbered (s.graph.newNumber visible) rows).get? j = some row →
      ∃ e ∈ rows, (s.graph.survivors visible)[j]? = some e.1 ∧ row = redirected (s.graph.newNumber visible) e.2 :=
    fun {j row} hj => by
      obtain ⟨e, he, hnumber, hrow⟩ := get?_renumbered_cases hnodup (fun _ _ => newNumber_injective) hj
      exact ⟨e, he, newNumber_eq_some.1 hnumber, hrow⟩
  have hbound : ∀ {j id : Nat}, (s.graph.survivors visible)[j]? = some id →
      j < (s.graph.survivingStates visible).size :=
    fun {j id} hj => by
      rw [← Interned.isSome_get?_iff, hstates, hj]
      exact (h.states id).2 (mem_survivors.1 (List.mem_of_getElem? hj)).1
  refine consistent_of ?_ ?_ (fun j row hj => ?_) (fun j row hj edge hedge => ?_) fun j f row fault hf hfault hj =>
    ?_
  · show t.graph.machine = m
    rw [ht.graph]
    exact h.machine
  · show (s.graph.survivingStates visible).get? 0 = some start
    rw [hstates, survivors_zero (Option.isSome_of_eq_some h.start)]
    exact h.start
  · obtain ⟨e, -, hid, -⟩ := hsource hj
    exact hbound hid
  · obtain ⟨e, he, hid, rfl⟩ := hsource hj
    obtain ⟨edge', hedge', rfl⟩ := List.mem_map.1 hedge
    obtain ⟨transitions, weighted, hrow⟩ := hremade e he
    rw [hrow] at hedge'
    have hsurvives := survives_of_mem_prunedRow hedge'
    -- a survivor exists: it is the start, or has a state to be kept for
    have hlt : edge'.child < s.graph.states.size := by
      rcases survives_iff.1 hsurvives with hzero | ⟨f, hf, -⟩
      · rw [hzero]
        exact h.pos
      · exact (h.states _).1 (Option.isSome_of_eq_some hf)
    obtain ⟨j', hj'⟩ := exists_newNumber (mem_survivors.2 ⟨hlt, hsurvives⟩)
    show (s.graph.newNumber visible edge'.child).getD edge'.child < (s.graph.survivingStates visible).size
    rw [hj', Option.getD_some]
    exact hbound (newNumber_eq_some.1 hj')
  · obtain ⟨e, he, hid, rfl⟩ := hsource hj
    obtain ⟨transitions, weighted, hrow⟩ := hremade e he
    replace hf : (s.graph.survivingStates visible).get? j = some f := hf
    rw [hstates, hid, Option.bind_some] at hf
    have hsourced : e.1 ∈ s.graph.expanded.filter (s.graph.survives visible) := hsources ▸ List.mem_map_of_mem he
    obtain ⟨here, hhere⟩ := Option.isSome_iff_exists.1 (List.mem_filter.1 (List.mem_filter.1 hsourced).1).2
    have hnone : s.graph.rowAt e.1 = [] := by
      rw [rowAt, hhere, Option.getD_some]
      exact h.faults e.1 f here fault hf hfault hhere
    rw [hrow, hnone, prunedRow_nil]
    rfl

/-! ## Steps in any order

A history is a list of steps, and a step that fails has its place there like any other. -/

/-- **What a graph may be asked to do.** -/
inductive Step (K : Type)
  | ask (r : Request K)
  | prune (w : Weighter K) (visible : Visibility) (options : PruneOptions K)

def Step.after (s : Store (IdGraph K) K) : Step K → Store (IdGraph K) K
  | .ask r => asked s r
  | .prune w visible options => (IdGraph.prune w visible options s).2

/-- **A step keeps a graph consistent.** -/
theorem Consistent.step (h : Consistent m start s.graph) (step : Step K) :
    Consistent m start (step.after s).graph := by
  cases step with
  | ask r => exact h.asked r
  | prune w visible options =>
    rcases prune_cases w visible options s with ⟨e, s', table, hrun, hs'⟩ | ⟨-, hrun⟩ |
      ⟨rows, t, table, subproof, ht, hrows, hrun⟩
    · rw [Step.after, hrun]
      exact h.beside hs'
    · rw [Step.after, hrun]
      exact h
    · rw [Step.after, hrun]
      exact h.onlySurvivors ht hrows

theorem Consistent.steps (h : Consistent m start s.graph) (steps : List (Step K)) :
    Consistent m start (steps.foldl Step.after s).graph := by
  induction steps generalizing s with
  | nil => exact h
  | cons step rest ih => exact ih (h.step step)

/-- **What the next step does to a graph that had any history.** -/
structure Accountable (m : Machine K) (s : Store (IdGraph K) K) : Prop where
  /-- Expanding a state that cannot be expanded adds no state and records no edges. -/
  faults : ∀ (r : Request K) f fault, s.graph.states.get? r.id = some f → s.graph.rows.get? r.id = none →
    m.expand f.state = .error fault →
    (asked s r).graph.states = s.graph.states ∧ (asked s r).graph.rows = s.graph.rows.insert r.id []
  /-- A pruning that fails leaves states and rows as they were. -/
  failed : ∀ w visible options e s', IdGraph.prune w visible options s = (.error e, s') →
    s'.graph.states = s.graph.states ∧ s'.graph.rows = s.graph.rows
  /-- A pruning that succeeds renumbers the survivors. -/
  pruned : ∀ w visible options numbers s', IdGraph.prune w visible options s = (.ok numbers, s') →
    Renumbers visible numbers s.graph s'.graph

theorem Consistent.accountable (h : Consistent m start s.graph) : Accountable m s where
  faults r f fault hstate hrow hfault := asked_of_fault r hrow hstate (h.machine ▸ hfault)
  failed w visible options e s' hprune := by
    rcases prune_cases w visible options s with ⟨e', t, table, hrun, ht⟩ | ⟨-, hrun⟩ |
      ⟨rows, t, table, subproof, ht, hrows, hrun⟩
    · rw [hprune] at hrun
      cases hrun
      rw [ht.graph]
      exact ⟨rfl, rfl⟩
    · rw [hprune] at hrun
      cases hrun
    · rw [hprune] at hrun
      cases hrun
  pruned w visible options numbers s' hprune := by
    rcases prune_cases w visible options s with ⟨e', t, table, hrun, ht⟩ | ⟨hall, hrun⟩ |
      ⟨rows, t, table, subproof, ht, hrows, hrun⟩
    · rw [hprune] at hrun
      cases hrun
    · rw [hprune] at hrun
      cases hrun
      exact h.renumbers (get?_of_all hall)
    · rw [hprune] at hrun
      cases hrun
      exact h.renumbers (get?_survivingStates s.graph visible)

/-- **The graph of a query stays consistent**, or there is none as the query has no start: whatever it is asked and
however it is pruned, its start keeps number 0, its numbers stand for states of different forms, and its edges lead
to states; and the next step, whichever it is, does what it is to do. -/
theorem history_consistent (m : Machine K) (features : Symbols) (counts : SortedMap Nat FeatureCounts)
    (steps : List (Step K)) : (∃ fault, m.startState = .error fault ∧ build m features = .error fault) ∨
    ∃ start g table, m.startState = .ok start ∧ build m features = .ok (g, table) ∧
      Consistent m start (steps.foldl Step.after ⟨g, table, counts⟩).graph ∧
      Accountable m (steps.foldl Step.after ⟨g, table, counts⟩) := by
  rcases hbuild : build m features with fault | ⟨g, table⟩
  · rcases hstart : m.startState with fault' | start
    · have hfails : build m features = .error fault' := by
        simp only [build, hstart, bind, Except.bind]
      rw [hbuild] at hfails
      cases hfails
      exact .inl ⟨fault, rfl, rfl⟩
    · have hopens : ∃ built, build m features = .ok built := by
        simp only [build, hstart, bind, Except.bind, pure, Except.pure]
        exact ⟨_, rfl⟩
      obtain ⟨built, hopens⟩ := hopens
      rw [hbuild] at hopens
      cases hopens
  · obtain ⟨start, hstart, hconsistent⟩ := consistent_build hbuild
    have hafter : Consistent m start (steps.foldl Step.after ⟨g, table, counts⟩).graph := hconsistent.steps steps
    exact .inr ⟨start, g, table, hstart, rfl, hafter, hafter.accountable⟩

end IdGraph

end ProofWalk
