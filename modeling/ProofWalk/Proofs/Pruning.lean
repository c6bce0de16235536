import Mathlib.Data.Rat.Floor
import ProofWalk.Proofs.BridgedRows
import ProofWalk.Proofs.RegularGraphs
import ProofWalk.Proofs.Safety
/-!
# Proofs.Pruning — what pruning leaves of a graph

Pruning fails only where a weight is illegal, and then states and rows are what they were.  Otherwise the survivors
keep their order and their states (`Pruned`); an edge between survivors stays, and paths over removed states become
the masses that the rows are bridged with.
-/
namespace ProofWalk

namespace IdGraph

variable {K : Type}

/-! ## Survivors

The new number of a state is its place in the list of survivors, which is ascending; the start comes first. -/

section

variable {g : IdGraph K} {visible : Visibility} {id j : Nat}

theorem mem_survivors : id ∈ g.survivors visible ↔ id < g.states.size ∧ g.survives visible id = true := by
  rw [survivors, List.mem_filter, List.mem_range]

theorem survivors_pairwise (g : IdGraph K) (visible : Visibility) : (g.survivors visible).Pairwise (· < ·) :=
  List.pairwise_lt_range.filter _

theorem survivors_nodup (g : IdGraph K) (visible : Visibility) : (g.survivors visible).Nodup :=
  (survivors_pairwise g visible).imp Nat.ne_of_lt

def newNumber (g : IdGraph K) (visible : Visibility) : Nat → Option Nat :=
  (Interned.ofList (g.survivors visible) : Numbering).find?

theorem newNumber_eq_some : g.newNumber visible id = some j ↔ (g.survivors visible)[j]? = some id := by
  have hnodup : ((g.survivors visible).map fun i => i).Nodup := by simpa using survivors_nodup g visible
  rw [newNumber, Interned.find?_eq_some_iff, Interned.get?_ofList hnodup]
  simp

theorem newNumber_injective {id' : Nat} (h : g.newNumber visible id = some j)
    (h' : g.newNumber visible id' = some j) : id = id' := by
  have hsame := newNumber_eq_some.1 h
  rw [newNumber_eq_some.1 h'] at hsame
  exact (Option.some.inj hsame).symm

theorem exists_newNumber (h : id ∈ g.survivors visible) : ∃ j, g.newNumber visible id = some j := by
  obtain ⟨j, hj⟩ := List.mem_iff_getElem?.1 h
  exact ⟨j, newNumber_eq_some.2 hj⟩

theorem survivors_of_all (h : (List.range g.states.size).all (g.survives visible) = true) :
    g.survivors visible = List.range g.states.size :=
  List.filter_eq_self.2 (List.all_eq_true.1 h)

theorem newNumbers_of_all (h : g.survivors visible = List.range g.states.size) :
    (List.range g.states.size).map (g.newNumber visible) = (List.range g.states.size).map some := by
  refine List.map_congr_left fun id hid => newNumber_eq_some.2 ?_
  rw [h, List.getElem?_range (List.mem_range.1 hid)]

theorem get?_of_all (h : g.survivors visible = List.range g.states.size) (j : Nat) :
    g.states.get? j = (g.survivors visible)[j]?.bind g.states.get? := by
  rw [h]
  rcases Nat.lt_or_ge j g.states.size with hlt | hge
  · rw [List.getElem?_range hlt, Option.bind_some]
  · have hnone : g.states.get? j = none :=
      Option.not_isSome_iff_eq_none.1 fun h => Nat.not_lt_of_ge hge ((Interned.isSome_get?_iff _ _).1 h)
    rw [List.getElem?_eq_none (by simpa using hge), hnone, Option.bind_none]

theorem getElem?_newNumbers : ((List.range g.states.size).map (g.newNumber visible))[id]? = some (some j) ↔
    (g.survivors visible)[j]? = some id := by
  rw [List.getElem?_map, ← newNumber_eq_some]
  rcases Nat.lt_or_ge id g.states.size with hlt | hge
  · rw [List.getElem?_range hlt]
    exact Option.some_inj
  · have hnone : g.newNumber visible id ≠ some j := by
      intro hj
      have hmem := List.mem_of_getElem? (newNumber_eq_some.1 hj)
      exact Nat.not_lt_of_ge hge (mem_survivors.1 hmem).1
    simp [hge, hnone]

theorem survivors_zero (hroot : (g.states.get? 0).isSome) : (g.survivors visible)[0]? = some 0 := by
  obtain ⟨n, hn⟩ := Nat.exists_eq_succ_of_ne_zero (Nat.ne_of_gt ((Interned.isSome_get?_iff _ _).1 hroot))
  have hstart : g.survives visible 0 = true := rfl
  rw [survivors, hn, List.range_succ_eq_map, List.filter_cons_of_pos hstart, List.getElem?_cons_zero]

def survivingStates (g : IdGraph K) (visible : Visibility) :
    StateTable := .ofList ((g.survivors visible).filterMap g.states.get?)

theorem get?_survivingStates (g : IdGraph K) (visible : Visibility) (j : Nat) :
    (g.survivingStates visible).get? j = (g.survivors visible)[j]?.bind g.states.get? := by
  have hstates : ∀ id ∈ g.survivors visible, (g.states.get? id).isSome := fun id hid =>
    (Interned.isSome_get?_iff _ _).2 (mem_survivors.1 hid).1
  have hnodup : (((g.survivors visible).filterMap g.states.get?).map Frozen.form).Nodup := by
    rw [List.map_filterMap]
    refine (survivors_nodup g visible).filterMap fun id id' form hid hid' => ?_
    obtain ⟨f, hf, rfl⟩ := Option.map_eq_some_iff.1 hid
    obtain ⟨f', hf', hform⟩ := Option.map_eq_some_iff.1 hid'
    exact Interned.key_injective hf hf' hform.symm
  rw [survivingStates, Interned.get?_ofList hnodup, getElem?_filterMap hstates]

end

/-! ## Weighing expanded states

Weights are computed before anything is changed.  What is computed from them, the shares of removed states and the
new rows of survivors, is described by relations to the weights (`Shared`, `Rewritten`), and comes out so or fails
for an illegal weight. -/

variable [Scalar K] {params : Nat → Params K} {g : IdGraph K} {table : Symbols} {w : Weighter K}

def rowAt (g : IdGraph K) (id : Nat) : SparseRow K := (g.rows.get? id).getD []

theorem Weighed.trans {s t : Store (IdGraph K) K} (hs : Weighed params g table s)
    (ht : Weighed params s.graph s.features t) : Weighed params g table t where
  graph := by
    rw [ht.graph, hs.graph]
  features := ht.features.trans hs.features
  honest f hf := hs.features ▸ ht.honest f hf

theorem meets_row {id : Nat} (hid : (g.rows.get? id).isSome) :
    Meets (Weighed params g table) (row id) (· = .ok (g.rowAt id)) := by
  intro s hs
  obtain ⟨here, hhere⟩ := Option.isSome_iff_exists.1 hid
  have hrows : s.graph.rows.get? id = some here := by
    rw [hs.graph]
    exact hhere
  rw [row_of_rows hrows, rowAt, hhere]
  exact ⟨rfl, hs⟩

variable [Exponential K]

/-- All edges of a state with their weights, without an edge to itself. -/
def linksAt (w : Weighter K) (table : Symbols) (g : IdGraph K) (id : Nat) :
    Except (ProverError K) (List (Link K)) :=
  w.linksOf id false (listed table (g.rowAt id))

theorem meets_weightedRow (h : Regular params table g) (hw : w.params = params w.key) {id : Nat}
    (hid : (g.rows.get? id).isSome) :
    Meets (Weighed params g table) (weightedRow id w) (· = w.weighAll (listed table (g.rowAt id))) := by
  obtain ⟨here, hhere⟩ := Option.isSome_iff_exists.1 hid
  have hnamed : ∀ e ∈ g.rowAt id, Named table e.features := by
    rw [rowAt, hhere]
    exact fun e he => (h.closed id here hhere e he).2
  unfold weightedRow
  refine (meets_row hid).bind_ok ?_
  exact (meets_snapshot w).bind_ok (meets_weighEdges hw hnamed)

theorem meets_linksAt (h : Regular params table g) (hw : w.params = params w.key) {id : Nat}
    (hid : (g.rows.get? id).isSome) :
    Meets (Weighed params g table) (weightedOutlinks id w false) (· = linksAt w table g id) := by
  intro s hs
  obtain ⟨here, hhere⟩ := Option.isSome_iff_exists.1 hid
  have hrows : s.graph.rows.get? id = some here := by
    rw [hs.graph]
    exact hhere
  have hrow : g.rowAt id = here := by rw [rowAt, hhere, Option.getD_some]
  have h' := h.weighed hs
  obtain ⟨hlinks, hweighed⟩ := weightedOutlinks_eq hw false (row_of_rows hrows)
    (fun e he => (h'.closed id here hrows e he).2) h'.restart h'.trueLoop h'.honest
  refine ⟨?_, hs.trans hweighed⟩
  rw [hlinks, linksAt, hrow, hs.features, Bool.false_and]

def Shared (w : Weighter K) (table : Symbols) (g : IdGraph K) (ids : List Nat) :
    Except (ProverError K) (Slots (List (Nat × K))) → Prop
  | .ok transitions => (∀ id ∈ ids, ∃ links, linksAt w table g id = .ok links ∧
      transitions.get? id = some (shares links)) ∧ ∀ id ∉ ids, transitions.get? id = none
  | .error e => ∃ id ∈ ids, linksAt w table g id = .error e

theorem meets_sharesOf (h : Regular params table g) (hw : w.params = params w.key) {ids : List Nat}
    (hids : ∀ id ∈ ids, (g.rows.get? id).isSome) :
    Meets (Weighed params g table) (sharesOf w ids) (Shared w table g ids) := by
  induction ids with
  | nil => exact meets_pure ⟨nofun, fun id _ => Slots.get?_empty id⟩
  | cons id rest ih =>
    obtain ⟨hid, hrest⟩ := List.forall_mem_cons.1 hids
    unfold sharesOf
    refine (meets_linksAt h hw hid).bind (fun links hlinks => ?_) fun e he => ⟨id, List.mem_cons_self, he.symm⟩
    refine (ih hrest).bind (fun transitions hshared => meets_pure ⟨?_, ?_⟩) fun e ⟨id', hid', he⟩ =>
      ⟨id', List.mem_cons_of_mem _ hid', he⟩
    · refine List.forall_mem_cons.2 ⟨⟨links, hlinks.symm, Slots.get?_insert_self ..⟩, fun id' hid' => ?_⟩
      by_cases hsame : id = id'
      · subst hsame
        exact ⟨links, hlinks.symm, Slots.get?_insert_self ..⟩
      · rw [Slots.get?_insert_ne _ hsame]
        exact hshared.1 id' hid'
    · intro id' hid'
      rw [List.mem_cons, not_or] at hid'
      rw [Slots.get?_insert_ne _ (Ne.symm hid'.1)]
      exact hshared.2 id' hid'.2

/-- The new row of a survivor, given the weights of its edges. -/
def Rewritten (w : Weighter K) (table : Symbols) (g : IdGraph K) (survives : Nat → Bool)
    (transitions : Slots (List (Nat × K))) (options : PruneOptions K) (subproof u : Nat)
    (row : SparseRow K) : Prop :=
  ∃ weighted, w.weighAll (listed table (g.rowAt u)) = .ok weighted ∧
    row = prunedRow survives transitions options subproof (g.rowAt u) weighted

theorem meets_prunedRows (h : Regular params table g) (hw : w.params = params w.key) (survives : Nat → Bool)
    (transitions : Slots (List (Nat × K))) (options : PruneOptions K) (subproof : Nat) {ids : List Nat}
    (hids : ∀ id ∈ ids, (g.rows.get? id).isSome) :
    Meets (Weighed params g table) (prunedRows w survives transitions options subproof ids) fun
      | .ok rows => rows.map (·.1) = ids ∧ ∀ e ∈ rows,
        Rewritten w table g survives transitions options subproof e.1 e.2
      | .error e => ∃ u ∈ ids, w.weighAll (listed table (g.rowAt u)) = .error e := by
  induction ids with
  | nil => exact meets_pure ⟨rfl, nofun⟩
  | cons u rest ih =>
    obtain ⟨hu, hrest⟩ := List.forall_mem_cons.1 hids
    unfold prunedRows
    refine (meets_weightedRow h hw hu).bind (fun weighted hweighted => ?_) fun e he =>
      ⟨u, List.mem_cons_self, he.symm⟩
    refine (meets_row hu).bind_ok ?_
    refine (ih hrest).bind (fun rows hrows => meets_pure ?_) fun e ⟨u', hu', he⟩ =>
      ⟨u', List.mem_cons_of_mem _ hu', he⟩
    exact ⟨congrArg (u :: ·) hrows.1, List.forall_mem_cons.2 ⟨⟨weighted, hweighted.symm, rfl⟩, hrows.2⟩⟩

/-! ## A run of pruning

Once the rows are known, nothing can fail: the graph of the survivors is put in the place of the old one.
`prune_run` has the two outcomes. -/

omit [Scalar K] [Exponential K] in
theorem internFeature_eq {G : Type} (name : String) (s : Store G K) :
    GraphM.internFeature name s = (.ok (s.features.intern name).2,
      { s with features := (s.features.intern name).1 }) := rfl

def expanded (g : IdGraph K) : List Nat := (List.range g.states.size).filter fun id => (g.rows.get? id).isSome

def redirected (number : Nat → Option Nat) (row : SparseRow K) : SparseRow K :=
  row.map fun edge => { edge with child := (number edge.child).getD edge.child }

def place (number : Nat → Option Nat) (out : Slots (SparseRow K)) (e : Nat × SparseRow K) : Slots (SparseRow K) :=
  match number e.1 with
  | some id => out.insert id (redirected number e.2)
  | none => out

def renumbered (number : Nat → Option Nat) (rows : List (Nat × SparseRow K)) : Slots (SparseRow K) :=
  rows.foldl (place number) .empty

def onlySurvivors (g old : IdGraph K) (visible : Visibility) (rows : List (Nat × SparseRow K)) : IdGraph K :=
  { g with states := old.survivingStates visible, rows := renumbered (old.newNumber visible) rows }

variable {visible : Visibility} {options : PruneOptions K} {s : Store (IdGraph K) K}

theorem prune_of_all (h : (List.range s.graph.states.size).all (s.graph.survives visible)) :
    prune w visible options s = (.ok ((List.range s.graph.states.size).map some), s) := by
  have hrun : prune w visible options s = (if (List.range s.graph.states.size).all (s.graph.survives visible) then
      pure ((List.range s.graph.states.size).map some) else _ : Op K (List (Option Nat))) s := rfl
  rw [hrun, if_pos h]
  rfl

theorem prune_of_some (hsome : (List.range s.graph.states.size).all (s.graph.survives visible) = false) :
    prune w visible options s =
      (sharesOf w (s.graph.expanded.filter fun id => !s.graph.survives visible id) >>= fun transitions =>
        prunedRows w (s.graph.survives visible) transitions options (s.features.intern subproofFeature).2
          (s.graph.expanded.filter (s.graph.survives visible)) >>= fun rows =>
        GraphM.graph >>= fun g => GraphM.setGraph (g.onlySurvivors s.graph visible rows) >>= fun _ =>
        pure ((List.range s.graph.states.size).map (s.graph.newNumber visible)) : Op K (List (Option Nat)))
        { s with features := (s.features.intern subproofFeature).1 } := by
  have hrun : prune w visible options s = (if (List.range s.graph.states.size).all (s.graph.survives visible) then
      pure ((List.range s.graph.states.size).map some)
    else GraphM.internFeature subproofFeature >>= fun subproof =>
      sharesOf w (s.graph.expanded.filter fun id => !s.graph.survives visible id) >>= fun transitions =>
      prunedRows w (s.graph.survives visible) transitions options subproof
        (s.graph.expanded.filter (s.graph.survives visible)) >>= fun rows =>
      GraphM.graph >>= fun g => GraphM.setGraph (g.onlySurvivors s.graph visible rows) >>= fun _ =>
      pure ((List.range s.graph.states.size).map (s.graph.newNumber visible)) : Op K (List (Option Nat))) s := rfl
  rw [hrun, if_neg (by simp [hsome]), bind_ok (internFeature_eq subproofFeature s)]

def survivingRows (w : Weighter K) (visible : Visibility) (options : PruneOptions K)
    (g : IdGraph K) (subproof : Nat) : Op K (List (Nat × SparseRow K)) := do
  let transitions ← sharesOf w (g.expanded.filter fun id => !g.survives visible id)
  prunedRows w (g.survives visible) transitions options subproof (g.expanded.filter (g.survives visible))

theorem prune_of_rows (hsome : (List.range s.graph.states.size).all (s.graph.survives visible) = false) :
    prune w visible options s =
      match survivingRows w visible options s.graph (s.features.intern subproofFeature).2
        { s with features := (s.features.intern subproofFeature).1 } with
      | (.error e, t) => (.error e, t)
      | (.ok rows, t) => (.ok ((List.range s.graph.states.size).map (s.graph.newNumber visible)),
        { t with graph := t.graph.onlySurvivors s.graph visible rows }) := by
  have hrun : prune w visible options s =
      (survivingRows w visible options s.graph (s.features.intern subproofFeature).2 >>= fun rows =>
      GraphM.graph >>= fun g => GraphM.setGraph (g.onlySurvivors s.graph visible rows) >>= fun _ =>
      pure ((List.range s.graph.states.size).map (s.graph.newNumber visible)) : Op K (List (Option Nat)))
      { s with features := (s.features.intern subproofFeature).1 } := by
    rw [prune_of_some hsome, survivingRows, bind_assoc]
  rw [hrun]
  rcases hrows : survivingRows w visible options s.graph (s.features.intern subproofFeature).2
    { s with features := (s.features.intern subproofFeature).1 } with ⟨e | rows, t⟩
  · rw [bind_error hrows]
  · rw [bind_ok hrows]
    rfl

/-- **How pruning runs**: a weight is illegal, and only the table of features and the snapshot have changed; or the
rows of the survivors are those that come from the weights. -/
theorem prune_run (h : Regular params s.features s.graph) (hw : w.params = params w.key) (options : PruneOptions K)
    (hsome : (List.range s.graph.states.size).all (s.graph.survives visible) = false) :
    (∃ e s', prune w visible options s = (.error e, s') ∧
      Weighed params s.graph (s.features.intern subproofFeature).1 s' ∧
      ∃ id, (s.graph.rows.get? id).isSome ∧ linksAt w (s.features.intern subproofFeature).1 s.graph id =
        .error e) ∨
    ∃ transitions rows s', prune w visible options s =
        (.ok ((List.range s.graph.states.size).map (s.graph.newNumber visible)),
          { s' with graph := s'.graph.onlySurvivors s.graph visible rows }) ∧
      Weighed params s.graph (s.features.intern subproofFeature).1 s' ∧
      Shared w (s.features.intern subproofFeature).1 s.graph
        (s.graph.expanded.filter fun id => !s.graph.survives visible id) (.ok transitions) ∧
      rows.map (·.1) = s.graph.expanded.filter (s.graph.survives visible) ∧
      ∀ e ∈ rows, Rewritten w (s.features.intern subproofFeature).1 s.graph
        (s.graph.survives visible) transitions options (s.features.intern subproofFeature).2 e.1 e.2 := by
  rw [prune_of_some hsome]
  have hregular := h.keeps (s.features.keeps_intern subproofFeature)
  generalize (s.features.intern subproofFeature).1 = table at hregular ⊢
  generalize (s.features.intern subproofFeature).2 = subproof
  have hexpanded : ∀ p : Nat → Bool, ∀ id ∈ s.graph.expanded.filter p, (s.graph.rows.get? id).isSome :=
    fun p id hid => (List.mem_filter.1 (List.mem_filter.1 hid).1).2
  have hstart : Weighed params s.graph table { s with features := table } := ⟨rfl, rfl, hregular.honest⟩
  -- removed states come first: where one of their weights is illegal, no row is made
  obtain ⟨hshared, hweighed⟩ := meets_sharesOf hregular hw (hexpanded _) _ hstart
  rcases hshares : sharesOf w (s.graph.expanded.filter fun id => !s.graph.survives visible id)
    { s with features := table } with ⟨e | transitions, s₁⟩
  · rw [hshares] at hshared hweighed
    obtain ⟨id, hid, hillegal⟩ := hshared
    rw [bind_error hshares]
    exact .inl ⟨e, s₁, rfl, hweighed, id, hexpanded _ id hid, hillegal⟩
  · rw [hshares] at hshared hweighed
    rw [bind_ok hshares]
    obtain ⟨hrows, hweighed'⟩ := meets_prunedRows hregular hw (s.graph.survives visible)
      transitions options subproof (hexpanded (s.graph.survives visible)) s₁ hweighed
    rcases hpruned : prunedRows w (s.graph.survives visible) transitions options subproof
      (s.graph.expanded.filter (s.graph.survives visible)) s₁ with ⟨e | rows, s₂⟩
    · rw [hpruned] at hrows hweighed'
      obtain ⟨id, hid, hillegal⟩ := hrows
      -- rows have been made by now, but the graph still has those from before
      rw [bind_error hpruned]
      refine .inl ⟨e, s₂, rfl, hweighed', id, hexpanded _ id hid, ?_⟩
      rw [linksAt, Weighter.linksOf, hillegal]
      rfl
    · rw [hpruned] at hrows hweighed'
      rw [bind_ok hpruned]
      exact .inr ⟨transitions, rows, s₂, rfl, hweighed', hshared, hrows⟩

/-! ## The graph after pruning

`Pruned` says what the graph is after pruning in terms of the graph before: by survivors, and by the masses that
arrive at them.  The masses are given by the weights of all edges: a removed state passes on what arrives in
proportion to the chances of its edges, and the edge back to the start counts in these. -/

section

variable {number : Nat → Option Nat} {rows : List (Nat × SparseRow K)} {j : Nat}

omit [Scalar K] [Exponential K] in
theorem get?_foldl_place_of_ne (out : Slots (SparseRow K)) (h : ∀ e ∈ rows, number e.1 ≠ some j) :
    (rows.foldl (place number) out).get? j = out.get? j := by
  induction rows generalizing out with
  | nil => rfl
  | cons e rest ih =>
    obtain ⟨hfirst, hrest⟩ := List.forall_mem_cons.1 h
    rw [List.foldl_cons, ih _ hrest, place]
    split
    · rename_i id hid
      have hne : id ≠ j := fun heq => hfirst (heq ▸ hid)
      rw [Slots.get?_insert_ne _ hne]
    · rfl

omit [Scalar K] [Exponential K] in
theorem get?_foldl_place (out : Slots (SparseRow K)) (hnodup : (rows.map (·.1)).Nodup)
    (hinjective : ∀ u u', number u = some j → number u' = some j → u = u') {e : Nat × SparseRow K} (he : e ∈ rows)
    (hj : number e.1 = some j) : (rows.foldl (place number) out).get? j = some (redirected number e.2) := by
  induction rows generalizing out with
  | nil => exact nomatch he
  | cons e' rest ih =>
    rw [List.map_cons, List.nodup_cons] at hnodup
    rw [List.foldl_cons]
    rcases List.mem_cons.1 he with rfl | he
    · have hothers : ∀ e' ∈ rest, number e'.1 ≠ some j := fun e' he' hj' =>
        hnodup.1 (List.mem_map.2 ⟨e', he', hinjective _ _ hj' hj⟩)
      rw [get?_foldl_place_of_ne _ hothers, place, hj]
      exact Slots.get?_insert_self ..
    · exact ih _ hnodup.2 he

end

/-- **What pruning leaves of a graph**, where masses arrive at survivors: the survivors in order with their states,
each with its edges to survivors, bridged by its masses. -/
structure Pruned (visible : Visibility) (masses : Nat → Nat → Option K) (s s' : Store (IdGraph K) K)
    (numbers : List (Option Nat)) : Prop where
  /-- Each state is told its new number. -/
  length : numbers.length = s.graph.states.size
  numbered : ∀ id j : Nat, numbers[id]? = some (some j) ↔ (s.graph.survivors visible)[j]? = some id
  survivors : ∀ id, id ∈ s.graph.survivors visible ↔
    id = 0 ∨ ∃ f, s.graph.states.get? id = some f ∧ (f.state.completed = true ∨ visible f.state = true)
  ascending : (s.graph.survivors visible).Pairwise (· < ·)
  states : ∀ j, s'.graph.states.get? j = (s.graph.survivors visible)[j]?.bind s.graph.states.get?
  features : s'.features = (s.features.intern subproofFeature).1
  rows : ∀ j u row, (s.graph.survivors visible)[j]? = some u → s.graph.rows.get? u = some row →
    ∃ row', s'.graph.rows.get? j = some row' ∧
      List.Forall₂ (fun e e' => (s.graph.survivors visible)[e'.child]? = some e.child ∧ e'.features = e.features)
        (bridgedRow (s.features.intern subproofFeature).2 (row.filter fun e => s.graph.survives visible e.child)
          (s.graph.survivors visible) (masses u)) row'
  unexpanded : ∀ j, (∀ u, (s.graph.survivors visible)[j]? = some u → s.graph.rows.get? u = none) →
    s'.graph.rows.get? j = none
  others : s'.graph = { s.graph with states := s'.graph.states, rows := s'.graph.rows, frozen := s'.graph.frozen }

omit [Scalar K] [Exponential K] in
theorem survives_iff {g : IdGraph K} {id : Nat} : g.survives visible id = true ↔
    id = 0 ∨ ∃ f, g.states.get? id = some f ∧ (f.state.completed = true ∨ visible f.state = true) := by
  simp [survives, Option.any_eq_true]

omit [Exponential K] in
theorem child_mem_bridgedRow {subproof : Nat} {row : SparseRow K} {candidates : List Nat}
    {mass : Nat → Option K} {e : SparseEdge K} (h : e ∈ bridgedRow subproof row candidates mass) :
    (∃ e' ∈ row, e'.child = e.child) ∨ e.child ∈ candidates := by
  rcases List.mem_append.1 h with here | new
  · obtain ⟨i, hi, rfl⟩ := List.mem_mapIdx.1 here
    exact .inl ⟨row[i], List.getElem_mem hi, (child_reinforced i _).symm⟩
  · obtain ⟨v, hv, hedge⟩ := List.mem_filterMap.1 new
    obtain ⟨x, -, rfl⟩ := Option.map_eq_some_iff.1 hedge
    exact .inr (List.mem_of_mem_filter hv)

omit [Exponential K] in
theorem bridged_survivors (h : Regular params s.features s.graph) {u subproof : Nat}
    {row : SparseRow K} {mass : Nat → Option K} (hrow : s.graph.rows.get? u = some row) :
      ∀ e ∈ bridgedRow subproof (row.filter fun e => s.graph.survives visible e.child)
      (s.graph.survivors visible) mass, e.child ∈ s.graph.survivors visible := by
  intro e he
  rcases child_mem_bridgedRow he with ⟨e', he', hchild⟩ | hnew
  · obtain ⟨hmem, hsurvives⟩ := List.mem_filter.1 he'
    have hstate := (h.closed u row hrow e' hmem).1
    rw [← hchild]
    exact mem_survivors.2 ⟨(Interned.isSome_get?_iff _ _).1 hstate, hsurvives⟩
  · exact hnew

theorem weighAll_children {edges : List (Nat × List (String × K))} {weights : List (Nat × K)}
    (h : w.weighAll edges = .ok weights) : weights.map (·.1) = edges.map (·.1) := by
  induction edges generalizing weights with
  | nil =>
    cases h
    rfl
  | cons e rest ih =>
    obtain ⟨weight, -, h⟩ := except_bind_eq_ok h
    obtain ⟨others, hrest, h⟩ := except_bind_eq_ok h
    cases h
    rw [List.map_cons, List.map_cons, ih hrest]

theorem linksOf_eq_ok {id : Nat} {edges : List (Nat × List (String × K))} {links : List (Link K)}
    (h : w.linksOf id false edges = .ok links) : ∃ weights restart, w.weighAll edges = .ok weights ∧
      w.weighNamed [(restartFeature, 1)] = .ok restart ∧
      links = weights.map (fun l => ⟨l.1, l.2, .derived⟩) ++ [⟨0, restart, .restart⟩] := by
  obtain ⟨weights, hweights, h⟩ := except_bind_eq_ok h
  obtain ⟨loops, hloops, h⟩ := except_bind_eq_ok h
  obtain ⟨restart, hrestart, h⟩ := except_bind_eq_ok h
  cases hloops
  cases h
  exact ⟨weights, restart, hweights, hrestart, by rw [List.append_nil]⟩

/-- **The chances with which a walk goes on from a state**: the weights of its derived edges over the sum of all,
the edge back to the start included. -/
def chances (weights : List (Nat × K)) (restart : K) : List (Nat × K) :=
  if 0 < Scalar.sum (weights.map (·.2) ++ [restart]) then
    weights.map fun e => (e.1, e.2 / Scalar.sum (weights.map (·.2) ++ [restart]))
  else []

omit [Exponential K] in
theorem shares_eq (weights : List (Nat × K)) (restart : K) :
    shares (weights.map (fun l => ⟨l.1, l.2, .derived⟩) ++ [⟨0, restart, .restart⟩]) =
      chances weights restart := by
  have hderived : List.filter (fun l : Link K => l.kind == .derived)
      (weights.map (fun l => ⟨l.1, l.2, .derived⟩) ++ [⟨0, restart, .restart⟩]) = weights.map fun l =>
        ⟨l.1, l.2, .derived⟩ := by
    have hall : ∀ l ∈ weights.map (fun l => (⟨l.1, l.2, .derived⟩ : Link K)), (l.kind == .derived) = true := by
      rintro _ hl
      obtain ⟨_, _, rfl⟩ := List.mem_map.1 hl
      rfl
    rw [List.filter_append, List.filter_eq_self.2 hall, List.filter_cons_of_neg (by simp),
      List.filter_nil, List.append_nil]
  unfold shares chances
  simp only [hderived, List.map_append, List.map_map, Function.comp_def, List.map_cons, List.map_nil]

omit [Exponential K] in
theorem chances_children {weights : List (Nat × K)} {restart : K} {e : Nat × K}
    (he : e ∈ chances weights restart) : e.1 ∈ weights.map (·.1) := by
  unfold chances at he
  split at he
  · obtain ⟨p, hp, rfl⟩ := List.mem_map.1 he
    exact List.mem_map.2 ⟨p, hp, rfl⟩
  · exact nomatch he

theorem children_of_weights {id v : Nat} {weights : List (Nat × K)}
    (h : w.weighAll (listed table (g.rowAt id)) = .ok weights) (hv : v ∈ weights.map (·.1)) :
    ∃ e ∈ g.rowAt id, e.child = v := by
  rw [weighAll_children h, listed, List.map_map] at hv
  exact List.mem_map.1 hv

def hiddenChances (survives : Nat → Bool) (weights : Nat → List (Nat × K)) (restart : K) (x : Nat) :
    List (Nat × K) :=
  if survives x then [] else chances (weights x) restart

/-- The mass that arrives at a survivor for the edges of another, given the weights of all edges. -/
def arriving (survives : Nat → Bool) (options : PruneOptions K) (weights : Nat → List (Nat × K)) (restart : K)
    (u v : Nat) : Option K :=
  (Virtual.addAll .empty (bridging survives (hiddenChances survives weights restart)
    ((1 - options.alpha) * (1 - options.alpha)) options.epsilon options.maxDepth (weights u)))[v]?

omit [Scalar K] [Exponential K] in
theorem mem_expanded (hsound : ∀ id, (g.rows.get? id).isSome → (g.states.get? id).isSome)
    {p : Nat → Bool} {id : Nat} : id ∈ g.expanded.filter p ↔ (g.rows.get? id).isSome ∧ p id = true := by
  simp only [expanded, List.mem_filter, List.mem_range, ← Interned.isSome_get?_iff]
  exact ⟨fun h => ⟨h.1.2, h.2⟩, fun h => ⟨⟨hsound id h.1, h.1⟩, h.2⟩⟩

theorem transitions_eq {weights : Nat → List (Nat × K)} {restart : K} {transitions : Slots (List (Nat × K))}
    (hsound : ∀ id, (g.rows.get? id).isSome → (g.states.get? id).isSome)
    (hweights : ∀ id, w.weighAll (listed table (g.rowAt id)) = .ok (weights id))
    (hrestart : ∀ x, w.weighNamed [(restartFeature, 1)] = .ok x → x = restart)
    (hshared : Shared w table g (g.expanded.filter fun id => !g.survives visible id) (.ok transitions)) (x : Nat) :
    (transitions.get? x).getD [] = hiddenChances (g.survives visible) weights restart x := by
  have hmem : x ∈ g.expanded.filter (fun id => !g.survives visible id) ↔
      (g.rows.get? x).isSome ∧ g.survives visible x = false :=
    (mem_expanded hsound).trans (and_congr_right fun _ => by rw [Bool.not_eq_true'])
  unfold hiddenChances
  by_cases hx : x ∈ g.expanded.filter fun id => !g.survives visible id
  · obtain ⟨links, hlinks, hshares⟩ := hshared.1 x hx
    obtain ⟨weights', restart', hweights', hrestart', rfl⟩ := linksOf_eq_ok hlinks
    rw [hweights x] at hweights'
    cases hweights'
    rw [hshares, (hmem.1 hx).2, shares_eq, hrestart restart' hrestart']
    rfl
  · rw [hshared.2 x hx]
    cases hs : g.survives visible x with
    | true => rfl
    | false =>
      -- a removed state that has not been expanded has no edges, and so no chances either
      have hnone : g.rows.get? x = none := Option.not_isSome_iff_eq_none.1 fun h => hx (hmem.2 ⟨h, hs⟩)
      have hempty := hweights x
      rw [rowAt, hnone] at hempty
      have hnothing : weights x = [] := (Except.ok.inj hempty).symm
      simp [hnothing, chances]

theorem rewritten_eq (h : Regular params table g) {weights : Nat → List (Nat × K)} {restart : K}
    {transitions : Slots (List (Nat × K))}
    (hweights : ∀ id, w.weighAll (listed table (g.rowAt id)) = .ok (weights id))
    (hnext : ∀ x, (transitions.get? x).getD [] = hiddenChances (g.survives visible) weights restart x)
    {u subproof : Nat}
    {row : SparseRow K} (hrow : Rewritten w table g (g.survives visible) transitions options subproof u row) :
    row = bridgedRow subproof ((g.rowAt u).filter fun e => g.survives visible e.child) (g.survivors visible)
      (arriving (g.survives visible) options weights restart u) := by
  obtain ⟨weighted, hweighted, rfl⟩ := hrow
  rw [hweights u] at hweighted
  cases hweighted
  have hchildren : (weights u).map (·.1) = (g.rowAt u).map (·.child) := by
    rw [weighAll_children (hweights u), listed, List.map_map]
    rfl
  rw [prunedRow_eq hnext hchildren, foldl_bridge_toList (survivors_pairwise g visible)]
  · rfl
  · -- mass arrives along edges of the graph, whose targets are states of it
    intro v hv
    obtain ⟨hsurvives, y, hy⟩ := arrives hv
    obtain ⟨p, hp, rfl⟩ := List.mem_map.1 hy
    unfold hiddenChances at hp
    split at hp
    · exact nomatch hp
    · obtain ⟨e, he, hchild⟩ := children_of_weights (hweights y) (chances_children hp)
      rcases hrow : g.rows.get? y with _ | row
      · rw [rowAt, hrow] at he
        exact nomatch he
      · rw [rowAt, hrow] at he
        rw [← hchild] at hsurvives ⊢
        exact mem_survivors.2 ⟨(Interned.isSome_get?_iff _ _).1 (h.closed y row hrow e he).1, hsurvives⟩

section

variable {rows : List (Nat × SparseRow K)}

theorem exists_weights (h : Regular params table g) {transitions : Slots (List (Nat × K))} {subproof : Nat}
    (hshared : Shared w table g (g.expanded.filter fun id => !g.survives visible id) (.ok transitions))
    (hsources : rows.map (·.1) = g.expanded.filter (g.survives visible))
    (hrows : ∀ e ∈ rows, Rewritten w table g (g.survives visible) transitions options subproof e.1 e.2)
    (id : Nat) :
    ∃ weights, w.weighAll (listed table (g.rowAt id)) = .ok weights := by
  rcases hrow : g.rows.get? id with _ | row
  · rw [rowAt, hrow]
    exact ⟨[], rfl⟩
  · have hexpanded := Option.isSome_of_eq_some hrow
    cases hs : g.survives visible id with
    | true =>
      have hmem : id ∈ rows.map (·.1) := hsources ▸ (mem_expanded h.sound).2 ⟨hexpanded, hs⟩
      obtain ⟨e, he, rfl⟩ := List.mem_map.1 hmem
      obtain ⟨weighted, hweighted, -⟩ := hrows e he
      exact ⟨weighted, hweighted⟩
    | false =>
      obtain ⟨links, hlinks, -⟩ := hshared.1 id ((mem_expanded h.sound).2 ⟨hexpanded, by rw [hs]; rfl⟩)
      obtain ⟨weights, -, hweights, -⟩ := linksOf_eq_ok hlinks
      exact ⟨weights, hweights⟩

omit [Exponential K] in
theorem get?_renumbered (h : Regular params s.features s.graph) {masses : Nat → Nat → Option K}
    (hsources : rows.map (·.1) = s.graph.expanded.filter (s.graph.survives visible))
    (hrows : ∀ e ∈ rows, e.2 = bridgedRow (s.features.intern subproofFeature).2
      ((s.graph.rowAt e.1).filter fun e => s.graph.survives visible e.child)
    (s.graph.survivors visible) (masses e.1))
    {j u : Nat} {row : SparseRow K} (hj : (s.graph.survivors visible)[j]? = some u)
    (hrow : s.graph.rows.get? u = some row) :
    ∃ row', (renumbered (s.graph.newNumber visible) rows).get? j = some row' ∧
      List.Forall₂ (fun e e' => (s.graph.survivors visible)[e'.child]? = some e.child ∧ e'.features = e.features)
        (bridgedRow (s.features.intern subproofFeature).2 (row.filter fun e => s.graph.survives visible e.child)
          (s.graph.survivors visible) (masses u)) row' := by
  have hsurvivor := List.mem_of_getElem? hj
  have hmem : u ∈ rows.map (·.1) :=
    hsources ▸ (mem_expanded h.sound).2 ⟨Option.isSome_of_eq_some hrow, (mem_survivors.1 hsurvivor).2⟩
  obtain ⟨e, he, rfl⟩ := List.mem_map.1 hmem
  have hnodup : (rows.map (·.1)).Nodup := by
    rw [hsources]
    exact (List.nodup_range.filter _).filter _
  have hrowAt : s.graph.rowAt e.1 = row := by rw [rowAt, hrow, Option.getD_some]
  have hbridged := hrows e he
  rw [hrowAt] at hbridged
  refine ⟨_, get?_foldl_place .empty hnodup (fun _ _ => newNumber_injective) he (newNumber_eq_some.2 hj), ?_⟩
  rw [← hbridged, redirected, List.forall₂_map_right_iff, List.forall₂_same]
  intro edge hedge
  rw [hbridged] at hedge
  obtain ⟨child, hchild⟩ := exists_newNumber (bridged_survivors h hrow edge hedge)
  refine ⟨?_, rfl⟩
  rw [hchild, Option.getD_some]
  exact newNumber_eq_some.1 hchild

omit [Exponential K] in
theorem pruned_onlySurvivors (h : Regular params s.features s.graph) {t : Store (IdGraph K) K}
    (ht : Weighed params s.graph (s.features.intern subproofFeature).1 t) {masses : Nat → Nat → Option K}
    (hsources : rows.map (·.1) = s.graph.expanded.filter (s.graph.survives visible))
    (hrows : ∀ e ∈ rows, e.2 = bridgedRow (s.features.intern subproofFeature).2
      ((s.graph.rowAt e.1).filter fun e => s.graph.survives visible e.child)
    (s.graph.survivors visible) (masses e.1)) :
    Pruned visible masses s { t with graph := t.graph.onlySurvivors s.graph visible rows }
      ((List.range s.graph.states.size).map (s.graph.newNumber visible)) where
  length := by rw [List.length_map, List.length_range]
  numbered _ _ := getElem?_newNumbers
  survivors id := by
    rw [mem_survivors, survives_iff]
    refine and_iff_right_of_imp ?_
    rintro (rfl | ⟨f, hf, -⟩)
    · exact (Interned.isSome_get?_iff _ _).1 h.root
    · exact (Interned.isSome_get?_iff _ _).1 (Option.isSome_of_eq_some hf)
  ascending := survivors_pairwise s.graph visible
  states j := get?_survivingStates s.graph visible j
  features := ht.features
  rows _ _ _ hj hrow := get?_renumbered h hsources hrows hj hrow
  unexpanded j hj := by
    have hothers : ∀ e ∈ rows, s.graph.newNumber visible e.1 ≠ some j := by
      intro e he hnumber
      have hmem : e.1 ∈ s.graph.expanded.filter (s.graph.survives visible) := hsources ▸ List.mem_map_of_mem he
      have hexpanded := ((mem_expanded h.sound).1 hmem).1
      rw [hj e.1 (newNumber_eq_some.1 hnumber)] at hexpanded
      cases hexpanded
    exact (get?_foldl_place_of_ne .empty hothers).trans (Slots.get?_empty j)
  others := by rw [onlySurvivors, ht.graph]

end

/-- **Pruning that succeeds prunes by the weights of the edges.** -/
theorem prune_pruned (h : Regular params s.features s.graph) (hw : w.params = params w.key)
    (hsome : (List.range s.graph.states.size).all (s.graph.survives visible) = false) {numbers : List (Option Nat)}
    {s' : Store (IdGraph K) K} (hrun : prune w visible options s = (.ok numbers, s')) : ∃ weights restart,
      (∀ id, w.weighAll (listed s'.features (s.graph.rowAt id)) = .ok (weights id)) ∧
      ((∃ id, (s.graph.rows.get? id).isSome ∧ s.graph.survives visible id = false) →
        w.weighNamed [(restartFeature, 1)] = .ok restart) ∧
      Pruned visible (arriving (s.graph.survives visible) options weights restart) s s' numbers ∧
      ∀ f, s'.graph.frozen = some f → f.Honest params s'.features := by
  rcases prune_run h hw options hsome with ⟨e, t, herror, -⟩ |
    ⟨transitions, rows, t, hok, ht, hshared, hsources, hrows⟩
  · rw [hrun] at herror
    cases herror
  have hregular := h.keeps (s.features.keeps_intern subproofFeature)
  choose weights hweights using exists_weights hregular hshared hsources hrows
  have hrestart : ∀ x, w.weighNamed [(restartFeature, 1)] = .ok x →
      x = (w.weighNamed [(restartFeature, 1)]).toOption.getD 0 := by
    intro x hx
    rw [hx]
    rfl
  have hnext := transitions_eq h.sound hweights hrestart hshared
  rw [hrun] at hok
  cases hok
  refine ⟨weights, (w.weighNamed [(restartFeature, 1)]).toOption.getD 0, ?_, fun ⟨id, hid, hs⟩ => ?_, ?_, ?_⟩
  · exact ht.features ▸ hweights
  · obtain ⟨links, hlinks, -⟩ := hshared.1 id ((mem_expanded h.sound).2 ⟨hid, by rw [hs]; rfl⟩)
    obtain ⟨-, restart, -, hx, -⟩ := linksOf_eq_ok hlinks
    rw [hx]
    rfl
  · exact pruned_onlySurvivors h ht hsources fun e he => rewritten_eq hregular hweights hnext (hrows e he)
  · exact ht.features ▸ ht.honest

theorem weighed_or_pruned (h : Regular params s.features s.graph)
    (hw : w.params = params w.key) (visible : Visibility) (options : PruneOptions K) {s' : Store (IdGraph K) K}
    (hprune : (prune w visible options s).2 = s') :
    (∃ table, s.features.Keeps table ∧ Weighed params s.graph table s') ∨ ∃ weights restart numbers,
      (∀ id, w.weighAll (listed s'.features (s.graph.rowAt id)) = .ok (weights id)) ∧
      Pruned visible (arriving (s.graph.survives visible) options weights restart) s s' numbers ∧
      ∀ f, s'.graph.frozen = some f → f.Honest params s'.features := by
  cases hall : (List.range s.graph.states.size).all (s.graph.survives visible) with
  | true =>
    rw [prune_of_all hall] at hprune
    subst hprune
    exact .inl ⟨s.features, .refl _, rfl, rfl, h.honest⟩
  | false =>
    rcases hrun : prune w visible options s with ⟨e | numbers, t⟩ <;> rw [hrun] at hprune <;> subst hprune
    · rcases prune_run h hw options hall with ⟨_, _, herror, ht, -⟩ | ⟨_, _, _, hok, -⟩
      · rw [hrun] at herror
        cases herror
        exact .inl ⟨_, s.features.keeps_intern subproofFeature, ht⟩
      · rw [hrun] at hok
        cases hok
    · obtain ⟨weights, restart, hweights, -, hpruned, hhonest⟩ := prune_pruned h hw hall hrun
      exact .inr ⟨weights, restart, numbers, hweights, hpruned, hhonest⟩

/-! ## Pruned graphs are regular

Edges lead to states again, and the feature of bridges has a number. -/

omit [Exponential K] in
theorem Named.add {v : SparseVector K} (h : Named table v) {i : Nat} (hi : (table.get? i).isSome) (x : K) :
    Named table (v.add i x) := by
  intro j y hj
  by_cases hij : j = i
  · subst hij
    exact hi
  · exact h j y ((SortedMap.getElem?_upsert_of_ne _ _ hij).symm.trans hj)

omit [Exponential K] in
theorem named_bridgedRow {subproof : Nat} (hsubproof : (table.get? subproof).isSome) {row : SparseRow K}
    (hrow : ∀ e ∈ row, Named table e.features) {candidates : List Nat} {mass : Nat → Option K} :
    ∀ e ∈ bridgedRow subproof row candidates mass, Named table e.features := by
  intro e he
  rcases List.mem_append.1 he with here | new
  · obtain ⟨i, hi, rfl⟩ := List.mem_mapIdx.1 here
    have hold := hrow _ (List.getElem_mem hi)
    unfold reinforced
    split
    · split
      · exact hold.add hsubproof _
      · exact hold
    · exact hold
  · obtain ⟨v, -, hedge⟩ := List.mem_filterMap.1 new
    obtain ⟨x, -, rfl⟩ := Option.map_eq_some_iff.1 hedge
    have hempty : Named table (∅ : SparseVector K) := fun i y hy => by simp at hy
    exact hempty.add hsubproof x

omit [Exponential K] in
/-- **A pruned graph is regular.** -/
theorem Pruned.regular {masses : Nat → Nat → Option K} {s' : Store (IdGraph K) K} {numbers : List (Option Nat)}
    (hp : Pruned visible masses s s' numbers) (h : Regular params s.features s.graph)
    (hhonest : ∀ f, s'.graph.frozen = some f → f.Honest params s'.features) :
    Regular params s'.features s'.graph := by
  have hkeeps : s.features.Keeps s'.features := hp.features ▸ s.features.keeps_intern subproofFeature
  have hstates : ∀ {j u : Nat}, (s.graph.survivors visible)[j]? = some u → (s'.graph.states.get? j).isSome := by
    intro j u hj
    rw [hp.states, hj]
    exact (Interned.isSome_get?_iff _ _).2 (mem_survivors.1 (List.mem_of_getElem? hj)).1
  have hsource : ∀ {j : Nat}, (s'.graph.rows.get? j).isSome →
      ∃ u row, (s.graph.survivors visible)[j]? = some u ∧ s.graph.rows.get? u = some row := by
    intro j hj
    by_contra hnone
    refine Option.isSome_iff_ne_none.1 hj (hp.unexpanded j fun u hu => ?_)
    by_contra hsome
    obtain ⟨row, hrow⟩ := Option.ne_none_iff_exists'.1 hsome
    exact hnone ⟨u, row, hu, hrow⟩
  refine ⟨hstates (survivors_zero h.root), fun j hj => ?_, fun j row' hj e he => ?_, ?_, ?_, hhonest⟩
  · obtain ⟨u, row, hu, -⟩ := hsource hj
    exact hstates hu
  · obtain ⟨u, row, hu, hrow⟩ := hsource (Option.isSome_of_eq_some hj)
    obtain ⟨row'', hrow'', hsame⟩ := hp.rows j u row hu hrow
    rw [hj] at hrow''
    cases hrow''
    have hsubproof : (s'.features.get? (s.features.intern subproofFeature).2).isSome := by
      rw [hp.features, Symbols.get?_of_find? (Interned.find?_intern s.features subproofFeature)]
      rfl
    have hnamed : ∀ e ∈ row.filter (fun e => s.graph.survives visible e.child), Named s'.features e.features :=
      fun e he => (h.closed u row hrow e (List.mem_filter.1 he).1).2.keeps hkeeps
    obtain ⟨e₀, he₀, hchild, hfeatures⟩ := exists_of_forall₂ hsame he
    rw [hfeatures]
    exact ⟨hstates hchild, named_bridgedRow hsubproof hnamed e₀ he₀⟩
  · rw [hp.others]
    exact Symbols.get?_keeps hkeeps h.restart
  · rw [hp.others]
    exact Symbols.get?_keeps hkeeps h.trueLoop

omit [Exponential K] in
theorem bridgedRow_congr {subproof : Nat} {row : SparseRow K} {candidates : List Nat} {mass mass' : Nat → Option K}
    (hrow : ∀ e ∈ row, mass e.child = mass' e.child) (hcandidates : ∀ v ∈ candidates, mass v = mass' v) :
    bridgedRow subproof row candidates mass = bridgedRow subproof row candidates mass' := by
  have hreinforced : row.mapIdx (reinforced subproof row mass) = row.mapIdx (reinforced subproof row mass') := by
    refine List.ext_getElem (by simp) fun i h h' => ?_
    simp only [List.getElem_mapIdx, reinforced, hrow _ (List.getElem_mem _)]
  have hnew : ∀ v ∈ candidates.filter (fun v => (SparseRow.position? row v).isNone),
      (mass v).map (bridgeTo subproof v) = (mass' v).map (bridgeTo subproof v) := fun v hv => by
    rw [hcandidates v (List.mem_of_mem_filter hv)]
  rw [bridgedRow, bridgedRow, hreinforced, List.filterMap_congr hnew]

omit [Exponential K] in
theorem Pruned.congr {masses masses' : Nat → Nat → Option K} {s' : Store (IdGraph K) K}
    {numbers : List (Option Nat)} (hp : Pruned visible masses s s' numbers)
    (hmasses : ∀ u v, s.graph.survives visible v = true → masses u v = masses' u v) :
    Pruned visible masses' s s' numbers where
  length := hp.length
  numbered := hp.numbered
  survivors := hp.survivors
  ascending := hp.ascending
  states := hp.states
  features := hp.features
  rows j u row hj hrow := by
    have hsame : bridgedRow (s.features.intern subproofFeature).2
        (row.filter fun e => s.graph.survives visible e.child) (s.graph.survivors visible) (masses u) =
          bridgedRow (s.features.intern subproofFeature).2
        (row.filter fun e => s.graph.survives visible e.child) (s.graph.survivors visible) (masses' u) :=
      bridgedRow_congr (fun e he => hmasses u e.child (List.mem_filter.1 he).2) fun v hv =>
        hmasses u v (mem_survivors.1 hv).2
    exact hsame ▸ hp.rows j u row hj hrow
  unexpanded := hp.unexpanded
  others := hp.others

/-! ## All graphs

`Reached` is the least set of stores that has all graphs that have just been built and is closed under everything
that may happen to a graph.  What holds of all of them is proved by induction on it. -/

omit [Exponential K] in
theorem regular_of_id (h : ProofGraph.Regular params (ofId s)) : Regular params s.features s.graph := by
  generalize ht : ofId s = t at h
  obtain ⟨g, features, counts⟩ := s
  rcases h with @⟨⟨_, _, _⟩, h⟩ | @⟨⟨_, _, _⟩, h⟩
  · cases ht
  · cases ht
    exact h

/-- **The graphs that come about** where weighters of one key share their parameters: the graph of a query, after
requests, new snapshots and prunings in any order, while other graphs may number features in between. -/
inductive Reached (params : Nat → Params K) : Store (IdGraph K) K → Prop
  | build {m : Machine K} {features features' : Symbols} {g : IdGraph K}
      (h : IdGraph.build m features = .ok (g, features'))
      (counts : SortedMap Nat FeatureCounts) : Reached params ⟨g, features', counts⟩
  | request {s s' : Store (IdGraph K) K} (h : Reached params s) (r : Request K) (hr : r.Fits params)
      (hrun : (r.run (ofId s)).2 = ofId s') : Reached params s'
  | freeze {s : Store (IdGraph K) K} (h : Reached params s) {w : Weighter K} (hw : w.params = params w.key) :
      Reached params (IdGraph.freeze w s).2
  | prune {s : Store (IdGraph K) K} (h : Reached params s) {w : Weighter K}
      (hw : w.params = params w.key) (visible : Visibility)
      (options : PruneOptions K) : Reached params (IdGraph.prune w visible options s).2
  | shared {s : Store (IdGraph K) K} (h : Reached params s) {features : Symbols}
      (hkeeps : s.features.Keeps features)
      (counts : SortedMap Nat FeatureCounts) : Reached params { s with features, counts }

/-- **Pruning keeps a graph regular**, whether it succeeds or not. -/
theorem Regular.prune (h : Regular params s.features s.graph) (hw : w.params = params w.key) (visible : Visibility)
    (options : PruneOptions K) :
    Regular params (IdGraph.prune w visible options s).2.features (IdGraph.prune w visible options s).2.graph := by
  rcases weighed_or_pruned h hw visible options rfl with ⟨_, hkeeps, ht⟩ | ⟨_, _, _, -, hpruned, hhonest⟩
  · exact (h.keeps hkeeps).weighed ht
  · exact hpruned.regular h hhonest

omit [Exponential K] in
theorem build_cachingId {m : Machine K} {features features' : Symbols} {g : IdGraph K}
    (h : IdGraph.build m features = .ok (g, features')) :
    ProofGraph.build .cachingId m features = .ok (.cachingId g, features') := by
  unfold ProofGraph.build
  rw [h]
  rfl

theorem Reached.regular (h : Reached params s) : Regular params s.features s.graph := by
  induction h with
  | @build m features features' g h counts =>
    exact regular_of_id (s := ⟨g, features', counts⟩) (ProofGraph.Regular.build (build_cachingId h) counts)
  | request h r hr hrun ih =>
    have hrequest := ProofGraph.Regular.request (.cachingId ih) r hr
    rw [hrun] at hrequest
    exact regular_of_id hrequest
  | freeze h hw ih =>
    obtain ⟨-, hweighed⟩ := meets_freeze hw _ ⟨rfl, rfl, ih.honest⟩
    exact ih.weighed hweighed
  | prune h hw visible options ih => exact ih.prune hw visible options
  | shared h hkeeps counts ih => exact ih.keeps hkeeps

end IdGraph

/-! ## The masses of bridges

For exact numbers the mass of a bridge is a sum over the sequences of edges that it stands for. -/

namespace IdGraph

variable {K : Type} [Field K] [LinearOrder K] [FloorSemiring K] [Exponential K]

/-- **What the sequences of edges over removed states carry** from one survivor to another, one number for each
sequence. -/
def overRemoved (survives : Nat → Bool) (options : PruneOptions K) (weights : Nat → List (Nat × K))
    (restart : K) (u v : Nat) : List K :=
  ((weights u).filter fun e => !survives e.1).flatMap fun e =>
    carried survives (hiddenChances survives weights restart) ((1 - options.alpha) ^ 2) options.epsilon
      v options.maxDepth e.1 e.2

/-- **Pruning keeps the edges between survivors and bridges the states that it removes** by the sums of what the
sequences of edges over them carry, for the weights that the weighter gives to the edges. -/
theorem prune_bridges {params : Nat → Params K} {w : Weighter K} {visible : Visibility} {options : PruneOptions K}
    {s s' : Store (IdGraph K) K} {numbers : List (Option Nat)} (hs : Reached params s)
    (hw : w.params = params w.key)
    (hremoved : ∃ id < s.graph.states.size, s.graph.survives visible id = false)
    (hrun : prune w visible options s = (.ok numbers, s')) : ∃ weights restart,
      (∀ id, w.weighAll (listed s'.features (s.graph.rowAt id)) = .ok (weights id)) ∧
      ((∃ id, (s.graph.rows.get? id).isSome ∧ s.graph.survives visible id = false) →
        w.weighNamed [(restartFeature, 1)] = .ok restart) ∧
      Pruned visible (fun u v => collected (overRemoved (s.graph.survives visible) options weights restart u v))
        s s' numbers := by
  have hregular := hs.regular
  have hsome : (List.range s.graph.states.size).all (s.graph.survives visible) = false := by
    obtain ⟨id, hid, hremoved⟩ := hremoved
    exact List.all_eq_false.2 ⟨id, List.mem_range.2 hid, by simp [hremoved]⟩
  obtain ⟨weights, restart, hweights, hrestart, hpruned, -⟩ := prune_pruned hregular hw hsome hrun
  refine ⟨weights, restart, hweights, hrestart, hpruned.congr fun u v hv => ?_⟩
  rw [arriving, getElem?_bridging, if_pos hv, overRemoved, pow_two]

/-! ## Paths without their edges -/

attribute [local instance] flatExponential

theorem Reached.expand {params : Nat → Params ℚ} {s : Store (IdGraph ℚ) ℚ}
    (h : Reached params s) (ids : List Nat) : Reached params (ids.foldl (fun s id => (outlinks id s).2) s) := by
  induction ids generalizing s with
  | nil => exact h
  | cons id rest ih =>
    refine ih (h.request (.outlinks id) trivial ?_)
    rw [Request.run_outlinks]
    rfl

def grownPath : Store (IdGraph ℚ) ℚ :=
  let m : Machine ℚ := ⟨pathCode, [], ⟨100, 10⟩, pathTable⟩
  match build m ∅ with
  | .ok (g, features) => (List.range 7).foldl (fun s id => (outlinks id s).2) ⟨g, features, ∅⟩
  | .error _ => ⟨⟨m, ∅, ∅, 0, 0, none⟩, ∅, ∅⟩

theorem reached_grownPath : Reached (fun _ => .unit) grownPath := by
  have hopens : (build (⟨pathCode, [], ⟨100, 10⟩, pathTable⟩ : Machine ℚ) ∅).toOption.isSome =
    true := by decide +kernel
  unfold grownPath
  dsimp only
  split
  · rename_i hbuild
    exact (Reached.build hbuild ∅).expand _
  · rename_i hfails
    rw [hfails] at hopens
    cases hopens

def prunedPath : Except (ProverError ℚ) (List (Option Nat)) × Store (IdGraph ℚ) ℚ :=
  prune (.uniform 0) (hidingCalls [⟨"edge", 2⟩]) ⟨1 / 10, 5, 1 / 1000⟩ grownPath

/-- Two edges over a removed state become one. -/
theorem prune_bridges_path : Reached (fun _ => .unit) grownPath ∧
    (∃ id < grownPath.graph.states.size, grownPath.graph.survives (hidingCalls [⟨"edge", 2⟩]) id = false) ∧
    (∃ numbers s' weights restart, prunedPath = (.ok numbers, s') ∧
      Pruned (hidingCalls [⟨"edge", 2⟩]) (fun u v => collected
        (overRemoved (grownPath.graph.survives (hidingCalls [⟨"edge", 2⟩]))
          ⟨1 / 10, 5, 1 / 1000⟩ weights restart u v))
        grownPath s' numbers) ∧
    prunedPath.1.toOption = some [some 0, none, none, some 1, some 2, none, none] ∧
    (prunedPath.2.graph.rowAt 0).map (fun e => (e.child, featureNames prunedPath.2.features e.features)) =
      [(1, [(subproofFeature, 27 / 50)]), (2, [(subproofFeature, 27 / 50)])] := by
  have hremoved : ∃ id < grownPath.graph.states.size,
      grownPath.graph.survives (hidingCalls [⟨"edge", 2⟩]) id = false :=
    ⟨1, by decide +kernel, by decide +kernel⟩
  have hok : prunedPath.1.toOption = some [some 0, none, none, some 1, some 2, none, none] := by decide +kernel
  refine ⟨reached_grownPath, hremoved, ?_, hok, by decide +kernel⟩
  rcases hrun : prunedPath with ⟨e | numbers, s'⟩
  · rw [hrun] at hok
    cases hok
  · obtain ⟨weights, restart, -, -, hpruned⟩ := prune_bridges reached_grownPath rfl hremoved hrun
    exact ⟨numbers, s', weights, restart, rfl, hpruned⟩

end IdGraph

end ProofWalk
