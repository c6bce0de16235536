import ProofWalk.Proofs.PowerSums
/-!
# Proofs.PathSums — propagation along paths sums over walks

A visit of a state adds what its edges carry to the states that they lead to, and then visits these.  Measured by
what a state is worth, a visit with some weight adds that weight times what the walks from the state are worth, the
empty one left out: it has been added before the visit.  The edge back to the start is part of what weights are
divided by, but of no walk, and a completed state has no derived edges, so that it makes no difference that it is
not visited.
-/
namespace ProofWalk

open MassVector (mass weigh)
open ProofGraph (growth EdgesStand edgesOf Rested)

variable {K : Type} [Field K] [LinearOrder K] [FloorSemiring K]

/-! ## Derived edges

Of the edges that a walk is told of only the derived ones are followed, and they keep the weights that were
normalized with all others (`ProofGraph.pathEdges`).  There is no loop among them, as none is asked for. -/

variable [Exponential K]

theorem Weighter.kind_of_linksOf {w : Weighter K} {id : Nat} {looped : Bool}
    {named : List (Nat × List (String × K))} {links : List (Link K)} (h : w.linksOf id looped named = .ok links) :
    ∀ l ∈ links, (l.kind = .derived → named ≠ []) ∧ (l.kind = .trueLoop → looped = true) := by
  obtain ⟨derived, hderived, h⟩ := except_bind_eq_ok h
  obtain ⟨loops, hloops, h⟩ := except_bind_eq_ok h
  obtain ⟨restart, -, h⟩ := except_bind_eq_ok h
  cases h
  intro l hl
  rcases List.mem_append.1 hl with hl | hl
  · rcases List.mem_append.1 hl with hl | hl
    · obtain ⟨e, he, rfl⟩ := List.mem_map.1 hl
      refine ⟨fun _ hnone => ?_, nofun⟩
      rw [hnone] at hderived
      cases hderived
      cases he
    · unfold weighLoop at hloops
      cases looped with
      | false =>
        cases hloops
        cases hl
      | true =>
        obtain ⟨weight, -, hloops⟩ := except_bind_eq_ok hloops
        cases hloops
        rw [List.mem_singleton.1 hl]
        exact ⟨nofun, fun _ => rfl⟩
  · rw [List.mem_singleton.1 hl]
    exact ⟨nofun, nofun⟩

/-- **The edges along which paths go**: the derived edges of a state, with weights that are divided by the sum of
all its edges, the one back to the start among them. -/
def ProofGraph.pathEdges (w : Weighter K) (s : Store (ProofGraph K) K) (u : Nat) : List (Link K) :=
  (Walk.normalize (edgesOf w false s u)).filter (·.kind = .derived)

open ProofGraph (pathEdges)

section

variable {params : Nat → Params K} {w : Weighter K} {s : Store (ProofGraph K) K} {u : Nat}

theorem pathEdges_of_completed (h : ProofGraph.Regular params s)
    (hw : w.params = params w.key) (hrested : Rested s) (hu : s.graph.isCompleted u = true) :
    pathEdges w s u = [] := by
  refine List.filter_eq_nil_iff.2 fun l hl => ?_
  obtain ⟨l', hl', -, hkind⟩ := Walk.mem_normalize hl
  rw [decide_eq_true_eq, ← hkind]
  intro hderived
  rcases ProofGraph.edgesOf_cases h hw false u with hnone | ⟨looped, named, hlinks, -, hnamed⟩
  · rw [hnone] at hl'
    cases hl'
  · exact (Weighter.kind_of_linksOf hlinks l' hl').1 hderived (hnamed hrested hu)

theorem followed_eq (h : ProofGraph.Regular params s) (hw : w.params = params w.key) (x : K) :
    Walk.followed x (Walk.normalize (edgesOf w false s u)) = (pathEdges w s u).map fun l =>
      (l.child, x * l.weight) := by
  unfold Walk.followed pathEdges
  congr 1
  refine List.filter_congr fun l hl => ?_
  obtain ⟨l', hl', -, hkind⟩ := Walk.mem_normalize hl
  have hloop : l.kind ≠ .trueLoop := by
    intro hloop
    rcases ProofGraph.edgesOf_cases h hw false u with hnone | ⟨looped, named, hlinks, hlooped, -⟩
    · rw [hnone] at hl'
      cases hl'
    · have hasked := (Weighter.kind_of_linksOf hlinks l' hl').2 (hkind.trans hloop)
      rw [hlooped rfl] at hasked
      cases hasked
  cases hcase : l.kind with
  | derived => rfl
  | restart => rfl
  | trueLoop => exact absurd hcase hloop

end

/-! ## Visits

`VisitsAdd` measures what visits come to in any graph that the proof may grow into, since the edges of states that a
visit meets late are not yet on record when it begins.  The induction is on the number of edges that are left, for
one visit and for several in a row. -/

section

variable {params : Nat → Params K} {w : Weighter K} {τ τ' : ProofState K} {u : Nat}

theorem rested_normalized (h : Rested τ.store) (hregular : ProofGraph.Regular params τ.store) {trueLoop : Bool}
    {links : List (Link K)} (hrun : (ProofGraph.walk w).normalized u trueLoop τ = (.ok links, τ')) :
    Rested τ'.store := by
  obtain ⟨all, τ₁, hlinks, hrest⟩ := bind_eq_ok hrun
  cases hrest
  have hstore :=
    congrArg (fun r => r.2.store) ((onGraph_eq (ProofGraph.weightedOutlinks u w trueLoop) τ).symm.trans hlinks)
  have hrested := h.request hregular (.weightedOutlinks u w trueLoop)
  rw [Request.run_weightedOutlinks] at hrested
  exact hstore ▸ hrested

omit [Exponential K] in
theorem weigh_foldl_add {V : Type} [MassVector V K] [LawfulMass V K] (f : Nat → K) (l : List (Nat × K)) (v : V) :
    weigh (l.foldl (fun r e => MassVector.add r e.1 e.2) v) f = weigh v f + (l.map fun e => e.2 * f e.1).sum := by
  induction l generalizing v with
  | nil => simp
  | cons e rest ih =>
    rw [List.foldl_cons, ih, MassVector.weigh_add, List.map_cons, List.sum_cons, add_assoc]

theorem ends_isCompleted (w : Weighter K) (τ : ProofState K) (u : Nat) :
    Ends w τ ((ProofGraph.walk w).isCompleted u) fun completed τ' => τ' = τ ∧
      completed = τ.store.graph.isCompleted u :=
  .inl ⟨_, τ, rfl, .refl w τ, rfl, rfl⟩

/-- **What visits of some states with some weights come to**, over at most so many edges: each adds its weight times
what the walks from its state are worth, but for the empty one. -/
def VisitsAdd (params : Nat → Params K) (w : Weighter K) (depth : Nat)
    (carried : List (Nat × K)) (v v' : Walk.Visits K) (τ' : ProofState K) : Prop :=
  ProofGraph.Regular params τ'.store ∧ Rested τ'.store ∧
    ∀ later : ProofState K, ProofGraph.Regular params later.store →
    Rested later.store → Grown w τ' later → ∀ f, weigh v'.result f = weigh v.result f +
      (carried.map fun e => e.2 * (pathWorth (pathEdges w later.store) f depth e.1 - f e.1)).sum

theorem ends_visits {depth : Nat}
    (hvisit : ∀ (u : Nat) (x : K) (v : Walk.Visits K) (τ : ProofState K), ProofGraph.Regular params τ.store →
      Rested τ.store → (τ.store.graph.states.get? u).isSome →
      Ends w τ ((ProofGraph.walk w).visit depth u x v) (VisitsAdd params w depth [(u, x)] v))
    {next : List (Nat × K)} {v : Walk.Visits K} (h : ProofGraph.Regular params τ.store) (hrested : Rested τ.store)
    (hnext : ∀ e ∈ next, (τ.store.graph.states.get? e.1).isSome) :
    Ends w τ (next.foldlM (fun v e => (ProofGraph.walk w).visit depth e.1 e.2 v) v)
      (VisitsAdd params w depth next v) := by
  induction next generalizing τ v with
  | nil => exact ends_pure ⟨h, hrested, fun _ _ _ _ f => by simp⟩
  | cons e rest ih =>
    obtain ⟨hhere, hothers⟩ := List.forall_mem_cons.1 hnext
    rw [List.foldlM_cons]
    refine (hvisit e.1 e.2 v τ h hrested hhere).bind fun v₁ τ₁ _ hgrown ⟨hregular₁, hrested₁, hfirst⟩ => ?_
    refine (ih hregular₁ hrested₁ fun e he => hgrown.states.isSome (hothers e he)).mono
      fun v' τ' hgrown' ⟨hregular', hrested', hmore⟩ =>
        ⟨hregular', hrested', fun later hregular hlaterRested hlater f => ?_⟩
    rw [hmore later hregular hlaterRested hlater, hfirst later hregular hlaterRested (hgrown'.trans hlater),
      List.map_singleton, List.sum_singleton, List.map_cons, List.sum_cons, add_assoc]

/-- **A visit of a state with some weight.** -/
theorem ends_visit (hw : w.params = params w.key) (depth u : Nat) (x : K) (v : Walk.Visits K) (τ : ProofState K)
    (h : ProofGraph.Regular params τ.store) (hrested : Rested τ.store)
    (hu : (τ.store.graph.states.get? u).isSome) :
    Ends w τ ((ProofGraph.walk w).visit depth u x v) (VisitsAdd params w depth [(u, x)] v) := by
  induction depth generalizing u x v τ with
  | zero => exact ends_pure ⟨h, hrested, fun _ _ _ _ f => by simp [pathWorth_zero]⟩
  | succ depth ih =>
    unfold Walk.visit
    refine (ends_isCompleted w τ u).bind fun completed τ₀ _ _ ⟨hτ₀, hcompleted⟩ => ?_
    subst hτ₀
    cases completed with
    | true =>
      rw [if_pos rfl]
      refine ends_pure ⟨h, hrested, fun later hregular hlaterRested hlater f => ?_⟩
      have hstill := (ProofGraph.isCompleted_extends hlater.states hu).trans hcompleted.symm
      rw [List.map_singleton, List.sum_singleton, pathWorth_succ,
        pathEdges_of_completed hregular hw hlaterRested hstill]
      simp
    | false =>
      rw [if_neg Bool.false_ne_true]
      refine (ends_normalized h hw hu false).bind fun links τ₁ hlinks hgrown₁ ⟨hregular₁, all,
        hstand, hnormal, hlegal⟩ => ?_
      subst hnormal
      have hrested₁ := rested_normalized hrested h hlinks
      refine (ends_report w τ₁ _ _ _ _ _).bind fun _ τ₂ _ hgrown₂ hsame => ?_
      have hnext : ∀ e ∈ Walk.followed x (Walk.normalize all), (τ₂.store.graph.states.get? e.1).isSome := by
        intro e he
        obtain ⟨l, hl, rfl⟩ := List.mem_map.1 he
        obtain ⟨l', hl', hchild, -⟩ := Walk.mem_normalize (List.mem_filter.1 hl).1
        rw [hsame, ← hchild]
        exact (hlegal l' hl').2
      refine (ends_visits ih (hsame ▸ hregular₁) (hsame ▸ hrested₁) hnext).mono
        fun v' τ' hgrown' ⟨hregular', hrested', hadded⟩ =>
          ⟨hregular', hrested', fun later hregular hlaterRested hlater f => ?_⟩
      have hedges := (hstand.grow ((hgrown₂.trans hgrown').trans hlater).grows).edgesOf_eq (hregular.sound w)
      have hfollowed := followed_eq (u := u) hregular hw x
      rw [hedges] at hfollowed
      -- what the edges carry counts once for their ends, and once more for the walks on from there
      have hboth (l : Link K) : x * l.weight * f l.child +
          x * l.weight * (pathWorth (pathEdges w later.store) f depth l.child - f l.child) =
          x * (l.weight * pathWorth (pathEdges w later.store) f depth l.child) := by ring
      rw [hadded later hregular hlaterRested hlater, weigh_foldl_add, List.map_reverse,
        List.sum_reverse, hfollowed, add_assoc,
        ← List.sum_map_add, List.map_map, List.map_singleton, List.sum_singleton,
          pathWorth_succ, add_sub_cancel_left,
        ← List.sum_map_mul_left]
      simp only [Function.comp_def, hboth]

end

/-! ## The whole proof

The start has a mass of one, which stands for the empty walk, and then it is visited with this weight.  The proof
asks of the graph that it is regular, and that completed states have no derived edges on record; graphs that come
about have both, so that the last two theorems have no such hypotheses. -/

/-- **A result that sums over walks**: as long as the graph stays regular and at rest, it has for each state the sum
over the walks of derived edges to it, up to the depth. -/
def SumsWalks (params : Nat → Params K) (w : Weighter K) (depth : Nat) (result : ProofVector K)
    (last : ProofState K) : Prop :=
  (ProofGraph.Regular params last.store ∧ Rested last.store) ∧
    ∀ later : ProofState K, ProofGraph.Regular params later.store →
    Rested later.store → Grown w last later → ∀ v, mass result v =
      ∑ n ∈ Finset.range (depth + 1), walkSum (pathEdges w later.store) n 0 v

theorem ends_depthFirst {params : Nat → Params K} {w : Weighter K} (hw : w.params = params w.key)
    (settings : ProverSettings K) {start : ProofState K} (hstart : ProofGraph.Regular params start.store)
    (hrested : Rested start.store) :
    Ends w start ((ProofGraph.walk w).depthFirst settings) (SumsWalks params w settings.apr.maxDepth) := by
  unfold Walk.depthFirst
  refine (ends_visit hw settings.apr.maxDepth 0 1 _ start hstart hrested hstart.root).bind
    fun v last _ _ ⟨hregular, hlastRested, hadded⟩ =>
      ends_pure ⟨⟨hregular, hlastRested⟩, fun later hlater hlaterRested hgrown i => ?_⟩
  have hworth := hadded later hlater hlaterRested hgrown fun j => if j = i then 1 else 0
  have hseed : weigh (MassVector.add (∅ : ProofVector K) 0 1) (fun j => if j = i then (1 : K) else 0) =
      if 0 = i then 1 else 0 :=
    MassVector.weigh_start (V := ProofVector K) _
  rw [MassVector.weigh_single, hseed, List.map_singleton, List.sum_singleton, one_mul, add_sub_cancel] at hworth
  simp only [walkSum_eq]
  exact hworth

/-- **Propagation along paths sums over walks**, on every regular graph at rest, however large: it ends, and gives
to each state the sum over all walks of derived edges to it, up to the depth, of the products of their normalized
weights.  Edges count as they stand in the graph that the proof leaves behind, or in any that grows from it.  The
proof does not end so only where a strict weighter refuses an edge of negative weight, or the audience leaves. -/
theorem depthFirst_sums_walks {params : Nat → Params K} (w : Weighter K) (hw : w.params = params w.key)
    (settings : ProverSettings K) {start : ProofState K} (hstart : ProofGraph.Regular params start.store)
    (hrested : Rested start.store) :
    Ends w start ((ProofGraph.walk w).depthFirst settings) fun result last =>
      (ProofGraph.Regular params last.store ∧ Rested last.store) ∧
        ∀ later : ProofState K, ProofGraph.Regular params later.store →
        Rested later.store → Grown w last later → ∀ v, mass result v =
          ∑ n ∈ Finset.range (settings.apr.maxDepth + 1), walkSum (pathEdges w later.store) n 0 v :=
  ends_depthFirst hw settings hstart hrested

/-- **So it does on all graphs with numbered features that come about**, after prunings too: they are regular and at
rest. -/
theorem ends_depthFirst_of_reached {params : Nat → Params K} {w : Weighter K} (hw : w.params = params w.key)
    (settings : ProverSettings K) {start : ProofState K} {s : Store (IdGraph K) K} (hstart : start.store = ofId s)
    (h : IdGraph.Reached params s) :
    Ends w start ((ProofGraph.walk w).depthFirst settings) (SumsWalks params w settings.apr.maxDepth) := by
  refine ends_depthFirst hw settings ?_ ?_
  · rw [hstart]
    exact .cachingId h.regular
  · rw [hstart]
    exact h.rested

/-- **So it does on a graph that has just been built**, of either representation. -/
theorem ends_depthFirst_of_built {params : Nat → Params K} {w : Weighter K} (hw : w.params = params w.key)
    (settings : ProverSettings K) {start : ProofState K} {kind : GraphKind} {m : Machine K}
    {features features' : Symbols}
    {g : ProofGraph K} (hbuild : ProofGraph.build kind m features = .ok (g, features'))
    {counts : SortedMap Nat FeatureCounts}
    (hstart : start.store = ⟨g, features', counts⟩) :
    Ends w start ((ProofGraph.walk w).depthFirst settings) (SumsWalks params w settings.apr.maxDepth) := by
  refine ends_depthFirst hw settings ?_ ?_
  · rw [hstart]
    exact .build hbuild counts
  · rw [hstart]
    exact ProofGraph.rested_of_explored (Explored.build hbuild counts)

/-! ## Walks about paths -/

attribute [local instance] flatExponential

def threeEdges : ProverSettings ℚ := ⟨⟨1 / 20, 1 / 5, 3, 0, 0, none⟩, 0, none⟩

theorem rested_pathStart : Rested pathStart.store := by
  unfold pathStart
  dsimp only
  split
  · rename_i hbuild
    exact ProofGraph.rested_of_explored (Explored.build hbuild _)
  · intro id _ hid
    cases hid

/-- The walks of at most three edges have two ninths for the third state. -/
theorem depthFirst_sums_walks_path : ProofGraph.Regular (fun _ => .unit) pathStart.store ∧ Rested pathStart.store ∧
    ∃ result last, (ProofGraph.walk (.uniform 0)).depthFirst threeEdges pathStart = (.ok result, last) ∧
      (∀ v, mass result v = ∑ n ∈ Finset.range 4, walkSum (pathEdges (.uniform 0) last.store) n 0 v) ∧
      ∑ n ∈ Finset.range 4, walkSum (pathEdges (.uniform 0) last.store) n 0 3 = 2 / 9 := by
  have hmass : ((ProofGraph.walk (.uniform 0)).depthFirst threeEdges pathStart).1.toOption.map
      (fun v => mass v 3) = some (2 / 9) := by
    decide +kernel
  refine ⟨regular_pathStart, rested_pathStart, ?_⟩
  rcases depthFirst_sums_walks (.uniform 0) rfl threeEdges regular_pathStart rested_pathStart with
    ⟨result, last, hrun, -, ⟨hregular, hrested⟩, hsums⟩ | ⟨halt, hhalt, -⟩
  · have hhere := hsums last hregular hrested (.refl _ _)
    rw [hrun] at hmass
    exact ⟨result, last, hrun, hhere, (hhere 3).symm.trans (Option.some.inj hmass)⟩
  · rw [hhalt] at hmass
    cases hmass

end ProofWalk
