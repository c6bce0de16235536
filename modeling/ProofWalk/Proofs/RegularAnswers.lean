import ProofWalk.Proofs.PushAccuracy
import ProofWalk.Proofs.RestedGraphs
/-!
# Proofs.RegularAnswers — what a prover is told of a regular graph

A regular graph answers every request about a state that it has: with edges of legal weights to states that it has
too, and with a degree.  What it has answered once it answers ever after, however it grows (`EdgesStand`).  So a
prover may be held to the answers of the graph that it leaves behind, though it was given them one by one.

`edgesOf` reads the weighted edges of a state off a graph as a plain function.  The walks that sums go over are
walks by this function, and the provers' requests are shown to give the same list (`ends_links`).
-/
namespace ProofWalk

variable {K : Type} [Field K] [LinearOrder K] [FloorSemiring K] [Exponential K]

namespace ProofGraph

/-- **The weighted edges of a state in a graph**, with the edge of a completed state to itself or without; none
where there is no answer. -/
def edgesOf (w : Weighter K) (trueLoop : Bool) (s : Store (ProofGraph K) K) (u : Nat) : List (Link K) :=
  match (weightedOutlinks u w trueLoop s).1 with
  | .ok links => links
  | .error _ => []

/-- Whether the edges of a state are settled, in a graph and all that grow from it. -/
def EdgesStand (w : Weighter K) (trueLoop : Bool) (g : ProofGraph K) (u : Nat) (links : List (Link K)) : Prop :=
  ∀ t : Store (ProofGraph K) K, (growth w).sound t.graph → (growth w).grows g t.graph →
    (weightedOutlinks u w trueLoop t).1 = .ok links

variable {w : Weighter K} {trueLoop : Bool} {g g' : ProofGraph K} {s : Store (ProofGraph K) K}
  {u d : Nat} {links : List (Link K)}

theorem EdgesStand.grow (h : EdgesStand w trueLoop g u links) (hg : (growth w).grows g g') :
    EdgesStand w trueLoop g' u links :=
  fun t ht hgt => h t ht ((growth w).trans hg hgt)

theorem EdgesStand.edgesOf_eq (h : EdgesStand w trueLoop s.graph u links) (hs : (growth w).sound s.graph) :
    edgesOf w trueLoop s u = links := by
  unfold edgesOf
  rw [h s hs ((growth w).refl _)]

omit [Exponential K] in
theorem DegreeStands.grow (h : DegreeStands w g u d) (hg : (growth w).grows g g') : DegreeStands w g' u d :=
  fun t ht hgt => h t ht ((growth w).trans hg hgt)

omit [Exponential K] in
theorem DegreeStands.degreeOf_eq (h : DegreeStands w s.graph u d) (hs : (growth w).sound s.graph) :
    degreeOf s u = d := by
  unfold degreeOf
  rw [h s hs ((growth w).refl _)]

/-- **The edges that a regular graph answers with** are the weighted ones of some derived edges, with a loop only
where that is asked for; a completed state of a graph at rest has no derived edges. -/
theorem edgesOf_cases {params : Nat → Params K} (h : Regular params s)
    (hw : w.params = params w.key) (trueLoop : Bool) (u : Nat) :
      edgesOf w trueLoop s u = [] ∨ ∃ looped named, w.linksOf u looped named = .ok (edgesOf w trueLoop s u) ∧
      (trueLoop = false → looped = false) ∧ (Rested s → s.graph.isCompleted u = true → named = []) := by
  have hanswer (looped : Bool) (named : List (Nat × List (String × K)))
      (hlinks : (weightedOutlinks u w trueLoop s).1 = w.linksOf u looped named) :
      edgesOf w trueLoop s u = [] ∨ w.linksOf u looped named = .ok (edgesOf w trueLoop s u) := by
    unfold edgesOf
    rw [hlinks]
    cases w.linksOf u looped named with
    | error e => exact .inl rfl
    | ok links => exact .inr rfl
  have hnone {e : ProverError K} (herror : (weightedOutlinks u w trueLoop s).1 = .error e) :
      edgesOf w trueLoop s u = [] := by
    unfold edgesOf
    rw [herror]
  have hsound (id : Nat) (hid : s.graph.isExpanded id) : (s.graph.states.get? id).isSome :=
    h.isSome_of_isExpanded hid
  cases h with
  | @state s h =>
    rcases h.expand u with ⟨e, hout⟩ | ⟨edges, s', hout, -⟩
    · exact .inl (hnone (congrArg Prod.fst (StateGraph.weightedOutlinks_error hout)))
    · refine (hanswer _ _ (StateGraph.weightedOutlinks_eq w trueLoop hout).1).imp_right fun hlinks =>
        ⟨_, _, hlinks, fun h0 => by rw [h0, Bool.false_and], fun hrested hcompleted => ?_⟩
      have hmoves := StateGraph.outlinks_moves u s
      have hedges := StateGraph.edges_of_outlinks (congrArg Prod.fst hout)
      rw [hout] at hmoves hedges
      have hrecorded := hrested.recorded hsound hmoves hcompleted (Option.isSome_of_eq_some hedges)
      rw [recorded_ofState] at hrecorded
      obtain rfl := Option.some.inj (hedges.symm.trans hrecorded)
      rfl
  | @cachingId s h =>
    rcases h.expand u with ⟨e, hrow⟩ | ⟨here, s', hrow, h', hhere⟩
    · exact .inl (hnone (congrArg Prod.fst (IdGraph.weightedOutlinks_error hrow)))
    · refine (hanswer _ _ (IdGraph.weightedOutlinks_eq hw trueLoop hrow
        (fun e he => (h'.closed u here hhere e he).2) h'.restart h'.trueLoop h'.honest).1).imp_right fun hlinks =>
          ⟨_, _, hlinks, fun h0 => by rw [h0, Bool.false_and], fun hrested hcompleted => ?_⟩
      have hmoves := IdGraph.row_moves u s
      rw [hrow] at hmoves
      obtain ⟨row, hrow', hfor⟩ := hrested.recorded hsound hmoves hcompleted (Option.isSome_of_eq_some hhere)
      obtain rfl := Option.some.inj (hhere.symm.trans hrow')
      cases hfor
      rfl

theorem edgesOf_nonneg {params : Nat → Params K} (h : Regular params s) (hw : w.params = params w.key)
    (trueLoop : Bool) (u : Nat) : ∀ l ∈ edgesOf w trueLoop s u, 0 ≤ l.weight := by
  intro l hl
  rcases edgesOf_cases h hw trueLoop u with hnone | ⟨looped, named, hlinks, -⟩
  · rw [hnone] at hl
    cases hl
  · have hyields := Weighter.linksOf_yields (w := w) u looped named
    rw [hlinks] at hyields
    exact (hyields l hl).1

end ProofGraph

open ProofGraph (EdgesStand DegreeStands edgesOf)

variable {params : Nat → Params K} {w : Weighter K} {τ τ' : ProofState K} {u : Nat}

theorem Ends.of_eq_ok {α : Type} {x : ProofM K α} {good : α → ProofState K → Prop} (h : Ends w τ x good) {a : α}
    (hrun : x τ = (.ok a, τ')) : Grown w τ τ' ∧ good a τ' := by
  rcases h with ⟨b, τ₁, hb, hgrown, hgood⟩ | ⟨halt, hhalt, -⟩
  · rw [hrun] at hb
    cases hb
    exact ⟨hgrown, hgood⟩
  · rw [hrun] at hhalt
    cases hhalt

/-- **A state is given its edges**, which have legal weights and lead to states. -/
theorem ends_links (h : ProofGraph.Regular params τ.store) (hw : w.params = params w.key)
    (hu : (τ.store.graph.states.get? u).isSome) (trueLoop : Bool) :
    Ends w τ ((ProofGraph.walk w).links u trueLoop) fun links τ' => ProofGraph.Regular params τ'.store ∧
      EdgesStand w trueLoop τ'.store.graph u links ∧
      ∀ l ∈ links, 0 ≤ l.weight ∧ (τ'.store.graph.states.get? l.child).isSome := by
  obtain ⟨looped, edges, hlinks, hregular, hchildren⟩ := h.weightedOutlinks hu hw trueLoop
  obtain ⟨-, hgrows, hanswer⟩ := ProofGraph.steady_weightedOutlinks u w trueLoop τ.store (h.sound w)
  have hyields := Weighter.linksOf_yields (w := w) u looped edges
  have hrun : (ProofGraph.walk w).links u trueLoop τ = _ := onGraph_eq (ProofGraph.weightedOutlinks u w trueLoop) τ
  have hgrown : Grown w τ { τ with store := (ProofGraph.weightedOutlinks u w trueLoop τ.store).2 } := ⟨hgrows, rfl⟩
  rw [hlinks] at hrun
  rcases hout : w.linksOf u looped edges with e | links
  · rw [hout] at hrun hyields
    exact .inr ⟨_, congrArg Prod.fst hrun, .refused hyields⟩
  · rw [hout] at hrun hyields
    refine .inl ⟨_, _, hrun, hgrown, hregular, hanswer links (hlinks.trans hout),
      fun l hl => ⟨(hyields l hl).1, ?_⟩⟩
    rcases (hyields l hl).2 with hroot | hself | ⟨e, he, hchild⟩
    · rw [hroot]
      exact hregular.root
    · rw [hself]
      exact hgrown.states.isSome hu
    · rw [← hchild]
      exact hchildren e he

theorem ends_normalized (h : ProofGraph.Regular params τ.store) (hw : w.params = params w.key)
    (hu : (τ.store.graph.states.get? u).isSome) (trueLoop : Bool) :
    Ends w τ ((ProofGraph.walk w).normalized u trueLoop) fun links τ' =>
      ProofGraph.Regular params τ'.store ∧ ∃ all,
      EdgesStand w trueLoop τ'.store.graph u all ∧ links = Walk.normalize all ∧
      ∀ l ∈ all, 0 ≤ l.weight ∧ (τ'.store.graph.states.get? l.child).isSome := by
  unfold Walk.normalized
  refine (ends_links h hw hu trueLoop).bind fun all τ' _ _ ⟨hregular, hstand, hlegal⟩ => ?_
  exact ends_pure ⟨hregular, all, hstand, rfl, hlegal⟩

theorem ends_degree (h : ProofGraph.Regular params τ.store) (w : Weighter K)
    (hu : (τ.store.graph.states.get? u).isSome) :
    Ends w τ ((ProofGraph.walk w).degree u) fun d τ' => ProofGraph.Regular params τ'.store ∧
      DegreeStands w τ'.store.graph u d ∧ 0 < d := by
  obtain ⟨n, hn, hregular⟩ := h.degree hu true
  obtain ⟨-, hgrows, hanswer⟩ := ProofGraph.steady_degree w u true τ.store (h.sound w)
  have hrun : (ProofGraph.walk w).degree u τ = _ := onGraph_eq (ProofGraph.degree u true) τ
  rw [hn] at hrun
  exact .inl ⟨n + 1, _, hrun, ⟨hgrows, rfl⟩, hregular, hanswer _ hn, n.succ_pos⟩

end ProofWalk
