import ProofWalk.Proofs.Explorations
import ProofWalk.Proofs.FormPaths
import ProofWalk.Proofs.Pruning
/-!
# Proofs.RestedGraphs — completed states have no derived edges

A completed state has no ways on, so that no edges go on record for it when it is expanded.  Nothing else makes any:
requests, new snapshots and prunings keep a graph at rest, and so all graphs that come about are.

Sums over walks rely on this where a completed state is to have a loop alone (`Proofs.PathSums`).
-/
namespace ProofWalk

namespace ProofGraph

variable {K : Type} {s s' : Store (ProofGraph K) K} {u : Nat}

theorem isCompleted_extends (hstates : Extends s.graph.states.get? s'.graph.states.get?)
    (hu : (s.graph.states.get? u).isSome) : s'.graph.isCompleted u = s.graph.isCompleted u := by
  unfold isCompleted state?
  rw [hstates.eq hu]

theorem isSome_of_isCompleted (h : s.graph.isCompleted u = true) : (s.graph.states.get? u).isSome := by
  unfold isCompleted state? at h
  cases hu : s.graph.states.get? u with
  | none => simp [hu] at h
  | some f => rfl

variable [Scalar K]

/-- **Whether completed states have no derived edges**, as far as edges are on record. -/
def Rested (s : Store (ProofGraph K) K) : Prop := ∀ id, s.graph.isCompleted id = true →
    s.graph.isExpanded id → Recorded s id []

theorem rested_of_explored {m : Machine K} (h : Explored m s) : Rested s := by
  intro id hcompleted hexpanded
  obtain ⟨f, edges, hf, hrecorded, hfor⟩ := h.recorded id hexpanded
  have hf' : f.state.completed = true := by simpa [isCompleted, state?, hf] using hcompleted
  rw [Machine.waysOn_of_completed hf'] at hfor
  cases hfor
  exact hrecorded

/-- **Requests keep a graph at rest**: a completed state has no ways on. -/
theorem Rested.moves (h : Rested s) (hsound : ∀ id, s.graph.isExpanded id → (s.graph.states.get? id).isSome)
    (hmoves : Moves s s') : Rested s' := by
  intro id hcompleted hexpanded
  have hold (hbefore : s.graph.isExpanded id) : Recorded s' id [] := by
    rw [isCompleted_extends hmoves.extends (hsound id hbefore)] at hcompleted
    exact hmoves.recorded (h id hcompleted hbefore)
  cases hmoves with
  | still hstill => exact hold (hstill.expanded ▸ hexpanded)
  | expands i f hexpands =>
    rcases hexpands.expanded id hexpanded with rfl | hbefore
    · have hstate := hexpands.state
      rw [isCompleted_extends (Moves.expands id f hexpands).extends (Option.isSome_of_eq_some hstate)]
        at hcompleted
      have hf : f.state.completed = true := by simpa [isCompleted, state?, hstate] using hcompleted
      have hhere := hexpands.here
      rw [Machine.waysOn_of_completed hf] at hhere
      exact hhere
    · exact hold hbefore

/-- A completed state that a request has expanded has no edges on record. -/
theorem Rested.recorded (h : Rested s) (hsound : ∀ id, s.graph.isExpanded id → (s.graph.states.get? id).isSome)
    (hmoves : Moves s s') (hu : s.graph.isCompleted u = true) (hexpanded : s'.graph.isExpanded u) :
    Recorded s' u [] := by
  refine h.moves hsound hmoves u ?_ hexpanded
  rw [isCompleted_extends hmoves.extends (isSome_of_isCompleted hu)]
  exact hu

theorem Regular.isSome_of_isExpanded {params : Nat → Params K} (h : Regular params s) (hu : s.graph.isExpanded u) :
    (s.graph.states.get? u).isSome := by
  cases h with
  | state h => exact h.sound u hu
  | cachingId h => exact h.sound u hu

theorem Rested.request [Exponential K] {params : Nat → Params K} (h : Rested s)
    (hregular : Regular params s) (r : Request K) : Rested (r.run s).2 :=
  h.moves (fun _ hu => hregular.isSome_of_isExpanded hu) (request_moves r s)

end ProofGraph

/-! ## Graphs with numbered features

A row is the list of the edges of a state; pruning rewrites the rows of survivors, and an empty row stays empty. -/

open ProofGraph (Rested)

namespace IdGraph

section

variable {K : Type} {visible : Visibility} {s s' : Store (IdGraph K) K}

theorem rested_iff : Rested (ofId s) ↔ ∀ id row, s.graph.isCompleted id = true →
      s.graph.rows.get? id = some row → row = [] := by
  constructor
  · intro h id row hcompleted hrow
    obtain ⟨row', hrow', hfor⟩ := h id ((isCompleted_ofId s id).trans hcompleted) (Option.isSome_of_eq_some hrow)
    obtain rfl := Option.some.inj (hrow.symm.trans hrow')
    cases hfor
    rfl
  · intro h id hcompleted hexpanded
    obtain ⟨row, hrow⟩ := Option.isSome_iff_exists.1 hexpanded
    obtain rfl := h id row ((isCompleted_ofId s id).symm.trans hcompleted) hrow
    exact ⟨[], hrow, .nil⟩

theorem rested_of_graph (h : Rested (ofId s)) (hgraph : s'.graph = { s.graph with frozen := s'.graph.frozen }) :
    Rested (ofId s') := by
  rw [rested_iff] at h ⊢
  rw [hgraph]
  exact h

theorem rested_pruned [Scalar K] {masses : Nat → Nat → Option K}
    {numbers : List (Option Nat)} (h : Rested (ofId s)) (hp : Pruned visible masses s s' numbers)
    (hmasses : ∀ u, s.graph.rows.get? u = some [] → ∀ v, masses u v = none) :
    Rested (ofId s') := by
  rw [rested_iff] at h ⊢
  intro j row' hcompleted hrow'
  rcases hu : (s.graph.survivors visible)[j]? with _ | u
  · rw [hp.unexpanded j fun u hu' => nomatch hu.symm.trans hu'] at hrow'
    cases hrow'
  · rcases hrow : s.graph.rows.get? u with _ | row
    · rw [hp.unexpanded j fun u' hu' => by rwa [← Option.some.inj (hu.symm.trans hu')]] at hrow'
      cases hrow'
    · have hsame : s.graph.isCompleted u = true := by
        rw [← hcompleted, isCompleted, isCompleted, hp.states, hu]
        rfl
      obtain rfl := h u row hsame hrow
      obtain ⟨row'', hrow'', hbridged⟩ := hp.rows j u [] hu hrow
      obtain rfl := Option.some.inj (hrow'.symm.trans hrow'')
      have hempty : bridgedRow (s.features.intern subproofFeature).2 [] (s.graph.survivors visible) (masses u) =
          [] := by
        simp [bridgedRow, hmasses u hrow]
      rw [List.filter_nil, hempty] at hbridged
      cases hbridged
      rfl

end

variable {K : Type} [Scalar K] [Exponential K] {params : Nat → Params K} {s : Store (IdGraph K) K}

/-- **Pruning keeps a graph at rest**, whether it succeeds or not. -/
theorem rested_prune (h : Rested (ofId s)) (hregular : Regular params s.features s.graph) {w : Weighter K}
    (hw : w.params = params w.key) (visible : Visibility) (options : PruneOptions K) :
    Rested (ofId (IdGraph.prune w visible options s).2) := by
  rcases weighed_or_pruned hregular hw visible options rfl with ⟨_, -, ht⟩ |
    ⟨weights, restart, _, hweights, hpruned, -⟩
  · exact rested_of_graph h ht.graph
  · refine rested_pruned h hpruned fun u hu v => ?_
    -- no edges, so none has any weight to pass on
    have hnone : weights u = [] := by
      have hhere := hweights u
      rw [rowAt, hu] at hhere
      exact (Except.ok.inj hhere).symm
    rw [arriving, hnone]
    rfl

/-- **All graphs that come about are at rest.** -/
theorem Reached.rested (h : Reached params s) : Rested (ofId s) := by
  induction h with
  | @build m features features' g h counts =>
    exact ProofGraph.rested_of_explored (Explored.build (build_cachingId h) counts)
  | request h r hr hrun ih =>
    have hrequest := ih.request (.cachingId h.regular) r
    rw [hrun] at hrequest
    exact hrequest
  | freeze h hw ih =>
    obtain ⟨-, hweighed⟩ := meets_freeze hw _ ⟨rfl, rfl, h.regular.honest⟩
    exact rested_of_graph ih hweighed.graph
  | prune h hw visible options ih => exact rested_prune ih h.regular hw visible options
  | shared h hkeeps counts ih => exact rested_of_graph ih rfl

end IdGraph

end ProofWalk
