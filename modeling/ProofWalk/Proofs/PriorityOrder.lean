import Mathlib.Data.Rat.Floor
import ProofWalk.Proofs.PushDepth
import ProofWalk.Proofs.QueueOrder
import ProofWalk.Proofs.RegularAnswers
/-!
# Proofs.PriorityOrder — pushes by priority are made in order

The queue is not kept up to date: a state waits in it once for every ratio that it had when it was queued, and a
state that must not be settled waits as well.  What holds at every push is that each eligible state waits also with
the ratio that it has now (`Awaited`).  A push changes the ratios of no states but its own and those that it
touches, and these are queued anew; an entry that is passed over is not the present one of an eligible state.  So
the first entry that is not passed over is that of the eligible state with the largest ratio, and if there is none,
no state is eligible.
-/
namespace ProofWalk

open MassVector (mass)
open ProofGraph (growth answered Answers DegreeStands degreeOf)

/-! ## States that may be pushed

Whose turn it is depends on the pushes that were made, and on nothing that the queue remembers.  So depths, ratios
and eligibility are defined by a list of pushes, on a graph given by what it answers with; the depth on record for a
state is the least that pushes have given to it.  While the graph grows these stay what they are, as far as the
graph has been asked about the pushes (`Informed`): the edges of the pushed states, and the degrees of states with
residual mass that are not too deep. -/

namespace Walk

variable {K : Type} [Scalar K]

def depthsGiven (links : Nat → List (Link K)) : List Nat → Nat → List Nat
  | [], v => if v = 0 then [0] else []
  | u :: earlier, v =>
    if v ∈ (normalize (links u)).map (·.child) then
      ((depthsGiven links earlier u).min?.getD 0 + 1) :: depthsGiven links earlier v
    else depthsGiven links earlier v

/-- **The depth on record for a state** after some pushes: the least that it was given, if any. -/
def depthAfter (links : Nat → List (Link K)) (us : List Nat) (v : Nat) :
    Option Nat := (depthsGiven links us.reverse v).min?

theorem depthAfter_nil (links : Nat → List (Link K)) (v : Nat) :
    depthAfter links [] v = if v = 0 then some 0 else none := by
  unfold depthAfter
  rw [List.reverse_nil, depthsGiven]
  split
  · rfl
  · rfl

theorem depthAfter_snoc (links : Nat → List (Link K)) (us : List Nat) (u v : Nat) :
    depthAfter links (us ++ [u]) v =
      if v ∈ (normalize (links u)).map (·.child) then
        some (min ((depthAfter links us v).getD ((depthAfter links us u).getD 0 + 1))
          ((depthAfter links us u).getD 0 + 1))
      else depthAfter links us v := by
  unfold depthAfter
  rw [List.reverse_append, List.reverse_singleton, List.singleton_append, depthsGiven]
  split
  · rw [List.min?_cons]
    cases (depthsGiven links us.reverse v).min? with
    | none => simp
    | some d => simp [min_comm]
  · rfl

theorem depthAfter_congr {links links' : Nat → List (Link K)} {us : List Nat} (h : ∀ u ∈ us, links u = links' u) :
    depthAfter links us = depthAfter links' us := by
  induction us using List.reverseRecOn with
  | nil => rfl
  | append_singleton us u ih =>
    have hus := ih fun u' hu' => h u' (List.mem_append_left _ hu')
    funext v
    rw [depthAfter_snoc, depthAfter_snoc, hus, h u (by simp)]

end Walk

variable {K : Type} [Field K] [LinearOrder K] [FloorSemiring K] [Exponential K]

/-- **The residual mass of a state over its degree** after some pushes. -/
def ratioAfter (settings : ProverSettings K) (w : Weighter K) (s : Store (ProofGraph K) K)
    (us : List Nat) (v : Nat) : K :=
  mass (Walk.pushAll settings (answered w s) us : Pushing (ProofVector K)).residual v / degreeOf s v

/-- **A state that may be pushed** after some pushes: it is on record and not too deep, the depth of its calls is
allowed, and its ratio exceeds the threshold. -/
structure Eligible (settings : ProverSettings K) (w : Weighter K) (s : Store (ProofGraph K) K)
    (us : List Nat) (v : Nat) : Prop where
  depth : ∃ d ≤ settings.apr.maxDepth, Walk.depthAfter (answered w s) us v = some d
  allowed : settings.Allows s.graph v
  ratio : settings.apr.epsilon < ratioAfter settings w s us v

/-- **The state whose turn it is** after some pushes: the one with the largest ratio of all that may be pushed, and
of several the lowest. -/
structure Foremost (settings : ProverSettings K) (w : Weighter K) (s : Store (ProofGraph K) K)
    (us : List Nat) (u : Nat) : Prop where
  eligible : Eligible settings w s us u
  first : ∀ v, Eligible settings w s us v → ratioAfter settings w s us v < ratioAfter settings w s us u ∨
    ratioAfter settings w s us v = ratioAfter settings w s us u ∧ u ≤ v

/-- **What a graph has been asked about some pushes**, and answers ever after: the edges of the states that were
pushed, and the degrees of the states with residual mass that are not too deep. -/
structure Informed (settings : ProverSettings K) (w : Weighter K) (s : Store (ProofGraph K) K)
    (us : List Nat) : Prop where
  sound : (growth w).sound s.graph
  answers : ∀ u ∈ us, ∃ links, Answers w s.graph u links
  placed : ∀ v, mass (Walk.pushAll settings (answered w s) us : Pushing (ProofVector K)).residual v ≠ 0 →
    (s.graph.states.get? v).isSome
  degrees : ∀ v d, Walk.depthAfter (answered w s) us v = some d → d ≤ settings.apr.maxDepth →
    0 < mass (Walk.pushAll settings (answered w s) us : Pushing (ProofVector K)).residual v →
      ∃ n, DegreeStands w s.graph v n

section

variable {settings : ProverSettings K} {params : Nat → Params K} {w : Weighter K} {τ τ' : ProofState K}
  {us : List Nat} {u v : Nat}

theorem Informed.answered_eq (h : Informed settings w τ.store us) (hsound : (growth w).sound τ'.store.graph)
    (hgrown : Grown w τ τ') : ∀ u ∈ us, answered w τ.store u = answered w τ'.store u := by
  intro u hu
  obtain ⟨links, hlinks⟩ := h.answers u hu
  rw [hlinks.answered h.sound, (hlinks.grow hgrown.grows).answered hsound]

theorem Informed.masses_eq (h : Informed settings w τ.store us) (hsound : (growth w).sound τ'.store.graph)
    (hgrown : Grown w τ τ') :
    (Walk.pushAll settings (answered w τ.store) us : Pushing (ProofVector K)) =
      Walk.pushAll settings (answered w τ'.store) us :=
  Walk.pushAll_congr settings (h.answered_eq hsound hgrown)

theorem Informed.depths_eq (h : Informed settings w τ.store us) (hsound : (growth w).sound τ'.store.graph)
    (hgrown : Grown w τ τ') : Walk.depthAfter (answered w τ.store) us = Walk.depthAfter (answered w τ'.store) us :=
  Walk.depthAfter_congr (h.answered_eq hsound hgrown)

theorem Informed.grow (h : Informed settings w τ.store us) (hsound : (growth w).sound τ'.store.graph)
    (hgrown : Grown w τ τ') : Informed settings w τ'.store us where
  sound := hsound
  answers u hu := by
    obtain ⟨links, hlinks⟩ := h.answers u hu
    exact ⟨links, hlinks.grow hgrown.grows⟩
  placed v hv := by
    rw [← h.masses_eq hsound hgrown] at hv
    exact hgrown.states.isSome (h.placed v hv)
  degrees v d hd hdepth hv := by
    rw [← h.depths_eq hsound hgrown] at hd
    rw [← h.masses_eq hsound hgrown] at hv
    obtain ⟨n, hn⟩ := h.degrees v d hd hdepth hv
    exact ⟨n, hn.grow hgrown.grows⟩

variable [IsStrictOrderedRing K]

theorem residual_pos_of_ratio {s : Store (ProofGraph K) K} (h : 0 < ratioAfter settings w s us v) :
    0 < mass (Walk.pushAll settings (answered w s) us : Pushing (ProofVector K)).residual v := by
  by_contra hnone
  exact absurd h (not_lt.2 (div_nonpos_of_nonpos_of_nonneg (not_lt.1 hnone) (Nat.cast_nonneg _)))

omit [IsStrictOrderedRing K] in
theorem Informed.ratio_eq (h : Informed settings w τ.store us)
    (hsound : (growth w).sound τ'.store.graph) (hgrown : Grown w τ τ') {d : Nat}
    (hd : Walk.depthAfter (answered w τ.store) us v = some d) (hdepth : d ≤ settings.apr.maxDepth)
    (hmass : 0 < mass (Walk.pushAll settings (answered w τ.store) us : Pushing (ProofVector K)).residual v) :
    ratioAfter settings w τ'.store us v = ratioAfter settings w τ.store us v := by
  obtain ⟨n, hn⟩ := h.degrees v d hd hdepth hmass
  unfold ratioAfter
  rw [← h.masses_eq hsound hgrown, hn.degreeOf_eq h.sound, (hn.grow hgrown.grows).degreeOf_eq hsound]

theorem Informed.eligible_iff (hepsilon : 0 < settings.apr.epsilon) (h : Informed settings w τ.store us)
    (hsound : (growth w).sound τ'.store.graph) (hgrown : Grown w τ τ') (v : Nat) :
    (Eligible settings w τ.store us v ↔ Eligible settings w τ'.store us v) ∧
      (Eligible settings w τ.store us v → ratioAfter settings w τ'.store us v =
        ratioAfter settings w τ.store us v) := by
  have hdepths := h.depths_eq hsound hgrown
  have hmasses := h.masses_eq hsound hgrown
  -- both directions have a state on record with positive mass, and then know all there is to know
  have hsame (hdepth : ∃ d ≤ settings.apr.maxDepth, Walk.depthAfter (answered w τ.store) us v = some d)
      (hmass : 0 < mass (Walk.pushAll settings (answered w τ.store) us : Pushing (ProofVector K)).residual v) :
      ratioAfter settings w τ'.store us v = ratioAfter settings w τ.store us v ∧
        (settings.Allows τ'.store.graph v ↔ settings.Allows τ.store.graph v) := by
    obtain ⟨d, hle, hd⟩ := hdepth
    exact ⟨h.ratio_eq hsound hgrown hd hle hmass, hgrown.allows_iff (h.placed v hmass.ne')⟩
  refine ⟨⟨fun he => ?_, fun he => ?_⟩, fun he =>
    (hsame he.depth (residual_pos_of_ratio (hepsilon.trans he.ratio))).1⟩
  · obtain ⟨hratio, hallows⟩ := hsame he.depth (residual_pos_of_ratio (hepsilon.trans he.ratio))
    exact ⟨hdepths ▸ he.depth, hallows.2 he.allowed, hratio.symm ▸ he.ratio⟩
  · have hdepth := hdepths.symm ▸ he.depth
    have hmass := residual_pos_of_ratio (hepsilon.trans he.ratio)
    rw [← hmasses] at hmass
    obtain ⟨hratio, hallows⟩ := hsame hdepth hmass
    exact ⟨hdepth, hallows.1 he.allowed, hratio ▸ he.ratio⟩

theorem Foremost.grow (h : Foremost settings w τ.store us u) (hepsilon : 0 < settings.apr.epsilon)
    (hasked : Informed settings w τ.store us) (hsound : (growth w).sound τ'.store.graph) (hgrown : Grown w τ τ') :
    Foremost settings w τ'.store us u where
  eligible := (hasked.eligible_iff hepsilon hsound hgrown u).1.1 h.eligible
  first v hv := by
    obtain ⟨hiff, hratio⟩ := hasked.eligible_iff hepsilon hsound hgrown v
    rw [hratio (hiff.2 hv), (hasked.eligible_iff hepsilon hsound hgrown u).2 h.eligible]
    exact h.first v (hiff.2 hv)

end

/-! ## The queue

An entry is due if it is the present one of a state that may be pushed.  The queue gives its entries in the order in
which states are to be pushed, so the first that is due is the one wanted. -/

section

variable {params : Nat → Params K} {w : Weighter K} {τ : ProofState K} {V : Type} [MassVector V K] {st : Pushing V}

theorem ends_ratioOf (h : ProofGraph.Regular params τ.store) (w : Weighter K) (v : Nat)
    (hplaced : mass st.residual v ≠ 0 → (τ.store.graph.states.get? v).isSome) :
    Ends w τ ((ProofGraph.walk w).ratio st v) fun x τ' => ProofGraph.Regular params τ'.store ∧
      (mass st.residual v ≤ 0 ∧ x = 0 ∨
        0 < mass st.residual v ∧ ∃ n, DegreeStands w τ'.store.graph v n ∧ x = mass st.residual v / n) := by
  unfold Walk.ratio
  by_cases hnone : mass st.residual v ≤ 0
  · simp only [hnone, if_true]
    exact ends_pure ⟨h, .inl ⟨trivial, rfl⟩⟩
  · simp only [hnone, if_false]
    refine (ends_degree h w (hplaced fun h0 => hnone h0.le)).bind fun n τ' _ _ ⟨hregular, hstands, _⟩ => ?_
    refine ends_pure ⟨hregular, .inr ⟨not_le.1 hnone, n, hstands, ?_⟩⟩
    rw [Scalar.ofNat_eq]

end

/-- **Every state that may be pushed waits with the ratio that it has.** -/
def Awaited (settings : ProverSettings K) (w : Weighter K) (s : Store (ProofGraph K) K) (us : List Nat)
    (waiting : PriorityQueue (Queued K)) : Prop :=
  ∀ v, Eligible settings w s us v → ⟨ratioAfter settings w s us v, v⟩ ∈ waiting.toList

section

variable {settings : ProverSettings K} {params : Nat → Params K} {w : Weighter K}
  {τ τ' : ProofState K} {us : List Nat}
  {st : Pushing (ProofVector K)} {waiting : PriorityQueue (Queued K)} [IsStrictOrderedRing K]

theorem Awaited.grow (h : Awaited settings w τ.store us waiting) (hepsilon : 0 < settings.apr.epsilon)
    (hasked : Informed settings w τ.store us) (hsound : (growth w).sound τ'.store.graph) (hgrown : Grown w τ τ') :
    Awaited settings w τ'.store us waiting := by
  intro v hv
  obtain ⟨hiff, hratio⟩ := hasked.eligible_iff hepsilon hsound hgrown v
  rw [hratio (hiff.2 hv)]
  exact h v (hiff.2 hv)

theorem ends_isDue (hepsilon : 0 < settings.apr.epsilon) (hregular : ProofGraph.Regular params τ.store)
    (hasked : Informed settings w τ.store us) (hst : st = Walk.pushAll settings (answered w τ.store) us)
    {e : Queued K}
    (hdepth : ∃ d ≤ settings.apr.maxDepth, Walk.depthAfter (answered w τ.store) us e.id = some d) :
    Ends w τ ((ProofGraph.walk w).isDue settings st e) fun due τ' => ProofGraph.Regular params τ'.store ∧
      (due = true ↔ Eligible settings w τ'.store us e.id ∧ e.ratio = ratioAfter settings w τ'.store us e.id) := by
  subst hst
  unfold Walk.isDue
  refine (ends_ratioOf hregular w e.id (hasked.placed e.id)).bind fun x τ₁ _ hgrown ⟨hregular₁, hx⟩ => ?_
  have hsound := hregular₁.sound w
  have hratio : settings.apr.epsilon < ratioAfter settings w τ₁.store us e.id ∧
      e.ratio = ratioAfter settings w τ₁.store us e.id ↔
      (!(x == e.ratio) || decide (x ≤ settings.apr.epsilon)) = false := by
    rw [Bool.or_eq_false_iff, Bool.not_eq_false', Scalar.beq_eq, decide_eq_true_eq,
      decide_eq_false_iff_not, not_le]
    rcases hx with ⟨hnone, rfl⟩ | ⟨hmass, n, hn, rfl⟩
    · rw [hasked.masses_eq hsound hgrown] at hnone
      constructor
      · rintro ⟨hlarge, -⟩
        exact absurd (residual_pos_of_ratio (hepsilon.trans hlarge)) (not_lt.2 hnone)
      · rintro ⟨-, hlarge⟩
        exact absurd hlarge (not_lt.2 hepsilon.le)
    · have hsame : ratioAfter settings w τ₁.store us e.id =
          mass (Walk.pushAll settings (answered w τ.store) us : Pushing (ProofVector K)).residual e.id / n := by
        unfold ratioAfter
        rw [← hasked.masses_eq hsound hgrown, hn.degreeOf_eq hsound]
      rw [hsame]
      exact ⟨fun ⟨hlarge, heq⟩ => ⟨heq.symm, hlarge⟩, fun ⟨heq, hlarge⟩ => ⟨hlarge, heq.symm⟩⟩
  rcases hskip : !(x == e.ratio) || decide (x ≤ settings.apr.epsilon) with _ | _
  · obtain ⟨hlarge, heq⟩ := hratio.2 hskip
    refine (ends_settleable settings w τ₁ e.id).mono fun due τ' _ ⟨hτ', hdue⟩ => ?_
    subst hτ'
    refine ⟨hregular₁, hdue.trans ⟨fun hallows => ⟨⟨?_, hallows, hlarge⟩, heq⟩, fun he => he.1.allowed⟩⟩
    rw [← hasked.depths_eq hsound hgrown]
    exact hdepth
  · refine ends_pure ⟨hregular₁, ⟨nofun, fun ⟨he, heq⟩ => ?_⟩⟩
    rw [hratio.1 ⟨he.ratio, heq⟩] at hskip
    cases hskip

/-- **A queue that is up to date** after some pushes: whatever is in it is on record and not too deep, and every
state that may be pushed waits with the ratio that it has. -/
structure UpToDate (settings : ProverSettings K) (params : Nat → Params K) (w : Weighter K) (us : List Nat)
    (st : Pushing (ProofVector K)) (waiting : PriorityQueue (Queued K)) (τ : ProofState K) : Prop where
  regular : ProofGraph.Regular params τ.store
  asked : Informed settings w τ.store us
  masses : st = Walk.pushAll settings (answered w τ.store) us
  ordered : waiting.Ordered Queued.before
  shallow : ∀ e ∈ waiting.toList, ∃ d ≤ settings.apr.maxDepth,
    Walk.depthAfter (answered w τ.store) us e.id = some d
  awaited : Awaited settings w τ.store us waiting

/-- **The next entry that is due is that of the state whose turn it is**; if there is none, no state may be pushed. -/
theorem ends_nextAmong (hepsilon : 0 < settings.apr.epsilon) {count : Nat}
    (h : UpToDate settings params w us st waiting τ) (hcount : waiting.toList.length ≤ count) :
    Ends w τ ((ProofGraph.walk w).nextAmong settings st count waiting) fun next τ' =>
      ProofGraph.Regular params τ'.store ∧ (next = none → ∀ v, ¬Eligible settings w τ'.store us v) ∧
      ∀ u rest, next = some (u, rest) → Foremost settings w τ'.store us u ∧ rest.Ordered Queued.before ∧
        ∀ v, v ≠ u → Eligible settings w τ'.store us v →
          ⟨ratioAfter settings w τ'.store us v, v⟩ ∈ rest.toList := by
  have hempty (hnone : waiting.toList = []) (v : Nat) : ¬Eligible settings w τ.store us v := by
    intro hv
    have hwaits := h.awaited v hv
    rw [hnone] at hwaits
    cases hwaits
  induction count generalizing waiting τ with
  | zero =>
    have hnone := List.length_eq_zero_iff.1 (Nat.le_zero.1 hcount)
    exact ends_pure ⟨h.regular, fun _ => hempty hnone, fun _ _ hnext => by cases hnext⟩
  | succ count ih =>
    unfold Walk.nextAmong
    rcases hpop : waiting.pop? Queued.before with _ | ⟨e, rest⟩
    · cases waiting with
      | empty => exact ends_pure ⟨h.regular, fun _ => hempty rfl, fun _ _ hnext => by cases hnext⟩
      | node size first left right => cases hpop
    · have hperm := PriorityQueue.toList_of_pop? hpop
      obtain ⟨hforemost, hordered⟩ := h.ordered.pop? Queued.ranks_before hpop
      have hshallow := h.shallow e (hperm.mem_iff.2 List.mem_cons_self)
      refine (ends_isDue hepsilon h.regular h.asked h.masses hshallow).bind fun due τ₁ _ hgrown hanswer => ?_
      obtain ⟨hregular, hdue⟩ := hanswer
      have hsound := hregular.sound w
      have hawaited := h.awaited.grow hepsilon h.asked hsound hgrown
      cases due with
      | true =>
        obtain ⟨heligible, hratio⟩ := hdue.1 rfl
        refine ends_pure ⟨hregular, (fun hnone => by cases hnone), fun u rest' hnext => ?_⟩
        cases hnext
        refine ⟨⟨heligible, fun v hv => ?_⟩, hordered, fun v hvu hv => ?_⟩
        · have hbehind := Queued.before_eq_false.1 (hforemost _ (hawaited v hv))
          rw [hratio] at hbehind
          exact hbehind
        · rcases List.mem_cons.1 (hperm.mem_iff.1 (hawaited v hv)) with hself | hrest
          · exact absurd (congrArg Queued.id hself) hvu
          · exact hrest
      | false =>
        -- the entry passed over is the present one of no state that may be pushed
        have hpassed : UpToDate settings params w us st rest τ₁ :=
          { regular := hregular
            asked := h.asked.grow hsound hgrown
            masses := h.masses.trans (h.asked.masses_eq hsound hgrown)
            ordered := hordered
            shallow := fun e' he' => by
              rw [← h.asked.depths_eq hsound hgrown]
              exact h.shallow e' (hperm.mem_iff.2 (List.mem_cons_of_mem e he'))
            awaited := fun v hv => by
              rcases List.mem_cons.1 (hperm.mem_iff.1 (hawaited v hv)) with hself | hrest
              · subst hself
                exact absurd (hdue.2 ⟨hv, rfl⟩) Bool.false_ne_true
              · exact hrest }
        refine ih hpassed ?_ fun hnone v hv => ?_
        · have hlength := hperm.length_eq
          rw [List.length_cons] at hlength
          omega
        · have hwaits := hpassed.awaited v hv
          rw [hnone] at hwaits
          cases hwaits

end

/-! ## A push and what is queued after it

After a push the states that it touches are queued with their new ratios.  For any other state nothing has changed
but that it may have been eligible before, and then it waits already. -/

theorem Walk.mem_ascending {ids : List Nat} {v : Nat} (h : v ∈ ids) : v ∈ Walk.ascending ids := by
  have hfold : ∀ (ids : List Nat) (m : SortedMap Nat Unit), v ∈ ids ∨ v ∈ m →
      v ∈ ids.foldl (fun m i => m.insert i ()) m := by
    intro ids
    induction ids with
    | nil => exact fun m hm => hm.resolve_left (by simp)
    | cons i rest ih =>
      intro m hm
      refine ih _ ?_
      rcases hm with hids | hm
      · rcases List.mem_cons.1 hids with rfl | hrest
        · exact .inr Std.ExtTreeMap.mem_insert_self
        · exact .inl hrest
      · exact .inr (Std.ExtTreeMap.mem_insert.2 (.inr hm))
  exact Std.ExtTreeMap.mem_keys.2 (hfold ids ∅ (.inl h))

section

variable {V : Type} [MassVector V K] [LawfulMass V K] {settings : ProverSettings K} {links : List (Link K)}

omit [Exponential K] in
theorem mass_spread_of_notMem {moved : K} {v : V} {i : Nat}
    (h : i ∉ links.map (·.child)) :
    mass (links.foldl (fun r l => MassVector.add r l.child (moved * l.weight)) v) i = mass v i := by
  induction links generalizing v with
  | nil => rfl
  | cons l rest ih =>
    rw [List.map_cons, List.mem_cons, not_or] at h
    rw [List.foldl_cons, ih h.2, LawfulMass.mass_add, if_neg h.1]

omit [Exponential K] in
/-- **A push changes the residual mass of no states but its own and those that it touches.** -/
theorem residual_pushed {st : Pushing V} {u v : Nat}
    (h : v ∉ links.map (·.child) ++ [u]) : mass (Walk.pushed settings st u links).residual v =
      mass st.residual v := by
  rw [List.mem_append, List.mem_singleton, not_or] at h
  unfold Walk.pushed
  rw [mass_spread_of_notMem h.1, LawfulMass.mass_set, if_neg h.2]

omit [Exponential K] in
theorem residual_placed (settings : ProverSettings K) {here : Nat → Prop} {st : Pushing V} {u : Nat}
    (h : ∀ v, mass st.residual v ≠ 0 → here v) (hu : here u) (hchildren : ∀ l ∈ links, here l.child) :
    ∀ v, mass (Walk.pushed settings st u (Walk.normalize links)).residual v ≠ 0 → here v := by
  intro v hv
  rcases mass_spread_ne_zero hv with hkept | ⟨l, hl, rfl⟩
  · rw [LawfulMass.mass_set] at hkept
    split at hkept
    · rename_i hvu
      rw [hvu]
      exact hu
    · exact h v hkept
  · obtain ⟨l', hl', hchild, -⟩ := Walk.mem_normalize hl
    rw [← hchild]
    exact hchildren l' hl'

end

section

variable {settings : ProverSettings K} {params : Nat → Params K} {w : Weighter K} {τ τ' : ProofState K}
  {us : List Nat} {u : Nat} {st : Pushing (ProofVector K)} {waiting : PriorityQueue (Queued K)}

theorem ends_pushOf (h : ProofGraph.Regular params τ.store) (hw : w.params = params w.key)
    (hu : (τ.store.graph.states.get? u).isSome) (st : Pushing (ProofVector K)) :
    Ends w τ ((ProofGraph.walk w).push settings st u) fun r τ' => ProofGraph.Regular params τ'.store ∧ ∃ links,
      Answers w τ'.store.graph u links ∧ (∀ l ∈ links, (τ'.store.graph.states.get? l.child).isSome) ∧
      r = (Walk.pushed settings st u (Walk.normalize links), (Walk.normalize links).map (·.child)) := by
  unfold Walk.push
  refine (ends_normalized h hw hu true).bind fun links τ' _ _ ⟨hregular, all, hstand, hlinks, hlegal⟩ => ?_
  subst hlinks
  exact ends_pure ⟨hregular, all, hstand, fun l hl => (hlegal l hl).2, rfl⟩

theorem ends_enqueue {depths : SortedMap Nat Nat} {ids : List Nat}
    (h : ProofGraph.Regular params τ.store) (w : Weighter K)
    (hplaced : ∀ v, mass st.residual v ≠ 0 → (τ.store.graph.states.get? v).isSome)
    (hordered : waiting.Ordered Queued.before) :
    Ends w τ ((ProofGraph.walk w).enqueue settings st depths ids waiting) fun waiting' τ' =>
      ProofGraph.Regular params τ'.store ∧
      waiting'.Ordered Queued.before ∧ (∀ e ∈ waiting.toList, e ∈ waiting'.toList) ∧
      ∀ v ∈ ids, depths[v]?.any (settings.apr.maxDepth < ·) = false → 0 < mass st.residual v →
        ∃ n, DegreeStands w τ'.store.graph v n ∧
          (settings.apr.epsilon < mass st.residual v / n → ⟨mass st.residual v / n, v⟩ ∈ waiting'.toList) := by
  induction ids generalizing waiting τ with
  | nil => exact ends_pure ⟨h, hordered, fun _ he => he, fun _ hv => absurd hv List.not_mem_nil⟩
  | cons v rest ih =>
    unfold Walk.enqueue
    cases hdeep : depths[v]?.any (settings.apr.maxDepth < ·) with
    | true =>
      rw [if_pos rfl]
      refine (ih h hplaced hordered).mono fun waiting' τ' _ hrest => ?_
      obtain ⟨hregular, hordered', hkept, hqueued⟩ := hrest
      refine ⟨hregular, hordered', hkept, List.forall_mem_cons.2 ⟨fun hshallow => ?_, hqueued⟩⟩
      rw [hdeep] at hshallow
      cases hshallow
    | false =>
      rw [if_neg Bool.false_ne_true]
      refine (ends_ratioOf h w v (hplaced v)).bind fun x τ₁ _ hgrown hanswer => ?_
      obtain ⟨hregular₁, hx⟩ := hanswer
      have hplaced₁ : ∀ v, mass st.residual v ≠ 0 → (τ₁.store.graph.states.get? v).isSome := fun v hv =>
        hgrown.states.isSome (hplaced v hv)
      have hordered₁ : (if settings.apr.epsilon < x then waiting.insert Queued.before ⟨x, v⟩
          else waiting).Ordered Queued.before := by
        split
        · exact hordered.insert Queued.ranks_before _
        · exact hordered
      refine (ih hregular₁ hplaced₁ hordered₁).mono fun waiting' τ' hgrown' hrest => ?_
      obtain ⟨hregular, hordered', hkept, hqueued⟩ := hrest
      refine ⟨hregular, hordered', fun e he => hkept e ?_, List.forall_mem_cons.2 ⟨fun _ hmass => ?_, hqueued⟩⟩
      · split
        · exact (PriorityQueue.toList_insert_perm ..).mem_iff.2 (List.mem_cons_of_mem _ he)
        · exact he
      · rcases hx with ⟨hnone, -⟩ | ⟨-, n, hn, rfl⟩
        · exact absurd hmass (not_lt.2 hnone)
        · refine ⟨n, hn.grow hgrown'.grows, fun hlarge => hkept _ ?_⟩
          rw [if_pos hlarge]
          exact (PriorityQueue.toList_insert_perm ..).mem_iff.2 List.mem_cons_self

theorem Informed.snoc {s : Store (ProofGraph K) K} (h : Informed settings w s us) {links : List (Link K)}
    (hlinks : Answers w s.graph u links) (hu : (s.graph.states.get? u).isSome)
    (hchildren : ∀ l ∈ links, (s.graph.states.get? l.child).isSome)
    (hdegrees : ∀ v ∈ (Walk.normalize links).map (·.child) ++ [u], ∀ d,
      Walk.depthAfter (answered w s) (us ++ [u]) v = some d → d ≤ settings.apr.maxDepth →
      0 < mass (Walk.pushAll settings (answered w s) (us ++ [u]) : Pushing (ProofVector K)).residual v →
      ∃ n, DegreeStands w s.graph v n) : Informed settings w s (us ++ [u]) where
  sound := h.sound
  answers v hv := by
    rcases List.mem_append.1 hv with hv | hv
    · exact h.answers v hv
    · rw [List.mem_singleton.1 hv]
      exact ⟨links, hlinks⟩
  placed := by
    rw [Walk.pushAll_snoc, hlinks.answered h.sound]
    exact residual_placed _ h.placed hu hchildren
  degrees v d hd hdepth hmass := by
    by_cases hv : v ∈ (Walk.normalize links).map (·.child) ++ [u]
    · exact hdegrees v hv d hd hdepth hmass
    · rw [Walk.depthAfter_snoc, hlinks.answered h.sound,
        if_neg fun hchild => hv (List.mem_append_left _ hchild)] at hd
      rw [Walk.pushAll_snoc, hlinks.answered h.sound, residual_pushed hv] at hmass
      exact h.degrees v d hd hdepth hmass

theorem Eligible.of_snoc (settings : ProverSettings K) (us : List Nat) {s : Store (ProofGraph K) K} {v : Nat}
    (hv : v ∉ (Walk.normalize (answered w s u)).map (·.child) ++ [u]) :
    ratioAfter settings w s (us ++ [u]) v = ratioAfter settings w s us v ∧
      (Eligible settings w s (us ++ [u]) v → Eligible settings w s us v) := by
  have hratio : ratioAfter settings w s (us ++ [u]) v = ratioAfter settings w s us v := by
    unfold ratioAfter
    rw [Walk.pushAll_snoc, residual_pushed hv]
  refine ⟨hratio, fun h => ⟨?_, h.allowed, hratio ▸ h.ratio⟩⟩
  have hdepth := h.depth
  rw [Walk.depthAfter_snoc, if_neg fun hchild => hv (List.mem_append_left _ hchild)] at hdepth
  exact hdepth

end

/-! ## Runs of the queue

`Walk.Queue.InOrder` is the invariant of a run: the pushes so far were made in turn, the masses and depths are those
of these pushes, and the queue is up to date.  It holds at the start, which waits alone, and each push keeps it. -/

/-- **Pushes that were made in turn**, each of the state whose turn it was after those before it. -/
def InTurn (settings : ProverSettings K) (w : Weighter K) (s : Store (ProofGraph K) K) (us : List Nat) : Prop :=
  ∀ before u, before ++ [u] <+: us → Informed settings w s before ∧ Foremost settings w s before u

/-- **A run of the queue after some pushes.** -/
structure Walk.Queue.InOrder (settings : ProverSettings K) (params : Nat → Params K)
    (w : Weighter K) (us : List Nat) (q : Walk.Queue (ProofVector K) K) (τ : ProofState K) : Prop where
  upToDate : UpToDate settings params w us q.pushing q.waiting τ
  depths : ∀ v, q.depths[v]? = Walk.depthAfter (answered w τ.store) us v
  turns : InTurn settings w τ.store us

section

variable {settings : ProverSettings K} {params : Nat → Params K} {w : Weighter K} {τ τ' : ProofState K}
  {us : List Nat} {u : Nat} {q : Walk.Queue (ProofVector K) K} [IsStrictOrderedRing K]

theorem InTurn.grow (h : InTurn settings w τ.store us) (hepsilon : 0 < settings.apr.epsilon)
    (hsound : (growth w).sound τ'.store.graph) (hgrown : Grown w τ τ') : InTurn settings w τ'.store us := by
  intro before u hbefore
  obtain ⟨hasked, hforemost⟩ := h before u hbefore
  exact ⟨hasked.grow hsound hgrown, hforemost.grow hepsilon hasked hsound hgrown⟩

omit [IsStrictOrderedRing K] in
theorem InTurn.snoc {s : Store (ProofGraph K) K} (h : InTurn settings w s us) (hasked : Informed settings w s us)
    (hu : Foremost settings w s us u) : InTurn settings w s (us ++ [u]) := by
  intro before v hbefore
  rcases List.prefix_concat_iff.1 hbefore with hall | hprefix
  · obtain ⟨rfl, hvu⟩ := List.append_inj' hall rfl
    rw [List.singleton_inj.1 hvu]
    exact ⟨hasked, hu⟩
  · exact h before v hprefix

theorem Walk.Queue.InOrder.grow (h : q.InOrder settings params w us τ) (hepsilon : 0 < settings.apr.epsilon)
    (hregular : ProofGraph.Regular params τ'.store) (hgrown : Grown w τ τ') :
    q.InOrder settings params w us τ' where
  upToDate :=
    { regular := hregular
      asked := h.upToDate.asked.grow (hregular.sound w) hgrown
      masses := h.upToDate.masses.trans (h.upToDate.asked.masses_eq (hregular.sound w) hgrown)
      ordered := h.upToDate.ordered
      shallow := fun e he => by
        rw [← h.upToDate.asked.depths_eq (hregular.sound w) hgrown]
        exact h.upToDate.shallow e he
      awaited := h.upToDate.awaited.grow hepsilon h.upToDate.asked (hregular.sound w) hgrown }
  depths v := by
    rw [← h.upToDate.asked.depths_eq (hregular.sound w) hgrown]
    exact h.depths v
  turns := h.turns.grow hepsilon (hregular.sound w) hgrown

theorem Walk.Queue.InOrder.push (h : q.InOrder settings params w us τ) (hturn : Foremost settings w τ.store us u)
    {rest waiting : PriorityQueue (Queued K)} (hrest : ∀ e ∈ rest.toList, e ∈ q.waiting.toList)
    (hothers : ∀ v, v ≠ u → Eligible settings w τ.store us v →
    ⟨ratioAfter settings w τ.store us v, v⟩ ∈ rest.toList)
    {links : List (Link K)} (hlinks : Answers w τ.store.graph u links)
    (hchildren : ∀ l ∈ links, (τ.store.graph.states.get? l.child).isSome) {depths : SortedMap Nat Nat}
    (hdepths : depths = Walk.deepen (q.depths.getD u 0) ((Walk.normalize links).map (·.child)) q.depths)
    {st : Pushing (ProofVector K)} (hst : st = Walk.pushed settings q.pushing u (Walk.normalize links))
    (hordered : waiting.Ordered Queued.before) (hkept : ∀ e ∈ rest.toList, e ∈ waiting.toList)
    (hshallow : ∀ e ∈ waiting.toList, e ∈ rest.toList ∨ e.id ∈ (Walk.normalize links).map (·.child) ++ [u] ∧
      depths[e.id]?.any (settings.apr.maxDepth < ·) = false)
    (hqueued : ∀ v ∈ (Walk.normalize links).map (·.child) ++ [u],
      depths[v]?.any (settings.apr.maxDepth < ·) = false →
      0 < mass st.residual v → ∃ n, DegreeStands w τ.store.graph v n ∧
        (settings.apr.epsilon < mass st.residual v / n → ⟨mass st.residual v / n, v⟩ ∈ waiting.toList))
    (hepsilon : 0 < settings.apr.epsilon) :
    Walk.Queue.InOrder settings params w (us ++ [u]) ⟨st, waiting, depths⟩ τ := by
  obtain ⟨hregular, hasked, hmasses, -, hbelow, -⟩ := h.upToDate
  have hedges := hlinks.answered hasked.sound
  obtain ⟨du, hdu, hdepthu⟩ := hturn.eligible.depth
  have hplaced := hasked.placed u (residual_pos_of_ratio (hepsilon.trans hturn.eligible.ratio)).ne'
  have hrecord : ∀ v, depths[v]? = Walk.depthAfter (answered w τ.store) (us ++ [u]) v := by
    intro v
    rw [hdepths, getElem?_deepen, Walk.depthAfter_snoc, hedges, h.depths v,
      Std.ExtTreeMap.getD_eq_getD_getElem?, h.depths u]
  have hnow : st = Walk.pushAll settings (answered w τ.store) (us ++ [u]) := by
    rw [Walk.pushAll_snoc, hedges, ← hmasses, hst]
  have hlow : ∀ v d, Walk.depthAfter (answered w τ.store) (us ++ [u]) v = some d → d ≤ settings.apr.maxDepth →
      depths[v]?.any (settings.apr.maxDepth < ·) = false := by
    intro v d hd hle
    rw [hrecord, hd, Option.any_some, decide_eq_false (not_lt.2 hle)]
  have hsnoc : Informed settings w τ.store (us ++ [u]) := by
    refine hasked.snoc hlinks hplaced hchildren fun v hv d hd hle hmass => ?_
    rw [← hnow] at hmass
    obtain ⟨n, hn, -⟩ := hqueued v hv (hlow v d hd hle) hmass
    exact ⟨n, hn⟩
  refine ⟨⟨hregular, hsnoc, hnow, hordered, fun e he => ?_, fun v hv => ?_⟩, hrecord, h.turns.snoc hasked hturn⟩
  · rcases hshallow e he with hwaits | ⟨hids, hdepth⟩
    · obtain ⟨old, hold, hrecorded⟩ := hbelow e (hrest e hwaits)
      obtain ⟨new, hnew, hdeepened⟩ := deepen_le ((h.depths e.id).trans hrecorded) (q.depths.getD u 0)
        ((Walk.normalize links).map (·.child))
      exact ⟨new, hnew.trans hold, by rw [← hrecord, hdepths, hdeepened]⟩
    · have hsome : ∃ d, depths[e.id]? = some d := by
        rcases List.mem_append.1 hids with htouched | hself
        · rw [hdepths, getElem?_deepen, if_pos htouched]
          exact ⟨_, rfl⟩
        · rw [List.mem_singleton.1 hself]
          obtain ⟨new, -, hdeepened⟩ := deepen_le ((h.depths u).trans hdepthu) (q.depths.getD u 0)
            ((Walk.normalize links).map (·.child))
          exact ⟨new, by rw [hdepths, hdeepened]⟩
      obtain ⟨d, hd⟩ := hsome
      rw [hd] at hdepth
      exact ⟨d, by simpa using hdepth, by rw [← hrecord, hd]⟩
  · by_cases hids : v ∈ (Walk.normalize links).map (·.child) ++ [u]
    · obtain ⟨d, hle, hd⟩ := hv.depth
      have hmass := residual_pos_of_ratio (hepsilon.trans hv.ratio)
      rw [← hnow] at hmass
      obtain ⟨n, hn, hentry⟩ := hqueued v hids (hlow v d hd hle) hmass
      have hratio : ratioAfter settings w τ.store (us ++ [u]) v = mass st.residual v / n := by
        unfold ratioAfter
        rw [← hnow, hn.degreeOf_eq hasked.sound]
      rw [hratio]
      exact hentry (hratio ▸ hv.ratio)
    · have huntouched : v ∉ (Walk.normalize (answered w τ.store u)).map (·.child) ++ [u] := by rwa [hedges]
      obtain ⟨hratio, hbefore⟩ := Eligible.of_snoc settings us huntouched
      have hvu : v ≠ u := fun h0 => hids (h0 ▸ List.mem_append_right _ (List.mem_singleton.2 rfl))
      rw [hratio]
      exact hkept _ (hothers v hvu (hbefore hv))

/-- **A run of the queue makes its pushes in turn**, until their number reaches its bound or no state may be pushed. -/
theorem ends_prioritySteps (hepsilon : 0 < settings.apr.epsilon)
    (hw : w.params = params w.key) {steps number : Nat} (h : q.InOrder settings params w us τ) :
    Ends w τ ((ProofGraph.walk w).prioritySteps settings steps number q) fun st τ' => ∃ more,
      st = Walk.pushAll settings (answered w τ'.store) (us ++ more) ∧ InTurn settings w τ'.store (us ++ more) ∧
        more.length ≤ steps ∧ (more.length = steps ∨ ∀ v, ¬Eligible settings w τ'.store (us ++ more) v) := by
  induction steps generalizing number q us τ with
  | zero =>
    exact ends_pure
      ⟨[], by rw [List.append_nil]; exact h.upToDate.masses, by simpa using h.turns, le_rfl, .inl rfl⟩
  | succ steps ih =>
    unfold Walk.prioritySteps Walk.nextQueued
    have hcount := h.upToDate.ordered.size_eq.ge
    refine (ends_nextAmong hepsilon h.upToDate hcount).bind fun next τ₁ hnext hgrown₁ hdue => ?_
    obtain ⟨hregular₁, hlast, hturn⟩ := hdue
    have h₁ := h.grow hepsilon hregular₁ hgrown₁
    cases next with
    | none =>
      refine ends_pure ⟨[], ?_, ?_, Nat.zero_le _, .inr ?_⟩
      · rw [List.append_nil]
        exact h₁.upToDate.masses
      · rw [List.append_nil]
        exact h₁.turns
      · rw [List.append_nil]
        exact hlast rfl
    | some next =>
      obtain ⟨u, rest⟩ := next
      obtain ⟨hforemost, hordered, hothers⟩ := hturn u rest rfl
      have hrest := (mem_of_nextAmong hnext).2
      have hu := h₁.upToDate.asked.placed u (residual_pos_of_ratio (hepsilon.trans hforemost.eligible.ratio)).ne'
      refine (ends_pushOf hregular₁ hw hu q.pushing).bind fun r τ₂ _ hgrown₂ hpush => ?_
      obtain ⟨hregular₂, links, hlinks, hchildren, rfl⟩ := hpush
      have h₂ := h₁.grow hepsilon hregular₂ hgrown₂
      have hplaced := residual_placed settings (h₂.upToDate.masses.symm ▸ h₂.upToDate.asked.placed)
        (hgrown₂.states.isSome hu) hchildren
      refine (ends_enqueue hregular₂ w hplaced hordered).bind fun waiting τ₃ henqueue hgrown₃ hwait => ?_
      obtain ⟨hregular₃, hordered₃, hkept, hqueued⟩ := hwait
      have h₃ := h₂.grow hepsilon hregular₃ hgrown₃
      have hgrown := hgrown₂.trans hgrown₃
      have hasked := h₁.upToDate.asked
      have hsound := hregular₃.sound w
      have hpushed := h₃.push (hforemost.grow hepsilon hasked hsound hgrown) hrest (fun v hvu hv => ?_)
        (hlinks.grow hgrown₃.grows) (fun l hl => hgrown₃.states.isSome (hchildren l hl)) rfl rfl hordered₃ hkept
        (fun e he => (mem_of_enqueue henqueue e he).imp_right fun h => ⟨Walk.mem_of_ascending h.1, h.2⟩)
        (fun v hv => hqueued v (Walk.mem_ascending hv)) hepsilon
      · refine (ends_report w τ₃ _ _ _ _ _).bind fun _ τ₄ _ hgrown₄ hsame => ?_
        have hpushed₄ := hpushed.grow hepsilon (hsame ▸ hregular₃) hgrown₄
        refine (ih hpushed₄).mono fun st τ' _ hlater => ?_
        obtain ⟨more, hst, hturns, hlength, hend⟩ := hlater
        rw [List.append_assoc, List.singleton_append] at hst hturns hend
        refine ⟨u :: more, hst, hturns, Nat.succ_le_succ hlength, hend.imp_left fun h => ?_⟩
        rw [List.length_cons, h]
      · obtain ⟨hiff, hratio⟩ := hasked.eligible_iff hepsilon hsound hgrown v
        rw [hratio (hiff.2 hv)]
        exact hothers v hvu (hiff.2 hv)

theorem ends_priority (hepsilon : 0 < settings.apr.epsilon) (hw : w.params = params w.key)
    (h : ProofGraph.Regular params τ.store) :
    Ends w τ ((ProofGraph.walk w).priority settings) fun (st : Pushing (ProofVector K)) τ' => ∃ us,
      st = Walk.pushAll settings (answered w τ'.store) us ∧ InTurn settings w τ'.store us ∧
        us.length ≤ Walk.priorityBound settings ∧
        (us.length = Walk.priorityBound settings ∨ ∀ v, ¬Eligible settings w τ'.store us v) := by
  have hseed : mass (Walk.seed : Pushing (ProofVector K)).residual 0 = 1 :=
    MassVector.mass_start (V := ProofVector K) 0
  have hroot (v : Nat) (hv : mass (Walk.seed : Pushing (ProofVector K)).residual v ≠ 0) : v = 0 :=
    MassVector.eq_of_mass_start (V := ProofVector K) hv
  unfold Walk.priority
  refine (ends_ratioOf h w 0 fun _ => h.root).bind fun x τ₁ _ hgrown ⟨hregular, hx⟩ => ?_
  rcases hx with ⟨hnone, -⟩ | ⟨-, n, hn, rfl⟩
  · rw [hseed] at hnone
    exact absurd hnone (not_le.2 zero_lt_one)
  · have hasked : Informed settings w τ₁.store [] := by
      refine ⟨hregular.sound w, nofun, fun v hv => ?_, fun v d hd _ hmass => ?_⟩
      · rw [hroot v hv]
        exact hregular.root
      · rw [hroot v hmass.ne']
        exact ⟨n, hn⟩
    refine (ends_prioritySteps hepsilon hw ⟨⟨hregular, hasked, rfl, .single _ _, fun e he => ?_, fun v hv => ?_⟩,
      fun v => ?_, fun before u hbefore => ?_⟩).mono fun st τ' _ hst => hst
    · obtain rfl := List.mem_singleton.1 he
      exact ⟨0, Nat.zero_le _, Walk.depthAfter_nil ..⟩
    · obtain rfl := hroot v (residual_pos_of_ratio (hepsilon.trans hv.ratio)).ne'
      refine List.mem_singleton.2 ?_
      unfold ratioAfter
      rw [hn.degreeOf_eq (hregular.sound w)]
      rfl
    · rw [Walk.depthAfter_nil, Std.ExtTreeMap.getElem?_insert]
      by_cases hv : v = 0
      · rw [hv]
        rfl
      · simp [hv, Ne.symm hv]
    · simp at hbefore

end

/-! ## The whole proof

The run ends with the number of pushes that the threshold allows, or when no state may be pushed. -/

/-- **What pushes by priority come to**: the masses are those of pushes each made in turn, there are no more pushes
than the threshold allows, and they end with that number or when no state may be pushed; all settled mass is within
the depth. -/
structure Prioritized (settings : ProverSettings K) (w : Weighter K) (us : List Nat)
    (result : ProofVector K) (pushes : Nat) (last : ProofState K) : Prop where
  masses : result = (Walk.pushAll settings (answered w last.store) us : Pushing (ProofVector K)).settled
  pushes : us.length = pushes
  turns : ∀ before u, before ++ [u] <+: us → Foremost settings w last.store before u
  bounded : us.length ≤ Scalar.round (1 / settings.apr.epsilon)
  ended : us.length = Scalar.round (1 / settings.apr.epsilon) ∨ ∀ v, ¬Eligible settings w last.store us v
  near : ∀ v, mass result v ≠ 0 → Near (ProofGraph.EdgeTo w last.store) (settings.apr.maxDepth + 1) v

/-- **A prover that pushes by priority pushes in order of priority**, on every regular graph, however large: each
push is of the state with the largest ratio among those that may be pushed, and of several the lowest, though the
queue holds entries that are out of date.  The proof does not end so only where a strict weighter refuses an edge of
negative weight, or the audience leaves. -/
theorem pushes_in_order [IsStrictOrderedRing K] {params : Nat → Params K} (p : Prover K)
    (hp : p.kind = .priorityQueue) (hepsilon : 0 < p.settings.apr.epsilon)
    (halpha : p.settings.apr.epsilon ≤ p.settings.apr.alpha)
    (hw : p.weighter.params = params p.weighter.key) {start : ProofState K}
    (hstart : ProofGraph.Regular params start.store) :
    Ends p.weighter start p.proveUnpruned fun r last =>
      ∃ us, Prioritized p.settings p.weighter us r.1 r.2 last := by
  have hcheck : p.settings.checkMinAlpha = .ok () := if_neg (not_lt.2 halpha)
  have hends : Ends p.weighter start p.proveUnpruned fun r last => ∃ us,
      r = ((Walk.pushAll p.settings (answered p.weighter last.store) us : Pushing (ProofVector K)).settled,
        us.length) ∧ InTurn p.settings p.weighter last.store us ∧ us.length ≤ Walk.priorityBound p.settings ∧
        (us.length = Walk.priorityBound p.settings ∨ ∀ v, ¬Eligible p.settings p.weighter last.store us v) := by
    unfold Prover.proveUnpruned
    rw [hp, hcheck]
    refine (ends_priority hepsilon hw hstart).bind fun st last _ _ ⟨us, hst, hturns⟩ => ends_pure ⟨us, ?_, hturns⟩
    rw [hst, Walk.pushes_pushAll]
  rcases hends with ⟨⟨result, pushes⟩, last, hrun, hgrown, us, hresult, hturns, hbounded, hended⟩ | hhalted
  · obtain ⟨hmasses, hpushes⟩ := Prod.mk.inj hresult
    refine .inl ⟨(result, pushes), last, hrun, hgrown, us, hmasses, hpushes.symm,
      fun before u hbefore => ?_, hbounded, hended, ?_⟩
    · exact (hturns before u hbefore).2
    · exact prioritized_within_depth p hp (hstart.sound p.weighter) hrun
  · exact .inr hhalted

/-! ## Pushes about paths -/

attribute [local instance] flatExponential

def nearPaths : Prover ℚ := ⟨.priorityQueue, ⟨⟨1 / 20, 1 / 5, 1, 0, 0, none⟩, 0, none⟩, .uniform 0, [], false, 0⟩

/-- Of the twenty pushes that the threshold allows five are made, the first of the start; then no state may be
pushed. -/
theorem pushes_in_order_path : nearPaths.kind = .priorityQueue ∧
    ProofGraph.Regular (fun _ => .unit) pathStart.store ∧
    ∃ result last u rest, nearPaths.proveUnpruned pathStart = (.ok (result, 5), last) ∧
      Prioritized nearPaths.settings nearPaths.weighter (u :: rest) result 5 last ∧
      Foremost nearPaths.settings nearPaths.weighter last.store [] u ∧
      ∀ v, ¬Eligible nearPaths.settings nearPaths.weighter last.store (u :: rest) v := by
  have hpushes : (nearPaths.proveUnpruned pathStart).1.toOption.map (·.2) = some 5 := by decide +kernel
  have hround : Scalar.round (1 / nearPaths.settings.apr.epsilon) = 20 := by decide +kernel
  refine ⟨rfl, regular_pathStart, ?_⟩
  rcases pushes_in_order nearPaths rfl (by norm_num [nearPaths]) (by norm_num [nearPaths])
      rfl regular_pathStart with
    ⟨⟨result, pushes⟩, last, hrun, -, us, h⟩ | ⟨halt, hhalt, -⟩
  · rw [hrun] at hpushes
    obtain rfl : pushes = 5 := Option.some.inj hpushes
    obtain ⟨u, rest, rfl⟩ := List.exists_cons_of_length_pos (l := us) (h.pushes ▸ Nat.succ_pos 4)
    refine ⟨result, last, u, rest, hrun, h, h.turns [] u ⟨rest, rfl⟩, h.ended.resolve_left ?_⟩
    rw [h.pushes, hround]
    exact nofun
  · rw [hhalt] at hpushes
    cases hpushes

end ProofWalk
