import ProofWalk.Proofs.GraphGrowth
import ProofWalk.Prove.Prover
/-!
# Proofs.PushRuns — provers that push make nothing but pushes

`Walk.pushAll` is what pushes of some states make of the mass on a graph whose edges are given.  A run of either
prover keeps to it (`Pushes`): whatever it has asked of the growing graph, its masses are those of pushes of some
states, with the edges that the graph still answers with, and so are the masses that its reports show.

So a fact about pushes of any states in any order is a fact about both provers, at every moment of a proof and
however the proof ends.
-/
namespace ProofWalk

namespace Walk

variable {K V : Type} [Scalar K] [MassVector V K]

/-- **Pushes of some states, one after the other**, on a graph given by its edges. -/
def pushAll (settings : ProverSettings K) (links : Nat → List (Link K)) (us : List Nat) : Pushing V :=
  us.foldl (fun st u => pushed settings st u (normalize (links u))) seed

theorem pushAll_snoc (settings : ProverSettings K) (links : Nat → List (Link K)) (us : List Nat) (u : Nat) :
    (pushAll settings links (us ++ [u]) : Pushing V) =
      pushed settings (pushAll settings links us) u (normalize (links u)) := by
  simp [pushAll]

/-- **What holds at the start and is kept by each push holds after all pushes.** -/
theorem pushAll_induction {settings : ProverSettings K} {links : Nat → List (Link K)} {us : List Nat}
    {motive : Pushing V → Prop} (hseed : motive seed)
    (hpush : ∀ st, motive st → ∀ u ∈ us, motive (pushed settings st u (normalize (links u)))) :
    motive (pushAll settings links us) :=
  List.foldlRecOn us _ hseed hpush

theorem pushes_pushAll (settings : ProverSettings K) (links : Nat → List (Link K)) (us : List Nat) :
    (pushAll settings links us : Pushing V).pushes = us.length := by
  have hfold (st : Pushing V) : (us.foldl (fun st u => pushed settings st u (normalize (links u))) st).pushes =
      st.pushes + us.length := by
    induction us generalizing st with
    | nil => rfl
    | cons u rest ih =>
      rw [List.foldl_cons, ih, List.length_cons]
      simp only [pushed]
      omega
  exact (hfold seed).trans (Nat.zero_add _)

theorem pushAll_congr (settings : ProverSettings K) {links links' : Nat → List (Link K)} {us : List Nat}
    (h : ∀ u ∈ us, links u = links' u) : (pushAll settings links us : Pushing V) = pushAll settings links' us := by
  refine List.foldl_rel (r := Eq) rfl fun u hu st st' hst => ?_
  rw [hst, h u hu]

omit [MassVector V K] in
theorem mem_normalize {links : List (Link K)} {l : Link K} (h : l ∈ normalize links) :
    ∃ l' ∈ links, l'.child = l.child ∧ l'.kind = l.kind := by
  unfold normalize at h
  dsimp only at h
  split at h
  · obtain ⟨l', hl', rfl⟩ := List.mem_map.1 h
    exact ⟨l', hl', rfl, rfl⟩
  · cases h

end Walk

def Progress.Shows {K V : Type} [Scalar K] [MassVector V K] (r : Progress K) (st : Pushing V) : Prop :=
  r = ⟨r.prover, r.iteration, st.pushes, (MassVector.entries st.residual).length,
    Scalar.sum ((MassVector.entries st.residual).map (·.2)), (MassVector.entries st.settled).length,
    Scalar.sum ((MassVector.entries st.settled).map (·.2))⟩

/-! ## Answers of a growing graph

The edges of a state that a graph has answered with are what it answers with ever after. -/

namespace ProofGraph

variable {K : Type} [Scalar K] [Exponential K]

/-- **The weighted edges that a graph answers with**; none where there is no answer. -/
def answered (w : Weighter K) (s : Store (ProofGraph K) K) (u : Nat) : List (Link K) :=
  match (weightedOutlinks u w true s).1 with
  | .ok links => links
  | .error _ => []

def Answers (w : Weighter K) (g : ProofGraph K) (u : Nat) (links : List (Link K)) : Prop :=
  ∀ t : Store (ProofGraph K) K, (growth w).sound t.graph → (growth w).grows g t.graph →
    (weightedOutlinks u w true t).1 = .ok links

variable {w : Weighter K} {g g' : ProofGraph K} {u : Nat} {links : List (Link K)}

theorem Answers.grow (h : Answers w g u links) (hg : (growth w).grows g g') : Answers w g' u links :=
  fun t ht hgt => h t ht ((growth w).trans hg hgt)

theorem Answers.answered {s : Store (ProofGraph K) K} (h : Answers w s.graph u links)
    (hs : (growth w).sound s.graph) : answered w s u = links := by
  unfold ProofGraph.answered
  rw [h s hs ((growth w).refl _)]

end ProofGraph

/-! ## Computations that let the graph grow

Requests that leave the masses alone are `Quiet`; degrees, tests and the upkeep of the queue are of this kind. -/

open ProofGraph (growth answered Answers)

/-- A computation of a proof that only lets the graph grow. -/
def Quiet {K α : Type} (w : Weighter K) (x : ProofM K α) : Prop :=
  ∀ τ, (growth w).sound τ.store.graph → (growth w).sound (x τ).2.store.graph ∧
    (growth w).grows τ.store.graph (x τ).2.store.graph ∧ (x τ).2.reports = τ.reports

section

variable {K α β : Type} {w : Weighter K}

theorem onGraph_eq (op : ProofGraph.Op K α) (τ : ProofState K) :
    ProofM.onGraph op τ = ((op τ.store).1.mapError .failed, { τ with store := (op τ.store).2 }) := rfl

theorem report_eq (r : Thunk (Progress K)) (τ : ProofState K) :
    (ProofM.report r τ).2 = τ ∨ (ProofM.report r τ).2 = { τ with reports := τ.reports.push r.get } := by
  obtain ⟨store, reports, audience⟩ := τ
  cases audience with
  | absent => exact .inl rfl
  | present patience =>
    right
    show ((if patience = some (reports.push r.get).size then throw .abandoned else pure () : ProofM K Unit)
      ⟨store, reports.push r.get, .present patience⟩).2 = _
    split
    · rfl
    · rfl

theorem quiet_onGraph {op : ProofGraph.Op K α} (hop : (growth w).Steady op) : Quiet w (ProofM.onGraph op) := by
  intro τ hs
  obtain ⟨hsound, hgrows, -⟩ := hop τ.store hs
  exact ⟨hsound, hgrows, rfl⟩

theorem quiet_pure (a : α) : Quiet w (pure a) := fun _ hs => ⟨hs, (growth w).refl _, rfl⟩

theorem Quiet.bind {x : ProofM K α} {f : α → ProofM K β} (hx : Quiet w x) (hf : ∀ a, Quiet w (f a)) :
    Quiet w (x >>= f) := by
  intro τ hs
  obtain ⟨hsound, hgrows, hreports⟩ := hx τ hs
  rcases hrun : x τ with ⟨e | a, τ'⟩
  · rw [bind_error hrun]
    rw [hrun] at hsound hgrows hreports
    exact ⟨hsound, hgrows, hreports⟩
  · rw [bind_ok hrun]
    rw [hrun] at hsound hgrows hreports
    obtain ⟨hsound', hgrows', hreports'⟩ := hf a τ' hsound
    exact ⟨hsound', (growth w).trans hgrows hgrows', hreports'.trans hreports⟩

end

/-! ## Pushes under way

`Pushes` ties the masses at hand to a list of pushed states, and every report since the proof began to a beginning
of it. -/

variable {K V : Type} [Scalar K] [Exponential K] [MassVector V K]

/-- **The masses of a proof under way are those of some pushes**, and so are those of its reports since it began. -/
structure Pushes (settings : ProverSettings K) (w : Weighter K) (start : ProofState K)
    (us : List Nat) (τ : ProofState K) (st : Pushing V) : Prop where
  sound : (growth w).sound τ.store.graph
  answers : ∀ u ∈ us, ∃ links, Answers w τ.store.graph u links
  masses : st = Walk.pushAll settings (answered w τ.store) us
  reports : ∃ heard, τ.reports.toList = start.reports.toList ++ heard ∧
    ∀ r ∈ heard, ∃ before, before <+: us ∧ r.Shows (Walk.pushAll settings (answered w τ.store) before : Pushing V)

namespace Pushes

variable {settings : ProverSettings K} {w : Weighter K} {start τ τ' : ProofState K}
  {us : List Nat} {st : Pushing V}

theorem begin (h : (growth w).sound start.store.graph) :
    Pushes settings w start [] start (Walk.seed : Pushing V) where
  sound := h
  answers := by simp
  masses := rfl
  reports := ⟨[], by simp⟩

theorem answered_eq (h : Pushes settings w start us τ st) (hsound : (growth w).sound τ'.store.graph)
    (hgrows : (growth w).grows τ.store.graph τ'.store.graph) :
    ∀ u ∈ us, answered w τ.store u = answered w τ'.store u := by
  intro u hu
  obtain ⟨links, hlinks⟩ := h.answers u hu
  rw [hlinks.answered h.sound, (hlinks.grow hgrows).answered hsound]

theorem grow (h : Pushes settings w start us τ st) (hsound : (growth w).sound τ'.store.graph)
    (hgrows : (growth w).grows τ.store.graph τ'.store.graph) (hreports : τ'.reports = τ.reports) :
    Pushes settings w start us τ' st where
  sound := hsound
  answers u hu := by
    obtain ⟨links, hlinks⟩ := h.answers u hu
    exact ⟨links, hlinks.grow hgrows⟩
  masses := by
    rw [h.masses]
    exact Walk.pushAll_congr settings (h.answered_eq hsound hgrows)
  reports := by
    obtain ⟨heard, heq, hshows⟩ := h.reports
    refine ⟨heard, by rw [hreports, heq], fun r hr => ?_⟩
    obtain ⟨before, hbefore, hr'⟩ := hshows r hr
    refine ⟨before, hbefore, ?_⟩
    rw [← Walk.pushAll_congr settings fun u hu => h.answered_eq hsound hgrows u (hbefore.subset hu)]
    exact hr'

theorem push {u : Nat} {links : List (Link K)} (h : Pushes settings w start us τ st)
    (hu : Answers w τ.store.graph u links) :
    Pushes settings w start (us ++ [u]) τ (Walk.pushed settings st u (Walk.normalize links)) where
  sound := h.sound
  answers v hv := by
    rcases List.mem_append.1 hv with hv | hv
    · exact h.answers v hv
    · rw [List.mem_singleton.1 hv]
      exact ⟨links, hu⟩
  masses := by rw [Walk.pushAll_snoc, ← h.masses, hu.answered h.sound]
  reports := by
    obtain ⟨heard, heq, hshows⟩ := h.reports
    refine ⟨heard, heq, fun r hr => ?_⟩
    obtain ⟨before, hbefore, hr'⟩ := hshows r hr
    exact ⟨before, hbefore.trans (List.prefix_append us [u]), hr'⟩

end Pushes

/-! ## Requests that leave the masses alone

Ratios, tests and the upkeep of the queue ask the graph and move nothing. -/

section

variable {w : Weighter K}

theorem quiet_ratio (st : Pushing V) (u : Nat) : Quiet w ((ProofGraph.walk w).ratio st u) := by
  unfold Walk.ratio
  dsimp only
  split
  · exact quiet_pure _
  · exact (quiet_onGraph (ProofGraph.steady_degree w u true)).bind fun _ => quiet_pure _

theorem quiet_settleable (settings : ProverSettings K) (u : Nat) :
    Quiet w ((ProofGraph.walk w).settleable settings u) := by
  unfold Walk.settleable
  split
  · exact quiet_pure _
  · exact fun _ hs => ⟨hs, (growth w).refl _, rfl⟩

theorem quiet_isDue (settings : ProverSettings K) (st : Pushing V) (q : Queued K) :
    Quiet w ((ProofGraph.walk w).isDue settings st q) := by
  unfold Walk.isDue
  refine (quiet_ratio st q.id).bind fun current => ?_
  split
  · exact quiet_pure _
  · exact quiet_settleable settings q.id

theorem quiet_nextAmong (settings : ProverSettings K) (st : Pushing V) (count : Nat)
    (waiting : PriorityQueue (Queued K)) : Quiet w ((ProofGraph.walk w).nextAmong settings st count waiting) := by
  induction count generalizing waiting with
  | zero => exact quiet_pure _
  | succ count ih =>
    unfold Walk.nextAmong
    split
    · exact quiet_pure _
    · refine (quiet_isDue settings st _).bind fun due => ?_
      split
      · exact quiet_pure _
      · exact ih _

theorem quiet_enqueue (settings : ProverSettings K) (st : Pushing V) (depths : SortedMap Nat Nat) (ids : List Nat)
    (waiting : PriorityQueue (Queued K)) :
    Quiet w ((ProofGraph.walk w).enqueue settings st depths ids waiting) := by
  induction ids generalizing waiting with
  | nil => exact quiet_pure _
  | cons v rest ih =>
    unfold Walk.enqueue
    split
    · exact ih _
    · exact (quiet_ratio st v).bind fun _ => ih _

end

/-! ## Computations that push

A computation that `Leads` takes the masses of some pushes to those of more.  This is said also of where it fails,
because graph and reports stay as they are then. -/

/-- **A computation that makes pushes**: it leads from the masses of some pushes to the masses of more, and so do the
pushes before a failure. -/
def Leads {α : Type} (settings : ProverSettings K) (w : Weighter K) (start : ProofState K)
    (st : Pushing V) (x : ProofM K α) (next : α → Pushing V) : Prop :=
  ∀ τ us, Pushes settings w start us τ st →
    ∃ us' st', Pushes settings w start us' (x τ).2 st' ∧ ∀ a, (x τ).1 = .ok a → st' = next a

section

variable {settings : ProverSettings K} {w : Weighter K} {start : ProofState K} {st : Pushing V} {α β : Type}

theorem leads_pure (next : α → Pushing V) (a : α) : Leads settings w start (next a) (pure a) next := by
  intro τ us h
  refine ⟨us, next a, h, fun b hb => ?_⟩
  cases hb
  rfl

theorem Leads.bind {x : ProofM K α} {f : α → ProofM K β} {next : α → Pushing V} {next' : β → Pushing V}
    (hx : Leads settings w start st x next) (hf : ∀ a, Leads settings w start (next a) (f a) next') :
    Leads settings w start st (x >>= f) next' := by
  intro τ us h
  obtain ⟨us', st', h', hnext⟩ := hx τ us h
  rcases hrun : x τ with ⟨e | a, τ'⟩
  · rw [bind_error hrun]
    rw [hrun] at h'
    exact ⟨us', st', h', fun _ hb => nomatch hb⟩
  · rw [bind_ok hrun]
    rw [hrun] at h' hnext
    rw [hnext a rfl] at h'
    exact hf a τ' us' h'

theorem Quiet.leads {x : ProofM K α} (hx : Quiet w x) (st : Pushing V) :
    Leads settings w start st x fun _ => st := by
  intro τ us h
  obtain ⟨hsound, hgrows, hreports⟩ := hx τ h.sound
  exact ⟨us, st, h.grow hsound hgrows hreports, fun _ _ => rfl⟩

theorem push_eq (settings : ProverSettings K) (w : Weighter K) (st : Pushing V) (u : Nat) :
    (ProofGraph.walk w).push settings st u = ProofM.onGraph (ProofGraph.weightedOutlinks u w true) >>= fun links =>
      pure (Walk.pushed settings st u (Walk.normalize links), (Walk.normalize links).map (·.child)) := by
  unfold Walk.push Walk.normalized
  rw [bind_assoc]
  simp only [pure_bind]
  rfl

theorem leads_push (st : Pushing V) (u : Nat) :
    Leads settings w start st ((ProofGraph.walk w).push settings st u) fun r => r.1 := by
  intro τ us h
  obtain ⟨hsound, hgrows, hanswer⟩ := ProofGraph.steady_weightedOutlinks u w true τ.store h.sound
  have hrun := onGraph_eq (ProofGraph.weightedOutlinks u w true) τ
  rw [push_eq]
  rcases hout : ProofGraph.weightedOutlinks u w true τ.store with ⟨e | links, store⟩
  · rw [hout] at hrun hsound hgrows
    rw [bind_error hrun]
    exact ⟨us, st, h.grow hsound hgrows rfl, fun _ ha => nomatch ha⟩
  · rw [hout] at hrun hsound hgrows hanswer
    rw [bind_ok hrun]
    have hgrown : Pushes settings w start us { τ with store } st := h.grow hsound hgrows rfl
    refine ⟨_, _, hgrown.push (hanswer links rfl), fun a ha => ?_⟩
    cases ha
    rfl

theorem leads_progress (name : String) (number : Nat) (st : Pushing V) :
    Leads settings w start st ((ProofGraph.walk w).progress name number st.pushes st.settled st.residual)
      fun _ => st := by
  intro τ us h
  have hshows (r : Progress K) (hr : r.Shows st) :
      Pushes settings w start us { τ with reports := τ.reports.push r } st := by
    obtain ⟨heard, heq, hheard⟩ := h.reports
    refine ⟨h.sound, h.answers, h.masses, heard ++ [r], by simp [heq], fun r' hr' => ?_⟩
    rcases List.mem_append.1 hr' with hr' | hr'
    · exact hheard r' hr'
    · rw [List.mem_singleton.1 hr']
      refine ⟨us, List.prefix_refl us, ?_⟩
      rw [← h.masses]
      exact hr
  have hprogress : ∃ r : Thunk (Progress K), r.get.Shows st ∧
      (ProofGraph.walk w).progress name number st.pushes st.settled st.residual = ProofM.report r := by
    refine ⟨_, ?_, rfl⟩
    rfl
  obtain ⟨r, hr, hrun⟩ := hprogress
  refine ⟨us, st, ?_, fun _ _ => rfl⟩
  rw [hrun]
  rcases report_eq r τ with hreport | hreport
  · rw [hreport]
    exact h
  · rw [hreport]
    exact hshows r.get hr

theorem leads_foldlM {f : Pushing V → β → ProofM K (Pushing V)}
    (hf : ∀ st b, Leads settings w start st (f st b) id) (l : List β) (st : Pushing V) :
    Leads settings w start st (l.foldlM f st) id := by
  induction l generalizing st with
  | nil => exact leads_pure id st
  | cons b rest ih =>
    rw [List.foldlM_cons]
    exact (hf st b).bind fun st' => ih st'

end

/-! ## Both provers

One lemma for each function of the provers, from a single push outwards.  Neither the order of the pushes nor what
they are made for matters to it. -/

section

variable {settings : ProverSettings K} {w : Weighter K} {start : ProofState K}

theorem leads_tryPush (epsilon : K) (st : Pushing V) (u : Nat) :
    Leads settings w start st ((ProofGraph.walk w).tryPush settings epsilon st u) fun r => r.1 := by
  unfold Walk.tryPush
  refine ((quiet_settleable settings u).leads st).bind fun allowed => ?_
  by_cases hallowed : allowed = true
  · simp only [hallowed]
    refine ((quiet_ratio st u).leads st).bind fun ratio => ?_
    by_cases hratio : ratio ≤ epsilon
    · rw [if_pos hratio]
      exact leads_pure (V := V) Prod.fst (st, [])
    · rw [if_neg hratio]
      exact leads_push st u
  · simp only [hallowed]
    exact leads_pure (V := V) Prod.fst (st, [])

theorem leads_pushFrom (epsilon : K) (hops u : Nat) (st : Pushing V) :
    Leads settings w start st ((ProofGraph.walk w).pushFrom settings epsilon hops u st) id := by
  induction hops generalizing u st with
  | zero => exact (leads_tryPush epsilon st u).bind fun r => leads_pure id r.1
  | succ hops ih => exact (leads_tryPush epsilon st u).bind fun r => leads_foldlM (fun st c => ih c st) r.2 r.1

theorem leads_pass (epsilon : K) (st : Pushing V) :
    Leads settings w start st ((ProofGraph.walk w).pass settings epsilon st) id :=
  leads_foldlM (fun st (e : Nat × K) => leads_pushFrom epsilon settings.apr.maxDepth e.1 st) _ st

theorem leads_passesAt (name : String) (epsilon : K) (fuel : Nat) (st : Pushing V × Nat) :
    Leads settings w start st.1 ((ProofGraph.walk w).passesAt settings name epsilon fuel st) fun r => r.1 := by
  induction fuel generalizing st with
  | zero => exact leads_pure (V := V) Prod.fst st
  | succ fuel ih =>
    unfold Walk.passesAt
    split
    · exact leads_pure (V := V) Prod.fst st
    · refine (leads_pass epsilon st.1).bind fun next => ?_
      split
      · exact leads_pure (V := V) Prod.fst (next, st.2)
      · exact (leads_progress name (st.2 + 1) next).bind fun _ => ih (next, st.2 + 1)

theorem leads_pushPasses (name : String) :
    Leads settings w start (Walk.seed : Pushing V) ((ProofGraph.walk w).pushPasses settings name) id := by
  have hlevels (levels : List K) (st : Pushing V × Nat) : Leads settings w start st.1
      (levels.foldlM (fun st epsilon => (ProofGraph.walk w).passesAt settings name epsilon
        (Walk.passBound settings) st) st)
      fun r => r.1 := by
    induction levels generalizing st with
    | nil => exact leads_pure (V := V) Prod.fst st
    | cons epsilon rest ih =>
      rw [List.foldlM_cons]
      exact (leads_passesAt name epsilon _ st).bind fun st' => ih st'
  unfold Walk.pushPasses
  exact (hlevels _ (Walk.seed, 0)).bind fun r => leads_pure id r.1

theorem leads_prioritySteps (steps number : Nat) (q : Walk.Queue V K) :
    Leads settings w start q.pushing ((ProofGraph.walk w).prioritySteps settings steps number q) id := by
  induction steps generalizing number q with
  | zero => exact leads_pure id q.pushing
  | succ steps ih =>
    unfold Walk.prioritySteps
    refine ((quiet_nextAmong settings q.pushing _ q.waiting).leads q.pushing).bind fun next => ?_
    cases next with
    | none => exact leads_pure id q.pushing
    | some next =>
      refine (leads_push q.pushing next.1).bind fun r => ?_
      refine ((quiet_enqueue settings r.1 _ _ next.2).leads r.1).bind fun waiting => ?_
      exact (leads_progress "priority-queue" number r.1).bind fun _ => ih (number + 1) ⟨r.1, waiting, _⟩

theorem leads_priority :
    Leads settings w start (Walk.seed : Pushing V) ((ProofGraph.walk w).priority settings) id := by
  unfold Walk.priority
  exact ((quiet_ratio Walk.seed 0).leads Walk.seed).bind fun ratio => leads_prioritySteps _ 1 ⟨Walk.seed, _, _⟩

end

end ProofWalk
