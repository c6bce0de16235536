import ProofWalk.Proofs.OrderlyProofs
import ProofWalk.Proofs.ProofRuns
import ProofWalk.Proofs.PushAccuracy
/-!
# Proofs.PushDepth — the bound for the depth is one for each descent

A descent of pushes crosses at most `maxDepth` edges, but it leaves residual mass one edge beyond the states that it
may push, and the next pass begins descents there.  So a pass carries settled mass `maxDepth + 1` edges farther
(`Held.pass`), and after some passes it lies within as many times that many edges of the start.  Only where there is
one pass is `maxDepth` a bound for the whole proof.

Pushes by priority record for each state the least number of edges by which pushes have come there, and queue no
state that is deeper than `maxDepth`.  There the bound holds for the whole proof.
-/
namespace ProofWalk

open MassVector (mass)
open ProofGraph (growth answered Answers)

/-! ## Distances from the start

Distances are counted in edges that the graph answers with, implied ones included; a restart leads to the start and
a loop nowhere else, so that neither leads farther.  An edge that has been answered stands while the graph grows. -/

/-- **A state that so many edges lead to** from the start. -/
inductive InSteps (edge : Nat → Nat → Prop) : Nat → Nat → Prop
  | start : InSteps edge 0 0
  | step {n u v : Nat} (h : InSteps edge n u) (hedge : edge u v) : InSteps edge (n + 1) v

/-- **A state that fewer edges than a bound lead to** from the start. -/
def Near (edge : Nat → Nat → Prop) (bound u : Nat) : Prop := ∃ n < bound, InSteps edge n u

section

variable {edge edge' : Nat → Nat → Prop} {n bound bound' u v : Nat}

theorem InSteps.mono (h : InSteps edge n u) (hedges : ∀ u v, edge u v → edge' u v) : InSteps edge' n u := by
  induction h with
  | start => exact .start
  | step _ hedge ih => exact .step ih (hedges _ _ hedge)

theorem Near.mono (h : Near edge bound u) (hedges : ∀ u v, edge u v → edge' u v) : Near edge' bound u := by
  obtain ⟨n, hn, hsteps⟩ := h
  exact ⟨n, hn, hsteps.mono hedges⟩

theorem Near.le (h : Near edge bound u) (hbound : bound ≤ bound') : Near edge bound' u := by
  obtain ⟨n, hn, hsteps⟩ := h
  exact ⟨n, hn.trans_le hbound, hsteps⟩

theorem Near.start (hbound : 0 < bound) : Near edge bound 0 := ⟨0, hbound, .start⟩

theorem Near.step (h : Near edge bound u) (hedge : edge u v) : Near edge (bound + 1) v := by
  obtain ⟨n, hn, hsteps⟩ := h
  exact ⟨n + 1, Nat.succ_lt_succ hn, .step hsteps hedge⟩

end

variable {K V : Type} [Field K] [LinearOrder K] [FloorSemiring K] [MassVector V K] [Exponential K]

namespace ProofGraph

variable {w : Weighter K} {g g' : ProofGraph K} {s : Store (ProofGraph K) K} {u v : Nat}

/-- **An edge that a graph answers with**, derived or implied: a loop leads nowhere else, and a restart leads to the
start. -/
def EdgeTo (w : Weighter K) (s : Store (ProofGraph K) K) (u v : Nat) : Prop := ∃ l ∈ answered w s u, l.child = v

def LeadsTo (w : Weighter K) (g : ProofGraph K) (u v : Nat) :
    Prop := ∃ links, Answers w g u links ∧ ∃ l ∈ links, l.child = v

theorem LeadsTo.grow (h : LeadsTo w g u v) (hgrows : (growth w).grows g g') : LeadsTo w g' u v := by
  obtain ⟨links, hlinks, hchild⟩ := h
  exact ⟨links, hlinks.grow hgrows, hchild⟩

theorem LeadsTo.edgeTo (h : LeadsTo w s.graph u v) (hs : (growth w).sound s.graph) : EdgeTo w s u v := by
  obtain ⟨links, hlinks, hchild⟩ := h
  rw [EdgeTo, hlinks.answered hs]
  exact hchild

end ProofGraph

open ProofGraph (LeadsTo)

/-! ## Masses and where they have come

`Held` is the invariant: settled mass within a bound, residual mass one edge farther.  `Advanced` adds that the
masses are still the same or that pushes have been made, which is how passes without pushes are told. -/

/-- **Masses on a sound graph that have come so far**: settled mass is within a bound, and residual mass one edge
farther. -/
structure Held (w : Weighter K) (bound : Nat) (st : Pushing V) (g : ProofGraph K) : Prop where
  sound : (growth w).sound g
  settled : ∀ u, mass st.settled u ≠ 0 → Near (LeadsTo w g) bound u
  residual : ∀ u, mass st.residual u ≠ 0 → Near (LeadsTo w g) (bound + 1) u

structure Advanced (w : Weighter K) (bound : Nat) (st : Pushing V) (τ : ProofState K)
    (st' : Pushing V) (τ' : ProofState K) : Prop where
  held : Held w bound st' τ'.store.graph
  grows : (growth w).grows τ.store.graph τ'.store.graph
  reports : τ'.reports = τ.reports
  pushes : st' = st ∨ st.pushes < st'.pushes

section

variable {w : Weighter K} {settings : ProverSettings K} {bound : Nat} {level : K} {st st' st'' : Pushing V}
  {τ τ' τ'' : ProofState K} {g g' : ProofGraph K} {n u : Nat} {α : Type}

theorem Held.grow (h : Held w bound st g) (hsound : (growth w).sound g') (hgrows : (growth w).grows g g') :
    Held w bound st g' where
  sound := hsound
  settled u hu := (h.settled u hu).mono fun _ _ hedge => hedge.grow hgrows
  residual u hu := (h.residual u hu).mono fun _ _ hedge => hedge.grow hgrows

theorem Held.le {bound' : Nat} (h : Held w bound st g) (hbound : bound ≤ bound') : Held w bound' st g where
  sound := h.sound
  settled u hu := (h.settled u hu).le hbound
  residual u hu := (h.residual u hu).le (Nat.succ_le_succ hbound)

theorem Advanced.refl (h : Held w bound st τ.store.graph) : Advanced w bound st τ st τ :=
  ⟨h, (growth w).refl _, rfl, .inl rfl⟩

theorem Advanced.trans (h : Advanced w bound st τ st' τ') (h' : Advanced w bound st' τ' st'' τ'') :
    Advanced w bound st τ st'' τ'' where
  held := h'.held
  grows := (growth w).trans h.grows h'.grows
  reports := h'.reports.trans h.reports
  pushes := by
    rcases h.pushes, h'.pushes with ⟨rfl | hmore, rfl | hmore'⟩
    · exact .inl rfl
    · exact .inr hmore'
    · exact .inr hmore
    · exact .inr (hmore.trans hmore')

theorem Near.grow (h : Near (LeadsTo w g) bound u) (hgrows : (growth w).grows g g') :
    Near (LeadsTo w g') bound u :=
  h.mono fun _ _ hedge => hedge.grow hgrows

theorem Held.quiet {x : ProofM K α} {a : α} (h : Held w bound st τ.store.graph) (hx : Quiet w x)
    (hrun : x τ = (.ok a, τ')) : Advanced w bound st τ st τ' := by
  obtain ⟨hsound, hgrows, hreports⟩ := hx τ h.sound
  rw [hrun] at hsound hgrows hreports
  exact ⟨h.grow hsound hgrows, hgrows, hreports, .inl rfl⟩

theorem Held.foldlM {f : Pushing V → α → ProofM K (Pushing V)} (state : α → Nat)
    (hf : ∀ st a τ st' τ', Held w bound st τ.store.graph → Near (LeadsTo w τ.store.graph) n (state a) →
      f st a τ = (.ok st', τ') → Advanced w bound st τ st' τ')
    {l : List α} (h : Held w bound st τ.store.graph) (hl : ∀ a ∈ l, Near (LeadsTo w τ.store.graph) n (state a))
    (hrun : l.foldlM f st τ = (.ok st', τ')) : Advanced w bound st τ st' τ' := by
  induction l generalizing st τ with
  | nil =>
    cases hrun
    exact .refl h
  | cons a rest ih =>
    rw [List.foldlM_cons] at hrun
    obtain ⟨st₁, τ₁, hfirst, hrest⟩ := bind_eq_ok hrun
    obtain ⟨hhere, hothers⟩ := List.forall_mem_cons.1 hl
    have hadvanced := hf st a τ st₁ τ₁ h hhere hfirst
    exact hadvanced.trans (ih hadvanced.held (fun b hb => (hothers b hb).grow hadvanced.grows) hrest)

variable [LawfulMass V K]

theorem held_seed (hsound : (growth w).sound g) : Held w 0 (Walk.seed : Pushing V) g where
  sound := hsound
  settled u hu := absurd (LawfulMass.mass_none u) hu
  residual u hu := by
    rw [MassVector.eq_of_mass_start hu]
    exact .start Nat.one_pos

/-! ## Descents

A push of a state within the bound moves mass to states one edge farther, and the descent goes on from these with
one edge fewer to cross; the induction is on the edges that are left. -/

/-- **A push of a state within the bound leaves all masses where they may be.** -/
theorem Held.pushed (h : Held w bound st g) (hu : Near (LeadsTo w g) n u) (hn : n ≤ bound) {links : List (Link K)}
    (hlinks : ∀ l ∈ links, LeadsTo w g u l.child) : Held w bound (Walk.pushed settings st u links) g where
  sound := h.sound
  settled i hi := by
    by_cases hiu : i = u
    · rw [hiu]
      exact hu.le hn
    · replace hi : mass (MassVector.add st.settled u (settings.apr.alpha * mass st.residual u)) i ≠ 0 := hi
      rw [LawfulMass.mass_add, if_neg hiu] at hi
      exact h.settled i hi
  residual i hi := by
    rcases mass_spread_ne_zero hi with hkept | ⟨l, hl, rfl⟩
    · rw [LawfulMass.mass_set] at hkept
      split at hkept
      · rename_i hiu
        rw [hiu]
        exact hu.le (Nat.le_succ_of_le hn)
      · exact h.residual i hkept
    · exact (hu.step (hlinks l hl)).le (Nat.succ_le_succ hn)

omit [LawfulMass V K] in
theorem push_eq_ok (hsound : (growth w).sound τ.store.graph) {r : Pushing V × List Nat}
    (hrun : (ProofGraph.walk w).push settings st u τ = (.ok r, τ')) :
    ∃ links, Answers w τ'.store.graph u links ∧ (growth w).sound τ'.store.graph ∧
      (growth w).grows τ.store.graph τ'.store.graph ∧ τ'.reports = τ.reports ∧
      r = (Walk.pushed settings st u (Walk.normalize links), (Walk.normalize links).map (·.child)) := by
  rw [push_eq] at hrun
  obtain ⟨all, τ₁, hrequest, hrest⟩ := bind_eq_ok hrun
  cases hrest
  obtain ⟨hsound', hgrows, hanswer⟩ := ProofGraph.steady_weightedOutlinks u w true τ.store hsound
  rw [onGraph_eq] at hrequest
  rcases hout : ProofGraph.weightedOutlinks u w true τ.store with ⟨e | links, store⟩
  · rw [hout] at hrequest
    cases hrequest
  · rw [hout] at hrequest hsound' hgrows hanswer
    cases hrequest
    exact ⟨all, hanswer all rfl, hsound', hgrows, rfl, rfl⟩

theorem Held.push (h : Held w bound st τ.store.graph) (hu : Near (LeadsTo w τ.store.graph) n u) (hn : n ≤ bound)
    {r : Pushing V × List Nat} (hrun : (ProofGraph.walk w).push settings st u τ = (.ok r, τ')) :
    Advanced w bound st τ r.1 τ' ∧ ∀ v ∈ r.2, Near (LeadsTo w τ'.store.graph) (n + 1) v := by
  obtain ⟨links, hanswers, hsound, hgrows, hreports, rfl⟩ := push_eq_ok h.sound hrun
  have hedges : ∀ l ∈ Walk.normalize links, LeadsTo w τ'.store.graph u l.child := by
    intro l hl
    obtain ⟨l', hl', hsame, -⟩ := Walk.mem_normalize hl
    exact ⟨links, hanswers, l', hl', hsame⟩
  have hhere := hu.grow hgrows
  refine ⟨⟨(h.grow hsound hgrows).pushed hhere hn hedges, hgrows, hreports, .inr (Nat.lt_succ_self _)⟩,
    fun v hv => ?_⟩
  obtain ⟨l, hl, rfl⟩ := List.mem_map.1 hv
  exact hhere.step (hedges l hl)

theorem Held.tryPush (h : Held w bound st τ.store.graph) (hu : Near (LeadsTo w τ.store.graph) n u) (hn : n ≤ bound)
    {r : Pushing V × List Nat} (hrun : (ProofGraph.walk w).tryPush settings level st u τ = (.ok r, τ')) :
    Advanced w bound st τ r.1 τ' ∧ ∀ v ∈ r.2, Near (LeadsTo w τ'.store.graph) (n + 1) v := by
  unfold Walk.tryPush at hrun
  obtain ⟨allowed, τ₁, hallowed, hrest⟩ := bind_eq_ok hrun
  have hfirst := h.quiet (quiet_settleable settings u) hallowed
  cases allowed with
  | false =>
    cases hrest
    exact ⟨hfirst, nofun⟩
  | true =>
    obtain ⟨ratio, τ₂, hratio, hrest⟩ := bind_eq_ok hrest
    have hsecond := hfirst.trans (hfirst.held.quiet (quiet_ratio st u) hratio)
    by_cases hsmall : ratio ≤ level
    · rw [if_pos hsmall] at hrest
      cases hrest
      exact ⟨hsecond, nofun⟩
    · rw [if_neg hsmall] at hrest
      obtain ⟨hpushed, hchildren⟩ := hsecond.held.push (hu.grow hsecond.grows) hn hrest
      exact ⟨hsecond.trans hpushed, hchildren⟩

/-- **A descent stays within the bound** if the edges that it may cross do not lead beyond it. -/
theorem Held.pushFrom {hops : Nat} (h : Held w bound st τ.store.graph) (hu : Near (LeadsTo w τ.store.graph) n u)
    (hn : n + hops ≤ bound) (hrun : (ProofGraph.walk w).pushFrom settings level hops u st τ = (.ok st', τ')) :
    Advanced w bound st τ st' τ' := by
  induction hops generalizing n u st τ st' τ' with
  | zero =>
    obtain ⟨r, τ₁, hpush, hrest⟩ := bind_eq_ok hrun
    cases hrest
    exact (h.tryPush hu hn hpush).1
  | succ hops ih =>
    obtain ⟨r, τ₁, hpush, hrest⟩ := bind_eq_ok hrun
    obtain ⟨hadvanced, hchildren⟩ := h.tryPush hu (by omega) hpush
    refine hadvanced.trans (hadvanced.held.foldlM id (fun st c τ st' τ' hst hc hdescent => ?_) hchildren hrest)
    exact ih hst hc (by omega) hdescent

/-- **A pass carries mass so many edges farther** as a descent may cross, and one more. -/
theorem Held.pass (h : Held w bound st τ.store.graph)
    (hrun : (ProofGraph.walk w).pass settings level st τ = (.ok st', τ')) :
    Advanced w (bound + (settings.apr.maxDepth + 1)) st τ st' τ' := by
  refine (h.le (Nat.le_add_right _ _)).foldlM (n := bound + 1) Prod.fst
    (fun st e τ st' τ' hst he hdescent => ?_) ?_ hrun
  · exact hst.pushFrom he (by omega) hdescent
  · intro e he
    obtain ⟨hmass, hx⟩ := (LawfulMass.mem_entries st.residual e.1 e.2).1 he
    exact h.residual e.1 (hmass ▸ hx)

/-! ## Passes

Passes are counted by what they have done (`Passed`): each has pushed, was allowed, and was reported if someone
listens. -/

omit [Field K] [LinearOrder K] [FloorSemiring K] [MassVector V K] [Exponential K] [LawfulMass V K] in
theorem report_heard {r : Thunk (Progress K)} (hrun : ProofM.report r τ = (.ok (), τ')) :
    τ'.store = τ.store ∧ τ'.audience = τ.audience ∧
      (τ.audience ≠ .absent → τ'.reports.size = τ.reports.size + 1) := by
  obtain ⟨store, reports, audience⟩ := τ
  cases audience with
  | absent =>
    cases hrun
    exact ⟨rfl, rfl, fun h => absurd rfl h⟩
  | present patience =>
    replace hrun : (if patience = some (reports.push r.get).size then throw .abandoned
      else pure () : ProofM K Unit) ⟨store, reports.push r.get, .present patience⟩ = (.ok (), τ') := hrun
    split at hrun
    · cases hrun
    · cases hrun
      exact ⟨rfl, rfl, fun _ => Array.size_push _⟩

theorem composed_audience (w : Weighter K) : Composed (fun _ x => ∀ τ, (x τ).2.audience = τ.audience) w where
  pure _ _ := rfl
  throw _ _ := rfl
  bind {_ _ x f} hx hf τ := by
    have hkept := hx τ
    rcases hrun : x τ with ⟨e | a, τ₁⟩
    · rw [hrun] at hkept
      rw [bind_error hrun]
      exact hkept
    · rw [hrun] at hkept
      rw [bind_ok hrun]
      exact (hf a τ₁).trans hkept
  links _ _ _ := rfl
  degree _ _ := rfl
  isCompleted _ _ := rfl
  callDepth _ _ := rfl
  report r τ := by
    rcases report_eq r τ with h | h
    · rw [h]
    · rw [h]
  freeze _ := rfl

omit [LawfulMass V K] in
theorem audience_pass (hrun : (ProofGraph.walk w).pass settings level st τ = (.ok st', τ')) :
    τ'.audience = τ.audience := by
  have hkept : ((ProofGraph.walk w).pass settings level st τ).2.audience = τ.audience :=
    (composed_audience w).foldlM (fun _ _ => (composed_audience w).pushFrom level _ _ _) _ st τ
  rw [hrun] at hkept
  exact hkept

/-- **Passes since a proof began**, and how many: each has carried mass so many edges farther, has pushed, was
allowed by the bound for their number, and was reported if someone listens. -/
structure Passed (settings : ProverSettings K) (w : Weighter K) (start : ProofState K)
    (r : Pushing V × Nat) (τ : ProofState K) : Prop where
  held : Held w (r.2 * (settings.apr.maxDepth + 1)) r.1 τ.store.graph
  pushes : r.2 ≤ r.1.pushes
  allowed : ∀ cap, settings.apr.stopEarly = some cap → r.2 ≤ cap
  audience : τ.audience = start.audience
  heard : start.audience ≠ .absent → τ.reports.size = start.reports.size + r.2

variable {start : ProofState K} {r r' : Pushing V × Nat} {name : String}

theorem passed_seed (hstart : (growth w).sound start.store.graph) :
    Passed settings w start ((Walk.seed : Pushing V), 0) start where
  held := by
    rw [Nat.zero_mul]
    exact held_seed hstart
  pushes := Nat.zero_le _
  allowed _ _ := Nat.zero_le _
  audience := rfl
  heard _ := rfl

theorem Passed.passesAt {fuel : Nat} (h : Passed settings w start r τ)
    (hrun : (ProofGraph.walk w).passesAt settings name level fuel r τ = (.ok r', τ')) :
    Passed settings w start r' τ' := by
  induction fuel generalizing r τ with
  | zero =>
    cases hrun
    exact h
  | succ fuel ih =>
    obtain ⟨st, passes⟩ := r
    unfold Walk.passesAt at hrun
    cases hcap : settings.apr.stopEarly.any (· ≤ passes) with
    | true =>
      rw [hcap, if_pos rfl] at hrun
      cases hrun
      exact h
    | false =>
      rw [hcap, if_neg Bool.false_ne_true] at hrun
      obtain ⟨next, τ₁, hpass, hrest⟩ := bind_eq_ok hrun
      have hadvanced := h.held.pass hpass
      have haudience := audience_pass hpass
      rcases hadvanced.pushes with rfl | hpushed
      · -- the last pass has found nothing to push, and is not counted
        rw [if_pos (by simp)] at hrest
        cases hrest
        exact ⟨h.held.grow hadvanced.held.sound hadvanced.grows, h.pushes, h.allowed, haudience.trans h.audience,
          fun hheard => by rw [hadvanced.reports, h.heard hheard]⟩
      · rw [if_neg (by simpa using hpushed.ne')] at hrest
        obtain ⟨_, τ₂, hreport, hrest⟩ := bind_eq_ok hrest
        obtain ⟨hstore, hlistens, hheard⟩ := report_heard hreport
        refine ih ⟨?_, Nat.succ_le_of_lt (h.pushes.trans_lt hpushed), fun cap hstop => ?_,
          hlistens.trans (haudience.trans h.audience), fun hpresent => ?_⟩ hrest
        · rw [Nat.succ_mul, hstore]
          exact hadvanced.held
        · rw [hstop] at hcap
          exact Nat.succ_le_of_lt (by simpa using hcap)
        · rw [hheard (by rwa [haudience, h.audience]), hadvanced.reports, h.heard hpresent, Nat.add_assoc]

theorem Passed.passesOver {levels : List K} (h : Passed settings w start r τ)
    (hrun : levels.foldlM (fun st level => (ProofGraph.walk w).passesAt settings name level
      (Walk.passBound settings) st) r τ = (.ok r', τ')) : Passed settings w start r' τ' := by
  induction levels generalizing r τ with
  | nil =>
    cases hrun
    exact h
  | cons level rest ih =>
    rw [List.foldlM_cons] at hrun
    obtain ⟨r₁, τ₁, hhere, hrest⟩ := bind_eq_ok hrun
    exact ih (h.passesAt hhere) hrest

theorem Passed.pushPasses {p : Prover K} {st : Pushing V} (hstart : (growth p.weighter).sound start.store.graph)
    (hrun : p.pushPasses start = (.ok st, τ)) : ∃ passes, Passed p.settings p.weighter start (st, passes) τ := by
  unfold Prover.pushPasses at hrun
  cases hcheck : p.settings.checkMinAlpha with
  | error e =>
    rw [hcheck] at hrun
    cases hrun
  | ok _ =>
    rw [hcheck] at hrun
    obtain ⟨last, τ₁, hpasses, hrest⟩ := bind_eq_ok hrun
    cases hrest
    exact ⟨last.2, (passed_seed hstart).passesOver hpasses⟩

end

/-! ## Provers that make passes

A prover may take a snapshot before its passes and copy its masses to a map behind them; neither moves any mass. -/

omit [Exponential K] in
theorem ProofGraph.sound_freeze {w : Weighter K} {s : Store (ProofGraph K) K} (hs : (growth w).sound s.graph) :
    (growth w).sound (freeze w s).2.graph := by
  obtain ⟨g | g, features, counts⟩ := s
  · exact hs
  · have hparameters (l : List Nat) : (IdGraph.growth w).Steady
        (l.forM fun i => discard (IdGraph.parameter w i)) := by
      induction l with
      | nil => exact Growth.steady_pure _
      | cons i rest ih =>
        refine Growth.Steady.bind ?_ fun _ => ih
        show (IdGraph.growth w).Steady ((fun _ => ()) <$> IdGraph.parameter w i)
        rw [← bind_pure_comp]
        exact (IdGraph.steady_parameter w i).bind fun _ => Growth.steady_pure _
    exact (hparameters (List.range features.size) ⟨{ g with frozen := some (.start w) }, features, counts⟩ hs).1

omit [Exponential K] in
theorem mass_toProof {v : DenseVector K} {u : Nat} (h : mass (MassVector.toProof v : ProofVector K) u ≠ 0) :
    mass v u ≠ 0 := by
  have hlist : (MassVector.toProof v : ProofVector K).toList = MassVector.entries v :=
    SortedMap.toList_ofList (LawfulMass.ascending v)
  have hentry : (u, mass (MassVector.toProof v : ProofVector K) u) ∈
      (MassVector.toProof v : ProofVector K).nonzero :=
    (LawfulMass.mem_entries (MassVector.toProof v : ProofVector K) _ _).2 ⟨rfl, h⟩
  rw [ProofVector.nonzero, hlist] at hentry
  have hmass := (LawfulMass.mem_entries v _ _).1 (List.mem_filter.1 hentry).1
  rw [hmass.1]
  exact hmass.2

/-- **A prover that pushes goes `maxDepth + 1` edges farther with each pass**, on any sound graph: fewer edges than
that for each pass lead from the start to the states that it gives mass to.  There are no more passes than pushes,
nor than their own bound allows, and whoever listens hears of each.  So with one pass no state is farther from the
start than `maxDepth` edges. -/
theorem pushed_within_passes (p : Prover K) (hp : p.kind = .dpr ∨ p.kind = .idDpr) {start τ : ProofState K}
    (hstart : (growth p.weighter).sound start.store.graph) {result : ProofVector K} {pushes : Nat}
    (hrun : p.proveUnpruned start = (.ok (result, pushes), τ)) :
    ∃ passes, (p.kind = .dpr → passes ≤ pushes) ∧ (∀ cap, p.settings.apr.stopEarly = some cap → passes ≤ cap) ∧
      (start.audience ≠ .absent → τ.reports.size = start.reports.size + passes) ∧
      ∀ u, mass result u ≠ 0 →
        Near (ProofGraph.EdgeTo p.weighter τ.store) (passes * (p.settings.apr.maxDepth + 1)) u := by
  unfold Prover.proveUnpruned at hrun
  rcases hp with hkind | hkind
  · rw [hkind] at hrun
    obtain ⟨st, τ₁, hpasses, hrest⟩ := bind_eq_ok hrun
    cases hrest
    obtain ⟨passes, h⟩ := Passed.pushPasses hstart hpasses
    exact ⟨passes, fun _ => h.pushes, h.allowed, h.heard,
      fun u hu => (h.held.settled u hu).mono fun _ _ hedge => hedge.edgeTo h.held.sound⟩
  · rw [hkind] at hrun
    obtain ⟨v, τ₁, hdense, hrest⟩ := bind_eq_ok hrun
    cases hrest
    unfold Prover.proveDense at hdense
    rw [hkind] at hdense
    obtain ⟨_, τ₀, hfreeze, hdense⟩ := bind_eq_ok hdense
    obtain ⟨st, τ₂, hpasses, hrest⟩ := bind_eq_ok hdense
    cases hrest
    rw [onGraph_eq] at hfreeze
    obtain rfl : { start with store := (ProofGraph.freeze p.weighter start.store).2 } = τ₀ :=
      congrArg Prod.snd hfreeze
    obtain ⟨passes, h⟩ := Passed.pushPasses (ProofGraph.sound_freeze hstart) hpasses
    refine ⟨passes, fun hdpr => ?_, h.allowed, h.heard, fun u hu => ?_⟩
    · rw [hkind] at hdpr
      cases hdpr
    · exact (h.held.settled u (mass_toProof hu)).mono fun _ _ hedge => hedge.edgeTo h.held.sound

/-! ## The queue

The depth on record for a state is no less than its distance, since it is one more than that of a state with an edge
to it. -/

section

variable {w : Weighter K} {settings : ProverSettings K} {st : Pushing V} {τ τ' : ProofState K}
  {depths : SortedMap Nat Nat} {waiting waiting' : PriorityQueue (Queued K)} {g g' : ProofGraph K}

theorem getElem?_deepen (depth : Nat) (touched : List Nat) (depths : SortedMap Nat Nat) (u : Nat) :
    (Walk.deepen depth touched depths)[u]? =
      if u ∈ touched then some (min (depths[u]?.getD (depth + 1)) (depth + 1)) else depths[u]? := by
  unfold Walk.deepen
  induction touched generalizing depths with
  | nil => rfl
  | cons v rest ih =>
    rw [List.foldl_cons, ih]
    by_cases huv : u = v
    · subst huv
      simp
    · rw [SortedMap.getElem?_upsert_of_ne depths _ huv]
      simp [huv]

theorem deepen_le {u old : Nat} (h : depths[u]? = some old) (depth : Nat) (touched : List Nat) :
    ∃ new ≤ old, (Walk.deepen depth touched depths)[u]? = some new := by
  rw [getElem?_deepen, h]
  split
  · exact ⟨_, min_le_left _ _, rfl⟩
  · exact ⟨old, le_rfl, rfl⟩

theorem near_of_deepen {edge : Nat → Nat → Prop} (hdepths : ∀ u d, depths[u]? = some d → Near edge (d + 1) u)
    {depth : Nat} {touched : List Nat} (htouched : ∀ v ∈ touched, Near edge (depth + 2) v) {u d : Nat}
    (hd : (Walk.deepen depth touched depths)[u]? = some d) : Near edge (d + 1) u := by
  rw [getElem?_deepen] at hd
  split at hd
  · rename_i hu
    cases hd
    rcases hold : depths[u]? with _ | old
    · simpa using htouched u hu
    · rcases min_choice old (depth + 1) with hmin | hmin
      · rw [Option.getD_some, hmin]
        exact hdepths u old hold
      · rw [Option.getD_some, hmin]
        exact htouched u hu
  · exact hdepths u d hd

theorem mem_of_nextAmong {count id : Nat} {rest : PriorityQueue (Queued K)}
    (hrun : (ProofGraph.walk w).nextAmong settings st count waiting τ = (.ok (some (id, rest)), τ')) :
    (∃ e ∈ waiting.toList, e.id = id) ∧ ∀ e ∈ rest.toList, e ∈ waiting.toList := by
  induction count generalizing waiting τ with
  | zero => cases hrun
  | succ count ih =>
    unfold Walk.nextAmong at hrun
    rcases hpop : waiting.pop? Queued.before with _ | ⟨q, others⟩
    · rw [hpop] at hrun
      cases hrun
    · have hperm := PriorityQueue.toList_of_pop? hpop
      rw [hpop] at hrun
      obtain ⟨due, τ₁, -, hrest⟩ := bind_eq_ok hrun
      cases due with
      | true =>
        cases hrest
        exact ⟨⟨q, hperm.mem_iff.2 List.mem_cons_self, rfl⟩,
          fun e he => hperm.mem_iff.2 (List.mem_cons_of_mem _ he)⟩
      | false =>
        obtain ⟨⟨e, he, hid⟩, hothers⟩ := ih hrest
        have hkept : ∀ e ∈ others.toList, e ∈ waiting.toList :=
          fun e he => hperm.mem_iff.2 (List.mem_cons_of_mem _ he)
        exact ⟨⟨e, hkept e he, hid⟩, fun e he => hkept e (hothers e he)⟩

theorem mem_of_enqueue {ids : List Nat}
    (hrun : (ProofGraph.walk w).enqueue settings st depths ids waiting τ = (.ok waiting', τ')) :
    ∀ e ∈ waiting'.toList, e ∈ waiting.toList ∨ e.id ∈ ids ∧
      depths[e.id]?.any (settings.apr.maxDepth < ·) = false := by
  induction ids generalizing waiting τ with
  | nil =>
    cases hrun
    exact fun e he => .inl he
  | cons v rest ih =>
    intro e he
    unfold Walk.enqueue at hrun
    cases hdeep : depths[v]?.any (settings.apr.maxDepth < ·) with
    | true =>
      rw [hdeep, if_pos rfl] at hrun
      exact (ih hrun e he).imp_right fun h => ⟨List.mem_cons_of_mem v h.1, h.2⟩
    | false =>
      rw [hdeep, if_neg Bool.false_ne_true] at hrun
      obtain ⟨ratio, τ₁, -, hrest⟩ := bind_eq_ok hrun
      rcases ih hrest e he with hwaits | h
      · split at hwaits
        · rcases List.mem_cons.1 ((PriorityQueue.toList_insert_perm ..).mem_iff.1 hwaits) with rfl | hwaits
          · exact .inr ⟨List.mem_cons_self, hdeep⟩
          · exact .inl hwaits
        · exact .inl hwaits
      · exact .inr ⟨List.mem_cons_of_mem v h.1, h.2⟩

/-- **A queue whose states are within the depth**: the depth on record for a state is no less than its distance, and
only states that are not too deep wait to be pushed. -/
structure Walk.Queue.Within (settings : ProverSettings K) (w : Weighter K) (q : Walk.Queue V K)
    (g : ProofGraph K) : Prop where
  held : Held w (settings.apr.maxDepth + 1) q.pushing g
  depths : ∀ u depth, q.depths[u]? = some depth → Near (LeadsTo w g) (depth + 1) u
  waiting : ∀ e ∈ q.waiting.toList, ∃ depth ≤ settings.apr.maxDepth, q.depths[e.id]? = some depth

variable [LawfulMass V K]

theorem Walk.Queue.Within.push {q : Walk.Queue V K} (h : q.Within settings w τ.store.graph) {id : Nat}
    {rest : PriorityQueue (Queued K)} (hid : ∃ e ∈ q.waiting.toList, e.id = id)
    (hrest : ∀ e ∈ rest.toList, e ∈ q.waiting.toList)
    {τ₁ : ProofState K} {r : Pushing V × List Nat}
    (hpush : (ProofGraph.walk w).push settings q.pushing id τ = (.ok r, τ₁))
    (henqueue : (ProofGraph.walk w).enqueue settings r.1 (Walk.deepen (q.depths.getD id 0) r.2 q.depths)
      (Walk.ascending (r.2 ++ [id])) rest τ₁ = (.ok waiting, τ')) :
    Walk.Queue.Within settings w ⟨r.1, waiting, Walk.deepen (q.depths.getD id 0) r.2 q.depths⟩ τ'.store.graph := by
  obtain ⟨e, he, rfl⟩ := hid
  obtain ⟨depth, hdepth, hhere⟩ := h.waiting e he
  have hrecord : q.depths.getD e.id 0 = depth := by
    rw [Std.ExtTreeMap.getD_eq_getD_getElem?, hhere, Option.getD_some]
  rw [hrecord] at henqueue ⊢
  obtain ⟨hpushed, hchildren⟩ := h.held.push (h.depths e.id depth hhere) (Nat.succ_le_succ hdepth) hpush
  have hqueued := hpushed.held.quiet (quiet_enqueue settings r.1 _ _ rest) henqueue
  have hdepths : ∀ u d, q.depths[u]? = some d → Near (LeadsTo w τ₁.store.graph) (d + 1) u := fun u d hd =>
    (h.depths u d hd).grow hpushed.grows
  refine ⟨hqueued.held, fun u d hd => (near_of_deepen hdepths hchildren hd).grow hqueued.grows, fun e' he' => ?_⟩
  rcases mem_of_enqueue henqueue e' he' with hwaits | ⟨hids, hshallow⟩
  · obtain ⟨old, hold, hrecorded⟩ := h.waiting e' (hrest e' hwaits)
    obtain ⟨new, hnew, hdeepened⟩ := deepen_le hrecorded depth r.2
    exact ⟨new, hnew.trans hold, hdeepened⟩
  · have hrecorded : ∃ d, (Walk.deepen depth r.2 q.depths)[e'.id]? = some d := by
      rcases List.mem_append.1 (Walk.mem_of_ascending hids) with htouched | hself
      · rw [getElem?_deepen, if_pos htouched]
        exact ⟨_, rfl⟩
      · rw [List.mem_singleton.1 hself]
        obtain ⟨new, -, hdeepened⟩ := deepen_le hhere depth r.2
        exact ⟨new, hdeepened⟩
    obtain ⟨d, hd⟩ := hrecorded
    rw [hd] at hshallow
    exact ⟨d, by simpa using hshallow, hd⟩

theorem Walk.Queue.Within.steps {steps number : Nat} {q : Walk.Queue V K} (h : q.Within settings w τ.store.graph)
    (hrun : (ProofGraph.walk w).prioritySteps settings steps number q τ = (.ok st, τ')) :
    Held w (settings.apr.maxDepth + 1) st τ'.store.graph := by
  induction steps generalizing number q τ with
  | zero =>
    cases hrun
    exact h.held
  | succ steps ih =>
    unfold Walk.prioritySteps at hrun
    obtain ⟨next, τ₁, hnext, hrun⟩ := bind_eq_ok hrun
    have hwaited := h.held.quiet (quiet_nextAmong settings q.pushing _ q.waiting) hnext
    cases next with
    | none =>
      cases hrun
      exact hwaited.held
    | some next =>
      obtain ⟨id, rest⟩ := next
      obtain ⟨hid, hrest⟩ := mem_of_nextAmong hnext
      obtain ⟨r, τ₂, hpush, hrun⟩ := bind_eq_ok hrun
      obtain ⟨waiting, τ₃, henqueue, hrun⟩ := bind_eq_ok hrun
      obtain ⟨_, τ₄, hreport, hrun⟩ := bind_eq_ok hrun
      have hgrown : q.Within settings w τ₁.store.graph :=
        ⟨hwaited.held, fun u depth hdepth => (h.depths u depth hdepth).grow hwaited.grows, h.waiting⟩
      have hpushed := hgrown.push hid hrest hpush henqueue
      rw [← (report_heard hreport).1] at hpushed
      exact ih hpushed hrun

theorem Walk.Queue.within_start (hsound : (growth w).sound g) (ratio : K) : Walk.Queue.Within settings w
    ⟨(Walk.seed : Pushing V), .single ⟨ratio, 0⟩, (∅ : SortedMap Nat Nat).insert 0 0⟩ g where
  held := (held_seed hsound).le (Nat.zero_le _)
  depths u depth hdepth := by
    rw [Std.ExtTreeMap.getElem?_insert] at hdepth
    split at hdepth
    · rename_i hu
      rw [← Nat.compare_eq_eq.1 hu]
      exact .start (Nat.succ_pos depth)
    · simp at hdepth
  waiting e he := by
    obtain rfl := List.mem_singleton.1 he
    exact ⟨0, Nat.zero_le _, Std.ExtTreeMap.getElem?_insert_self⟩

end

/-- **A prover that pushes by priority keeps within the depth**: it gives mass to states only that at most
`maxDepth` edges lead to, however many pushes it makes. -/
theorem prioritized_within_depth (p : Prover K) (hp : p.kind = .priorityQueue) {start τ : ProofState K}
    (hstart : (growth p.weighter).sound start.store.graph) {result : ProofVector K} {pushes : Nat}
    (hrun : p.proveUnpruned start = (.ok (result, pushes), τ)) (u : Nat) (hu : mass result u ≠ 0) :
    Near (ProofGraph.EdgeTo p.weighter τ.store) (p.settings.apr.maxDepth + 1) u := by
  unfold Prover.proveUnpruned at hrun
  rw [hp] at hrun
  cases hcheck : p.settings.checkMinAlpha with
  | error e =>
    rw [hcheck] at hrun
    cases hrun
  | ok _ =>
    rw [hcheck] at hrun
    obtain ⟨st, τ₁, hpriority, hrest⟩ := bind_eq_ok hrun
    cases hrest
    obtain ⟨ratio, τ₂, hratio, hsteps⟩ := bind_eq_ok hpriority
    have hseed : Held p.weighter 0 (Walk.seed : Pushing (ProofVector K)) start.store.graph := held_seed hstart
    have hsound := (hseed.quiet (quiet_ratio _ 0) hratio).held.sound
    have hheld := (Walk.Queue.within_start hsound ratio).steps hsteps
    exact (hheld.settled u hu).mono fun _ _ hedge => hedge.edgeTo hheld.sound

/-! ## Passes about paths

With a bound of zero no descent crosses an edge, and still a later pass settles mass one edge away from the start. -/

/-- Whether a prover gives mass to a state that is farther from the start than its bound for the depth. -/
def Prover.Overreaches (p : Prover K) (start : ProofState K) : Prop :=
  ∃ result pushes τ u, p.proveUnpruned start = (.ok (result, pushes), τ) ∧ mass result u ≠ 0 ∧
    ¬Near (ProofGraph.EdgeTo p.weighter τ.store) (p.settings.apr.maxDepth + 1) u

attribute [local instance] flatExponential

/-- A prover of some kind that follows no edge: its depth is zero. -/
def shallow (kind : ProverKind) : Prover ℚ :=
  ⟨kind, ⟨⟨1 / 20, 1 / 5, 0, 0, 0, none⟩, 0, none⟩, .uniform 0, [], false, 0⟩

/-- Four passes that follow no edge give mass to a state that two edges lead to. -/
theorem pushed_within_passes_path : (growth (.uniform 0)).sound pathStart.store.graph ∧
    ∃ result pushes τ, (shallow .dpr).proveUnpruned pathStart = (.ok (result, pushes), τ) ∧
      τ.reports.size = 4 ∧ mass result 3 ≠ 0 ∧
      ∀ u, mass result u ≠ 0 → Near (ProofGraph.EdgeTo (.uniform 0) τ.store) 4 u := by
  have hmass : ((shallow .dpr).proveUnpruned pathStart).1.toOption.map (fun r => mass r.1 3) =
      some (608 / 16875) := by
    decide +kernel
  have hreports : ((shallow .dpr).proveUnpruned pathStart).2.reports.size = 4 := by decide +kernel
  have hlistens : pathStart.audience ≠ .absent ∧ pathStart.reports.size = 0 := by decide +kernel
  obtain ⟨⟨result, pushes⟩, hresult, hthird⟩ := Option.map_eq_some_iff.1 hmass
  obtain ⟨τ, hrun⟩ : ∃ τ, (shallow .dpr).proveUnpruned pathStart = (.ok (result, pushes), τ) :=
    ⟨_, Prod.ext (Machine.eq_ok_of_toOption hresult) rfl⟩
  obtain ⟨passes, -, -, hheard, hnear⟩ := pushed_within_passes (shallow .dpr) (.inl rfl) (sound_pathStart _) hrun
  rw [hrun] at hreports
  obtain rfl : passes = 4 := by
    have hcount := hheard hlistens.1
    rw [hreports, hlistens.2] at hcount
    omega
  refine ⟨sound_pathStart _, result, pushes, τ, hrun, hreports, ?_, hnear⟩
  rw [show mass result 3 = 608 / 16875 from hthird]
  norm_num

/-- **The bound for the depth is not one for the whole proof**: with depth zero, both provers that make passes give
mass to another state than the start. -/
theorem pushed_beyond_depth : (shallow .dpr).Overreaches pathStart ∧ (shallow .idDpr).Overreaches pathStart := by
  have hother (kind : ProverKind)
      (hmass : ((shallow kind).proveUnpruned pathStart).1.toOption.map (fun r => mass r.1 1) = some (76 / 1125)) :
      (shallow kind).Overreaches pathStart := by
    obtain ⟨⟨result, pushes⟩, hresult, hfirst⟩ := Option.map_eq_some_iff.1 hmass
    refine ⟨result, pushes, _, 1, Prod.ext (Machine.eq_ok_of_toOption hresult) rfl, ?_, ?_⟩
    · rw [show mass result 1 = 76 / 1125 from hfirst]
      norm_num
    · -- no edges lead to the start only
      rintro ⟨n, hn, hsteps⟩
      obtain rfl : n = 0 := Nat.lt_one_iff.1 hn
      cases hsteps
  refine ⟨hother .dpr ?_, hother .idDpr ?_⟩
  · decide +kernel
  · decide +kernel

end ProofWalk
