import Mathlib.Algebra.Order.BigOperators.Group.List
import Mathlib.Data.Rat.Floor
import Mathlib.Tactic.LinearCombination
import ProofWalk.Proofs.MassStorage
import ProofWalk.Proofs.PushRuns
import ProofWalk.Proofs.Safety
/-!
# Proofs.PushBalance — pushes balance

Let `f` be what a unit of residual mass is worth at each state, and `h` what a unit of settled mass is worth, so
that a push of a state changes nothing of the worth: `f u` is `alpha` of `h u` and, of the rest, the share that
stays of `f u` and the share that moves of the average of `f` over the edges.  Then all masses together are worth `f
0` after any pushes in any order (`Balanced`).  With `f = h = 1` this says that settled and residual mass add up to
one.

The law needs a place for moved mass to go: a state whose edges have no weight at all loses what a push moves, and
is left out by the condition on the pushed states.
-/
namespace ProofWalk

open MassVector (mass weigh)

variable {K V : Type} [Field K] [LinearOrder K] [FloorSemiring K] [MassVector V K]

namespace Walk

/-! ## Normalized weights

Where the weights of a state add up to a positive number, scaling makes their sum one; where they do not, no edge is
left. -/

theorem normalize_of_pos {links : List (Link K)} (h : 0 < (links.map (·.weight)).sum) :
    normalize links = links.map fun l => { l with weight := l.weight / (links.map (·.weight)).sum } := by
  have hfinite (x : K) : Scalar.isFinite x = true := rfl
  unfold normalize
  simp [Scalar.sum_eq, hfinite, h]

theorem normalize_of_not_pos {links : List (Link K)} (h : ¬ 0 < (links.map (·.weight)).sum) :
    normalize links = [] := by
  unfold normalize
  simp [Scalar.sum_eq, h]

theorem sum_normalize {links : List (Link K)} (h : 0 < (links.map (·.weight)).sum) :
    ((normalize links).map (·.weight)).sum = 1 := by
  have hne : (links.map (·.weight)).sum ≠ 0 := ne_of_gt h
  rw [normalize_of_pos h, List.map_map]
  simp only [Function.comp_def, div_eq_mul_inv]
  rw [List.sum_map_mul_right]
  exact mul_inv_cancel₀ hne

theorem normalize_nonneg [IsStrictOrderedRing K] {links : List (Link K)} (h : ∀ l ∈ links, 0 ≤ l.weight) :
    ∀ l ∈ normalize links, 0 ≤ l.weight := by
  intro l hl
  by_cases hpos : 0 < (links.map (·.weight)).sum
  · rw [normalize_of_pos hpos] at hl
    obtain ⟨l', hl', rfl⟩ := List.mem_map.1 hl
    exact div_nonneg (h l' hl') hpos.le
  · rw [normalize_of_not_pos hpos] at hl
    cases hl

/-! ## One push

A push is reckoned on the masses alone, given normalized edges; moved mass is worth the average of what it is worth
at their ends. -/

section

variable [LawfulMass V K]

theorem weigh_spread (f : Nat → K) (moved : K) (links : List (Link K)) (v : V) :
    weigh (links.foldl (fun r l => MassVector.add r l.child (moved * l.weight)) v) f =
      weigh v f + moved * (links.map fun l => l.weight * f l.child).sum := by
  induction links generalizing v with
  | nil => simp
  | cons l rest ih =>
    rw [List.foldl_cons, ih, MassVector.weigh_add, List.map_cons, List.sum_cons]
    ring

/-- **A push leaves the worth of all masses as it is**, if it does so at the state that is pushed. -/
theorem weigh_pushed (settings : ProverSettings K) (st : Pushing V) (u : Nat)
    (links : List (Link K)) {h f : Nat → K} (hf : f u = settings.apr.alpha * h u + (1 - settings.apr.alpha) *
      (settings.stay * f u + (1 - settings.stay) * (links.map fun l => l.weight * f l.child).sum)) :
    weigh (pushed settings st u links).settled h + weigh (pushed settings st u links).residual f =
      weigh st.settled h + weigh st.residual f := by
  have hworth := congrArg (mass st.residual u * ·) hf
  -- the share that is kept is written before the edges add theirs, so an edge back to the state is not lost
  simp only [pushed, weigh_spread, MassVector.weigh_add, MassVector.weigh_set, ProverSettings.move_eq]
  linear_combination -hworth

theorem mass_spread_nonneg [IsStrictOrderedRing K] {moved : K} {links : List (Link K)} {v : V} (hmoved : 0 ≤ moved)
    (hlinks : ∀ l ∈ links, 0 ≤ l.weight) (hv : ∀ i, 0 ≤ mass v i) :
    ∀ i, 0 ≤ mass (links.foldl (fun r l => MassVector.add r l.child (moved * l.weight)) v) i := by
  induction links generalizing v with
  | nil => exact hv
  | cons l rest ih =>
    refine ih (fun l' hl' => hlinks l' (List.mem_cons_of_mem l hl')) fun i => ?_
    have hadded := mul_nonneg hmoved (hlinks l List.mem_cons_self)
    rw [LawfulMass.mass_add]
    split
    · exact add_nonneg (hv _) hadded
    · exact hv i

theorem pushed_nonneg [IsStrictOrderedRing K] {settings : ProverSettings K} {st : Pushing V}
    {u : Nat} {links : List (Link K)} (halpha : 0 ≤ settings.apr.alpha ∧ settings.apr.alpha ≤ 1)
    (hstay : 0 ≤ settings.stay ∧ settings.stay ≤ 1)
    (hlinks : ∀ l ∈ links, 0 ≤ l.weight) (hst : ∀ i, 0 ≤ mass st.settled i ∧ 0 ≤ mass st.residual i) :
    ∀ i, 0 ≤ mass (pushed settings st u links).settled i ∧ 0 ≤ mass (pushed settings st u links).residual i := by
  have hrest : 0 ≤ 1 - settings.apr.alpha := sub_nonneg.2 halpha.2
  have hmove : 0 ≤ settings.move := sub_nonneg.2 hstay.2
  have hresidual := (hst u).2
  intro i
  constructor
  · show 0 ≤ mass (MassVector.add st.settled u (settings.apr.alpha * mass st.residual u)) i
    rw [LawfulMass.mass_add]
    split
    · exact add_nonneg (hst u).1 (mul_nonneg halpha.1 hresidual)
    · exact (hst i).1
  · refine mass_spread_nonneg (mul_nonneg (mul_nonneg hrest hmove) hresidual) hlinks (fun j => ?_) i
    rw [LawfulMass.mass_set]
    split
    · exact mul_nonneg (mul_nonneg hrest hstay.1) hresidual
    · exact (hst j).2

/-! ## Any pushes

An induction over the list of pushed states. -/

/-- **The balance of settled and residual mass** after pushes of some states. -/
structure Balanced (settings : ProverSettings K) (links : Nat → List (Link K)) (us : List Nat)
    (st : Pushing V) : Prop where
  worth : ∀ h f : Nat → K,
    (∀ u ∈ us, f u = settings.apr.alpha * h u + (1 - settings.apr.alpha) * (settings.stay * f u +
      (1 - settings.stay) * ((normalize (links u)).map fun l => l.weight * f l.child).sum)) →
    weigh st.settled h + weigh st.residual f = f 0
  total : (∀ u ∈ us, 0 < ((links u).map (·.weight)).sum) →
    MassVector.total st.settled + MassVector.total st.residual = 1
  nonneg : 0 ≤ settings.apr.alpha ∧ settings.apr.alpha ≤ 1 → 0 ≤ settings.stay ∧ settings.stay ≤ 1 →
    (∀ u ∈ us, ∀ l ∈ links u, 0 ≤ l.weight) → ∀ u, 0 ≤ mass st.settled u ∧ 0 ≤ mass st.residual u

theorem weigh_pushAll {settings : ProverSettings K} {links : Nat → List (Link K)} {us : List Nat} {h f : Nat → K}
    (hf : ∀ u ∈ us, f u = settings.apr.alpha * h u + (1 - settings.apr.alpha) * (settings.stay * f u +
      (1 - settings.stay) * ((normalize (links u)).map fun l => l.weight * f l.child).sum)) :
    weigh (pushAll settings links us : Pushing V).settled h +
      weigh (pushAll settings links us : Pushing V).residual f = f 0 := by
  refine pushAll_induction (motive := fun st : Pushing V => weigh st.settled h + weigh st.residual f = f 0) ?_ ?_
  · simp [seed, MassVector.weigh_none, MassVector.weigh_add]
  · intro st hst u hu
    rw [weigh_pushed settings st u _ (hf u hu), hst]

/-- **Pushes balance, whichever they are.** -/
theorem pushAll_balanced [IsStrictOrderedRing K] (settings : ProverSettings K)
    (links : Nat → List (Link K)) (us : List Nat) :
    Balanced settings links us (pushAll settings links us : Pushing V) where
  worth h f hf := weigh_pushAll hf
  total hpos := by
    rw [← MassVector.weigh_one, ← MassVector.weigh_one]
    refine weigh_pushAll (h := fun _ => 1) (f := fun _ => 1) fun u hu => ?_
    have hsum := sum_normalize (hpos u hu)
    simp only [mul_one, hsum]
    ring
  nonneg halpha hstay hlinks := by
    refine pushAll_induction (motive := fun st : Pushing V => ∀ u, 0 ≤ mass st.settled u ∧
      0 ≤ mass st.residual u) ?_ ?_
    · exact fun u => ⟨(LawfulMass.mass_none u).ge, MassVector.mass_start_nonneg u⟩
    · intro st hst u hu
      exact pushed_nonneg halpha hstay (normalize_nonneg (hlinks u hu)) hst

end

end Walk

/-! ## The push provers

Both provers make pushes and nothing else (`Proofs.PushRuns`), on a graph that grows while they do.  The edges of a
pushed state are those that the graph answers with from then on. -/

open Walk (Balanced pushAll)

/-- **Pushes balance, whichever they are, and a prover that pushes does nothing else**: however its proof on a growing
graph ends, the masses and the reports are those of pushes of some states, with the edges that the graph answers with.
A beginning of these pushes is a list of pushes too, so they balance after each of them.  The graph of a query is sound
(`ProofGraph.sound_build`), and requests keep it so. -/
theorem pushes_balance [LawfulMass V K] [IsStrictOrderedRing K] [Exponential K]
    (settings : ProverSettings K) {w : Weighter K} {start : ProofState K}
    (hstart : (ProofGraph.growth w).sound start.store.graph) :
    (∀ links us, Balanced settings links us (pushAll settings links us : Pushing V)) ∧
    ∀ proof : ProofM K (Pushing V), (∃ name, proof = (ProofGraph.walk w).pushPasses settings name) ∨
        proof = (ProofGraph.walk w).priority settings →
      ∃ us st, Pushes settings w start us (proof.run start).2 st ∧ ∀ r, (proof.run start).1 = .ok r → st = r := by
  refine ⟨Walk.pushAll_balanced settings, ?_⟩
  rintro proof (⟨name, rfl⟩ | rfl)
  · exact leads_pushPasses name start [] (.begin hstart)
  · exact leads_priority start [] (.begin hstart)

theorem Pushes.heard_total [LawfulMass V K] [IsStrictOrderedRing K] [Exponential K]
    {settings : ProverSettings K} {w : Weighter K} {start τ : ProofState K} {us : List Nat} {st : Pushing V}
    (h : Pushes settings w start us τ st)
    (hpos : ∀ u ∈ us, 0 < ((ProofGraph.answered w τ.store u).map (·.weight)).sum) :
    ∀ r ∈ τ.reports.toList.drop start.reports.size, r.settledMass + r.residualMass = 1 := by
  obtain ⟨heard, heq, hshows⟩ := h.reports
  intro r hr
  have hheard : τ.reports.toList.drop start.reports.size = heard := by
    rw [heq, ← Array.length_toList, List.drop_left]
  rw [hheard] at hr
  obtain ⟨before, hbefore, hr⟩ := hshows r hr
  have hbalanced := Walk.pushAll_balanced (V := V) settings (ProofGraph.answered w τ.store) before
  have htotal := hbalanced.total fun u hu => hpos u (hbefore.subset hu)
  rw [LawfulMass.total_eq, LawfulMass.total_eq] at htotal
  rw [hr]
  exact htotal

/-! ## Pushes along paths -/

attribute [local instance] flatExponential

/-- A walk that stays half of the time. -/
def halfway : ProverSettings ℚ := ⟨⟨1 / 10, 1 / 5, 20, 0, 0, none⟩, 1 / 2, none⟩

def pathStart : ProofState ℚ :=
  let m : Machine ℚ := ⟨pathCode, [], ⟨100, 10⟩, pathTable⟩
  match ProofGraph.build .cachingId m ∅ with
  | .ok (g, features) => ⟨⟨g, features, ∅⟩, #[], .present none⟩
  | .error _ => ⟨⟨.state ⟨m, ∅, ∅⟩, ∅, ∅⟩, #[], .absent⟩

theorem sound_pathStart (w : Weighter ℚ) : (ProofGraph.growth w).sound pathStart.store.graph := by
  unfold pathStart
  dsimp only
  split
  · rename_i hbuild
    exact ProofGraph.sound_build w hbuild
  · intro id hid
    cases hid

def pathPasses (V : Type) [MassVector V ℚ] : ProofM ℚ (Pushing V) :=
  (ProofGraph.walk (.uniform 0)).pushPasses halfway "dpr"

/-- The passes about paths end after two pushes, and these balance. -/
theorem pushes_balance_path : (ProofGraph.growth (.uniform 0)).sound pathStart.store.graph ∧
    (∃ us, ∃ st : Pushing (ProofVector ℚ),
      ((pathPasses (ProofVector ℚ)).run pathStart).1.toOption = some st ∧ us.length = 2 ∧
      Balanced halfway
        (ProofGraph.answered (.uniform 0) ((pathPasses (ProofVector ℚ)).run pathStart).2.store) us st) ∧
    ∃ us, ∃ st : Pushing (DenseVector ℚ),
      ((pathPasses (DenseVector ℚ)).run pathStart).1.toOption = some st ∧ us.length = 2 ∧
      Balanced halfway
        (ProofGraph.answered (.uniform 0) ((pathPasses (DenseVector ℚ)).run pathStart).2.store) us st := by
  have hsound := sound_pathStart (.uniform 0)
  have hpasses (V : Type) [MassVector V ℚ] [LawfulMass V ℚ]
      (hcount : ((pathPasses V).run pathStart).1.toOption.map (·.pushes) = some 2) :
      ∃ us, ∃ st : Pushing V, ((pathPasses V).run pathStart).1.toOption = some st ∧ us.length = 2 ∧
        Balanced halfway (ProofGraph.answered (.uniform 0) ((pathPasses V).run pathStart).2.store) us st := by
    obtain ⟨hbalanced, hproofs⟩ := pushes_balance (V := V) halfway hsound
    obtain ⟨us, st, hpushes, hresult⟩ := hproofs (pathPasses V) (.inl ⟨"dpr", rfl⟩)
    obtain ⟨r, hr, hr2⟩ := Option.map_eq_some_iff.1 hcount
    obtain rfl := hresult r (Machine.eq_ok_of_toOption hr)
    refine ⟨us, st, hr, ?_, ?_⟩
    · rw [← hr2, hpushes.masses, Walk.pushes_pushAll]
    · rw [hpushes.masses]
      exact hbalanced _ us
  refine ⟨hsound, hpasses (ProofVector ℚ) ?_, hpasses (DenseVector ℚ) ?_⟩
  · decide +kernel
  · decide +kernel

end ProofWalk
