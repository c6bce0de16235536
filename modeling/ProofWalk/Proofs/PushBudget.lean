import ProofWalk.Proofs.PushBalance
/-!
# Proofs.PushBudget — how many pushes the mass pays for

All mass together is at most one, and it is never negative.  A push of a state with more than `epsilon` settles more
than `alpha · epsilon` of it for good.  So there are fewer than `1 / (alpha · epsilon)` such pushes, whatever the
graph.  The account is kept by an invariant: the number of pushes times that amount is no more than the settled
mass.
-/
namespace ProofWalk

open MassVector (mass weigh)

variable {K V : Type} [Field K] [LinearOrder K] [FloorSemiring K]

theorem Scalar.ofNat_eq (n : Nat) : (Scalar.ofNat n : K) = n := by
  match n with
  | 0 => exact Nat.cast_zero.symm
  | 1 => exact Nat.cast_one.symm
  | n + 2 => rfl

namespace Walk

variable [MassVector V K] [LawfulMass V K] [IsStrictOrderedRing K]

theorem total_nonneg {v : V} (h : ∀ i, 0 ≤ mass v i) : 0 ≤ MassVector.total v := by
  rw [LawfulMass.total_eq, Scalar.sum_eq]
  refine List.sum_nonneg fun x hx => ?_
  obtain ⟨e, he, rfl⟩ := List.mem_map.1 hx
  rw [← ((LawfulMass.mem_entries v e.1 e.2).1 he).1]
  exact h e.1

omit [MassVector V K] [LawfulMass V K] [IsStrictOrderedRing K] in
theorem sum_normalize_le (links : List (Link K)) : ((normalize links).map (·.weight)).sum ≤ 1 := by
  by_cases h : 0 < (links.map (·.weight)).sum
  · exact (sum_normalize h).le
  · rw [normalize_of_not_pos h]
    exact zero_le_one

/-- **Pushes that the mass has paid for.** -/
structure Budgeted (settings : ProverSettings K) (st : Pushing V) : Prop where
  nonneg : ∀ u, 0 ≤ mass st.settled u ∧ 0 ≤ mass st.residual u
  total : MassVector.total st.settled + MassVector.total st.residual ≤ 1
  paid : st.pushes = 0 ∨ st.pushes * (settings.apr.alpha * settings.apr.epsilon) < MassVector.total st.settled

variable {settings : ProverSettings K} {st : Pushing V}

theorem budgeted_seed : Budgeted settings (seed : Pushing V) where
  nonneg u := ⟨(LawfulMass.mass_none u).ge, MassVector.mass_start_nonneg u⟩
  total := by
    rw [← MassVector.weigh_one, ← MassVector.weigh_one]
    simp [seed, MassVector.weigh_none, MassVector.weigh_add]
  paid := .inl rfl

/-- **There are fewer pushes than the mass can pay for.** -/
theorem Budgeted.pushes_lt (h : Budgeted settings st) (hepsilon : 0 < settings.apr.epsilon)
    (halpha : 0 < settings.apr.alpha) : (st.pushes : K) < 1 / (settings.apr.alpha * settings.apr.epsilon) := by
  have hprice := mul_pos halpha hepsilon
  rw [lt_div_iff₀ hprice]
  rcases h.paid with hnone | hpaid
  · rw [hnone, Nat.cast_zero, zero_mul]
    exact zero_lt_one
  · have hresidual := total_nonneg fun u => (h.nonneg u).2
    have htotal := h.total
    linarith

theorem Budgeted.pushed (h : Budgeted settings st) (halpha : 0 < settings.apr.alpha ∧ settings.apr.alpha ≤ 1)
    (hstay : 0 ≤ settings.stay ∧ settings.stay ≤ 1) {u : Nat} (hu : settings.apr.epsilon < mass st.residual u)
    {links : List (Link K)} (hlinks : ∀ l ∈ links, 0 ≤ l.weight) :
    Budgeted settings (pushed settings st u (normalize links)) := by
  have hsettled : MassVector.total (Walk.pushed settings st u (normalize links)).settled =
      MassVector.total st.settled + settings.apr.alpha * mass st.residual u := by
    rw [← MassVector.weigh_one, ← MassVector.weigh_one]
    simp [Walk.pushed, MassVector.weigh_add]
  have hresidual : MassVector.total (Walk.pushed settings st u (normalize links)).residual =
      MassVector.total st.residual +
        ((1 - settings.apr.alpha) * settings.stay * mass st.residual u - mass st.residual u) +
        (1 - settings.apr.alpha) * settings.move * mass st.residual u *
          ((normalize links).map (·.weight)).sum := by
    rw [← MassVector.weigh_one, ← MassVector.weigh_one]
    simp [Walk.pushed, weigh_spread, MassVector.weigh_set]
  have hmoved : 0 ≤ (1 - settings.apr.alpha) * settings.move * mass st.residual u :=
    mul_nonneg (mul_nonneg (sub_nonneg.2 halpha.2) (sub_nonneg.2 hstay.2)) (h.nonneg u).2
  refine ⟨pushed_nonneg ⟨halpha.1.le, halpha.2⟩ hstay (normalize_nonneg hlinks) h.nonneg, ?_, .inr ?_⟩
  · -- what is settled, kept and moved is all there was, or less where there is nowhere to go
    have hspread := mul_le_mul_of_nonneg_left (sum_normalize_le links) hmoved
    have htotal := h.total
    rw [ProverSettings.move_eq] at hresidual hspread
    rw [hsettled, hresidual]
    linarith
  · have hprice : settings.apr.alpha * settings.apr.epsilon < settings.apr.alpha * mass st.residual u :=
      mul_lt_mul_of_pos_left hu halpha.1
    have hpaid : st.pushes * (settings.apr.alpha * settings.apr.epsilon) ≤ MassVector.total st.settled := by
      rcases h.paid with hnone | hpaid
      · rw [hnone, Nat.cast_zero, zero_mul]
        exact total_nonneg fun u => (h.nonneg u).1
      · exact hpaid.le
    have hcount : ((Walk.pushed settings st u (normalize links)).pushes : K) = st.pushes + 1 := Nat.cast_succ _
    rw [hcount, hsettled]
    linarith

end Walk

end ProofWalk
