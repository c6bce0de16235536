import Mathlib.Algebra.BigOperators.Ring.Finset
import Mathlib.Tactic.Ring
import ProofWalk.Proofs.ExactNumbers
import ProofWalk.Prove.Mass
/-!
# Proofs.MassStorage — both kinds of storage hold a mass for each state

`LawfulMass` says what the operations of a storage for masses do: adding and setting change the mass of one state,
and the entries are the states with mass.  The map that forgets states without mass and the dense vector both obey.
What follows is said once for both: how the masses weighted by a function of the state change, `weigh_add` and
`weigh_set`.
-/
namespace ProofWalk

open MassVector (mass entries)

/-- **Storage that obeys the laws of mass.** -/
class LawfulMass (V : Type) (K : outParam Type) [Scalar K] [MassVector V K] : Prop where
  mass_none : ∀ i, mass (MassVector.none : V) i = 0
  mass_add : ∀ (v : V) i x j, mass (MassVector.add v i x) j = if j = i then mass v i + x else mass v j
  mass_set : ∀ (v : V) i x j, mass (MassVector.set v i x) j = if j = i then x else mass v j
  mem_entries : ∀ (v : V) i x, (i, x) ∈ entries v ↔ mass v i = x ∧ x ≠ 0
  ascending : ∀ v : V, (entries v).Pairwise (·.1 < ·.1)
  total_eq : ∀ v : V, MassVector.total v = Scalar.sum ((entries v).map (·.2))

namespace LawfulMass

variable {K : Type} [Field K] [LinearOrder K] [FloorSemiring K]

/-! ## Maps

The map keeps no entry for a state whose mass is set to zero. -/

theorem mass_map (v : ProofVector K) (i : Nat) : mass v i = v[i]?.getD 0 :=
  Std.ExtTreeMap.getD_eq_getD_getElem?

instance : LawfulMass (ProofVector K) K where
  mass_none i := rfl
  mass_add v i x j := by
    simp only [mass_map]
    by_cases h : j = i
    · subst h
      simp [MassVector.add]
    · simp [MassVector.add, SortedMap.getElem?_upsert_of_ne _ _ h, h]
  mass_set v i x j := by
    simp only [mass_map, MassVector.set, Scalar.beq_eq]
    by_cases hx : x = 0
    · by_cases h : j = i
      · simp [hx, h]
      · simp [hx, h, Std.ExtTreeMap.getElem?_erase, Ne.symm h]
    · by_cases h : j = i
      · simp [hx, h]
      · simp [hx, h, Std.ExtTreeMap.getElem?_insert, Ne.symm h]
  mem_entries v i x := by
    simp only [mass_map, entries, ProofVector.nonzero, List.mem_filter,
      Std.ExtTreeMap.mem_toList_iff_getElem?_eq_some, Scalar.beq_eq]
    cases v[i]? with
    | none =>
      constructor
      · rintro ⟨h, -⟩
        cases h
      · rintro ⟨h, hx⟩
        exact absurd h.symm hx
    | some y => simp
  ascending v := by
    refine List.Pairwise.filter _ ?_
    exact Std.ExtTreeMap.ordered_keys_toList.imp Nat.compare_eq_lt.1
  total_eq v := rfl

/-! ## Dense vectors

The entries of a dense vector are its values that are not zero, by ascending state. -/

theorem value_set (v : DenseVector K) (i j : Nat) (x : K) :
    (v.set i x).value j = if j = i then x else v.value j := by
  have hsize : i < (v.grown i).size := by
    simp only [DenseVector.grown, Array.size_append, Array.size_replicate]
    omega
  unfold DenseVector.set DenseVector.value
  rw [Array.getD_eq_getD_getElem?, Array.getElem?_setIfInBounds]
  by_cases h : i = j
  · subst h
    simp [hsize]
  · rw [if_neg h, if_neg (Ne.symm h), Array.getD_eq_getD_getElem?]
    unfold DenseVector.grown
    rcases Nat.lt_or_ge j v.values.size with hj | hj
    · rw [Array.getElem?_append_left hj]
    · rw [Array.getElem?_append_right hj, Array.getElem?_eq_none hj, Array.getElem?_replicate]
      split <;> rfl

theorem nonzeroBelow_ascending (values : Array K) (n : Nat) (others : List (Nat × K)) (hn : ∀ e ∈ others, n ≤ e.1)
    (h : others.Pairwise (·.1 < ·.1)) : (DenseVector.nonzeroBelow values n others).Pairwise (·.1 < ·.1) := by
  induction n generalizing others with
  | zero => exact h
  | succ n ih =>
    unfold DenseVector.nonzeroBelow
    have hn' : ∀ e ∈ others, n ≤ e.1 := fun e he => Nat.le_of_succ_le (hn e he)
    split
    · split
      · exact ih others hn' h
      · refine ih _ ?_ (List.pairwise_cons.2 ⟨hn, h⟩)
        simpa using hn'
    · exact ih others hn' h

theorem sum_nonzeroBelow (values : Array K) (n : Nat) (hn : n ≤ values.size) (others : List (Nat × K)) :
    ((DenseVector.nonzeroBelow values n others).map (·.2)).sum =
      (values.toList.take n).sum + (others.map (·.2)).sum := by
  induction n generalizing others with
  | zero => simp [DenseVector.nonzeroBelow]
  | succ n ih =>
    have hget : values[n]? = some values[n] := Array.getElem?_eq_getElem hn
    have htake : values.toList.take (n + 1) = values.toList.take n ++ [values[n]] := by
      rw [List.take_add_one, Array.getElem?_toList, hget]
      rfl
    rw [DenseVector.nonzeroBelow, hget, htake]
    by_cases h : values[n] = 0
    · simp [h, ih (Nat.le_of_succ_le hn)]
    · simp [h, ih (Nat.le_of_succ_le hn), add_assoc]

instance : LawfulMass (DenseVector K) K where
  mass_none i := rfl
  mass_add v i x j := value_set v i j _
  mass_set v i x j := value_set v i j x
  mem_entries v i x := by
    have hmem := DenseVector.mem_nonzero (v := v) (e := (i, x))
    simp only [entries, mass, hmem, Scalar.beq_eq, DenseVector.value, Array.getD_eq_getD_getElem?]
    cases v.values[i]? with
    | none =>
      constructor
      · rintro ⟨h, -⟩
        cases h
      · rintro ⟨h, hx⟩
        exact absurd h.symm hx
    | some y => simp
  ascending v := nonzeroBelow_ascending v.values _ [] (by simp) .nil
  total_eq v := by
    have hsum := sum_nonzeroBelow v.values v.values.size (Nat.le_refl _) []
    have htotal : MassVector.total v = v.total := rfl
    have hall : v.values.toList.take v.values.size = v.values.toList := List.take_length
    rw [hall] at hsum
    rw [htotal, DenseVector.total_eq_sum, Scalar.sum_eq, Scalar.sum_eq, ← hsum.trans (add_zero _)]
    rfl

end LawfulMass

/-! ## Masses weighted by a function of the state

`weigh` is the one quantity that proofs about masses use: with the function that is one everywhere it is the total,
with a function that is one at a single state the mass of this state, and with values of states the worth of a
result. -/

namespace MassVector

variable {V K : Type} [Field K] [LinearOrder K] [FloorSemiring K] [MassVector V K]

/-- **The masses, each times the value of a function at its state, in one sum.** -/
def weigh (v : V) (h : Nat → K) : K := ((entries v).map fun e => e.2 * h e.1).sum

def support (v : V) : Finset Nat := ((entries v).map (·.1)).toFinset

variable [LawfulMass V K]

theorem mem_support {v : V} {i : Nat} : i ∈ support v ↔ mass v i ≠ 0 := by
  simp only [support, List.mem_toFinset, List.mem_map, Prod.exists, LawfulMass.mem_entries]
  constructor
  · rintro ⟨_, x, ⟨rfl, hx⟩, rfl⟩
    exact hx
  · intro h
    exact ⟨i, mass v i, ⟨rfl, h⟩, rfl⟩

theorem weigh_eq_sum (v : V) (h : Nat → K) {s : Finset Nat} (hs : support v ⊆ s) :
    weigh v h = ∑ i ∈ s, mass v i * h i := by
  have hnodup : ((entries v).map (·.1)).Nodup := (List.pairwise_map.2 (LawfulMass.ascending v)).imp Nat.ne_of_lt
  have hmap : ((entries v).map fun e => e.2 * h e.1) = ((entries v).map (·.1)).map fun i => mass v i * h i := by
    rw [List.map_map]
    refine List.map_congr_left fun e he => ?_
    have hmass := (LawfulMass.mem_entries v e.1 e.2).1 he
    simp [hmass.1]
  have hzero : ∀ i ∈ s, i ∉ support v → mass v i * h i = 0 := by
    intro i _ hi
    rw [mem_support, not_not] at hi
    rw [hi]
    exact zero_mul _
  unfold weigh
  rw [hmap, ← List.sum_toFinset _ hnodup]
  exact Finset.sum_subset hs hzero

theorem weigh_change (v v' : V) (h : Nat → K) (i : Nat) (x : K)
    (hv : ∀ j, mass v' j = if j = i then x else mass v j) : weigh v' h = weigh v h + (x - mass v i) * h i := by
  have hsub : support v ⊆ insert i (support v) := Finset.subset_insert _ _
  have hsub' : support v' ⊆ insert i (support v) := by
    intro j hj
    rw [mem_support, hv] at hj
    by_cases hji : j = i
    · simp [hji]
    · rw [if_neg hji] at hj
      exact Finset.mem_insert_of_mem (mem_support.2 hj)
  have hterm : ∀ j, mass v' j * h j = mass v j * h j + if j = i then (x - mass v i) * h i else 0 := by
    intro j
    rw [hv]
    by_cases hji : j = i
    · subst hji
      simp only [if_pos]
      ring
    · simp [hji]
  rw [weigh_eq_sum v h hsub, weigh_eq_sum v' h hsub',
    Finset.sum_congr rfl fun j _ => hterm j, Finset.sum_add_distrib,
    Finset.sum_ite_eq', if_pos (Finset.mem_insert_self _ _)]

theorem weigh_add (v : V) (h : Nat → K) (i : Nat) (x : K) :
    weigh (MassVector.add v i x) h = weigh v h + x * h i := by
  have hchange := weigh_change v (MassVector.add v i x) h i _ (LawfulMass.mass_add v i x)
  rw [hchange, add_sub_cancel_left]

theorem weigh_set (v : V) (h : Nat → K) (i : Nat) (x : K) :
    weigh (MassVector.set v i x) h = weigh v h + (x - mass v i) * h i :=
  weigh_change v _ h i x (LawfulMass.mass_set v i x)

theorem weigh_none (h : Nat → K) : weigh (MassVector.none : V) h = 0 := by
  have hempty : support (MassVector.none : V) ⊆ ∅ := by
    intro i hi
    exact absurd (LawfulMass.mass_none i) (mem_support.1 hi)
  rw [weigh_eq_sum _ h hempty, Finset.sum_empty]

theorem weigh_one (v : V) : weigh v (fun _ => 1) = MassVector.total v := by
  rw [LawfulMass.total_eq, Scalar.sum_eq]
  unfold weigh
  congr 1
  exact List.map_congr_left fun e _ => mul_one e.2

/-! ## All mass at the start

Provers begin with one unit of mass, at the start. -/

theorem mass_start (u : Nat) : mass (MassVector.add (MassVector.none : V) 0 1) u = if u = 0 then 1 else 0 := by
  rw [LawfulMass.mass_add, LawfulMass.mass_none, LawfulMass.mass_none, zero_add]

theorem eq_of_mass_start {u : Nat} (h : mass (MassVector.add (MassVector.none : V) 0 1) u ≠ 0) : u = 0 := by
  by_contra hu
  rw [mass_start, if_neg hu] at h
  exact h rfl

theorem mass_start_nonneg [IsStrictOrderedRing K] (u : Nat) :
    0 ≤ mass (MassVector.add (MassVector.none : V) 0 1) u := by
  rw [mass_start]
  split
  · exact zero_le_one
  · exact le_rfl

theorem weigh_start (h : Nat → K) : weigh (MassVector.add (MassVector.none : V) 0 1) h = h 0 := by
  rw [weigh_add, weigh_none, zero_add, one_mul]

end MassVector

end ProofWalk
