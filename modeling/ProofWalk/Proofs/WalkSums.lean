import Mathlib.Algebra.BigOperators.Ring.List
import Mathlib.Algebra.Order.BigOperators.Group.List
import ProofWalk.Proofs.RegularAnswers
/-!
# Proofs.WalkSums — sums over all walks

A walk is the list of its edges, so edges side by side make walks of their own.  What the walks of `n + 1` edges are
worth is said by the first edge (`walkWorth_succ`) as well as by the last (`walkWorth_last`): the first is how a sum
over walks unfolds as a prover goes on from a state, the second how masses move.
-/
namespace ProofWalk

variable {K : Type}

/-- **The walks of just so many edges from a state**, each the list of its edges. -/
def walksFrom (edges : Nat → List (Link K)) : Nat → Nat → List (List (Link K))
  | 0, _ => [[]]
  | n + 1, u => (edges u).flatMap fun l => (walksFrom edges n l.child).map (l :: ·)

def endOf (u : Nat) (walk : List (Link K)) : Nat := walk.foldl (fun _ l => l.child) u

variable [Field K]

def productOf (walk : List (Link K)) : K := (walk.map (·.weight)).prod

/-- **The products of all walks of so many edges from a state to another, in one sum.** -/
def walkSum (edges : Nat → List (Link K)) (n u v : Nat) : K :=
  (((walksFrom edges n u).filter fun walk => endOf u walk = v).map productOf).sum

/-- The products of all walks of so many edges from a state, each times what its end is worth, in one sum. -/
def walkWorth (edges : Nat → List (Link K)) (f : Nat → K) (n u : Nat) : K :=
  ((walksFrom edges n u).map fun walk => productOf walk * f (endOf u walk)).sum

variable {edges edges' : Nat → List (Link K)} {f : Nat → K} {n u v : Nat}

theorem walkWorth_zero (edges : Nat → List (Link K)) (f : Nat → K) (u : Nat) : walkWorth edges f 0 u = f u := by
  simp [walkWorth, walksFrom, productOf, endOf]

theorem sum_map_flatMap {α β : Type} (l : List α) (g : α → List β) (h : β → K) :
    ((l.flatMap g).map h).sum = (l.map fun a => ((g a).map h).sum).sum := by
  induction l with
  | nil => rfl
  | cons a rest ih => rw [List.flatMap_cons, List.map_append, List.sum_append, ih, List.map_cons, List.sum_cons]

theorem walkWorth_succ (edges : Nat → List (Link K)) (f : Nat → K) (n u : Nat) :
    walkWorth edges f (n + 1) u = ((edges u).map fun l => l.weight * walkWorth edges f n l.child).sum := by
  unfold walkWorth
  rw [walksFrom, sum_map_flatMap]
  congr 1
  refine List.map_congr_left fun l _ => ?_
  rw [List.map_map, ← List.sum_map_mul_left]
  congr 1
  refine List.map_congr_left fun walk _ => ?_
  simp only [Function.comp_apply, productOf, endOf, List.map_cons, List.prod_cons, List.foldl_cons]
  exact mul_assoc _ _ _

theorem walkWorth_last (edges : Nat → List (Link K)) (f : Nat → K) (n u : Nat) :
    walkWorth edges f (n + 1) u = walkWorth edges
      (fun i => ((edges i).map fun l => l.weight * f l.child).sum) n u := by
  induction n generalizing u with
  | zero => simp only [walkWorth_succ, walkWorth_zero]
  | succ n ih =>
    rw [walkWorth_succ, walkWorth_succ]
    simp only [ih]

/-- **A sum over the walks to a state is what all walks are worth** where that state alone is worth anything. -/
theorem walkSum_eq (edges : Nat → List (Link K)) (n u v : Nat) :
    walkSum edges n u v = walkWorth edges (fun i => if i = v then 1 else 0) n u := by
  unfold walkSum walkWorth
  induction walksFrom edges n u with
  | nil => rfl
  | cons walk rest ih =>
    by_cases hv : endOf u walk = v
    · simp [hv, ih]
    · simp [hv, ih]

/-! ## Walks of some length and all shorter ones

By the first edge again: the empty walk, and those that begin with an edge. -/

def pathWorth (edges : Nat → List (Link K)) (f : Nat → K) (depth u : Nat) : K :=
  ∑ n ∈ Finset.range (depth + 1), walkWorth edges f n u

theorem pathWorth_zero (edges : Nat → List (Link K)) (f : Nat → K) (u : Nat) : pathWorth edges f 0 u = f u := by
  unfold pathWorth
  rw [Finset.sum_range_one, walkWorth_zero]

theorem pathWorth_succ (edges : Nat → List (Link K)) (f : Nat → K) (depth u : Nat) :
    pathWorth edges f (depth + 1) u =
      f u + ((edges u).map fun l => l.weight * pathWorth edges f depth l.child).sum := by
  induction depth generalizing u with
  | zero =>
    simp only [pathWorth_zero]
    rw [pathWorth, Finset.sum_range_succ, Finset.sum_range_one, walkWorth_succ, walkWorth_zero]
    simp only [walkWorth_zero]
  | succ depth ih =>
    have hmore (i : Nat) : pathWorth edges f (depth + 1) i =
        pathWorth edges f depth i + walkWorth edges f (depth + 1) i :=
      Finset.sum_range_succ ..
    have hsplit : ((edges u).map fun l => l.weight * pathWorth edges f (depth + 1) l.child).sum =
        ((edges u).map fun l => l.weight * pathWorth edges f depth l.child).sum +
          ((edges u).map fun l => l.weight * walkWorth edges f (depth + 1) l.child).sum := by
      rw [← List.sum_map_add]
      simp only [hmore, mul_add]
    rw [hsplit, ← add_assoc, ← ih, ← walkWorth_succ]
    exact Finset.sum_range_succ ..

/-! ## Legal weights

Where weights are not negative and edges of a state weigh no more than one in total, neither do walks of one length. -/

section

variable [LinearOrder K] [IsStrictOrderedRing K] (hedges : ∀ u, ∀ l ∈ edges u, 0 ≤ l.weight)
include hedges

theorem productOf_nonneg : ∀ walk ∈ walksFrom edges n u, 0 ≤ productOf walk := by
  induction n generalizing u with
  | zero => simp [walksFrom, productOf]
  | succ n ih =>
    intro walk hwalk
    obtain ⟨l, hl, hwalk⟩ := List.mem_flatMap.1 hwalk
    obtain ⟨rest, hrest, rfl⟩ := List.mem_map.1 hwalk
    unfold productOf
    rw [List.map_cons, List.prod_cons]
    exact mul_nonneg (hedges u l hl) (ih rest hrest)

/-- **What walks are worth is told by the states that the sums over walks give mass to.** -/
theorem walkWorth_congr {g : Nat → K} (h : ∀ v, walkSum edges n u v ≠ 0 → f v = g v) :
    walkWorth edges f n u = walkWorth edges g n u := by
  unfold walkWorth
  congr 1
  refine List.map_congr_left fun walk hwalk => ?_
  by_cases hnone : productOf walk = 0
  · rw [hnone, zero_mul, zero_mul]
  · rw [h _ fun hsum => hnone ?_]
    -- a walk's product is a part of the sum over the walks to its end
    refine le_antisymm ?_ (productOf_nonneg hedges walk hwalk)
    rw [← hsum]
    refine List.single_le_sum (fun x hx => ?_) _ (List.mem_map_of_mem (List.mem_filter.2 ⟨hwalk, by simp⟩))
    obtain ⟨walk', hwalk', rfl⟩ := List.mem_map.1 hx
    exact productOf_nonneg hedges walk' (List.mem_filter.1 hwalk').1

/-- **All walks of one length together are worth at most one**, where no state has edges of more weight. -/
theorem walkWorth_one_le (hsums : ∀ u, ((edges u).map (·.weight)).sum ≤ 1) (n u : Nat) :
    walkWorth edges (fun _ => 1) n u ≤ 1 := by
  induction n generalizing u with
  | zero => rw [walkWorth_zero]
  | succ n ih =>
    rw [walkWorth_succ]
    refine le_trans (List.sum_le_sum fun l hl => ?_) (hsums u)
    exact mul_le_of_le_one_right (hedges u l hl) (ih l.child)

/-- **All walks of one length together are worth just one** where the edges of every state that shorter ones give
mass to have weights that add up to one. -/
theorem walkWorth_one_eq (h : ∀ i < n, ∀ v, walkSum edges i u v ≠ 0 → ((edges v).map (·.weight)).sum = 1) :
    walkWorth edges (fun _ => 1) n u = 1 := by
  induction n with
  | zero => exact walkWorth_zero ..
  | succ n ih =>
    rw [walkWorth_last]
    refine (walkWorth_congr hedges fun v hv => ?_).trans (ih fun i hi => h i (Nat.lt_succ_of_lt hi))
    simp only [mul_one]
    exact h n (Nat.lt_succ_self n) v hv

end

end ProofWalk
