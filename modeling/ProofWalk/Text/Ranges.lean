/-!
# Text.Ranges — sets of code points as lists of closed intervals

A property of characters is given by the intervals `(first, last)` of code points that have it, both ends included.
The tables built on this module are ascending and disjoint; membership does not depend on that.
-/
namespace ProofWalk.Text

def inRanges (ranges : List (Nat × Nat)) (n : Nat) : Bool :=
  ranges.any fun r => decide (r.1 ≤ n) && decide (n ≤ r.2)

theorem inRanges_iff {ranges : List (Nat × Nat)} {n : Nat} :
    inRanges ranges n = true ↔ ∃ r ∈ ranges, r.1 ≤ n ∧ n ≤ r.2 := by
  simp [inRanges, List.any_eq_true]

end ProofWalk.Text
