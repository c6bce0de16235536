import ProofWalk.Scalar
/-!
# Sparse.Dense — vectors that grow as they are written

A dense vector holds a value for each index below its length; beyond, it reads as zero and grows when it is written,
with zeros up to the index that is written.  What it lists are the entries that are not zero, by ascending index
(`mem_nonzero`), and moving entries to new indices drops those that have no new index.
-/
namespace ProofWalk

/-- **A vector given by its values.** -/
structure DenseVector (K : Type) where
  values : Array K
deriving DecidableEq

namespace DenseVector

variable {K : Type} [Scalar K]

def empty : DenseVector K := ⟨#[]⟩

instance : EmptyCollection (DenseVector K) := ⟨empty⟩
instance : Inhabited (DenseVector K) := ⟨empty⟩

def zeros (length : Nat) : DenseVector K := ⟨Array.replicate length 0⟩

def length (v : DenseVector K) : Nat := v.values.size

def value (v : DenseVector K) (i : Nat) : K := v.values.getD i 0

def grown (v : DenseVector K) (i : Nat) : Array K := v.values ++ Array.replicate (i + 1 - v.values.size) 0

def set (v : DenseVector K) (i : Nat) (x : K) : DenseVector K := ⟨(v.grown i).setIfInBounds i x⟩

def add (v : DenseVector K) (i : Nat) (x : K) : DenseVector K := v.set i (v.value i + x)

def total (v : DenseVector K) : K := v.values.foldl (· + ·) Scalar.emptySum

theorem total_eq_sum (v : DenseVector K) : v.total = Scalar.sum v.values.toList := by
  rw [total, Scalar.sum, Array.foldl_toList]

def nonzeroBelow (values : Array K) : Nat → List (Nat × K) → List (Nat × K)
  | 0, others => others
  | i + 1, others =>
    match values[i]? with
    | some x => nonzeroBelow values i (if x == 0 then others else (i, x) :: others)
    | none => nonzeroBelow values i others

def nonzero (v : DenseVector K) : List (Nat × K) := nonzeroBelow v.values v.values.size []

theorem mem_nonzeroBelow {values : Array K} {n : Nat} {others : List (Nat × K)} {e : Nat × K} :
    e ∈ nonzeroBelow values n others ↔
      e ∈ others ∨ e.1 < n ∧ values[e.1]? = some e.2 ∧ (e.2 == 0) = false := by
  induction n generalizing others with
  | zero => simp [nonzeroBelow]
  | succ n ih =>
    have hlast : e.1 < n + 1 ↔ e.1 < n ∨ e.1 = n := by omega
    rw [nonzeroBelow]
    split
    · rename_i x hx
      rw [ih, hlast]
      by_cases h : e.1 = n
      · obtain ⟨i, y⟩ := e
        cases h
        by_cases h0 : x == 0
        · by_cases hxy : x = y
          · subst hxy; simp [h0, hx]
          · simp [h0, hx, hxy]
        · by_cases hxy : x = y
          · subst hxy; simp [h0, hx]
          · simp [h0, hx, hxy, Ne.symm hxy]
      · have : ∀ y, e ≠ (n, y) := fun y he => h (by rw [he])
        split <;> simp [h, this]
    · rename_i hx
      rw [ih, hlast]
      by_cases h : e.1 = n
      · simp [h, hx]
      · simp [h]

/-- **Which entries are listed.** -/
theorem mem_nonzero {v : DenseVector K} {e : Nat × K} :
    e ∈ v.nonzero ↔ v.values[e.1]? = some e.2 ∧ (e.2 == 0) = false := by
  rw [nonzero, mem_nonzeroBelow]
  constructor
  · rintro (h | ⟨_, h⟩)
    · cases h
    · exact h
  · intro h
    exact .inr ⟨(Array.getElem?_eq_some_iff.1 h.1).1, h⟩

def remap (v : DenseVector K) (mapping : Array (Option Nat)) : DenseVector K :=
  v.nonzero.foldl (fun out e => match mapping[e.1]? with
    | some (some i) => out.add i e.2
    | _ => out) empty

end DenseVector

end ProofWalk
