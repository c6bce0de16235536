/-!
# Slots — values by number, some of them set

An array of slots, each empty or filled.  Numbers past its end are empty too, and filling one makes the array grow.
Proof graphs keep the edges of the states that have been expanded in this way.  Proofs read slots through `get?`
only: after a number is set, it has the value and all others are as before (`get?_insert`).
-/
namespace ProofWalk

/-- **A partial function on numbers**, stored densely. -/
structure Slots (α : Type) where
  slots : Array (Option α)

namespace Slots

variable {α : Type}

def empty : Slots α := ⟨#[]⟩

instance : EmptyCollection (Slots α) := ⟨empty⟩
instance : Inhabited (Slots α) := ⟨empty⟩

def get? (s : Slots α) (i : Nat) : Option α := s.slots[i]?.join

def grown (s : Slots α) (i : Nat) : Array (Option α) := s.slots ++ Array.replicate (i + 1 - s.slots.size) none

def insert (s : Slots α) (i : Nat) (a : α) : Slots α := ⟨(s.grown i).setIfInBounds i (some a)⟩

@[simp] theorem get?_empty (i : Nat) : (empty : Slots α).get? i = none := by simp [get?, empty]

theorem lt_size_grown (s : Slots α) (i : Nat) : i < (s.grown i).size := by
  simp only [grown, Array.size_append, Array.size_replicate]
  omega

theorem join_getElem?_grown (s : Slots α) (i j : Nat) : (s.grown i)[j]?.join = s.get? j := by
  unfold grown get?
  rcases Nat.lt_or_ge j s.slots.size with h | h
  · rw [Array.getElem?_append_left h]
  · rw [Array.getElem?_append_right h, Array.getElem?_eq_none h, Array.getElem?_replicate]
    split <;> rfl

theorem get?_insert (s : Slots α) (i j : Nat) (a : α) :
    (s.insert i a).get? j = if i = j then some a else s.get? j := by
  rw [insert, get?, Array.getElem?_setIfInBounds]
  by_cases h : i = j
  · subst h
    simp [lt_size_grown]
  · rw [if_neg h, if_neg h, join_getElem?_grown]

@[simp] theorem get?_insert_self (s : Slots α) (i : Nat) (a : α) : (s.insert i a).get? i = some a := by
  rw [get?_insert, if_pos rfl]

theorem get?_insert_ne (s : Slots α) {i j : Nat} (h : i ≠ j) (a : α) : (s.insert i a).get? j = s.get? j := by
  rw [get?_insert, if_neg h]

end Slots

end ProofWalk
