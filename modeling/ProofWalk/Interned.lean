import ProofWalk.SortedMap
/-!
# Interned — values numbered in order of first appearance

A table gives each value the next free number when its key is first seen, and the same number ever after.  Constants
and features are their own keys (`Symbols`); machine states are keyed by their canonical form, so that states which
differ only in the names of variables share a number.  `Numbering` is for keys that are numbers themselves, such as
cells of a heap or states of a graph.

Beside the values a table keeps an index of their keys, which holds nothing that the values do not tell.  That it
agrees with them, and that no two values share a key, is part of the type (`Interned`), so that a table cannot be
built that gives two numbers to one key; `push` and `intern` re-establish it once and for all.  Two tables are
therefore equal when their values are (`ext`), and the number of a key is the one number whose value has it
(`find?_eq_some_iff`).
-/
namespace ProofWalk

/-- **A table of values numbered from 0**, no two of them with the same key. -/
structure Interned {α κ : Type} [Ord κ] [Std.TransOrd κ] (key : α → κ) where
  items : Array α
  index : SortedMap κ Nat
  /-- A key leads to a number exactly if the value of that number has the key. -/
  index_spec : ∀ k i, index[k]? = some i ↔ ∃ a, items[i]? = some a ∧ key a = k

namespace Interned

variable {α κ : Type} [Ord κ] [Std.TransOrd κ] {key : α → κ}

def empty : Interned key := ⟨#[], ∅, by simp⟩

instance : EmptyCollection (Interned key) := ⟨empty⟩
instance : Inhabited (Interned key) := ⟨empty⟩

def size (t : Interned key) : Nat := t.items.size

def get? (t : Interned key) (i : Nat) : Option α := t.items[i]?

def toList (t : Interned key) : List α := t.items.toList

def find? (t : Interned key) (k : κ) : Option Nat := t.index[k]?

/-- The number of a key is the one number whose value has it. -/
theorem find?_eq_some_iff {t : Interned key} {k : κ} {i : Nat} :
    t.find? k = some i ↔ ∃ a, t.get? i = some a ∧ key a = k := t.index_spec k i

theorem find?_eq_none_iff {t : Interned key} {k : κ} : t.find? k = none ↔ ∀ a ∈ t.toList, key a ≠ k := by
  constructor
  · intro h a ha hk
    obtain ⟨i, hi, rfl⟩ := Array.mem_iff_getElem.1 (Array.mem_toList_iff.1 ha)
    rw [find?_eq_some_iff.2 ⟨_, Array.getElem?_eq_getElem hi, hk⟩] at h
    cases h
  · intro h
    cases hf : t.find? k with
    | none => rfl
    | some i =>
      obtain ⟨a, ha, hk⟩ := find?_eq_some_iff.1 hf
      exact absurd hk (h a (Array.mem_toList_iff.2 (Array.mem_of_getElem? ha)))

theorem key_injective {t : Interned key} {i j : Nat} {a b : α} (ha : t.get? i = some a) (hb : t.get? j = some b)
    (hk : key a = key b) : i = j :=
  Option.some.inj ((find?_eq_some_iff.2 ⟨a, ha, hk⟩).symm.trans (find?_eq_some_iff.2 ⟨b, hb, rfl⟩))

variable [Std.LawfulEqOrd κ]

@[ext] theorem ext {t u : Interned key} (h : t.items = u.items) : t = u := by
  obtain ⟨items, index, spec⟩ := t
  obtain ⟨_, index', spec'⟩ := u
  cases h
  obtain rfl : index = index' := Std.ExtTreeMap.ext_getElem? fun k => Option.ext fun i =>
    (spec k i).trans (spec' k i).symm
  rfl

def push (t : Interned key) (a : α) (h : t.find? (key a) = none) : Interned key :=
  match t, h with
  | ⟨items, index, spec⟩, h =>
    let number := items.size
    ⟨items.push a, index.insert (key a) number, fun k i => by
      have hne := find?_eq_none_iff.1 h
      have hold := spec k i
      rw [Std.ExtTreeMap.getElem?_insert, Array.getElem?_push]
      by_cases hk : key a = k
      · subst hk
        by_cases hi : i = items.size
        · simp [number, hi]
        · have : ∀ b, items[i]? = some b → key b ≠ key a := fun b hb =>
            hne b (Array.mem_toList_iff.2 (Array.mem_of_getElem? hb))
          simpa [number, hi, Ne.symm hi] using this
      · have hc : compare (key a) k ≠ .eq := fun he => hk (Std.LawfulEqOrd.eq_of_compare he)
        rw [if_neg hc, hold]
        by_cases hi : i = items.size
        · simp [hi, hk]
        · simp [hi]⟩

/-- **Number a value**: its old number if the key has been seen, else the next one. -/
def intern (t : Interned key) (a : α) : Interned key × Nat :=
  match h : t.find? (key a) with
  | some i => (t, i)
  | none =>
    let number := t.size
    (t.push a h, number)

theorem get?_intern {t : Interned key} {i : Nat} {b : α} (h : t.get? i = some b) (a : α) :
    (t.intern a).1.get? i = some b := by
  rw [intern]
  split
  · exact h
  · have hi : i < t.items.size := (Array.getElem?_eq_some_iff.1 h).1
    rw [← h]
    exact Array.getElem?_push_lt hi |>.trans (Array.getElem?_eq_getElem hi).symm

theorem find?_intern (t : Interned key) (a : α) : (t.intern a).1.find? (key a) = some (t.intern a).2 := by
  rw [intern]
  split
  · assumption
  · exact find?_eq_some_iff.2 ⟨a, Array.getElem?_push_size, rfl⟩

def ofList (as : List α) : Interned key := as.foldl (fun t a => (t.intern a).1) empty

end Interned

abbrev Symbols := Interned (fun name : String => name)

abbrev Numbering := Interned (fun i : Nat => i)

def Symbols.name (t : Symbols) (i : Nat) : String := (t.get? i).getD s!"#{i}"

end ProofWalk
