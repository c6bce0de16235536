import ProofWalk.Interned
/-!
# Proofs.Interning — tables that grow

A table that has grown keeps the numbers that it gave out (`Interned.Keeps`).  Interning adds a value at the end, or
none, so what a table holds after it is what it held before and perhaps the new value.
-/
namespace ProofWalk
namespace Interned

variable {α κ : Type} [Ord κ] [Std.TransOrd κ] {key : α → κ}

/-- **Whether a table keeps the numbers of another.** -/
def Keeps (before after : Interned key) : Prop := ∀ k i, before.find? k = some i → after.find? k = some i

theorem Keeps.refl (t : Interned key) : t.Keeps t := fun _ _ h => h

theorem Keeps.trans {t t' t'' : Interned key} (h : t.Keeps t') (h' : t'.Keeps t'') : t.Keeps t'' :=
  fun k i hi => h' k i (h k i hi)

variable [Std.LawfulEqOrd κ]

/-- **Interning keeps the numbers.** -/
theorem keeps_intern (t : Interned key) (a : α) : t.Keeps (t.intern a).1 := fun _ _ hi => by
  obtain ⟨b, hb, hk⟩ := find?_eq_some_iff.1 hi
  exact find?_eq_some_iff.2 ⟨b, get?_intern hb a, hk⟩

theorem intern_of_some {t : Interned key} {a : α} {i : Nat} (h : t.find? (key a) = some i) :
    t.intern a = (t, i) := by
  unfold intern
  split
  · rename_i j hj
    rw [h] at hj
    cases hj
    rfl
  · rename_i hnone
    rw [h] at hnone
    cases hnone

theorem intern_of_none {t : Interned key} {a : α} (h : t.find? (key a) = none) :
    (t.intern a).1.items = t.items.push a ∧ (t.intern a).2 = t.size := by
  unfold intern
  split
  · rename_i j hj
    rw [h] at hj
    cases hj
  · exact ⟨rfl, rfl⟩

theorem get?_intern_cases {t : Interned key} {a b : α} {i : Nat} (h : (t.intern a).1.get? i = some b) :
    t.get? i = some b ∨ b = a := by
  rcases hf : t.find? (key a) with _ | j
  · rw [get?, (intern_of_none hf).1, Array.getElem?_push] at h
    split at h
    · exact .inr (Option.some.inj h).symm
    · exact .inl h
  · rw [intern_of_some hf] at h
    exact .inl h

theorem toList_foldl_intern (l : List α) (t : Interned key) (h : ((t.toList ++ l).map key).Nodup) :
    (l.foldl (fun t a => (t.intern a).1) t).toList = t.toList ++ l := by
  induction l generalizing t with
  | nil => simp
  | cons a rest ih =>
    have hnew : t.find? (key a) = none := by
      rw [List.map_append, List.map_cons, List.nodup_append] at h
      exact find?_eq_none_iff.2 fun b hb => h.2.2 _ (List.mem_map_of_mem hb) _ List.mem_cons_self
    have hpush : (t.intern a).1.toList = t.toList ++ [a] := by simp [toList, (intern_of_none hnew).1]
    rw [List.foldl_cons, ih, hpush, List.append_assoc, List.singleton_append]
    rwa [hpush, List.append_assoc, List.singleton_append]

theorem toList_ofList {l : List α} (h : (l.map key).Nodup) : (ofList l : Interned key).toList = l :=
  toList_foldl_intern l empty h

theorem get?_ofList {l : List α} (h : (l.map key).Nodup) (i : Nat) : (ofList l : Interned key).get? i = l[i]? := by
  have hitem : (ofList l : Interned key).get? i = (ofList l : Interned key).toList[i]? :=
    Array.getElem?_toList.symm
  rw [hitem, toList_ofList h]

omit [Std.LawfulEqOrd κ] in
theorem isSome_get?_iff (t : Interned key) (i : Nat) : (t.get? i).isSome ↔ i < t.size := by
  simp [get?, size]

end Interned

theorem Symbols.get?_of_find? {table : Symbols} {name : String} {i : Nat} (h : table.find? name = some i) :
    table.get? i = some name := by
  obtain ⟨_, hget, rfl⟩ := Interned.find?_eq_some_iff.1 h
  exact hget

theorem Symbols.name_of_find? {table : Symbols} {name : String} {i : Nat} (h : table.find? name = some i) :
    table.name i = name := by
  simp [Symbols.name, get?_of_find? h]

end ProofWalk
