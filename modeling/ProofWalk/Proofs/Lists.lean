import Mathlib.Data.List.Forall2
import Mathlib.Data.List.Perm.Basic
/-!
# Proofs.Lists — lists in correspondence, filtered and indexed

What several proofs need of lists and the library does not say in this form: members of lists in correspondence
(`List.Forall₂`), lists by ascending key, and lists that are told apart up to a stop.
-/
namespace ProofWalk

variable {α β : Type}

theorem exists_of_forall₂ {R : α → β → Prop} : ∀ {l : List α} {l' : List β}, List.Forall₂ R l l' →
    ∀ {b : β}, b ∈ l' → ∃ a ∈ l, R a b
  | [], [], .nil, _, hb => nomatch hb
  | a :: _, _ :: _, .cons hab h, b, hb => by
    rcases List.mem_cons.1 hb with rfl | hb
    · exact ⟨a, List.mem_cons_self, hab⟩
    · obtain ⟨a', ha', hr⟩ := exists_of_forall₂ h hb
      exact ⟨a', List.mem_cons_of_mem _ ha', hr⟩

theorem forall₂_through {γ : Type} {R : α → β → Prop} {S : α → γ → Prop} :
    ∀ {l : List α} {l' : List β} {l'' : List γ},
    List.Forall₂ R l l' → List.Forall₂ S l l'' → List.Forall₂ (fun b c => ∃ a, R a b ∧ S a c) l' l''
  | [], [], [], .nil, .nil => .nil
  | _ :: _, _ :: _, _ :: _, .cons hR h, .cons hS h' => .cons ⟨_, hR, hS⟩ (forall₂_through h h')

theorem getElem?_filterMap {f : α → Option β} {l : List α} (h : ∀ a ∈ l, (f a).isSome) (j : Nat) :
    (l.filterMap f)[j]? = l[j]?.bind f := by
  induction l generalizing j with
  | nil => rfl
  | cons a rest ih =>
    obtain ⟨hfirst, hrest⟩ := List.forall_mem_cons.1 h
    obtain ⟨b, hb⟩ := Option.isSome_iff_exists.1 hfirst
    rw [List.filterMap_cons_some hb]
    cases j with
    | zero => simp [hb]
    | succ j => simpa using ih hrest j

theorem filter_flatMap_eq (l : List α) (p : α → Bool) (f : α → List β) :
    (l.filter p).flatMap f = l.flatMap fun a => if p a then f a else [] := by
  induction l with
  | nil => rfl
  | cons a rest ih =>
    cases h : p a with
    | false => simp [h, ih]
    | true => simp [h, ih]

theorem eq_of_ascending {l l' : List (Nat × α)} (h : l.Pairwise fun a b => a.1 < b.1)
    (h' : l'.Pairwise fun a b => a.1 < b.1) (hmem : ∀ e, e ∈ l ↔ e ∈ l') : l = l' := by
  have hnodup : ∀ {l : List (Nat × α)}, (l.Pairwise fun a b => a.1 < b.1) → l.Nodup := by
    intro l h
    refine h.imp fun {a b} hlt heq => ?_
    rw [heq] at hlt
    exact Nat.lt_irrefl _ hlt
  exact List.Perm.eq_of_pairwise (fun a b _ _ hab hba => absurd hab (Nat.lt_asymm hba)) h h'
    ((List.perm_ext_iff_of_nodup (hnodup h) (hnodup h')).2 hmem)

/-- **What stands before a stop can be told from what follows**, where nothing in it is a stop. -/
theorem append_inj_of_stop {stop : α → Bool} {l l' m m' : List α} (hl : ∀ a ∈ l, stop a = false)
    (hl' : ∀ a ∈ l', stop a = false) (hm : ∃ a, m.head? = some a ∧ stop a = true)
    (hm' : ∃ a, m'.head? = some a ∧ stop a = true) (h : l ++ m = l' ++ m') :
    l = l' ∧ m = m' := by
  have htake {l m : List α} (hl : ∀ a ∈ l, stop a = false) (hm : ∃ a, m.head? = some a ∧ stop a = true) :
      (l ++ m).takeWhile (fun a => !stop a) = l := by
    obtain ⟨a, ha, hstop⟩ := hm
    obtain ⟨rest, rfl⟩ := List.head?_eq_some_iff.1 ha
    rw [List.takeWhile_append_of_pos
      fun b hb => by rw [hl b hb]; rfl, List.takeWhile_cons_of_neg (by simp [hstop]), List.append_nil]
  have hbefore := congrArg (List.takeWhile fun a => !stop a) h
  rw [htake hl hm, htake hl' hm'] at hbefore
  subst hbefore
  exact ⟨rfl, List.append_cancel_left h⟩

theorem forall_mem_iff_of_forall₂ {p : α → Prop} {q : β → Prop} {l : List α} {l' : List β}
    (h : List.Forall₂ (fun a b => p a ↔ q b) l l') : (∀ a ∈ l, p a) ↔ ∀ b ∈ l', q b := by
  induction h with
  | nil => simp
  | cons hhead _ ih => rw [List.forall_mem_cons, List.forall_mem_cons, hhead, ih]

theorem eq_of_map_eq {f : α → β} {l l' : List α} (hf : ∀ a ∈ l, ∀ b ∈ l', f a = f b → a = b)
    (h : l.map f = l'.map f) : l = l' := by
  induction l generalizing l' with
  | nil => exact (List.map_eq_nil_iff.1 h.symm).symm
  | cons a rest ih =>
    cases l' with
    | nil => cases h
    | cons b rest' =>
      rw [List.map_cons, List.map_cons, List.cons.injEq] at h
      rw [hf a List.mem_cons_self b List.mem_cons_self h.1,
        ih (fun c hc d hd => hf c (List.mem_cons_of_mem a hc) d (List.mem_cons_of_mem b hd)) h.2]

end ProofWalk
