import ProofWalk.Proofs.ExactNumbers
import ProofWalk.Prove.Priority
/-!
# Proofs.QueueOrder — what a queue gives first

An order in which an entry that does not stand behind a second one, which does not stand behind a third, does not
stand behind the third either, is all that queues need (`Ranks`).  Every operation leaves the entry above two queues
in front of theirs (`PriorityQueue.Ordered`), so the entry that is taken is in front of all.

The order in use puts larger ratios first and lower states before higher ones of equal ratio (`before_eq_true`).
Two entries may be equal in it, as a state may be queued twice with one ratio; so the order need not be total.
-/
namespace ProofWalk

/-- **An order of entries**: of two entries one at most stands before the other, and not standing before is
transitive. -/
structure Ranks {α : Type} (before : α → α → Bool) : Prop where
  asymm : ∀ a b, before a b = true → before b a = false
  trans : ∀ a b c, before a b = false → before b c = false → before a c = false

theorem Ranks.irrefl {α : Type} {before : α → α → Bool} (h : Ranks before) (a : α) : before a a = false := by
  cases hself : before a a with
  | false => rfl
  | true => exact hself.symm.trans (h.asymm a a hself)

namespace PriorityQueue

variable {α : Type} {before : α → α → Bool}

/-- **An entry that none of a queue stands before.** -/
def Foremost (before : α → α → Bool) (a : α) (q : PriorityQueue α) : Prop := ∀ x ∈ q.toList, before x a = false

/-- **A queue in order**: no entry stands before the one above it, and the numbers of entries are right. -/
def Ordered (before : α → α → Bool) : PriorityQueue α → Prop
  | empty => True
  | node size first left right => size = left.toList.length + right.toList.length + 1 ∧
      (Foremost before first left ∧ Foremost before first right) ∧ left.Ordered before ∧ right.Ordered before

theorem foremost_empty (before : α → α → Bool) (a : α) : Foremost before a empty := nofun

theorem foremost_node {size : Nat} {first a : α} {left right : PriorityQueue α} :
    Foremost before a (node size first left right) ↔
      before first a = false ∧ Foremost before a left ∧ Foremost before a right := by
  unfold Foremost
  rw [toList, List.forall_mem_cons, List.forall_mem_append]

theorem foremost_merge {a : α} {p q : PriorityQueue α} :
    Foremost before a (merge before p q) ↔ Foremost before a p ∧ Foremost before a q := by
  unfold Foremost
  simp only [(toList_merge_perm before p q).mem_iff, List.forall_mem_append]

theorem Ordered.size_eq {q : PriorityQueue α} (h : q.Ordered before) : q.size = q.toList.length := by
  cases q with
  | empty => rfl
  | node size first left right =>
    rw [toList, List.length_cons, List.length_append]
    exact h.1

theorem Ordered.single (before : α → α → Bool) (a : α) : (single a).Ordered before :=
  ⟨rfl, ⟨foremost_empty before a, foremost_empty before a⟩, trivial, trivial⟩

theorem Ordered.join {first : α} {a b : PriorityQueue α} (ha : a.Ordered before) (hb : b.Ordered before)
    (hfirst : Foremost before first a ∧ Foremost before first b) : (join first a b).Ordered before := by
  unfold PriorityQueue.join
  rw [ha.size_eq, hb.size_eq]
  split
  · exact ⟨rfl, hfirst, ha, hb⟩
  · exact ⟨by omega, hfirst.symm, hb, ha⟩

variable (hranks : Ranks before)
include hranks

theorem Foremost.of_before {a b : α} {q : PriorityQueue α} (h : Foremost before a q) (hab : before a b = false) :
    Foremost before b q := fun x hx => hranks.trans x a b (h x hx) hab

theorem Ordered.merge {p q : PriorityQueue α} (hp : p.Ordered before) (hq : q.Ordered before) :
    (merge before p q).Ordered before := by
  induction p generalizing q with
  | empty => exact hq
  | node size first left right _ ihr =>
    rw [PriorityQueue.merge]
    -- the second queue is gone through along its own right side, as long as it stands in front
    induction q with
    | empty => exact hp
    | node n other a b _ ihb =>
      obtain ⟨-, ⟨hotherA, hotherB⟩, ha, hb⟩ := id hq
      obtain ⟨-, ⟨hfirstL, hfirstR⟩, hleft, hright⟩ := id hp
      rw [mergeNode]
      cases hother : before other first with
      | true =>
        rw [if_pos rfl]
        have hfirst := hranks.asymm other first hother
        refine Ordered.join ha (ihb hb) ⟨hotherA, ?_⟩
        show Foremost before other (PriorityQueue.merge before (node size first left right) b)
        exact foremost_merge.2 ⟨foremost_node.2 ⟨hfirst, hfirstL.of_before hranks hfirst,
          hfirstR.of_before hranks hfirst⟩, hotherB⟩
      | false =>
        rw [if_neg Bool.false_ne_true]
        refine Ordered.join hleft (ihr hright hq) ⟨hfirstL, foremost_merge.2 ⟨hfirstR, ?_⟩⟩
        exact foremost_node.2 ⟨hother, hotherA.of_before hranks hother, hotherB.of_before hranks hother⟩

theorem Ordered.insert {q : PriorityQueue α} (h : q.Ordered before) (a : α) : (q.insert before a).Ordered before :=
  Ordered.merge hranks (Ordered.single before a) h

/-- **The entry that is taken is in front of all**, and leaves a queue in order. -/
theorem Ordered.pop? {q rest : PriorityQueue α} {a : α} (h : q.Ordered before)
    (hpop : q.pop? before = some (a, rest)) : Foremost before a q ∧ rest.Ordered before := by
  cases q with
  | empty => cases hpop
  | node size first left right =>
    cases hpop
    obtain ⟨-, ⟨hleftBehind, hrightBehind⟩, hleft, hright⟩ := h
    exact ⟨foremost_node.2 ⟨hranks.irrefl a, hleftBehind, hrightBehind⟩, Ordered.merge hranks hleft hright⟩

end PriorityQueue

/-! ## States by their ratio

Ratios are rational numbers, and the state breaks ties. -/

namespace Queued

variable {K : Type} [Field K] [LinearOrder K] [FloorSemiring K]

theorem before_eq_true {a b : Queued K} : before a b = true ↔
      b.ratio < a.ratio ∨ a.ratio = b.ratio ∧ a.id < b.id := by
  have horder : Scalar.order a.ratio b.ratio = compare a.ratio b.ratio := rfl
  unfold before
  rw [horder]
  rcases lt_trichotomy a.ratio b.ratio with hlt | heq | hgt
  · rw [compare_lt_iff_lt.2 hlt]
    simp [hlt.ne, hlt.not_gt]
  · rw [compare_eq_iff_eq.2 heq]
    simp [heq]
  · rw [compare_gt_iff_gt.2 hgt]
    simp [hgt]

theorem before_eq_false {a b : Queued K} : before a b = false ↔
      a.ratio < b.ratio ∨ a.ratio = b.ratio ∧ b.id ≤ a.id := by
  rw [← Bool.not_eq_true, before_eq_true]
  constructor
  · intro h
    rcases lt_trichotomy a.ratio b.ratio with hlt | heq | hgt
    · exact .inl hlt
    · exact .inr ⟨heq, not_lt.1 fun hid => h (.inr ⟨heq, hid⟩)⟩
    · exact absurd (.inl hgt) h
  · rintro (hlt | ⟨heq, hid⟩) (hgt | ⟨heq', hid'⟩)
    · exact hlt.not_gt hgt
    · exact hlt.ne heq'
    · exact hgt.ne' heq
    · omega

theorem ranks_before : Ranks (before (K := K)) where
  asymm a b h := by
    rcases before_eq_true.1 h with hgt | ⟨heq, hid⟩
    · exact before_eq_false.2 (.inl hgt)
    · exact before_eq_false.2 (.inr ⟨heq.symm, hid.le⟩)
  trans a b c hab hbc := by
    rcases before_eq_false.1 hab with hlt | ⟨heq, hid⟩ <;> rcases before_eq_false.1 hbc with hlt' | ⟨heq', hid'⟩
    · exact before_eq_false.2 (.inl (hlt.trans hlt'))
    · exact before_eq_false.2 (.inl (heq' ▸ hlt))
    · exact before_eq_false.2 (.inl (heq ▸ hlt'))
    · exact before_eq_false.2 (.inr ⟨heq.trans heq', hid'.trans hid⟩)

end Queued

end ProofWalk
