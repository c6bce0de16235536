/-!
# Prove.PriorityQueue — the foremost entry first

A queue is a binary tree in which no entry stands before the one above it.  Of the two trees below an entry the
larger is the left one, so that the way to the right is short and queues are merged along it (`merge`).  Putting in
an entry is merging with a queue of one, and taking out the foremost is merging what is below it.  An order is given
with each operation: `before a b` tells whether `a` has to be taken before `b`.

What proofs need of a queue is here that operations neither lose nor add entries, as permutations of `toList`.
-/
namespace ProofWalk

/-- **A queue of entries**, each at the top of a tree with a known number of entries. -/
inductive PriorityQueue (α : Type)
  | empty
  /-- The foremost entry of so many, above two further queues. -/
  | node (size : Nat) (first : α) (left right : PriorityQueue α)
deriving Inhabited

namespace PriorityQueue

variable {α : Type}

def size : PriorityQueue α → Nat
  | empty => 0
  | node size _ _ _ => size

def toList : PriorityQueue α → List α
  | empty => []
  | node _ first left right => first :: (left.toList ++ right.toList)

def join (first : α) (a b : PriorityQueue α) : PriorityQueue α :=
  if b.size ≤ a.size then node (a.size + b.size + 1) first a b else node (a.size + b.size + 1) first b a

def single (a : α) : PriorityQueue α := node 1 a empty empty

def mergeNode (before : α → α → Bool) (size : Nat) (first : α) (left right : PriorityQueue α)
    (mergeRight : PriorityQueue α → PriorityQueue α) : PriorityQueue α → PriorityQueue α
  | empty => node size first left right
  | node n other a b =>
    if before other first then join other a (mergeNode before size first left right mergeRight b)
    else join first left (mergeRight (node n other a b))

def merge (before : α → α → Bool) : PriorityQueue α → PriorityQueue α → PriorityQueue α
  | empty => fun q => q
  | node size first left right => mergeNode before size first left right (merge before right)

def insert (before : α → α → Bool) (q : PriorityQueue α) (a : α) : PriorityQueue α := merge before (single a) q

def pop? (before : α → α → Bool) : PriorityQueue α → Option (α × PriorityQueue α)
  | empty => none
  | node _ first left right => some (first, merge before left right)

theorem toList_join_perm (first : α) (a b : PriorityQueue α) :
    (join first a b).toList.Perm (first :: (a.toList ++ b.toList)) := by
  unfold join
  split
  · exact .refl _
  · exact .cons _ List.perm_append_comm

/-- **Merging neither loses nor adds an entry.** -/
theorem toList_merge_perm (before : α → α → Bool) (p q : PriorityQueue α) :
    (merge before p q).toList.Perm (p.toList ++ q.toList) := by
  induction p generalizing q with
  | empty => exact .refl _
  | node size first left right _ ihr =>
    rw [merge]
    induction q with
    | empty => simp [mergeNode, toList]
    | node n other a b _ ihb =>
      rw [mergeNode]
      split
      · refine (toList_join_perm ..).trans ?_
        refine ((ihb.append_left a.toList).cons other).trans ?_
        simp only [toList]
        refine List.Perm.trans (.cons other ?_) (List.perm_middle.symm)
        rw [← List.append_assoc, ← List.append_assoc]
        exact List.perm_append_comm.append_right _
      · refine (toList_join_perm ..).trans ?_
        refine ((ihr (node n other a b)).append_left left.toList).cons first |>.trans ?_
        simp [toList]

theorem toList_insert_perm (before : α → α → Bool) (q : PriorityQueue α) (a : α) :
    (q.insert before a).toList.Perm (a :: q.toList) :=
  toList_merge_perm before (single a) q

theorem toList_of_pop? {before : α → α → Bool} {q rest : PriorityQueue α} {a : α}
    (h : q.pop? before = some (a, rest)) : q.toList.Perm (a :: rest.toList) := by
  cases q with
  | empty => cases h
  | node size first left right =>
    cases h
    exact ((toList_merge_perm before left right).symm).cons _

end PriorityQueue

end ProofWalk
