import ProofWalk.Proofs.NumberedFeatures
/-!
# Proofs.SparseColumns — sparse vectors as sums, and as two columns

A sparse vector has an entry for each index that it was given values for: the sum of these values in the order in
which they were given (`getElem?_addAll`).  It can be laid out as two columns, the indices in ascending order and
the values beside them (`Columns`).  Then pairs are sorted by index, neighbours with one index are put together, and
a value that is added later finds its place by halving.  Whatever a vector is made of, its columns stay in step with
it (`LaidOut`).
-/
namespace ProofWalk

variable {K : Type}

/-! ## Sums in the order given

The order is kept because addition of weights need not be associative.  The first value is not added to zero. -/

namespace SparseVector

def given (i : Nat) (pairs : List (Nat × K)) : List K := (pairs.filter (·.1 == i)).map (·.2)

variable [Scalar K]

/-- **The sum of some values in order**, which begins with the first one; zero if there are none. -/
def total : List K → K
  | [] => 0
  | x :: rest => rest.foldl (· + ·) x

def entryOf : List K → Option K
  | [] => none
  | x :: rest => some (total (x :: rest))

def addAll (v : SparseVector K) (pairs : List (Nat × K)) : SparseVector K :=
  pairs.foldl (fun v e => v.add e.1 e.2) v

theorem getD_entryOf (xs : List K) : (entryOf xs).getD 0 = total xs := by
  cases xs with
  | nil => rfl
  | cons x rest => rfl

omit [Scalar K] in
theorem given_cons (i : Nat) (e : Nat × K) (rest : List (Nat × K)) :
    given i (e :: rest) = if e.1 = i then e.2 :: given i rest else given i rest := by
  unfold given
  rw [List.filter_cons]
  by_cases h : e.1 = i
  · rw [if_pos h, if_pos (by simpa using h), List.map_cons]
  · rw [if_neg h, if_neg (by simpa using h)]

theorem getElem?_add_self (v : SparseVector K) (i : Nat) (x : K) :
    (v.add i x)[i]? = entryOf (v[i]?.toList ++ [x]) := by
  rw [add, SortedMap.getElem?_upsert_self]
  cases v[i]? with
  | none => rfl
  | some y => rfl

theorem getElem?_add_of_ne (v : SparseVector K) {i j : Nat} (x : K) (h : j ≠ i) : (v.add i x)[j]? = v[j]? :=
  SortedMap.getElem?_upsert_of_ne _ _ h

/-- **An entry is the sum of what it was and all that is added, in order.** -/
theorem getElem?_addAll (v : SparseVector K) (pairs : List (Nat × K)) (i : Nat) :
    (v.addAll pairs)[i]? = entryOf (v[i]?.toList ++ given i pairs) := by
  induction pairs generalizing v with
  | nil =>
    rw [addAll, List.foldl_nil]
    cases hi : v[i]? with
    | none => rfl
    | some x => rfl
  | cons e rest ih =>
    rw [addAll, List.foldl_cons, ← addAll, ih, given_cons]
    by_cases h : e.1 = i
    · subst h
      rw [if_pos rfl, getElem?_add_self]
      cases v[e.1]? with
      | none => rfl
      | some x => rfl
    · rw [if_neg h, getElem?_add_of_ne v e.2 (Ne.symm h)]

theorem getElem?_ofPairs_append (pairs additions : List (Nat × K)) (i : Nat) :
    ((ofPairs pairs).addAll additions)[i]? = entryOf (given i (pairs ++ additions)) := by
  rw [ofPairs, addAll, ← List.foldl_append, ← addAll, getElem?_addAll, Std.ExtTreeMap.getElem?_empty]
  rfl

/-! ## Entries in order

The map of a vector lists its entries by ascending index, so it is determined by them. -/

omit [Scalar K] in
theorem toList_eq_of_entries {v : SparseVector K} {l : List (Nat × K)} (hl : l.Pairwise fun a b => a.1 < b.1)
    (h : ∀ e, e ∈ l ↔ v[e.1]? = some e.2) : v.toList = l :=
  eq_of_ascending (SortedMap.ascending_toList v) hl fun e => by
    rw [Std.ExtTreeMap.mem_toList_iff_getElem?_eq_some, h]

variable {v : SparseVector K} {before after : List (Nat × K)} {i : Nat}

omit [Scalar K] in
theorem getElem?_of_toList (old : Option K) (hbefore : ∀ e ∈ before, e.1 < i) (hafter : ∀ e ∈ after, i < e.1)
    (h : v.toList = before ++ (old.toList.map (i, ·) ++ after)) : v[i]? = old := by
  refine Option.ext fun y => ?_
  have hbefore : (i, y) ∉ before := fun hmem => Nat.lt_irrefl i (hbefore _ hmem)
  have hafter : (i, y) ∉ after := fun hmem => Nat.lt_irrefl i (hafter _ hmem)
  rw [← Std.ExtTreeMap.mem_toList_iff_getElem?_eq_some, h]
  simp [hbefore, hafter]

theorem toList_add (old : Option K) (hbefore : ∀ e ∈ before, e.1 < i) (hafter : ∀ e ∈ after, i < e.1)
    (h : v.toList = before ++ (old.toList.map (i, ·) ++ after)) (x : K) :
    (v.add i x).toList = before ++ (i, total (old.toList ++ [x])) :: after := by
  have hsorted := SortedMap.ascending_toList v
  rw [h] at hsorted
  obtain ⟨hsorted, hsorted', -⟩ := List.pairwise_append.1 hsorted
  obtain ⟨-, hsorted', -⟩ := List.pairwise_append.1 hsorted'
  refine toList_eq_of_entries ?_ fun e => ?_
  · refine List.pairwise_append.2 ⟨hsorted, List.pairwise_cons.2 ⟨hafter, hsorted'⟩, fun a ha => ?_⟩
    exact List.forall_mem_cons.2 ⟨hbefore a ha, fun b hb => Nat.lt_trans (hbefore a ha) (hafter b hb)⟩
  · by_cases hi : e.1 = i
    · have hvalue : (v.add i x)[e.1]? = some (total (old.toList ++ [x])) := by
        rw [hi, getElem?_add_self, getElem?_of_toList old hbefore hafter h]
        cases old with
        | none => rfl
        | some y => rfl
      have hbefore : e ∉ before := fun hmem => Nat.lt_irrefl i (hi ▸ hbefore e hmem)
      have hafter : e ∉ after := fun hmem => Nat.lt_irrefl i (hi ▸ hafter e hmem)
      rw [hvalue]
      simp [hbefore, hafter, Prod.ext_iff, hi, eq_comm]
    · have hold : e ∉ old.toList.map (i, ·) := fun hmem => by
        obtain ⟨y, -, rfl⟩ := List.mem_map.1 hmem
        exact hi rfl
      have hnew : e ≠ (i, total (old.toList ++ [x])) := fun he => hi (congrArg Prod.fst he)
      rw [getElem?_add_of_ne v x hi, ← Std.ExtTreeMap.mem_toList_iff_getElem?_eq_some, h]
      simp only [List.mem_append, List.mem_cons, hold, hnew, false_or]

end SparseVector

/-! ## Two columns

The functions here work on arrays as the layout asks: by halving, by insertion at a place, and by one sweep over
sorted pairs. -/

/-- **A sparse vector laid out**: the indices of its entries, and their values beside them. -/
structure Columns (K : Type) where
  indices : Array Nat
  values : Array K

namespace Columns

/-- The first place between two bounds whose index is not less than `i`, by halving. -/
def search (indices : Array Nat) (i lo hi : Nat) : Nat :=
  if lo < hi then
    let middle := lo + (hi - lo) / 2
    if indices.getD middle 0 < i then search indices i (middle + 1) hi else search indices i lo middle
  else lo
termination_by hi - lo

def byIndex (a b : Nat × K) : Bool := a.1 ≤ b.1

def empty : Columns K := ⟨#[], #[]⟩

def place (c : Columns K) (i : Nat) : Nat := search c.indices i 0 c.indices.size

variable [Scalar K]

def value (c : Columns K) (i : Nat) : K :=
  if c.indices[c.place i]? = some i then c.values.getD (c.place i) 0 else 0

def add (c : Columns K) (i : Nat) (x : K) : Columns K :=
  if c.indices[c.place i]? = some i then ⟨c.indices, c.values.modify (c.place i) (· + x)⟩
  else ⟨c.indices.insertIdxIfInBounds (c.place i) i, c.values.insertIdxIfInBounds (c.place i) x⟩

def addAll (c : Columns K) (pairs : List (Nat × K)) : Columns K := pairs.foldl (fun c e => c.add e.1 e.2) c

def append (c : Columns K) (e : Nat × K) : Columns K :=
  if c.indices.back? = some e.1 then ⟨c.indices, c.values.modify (c.values.size - 1) (· + e.2)⟩
  else ⟨c.indices.push e.1, c.values.push e.2⟩

/-- **The columns of some pairs**, which are sorted by index first; pairs with one index stay in order. -/
def ofPairs (pairs : List (Nat × K)) : Columns K := (pairs.mergeSort byIndex).foldl append empty

def dot (c : Columns K) (parameters : Array K) (default : K) : K :=
  Scalar.sum ((c.indices.toList.zip c.values.toList).map fun e => e.2 * parameters.getD e.1 default)

/-! ## Places

Halving keeps the place that it looks for between its bounds; the induction is on their distance. -/

omit [Scalar K] in
theorem lt_of_sorted {indices : Array Nat} (hsorted : indices.toList.Pairwise (· < ·))
    {j j' k k' : Nat} (h : j < j') (hj : indices[j]? = some k) (hj' : indices[j']? = some k') : k < k' := by
  rw [← Array.getElem?_toList] at hj hj'
  obtain ⟨hbound, rfl⟩ := List.getElem?_eq_some_iff.1 hj
  obtain ⟨hbound', rfl⟩ := List.getElem?_eq_some_iff.1 hj'
  exact List.pairwise_iff_getElem.1 hsorted j j' hbound hbound' h

omit [Scalar K] in
theorem getElem?_getD {indices : Array Nat} {j : Nat} (h : j < indices.size) :
    indices[j]? = some (indices.getD j 0) := by
  rw [Array.getD_eq_getD_getElem?, Array.getElem?_eq_getElem h, Option.getD_some]

omit [Scalar K] in
/-- **Halving finds the place of an index**: what stands before it is less, and what stands from there on is not. -/
theorem search_spec {indices : Array Nat} (hsorted : indices.toList.Pairwise (· < ·))
    {i lo hi : Nat} (hle : lo ≤ hi) (hsize : hi ≤ indices.size)
    (hlo : ∀ j k, j < lo → indices[j]? = some k → k < i)
    (hhi : ∀ j k, hi ≤ j → indices[j]? = some k → i ≤ k) :
    search indices i lo hi ≤ indices.size ∧ (∀ j k, j < search indices i lo hi → indices[j]? = some k → k < i) ∧
      ∀ j k, search indices i lo hi ≤ j → indices[j]? = some k → i ≤ k := by
  fun_induction search indices i lo hi with
  | case1 lo hi hlt middle hless ih =>
    have hmiddle : indices[middle]? = some (indices.getD middle 0) := getElem?_getD (by omega)
    refine ih (by omega) hsize (fun j k hj hk => ?_) hhi
    rcases Nat.lt_or_eq_of_le (Nat.le_of_lt_succ hj) with hj | rfl
    · exact Nat.lt_trans (lt_of_sorted hsorted hj hk hmiddle) hless
    · rw [hmiddle] at hk
      exact Option.some.inj hk ▸ hless
  | case2 lo hi hlt middle hless ih =>
    have hmiddle : indices[middle]? = some (indices.getD middle 0) := getElem?_getD (by omega)
    refine ih (by omega) (by omega) hlo fun j k hj hk => ?_
    rcases Nat.lt_or_eq_of_le hj with hj | rfl
    · exact Nat.le_trans (Nat.le_of_not_lt hless) (Nat.le_of_lt (lt_of_sorted hsorted hj hmiddle hk))
    · rw [hmiddle] at hk
      exact Option.some.inj hk ▸ Nat.le_of_not_lt hless
  | case3 lo hi hlt =>
    obtain rfl : lo = hi := Nat.le_antisymm hle (Nat.le_of_not_lt hlt)
    exact ⟨hsize, hlo, hhi⟩

/-! ## Columns in step with a vector

Columns are in step if together they are the list of the vector's entries.  Each operation on columns keeps this. -/

/-- **Whether columns hold the entries of a vector**, in order. -/
structure LaidOut (c : Columns K) (v : SparseVector K) : Prop where
  indices : c.indices.toList = v.toList.map (·.1)
  values : c.values.toList = v.toList.map (·.2)

omit [Scalar K] in
theorem toList_insertIdxIfInBounds {α : Type} {xs : Array α} {before after : List α}
    (h : xs.toList = before ++ after) (a : α) :
    (xs.insertIdxIfInBounds before.length a).toList = before ++ a :: after := by
  have hsize : xs.size = before.length + after.length := by rw [← Array.length_toList, h, List.length_append]
  rw [Array.insertIdxIfInBounds, dif_pos (by omega), Array.toList_insertIdx, h]
  clear h hsize
  induction before with
  | nil => rfl
  | cons b rest ih => simp [ih]

omit [Scalar K] in
theorem toList_modify {α : Type} {xs : Array α} {before after : List α} {a : α}
    (h : xs.toList = before ++ a :: after) (f : α → α) :
    (xs.modify before.length f).toList = before ++ f a :: after := by
  rw [Array.toList_modify, h]
  clear h
  induction before with
  | nil => rfl
  | cons b rest ih => simp [ih]

variable {c : Columns K} {v : SparseVector K}

namespace LaidOut

omit [Scalar K] in
theorem ascending (h : LaidOut c v) : c.indices.toList.Pairwise (· < ·) := by
  rw [h.indices]
  exact List.pairwise_map.2 (SortedMap.ascending_toList v)

omit [Scalar K] in
theorem getElem?_indices (h : LaidOut c v) (j : Nat) : c.indices[j]? = v.toList[j]?.map (·.1) := by
  rw [← Array.getElem?_toList, h.indices, List.getElem?_map]

omit [Scalar K] in
/-- **The place of an index parts the entries** into those before it and the others. -/
theorem parted (h : LaidOut c v) (i : Nat) : c.place i ≤ v.toList.length ∧
    (∀ e ∈ v.toList.take (c.place i), e.1 < i) ∧ ∀ e ∈ v.toList.drop (c.place i), i ≤ e.1 := by
  obtain ⟨hsize, hbefore, hafter⟩ : c.place i ≤ c.indices.size ∧
      (∀ j k, j < c.place i → c.indices[j]? = some k → k < i) ∧
      ∀ j k, c.place i ≤ j → c.indices[j]? = some k → i ≤ k :=
    search_spec h.ascending (Nat.zero_le _) (Nat.le_refl _)
      (fun j _ hj => absurd hj (Nat.not_lt_zero j))
      fun _ _ hj hk => absurd (Array.getElem?_eq_some_iff.1 hk).1 (Nat.not_lt_of_le hj)
  rw [← Array.length_toList, h.indices, List.length_map] at hsize
  refine ⟨hsize, fun e he => ?_, fun e he => ?_⟩
  · obtain ⟨j, hj⟩ := List.mem_iff_getElem?.1 he
    obtain ⟨hlt, hj⟩ : j < c.place i ∧ v.toList[j]? = some e := by
      rw [List.getElem?_take] at hj
      split at hj
      · exact ⟨‹_›, hj⟩
      · cases hj
    exact hbefore j e.1 hlt (by rw [h.getElem?_indices, hj]; rfl)
  · obtain ⟨j, hj⟩ := List.mem_iff_getElem?.1 he
    rw [List.getElem?_drop] at hj
    exact hafter _ e.1 (Nat.le_add_right _ _) (by rw [h.getElem?_indices, hj]; rfl)

omit [Scalar K] in
/-- **An index stands in its place, or it is not there** and could be put there. -/
theorem placed (h : LaidOut c v) (i : Nat) : ∃ before after, before.length = c.place i ∧ (∀ e ∈ before, e.1 < i) ∧
    (∀ e ∈ after, i < e.1) ∧ ((∃ y, c.indices[c.place i]? = some i ∧ v.toList = before ++ (i, y) :: after) ∨
      c.indices[c.place i]? ≠ some i ∧ v.toList = before ++ after) := by
  obtain ⟨hlength, hless, hnotLess⟩ := h.parted i
  have hsplit := List.take_append_drop (c.place i) v.toList
  have hsorted := SortedMap.ascending_toList v
  rw [← hsplit] at hsorted
  have hhere : c.indices[c.place i]? = (v.toList.drop (c.place i)).head?.map (·.1) := by
    rw [h.getElem?_indices, List.head?_drop]
  refine ⟨v.toList.take (c.place i), ?_⟩
  rcases hrest : v.toList.drop (c.place i) with _ | ⟨e, rest⟩
  · rw [hrest] at hhere hsplit
    exact ⟨[], List.length_take_of_le hlength, hless, nofun, .inr ⟨by rw [hhere]; nofun, hsplit.symm⟩⟩
  · rw [hrest] at hhere hsplit hsorted hnotLess
    obtain ⟨hfirst, -⟩ := List.pairwise_cons.1 (List.pairwise_append.1 hsorted).2.1
    by_cases hi : e.1 = i
    · subst hi
      exact ⟨rest, List.length_take_of_le hlength, hless, hfirst, .inl ⟨e.2, hhere, hsplit.symm⟩⟩
    · have hlt : i < e.1 := Nat.lt_of_le_of_ne (hnotLess e List.mem_cons_self) (Ne.symm hi)
      refine ⟨e :: rest, List.length_take_of_le hlength, hless, ?_, .inr ⟨?_, hsplit.symm⟩⟩
      · exact List.forall_mem_cons.2 ⟨hlt, fun e' he' => Nat.lt_trans hlt (hfirst e' he')⟩
      · rw [hhere]
        exact fun h => hi (Option.some.inj h)

theorem add (h : LaidOut c v) (i : Nat) (x : K) : LaidOut (c.add i x) (v.add i x) := by
  obtain ⟨before, after, hplace, hbefore, hafter, ⟨y, hhere, hlist⟩ | ⟨hnone, hlist⟩⟩ := h.placed i
  · have hadded := SparseVector.toList_add (some y) hbefore hafter hlist x
    have hindices := h.indices
    have hvalues := h.values
    rw [hlist, List.map_append, List.map_cons] at hindices hvalues
    rw [Columns.add, if_pos hhere]
    refine ⟨?_, ?_⟩
    · rw [hadded, hindices, List.map_append, List.map_cons]
    · rw [hadded, List.map_append, List.map_cons, ← hplace, ← List.length_map (·.2), toList_modify hvalues]
      rfl
  · have hadded := SparseVector.toList_add none hbefore hafter hlist x
    have hindices := h.indices
    have hvalues := h.values
    rw [hlist, List.map_append] at hindices hvalues
    rw [Columns.add, if_neg hnone]
    refine ⟨?_, ?_⟩
    · rw [hadded, List.map_append, List.map_cons, ← hplace, ← List.length_map (·.1),
        toList_insertIdxIfInBounds hindices]
    · rw [hadded, List.map_append, List.map_cons, ← hplace, ← List.length_map (·.2),
        toList_insertIdxIfInBounds hvalues]
      rfl

theorem value (h : LaidOut c v) (i : Nat) : c.value i = SparseVector.value v i := by
  rw [Columns.value, SparseVector.value, Std.ExtTreeMap.getD_eq_getD_getElem?]
  obtain ⟨before, after, hplace, hbefore, hafter, ⟨y, hhere, hlist⟩ | ⟨hnone, hlist⟩⟩ := h.placed i
  · rw [if_pos hhere, SparseVector.getElem?_of_toList (some y) hbefore hafter hlist, Array.getD_eq_getD_getElem?,
      ← Array.getElem?_toList, h.values, hlist, ← hplace]
    simp
  · rw [if_neg hnone, SparseVector.getElem?_of_toList none hbefore hafter hlist]
    rfl

omit [Scalar K] in
theorem back?_indices (h : LaidOut c v) : c.indices.back? = v.toList.getLast?.map (·.1) := by
  rw [← Array.getLast?_toList, h.indices, List.getLast?_map]

omit [Scalar K] in
/-- An index that is not less than any, and not the last, is greater than all. -/
theorem lt_of_back?_ne (h : LaidOut c v) {i : Nat} (hle : ∀ e ∈ v.toList, e.1 ≤ i)
    (hback : c.indices.back? ≠ some i) : ∀ e ∈ v.toList, e.1 < i := by
  have hsorted := SortedMap.ascending_toList v
  rw [h.back?_indices] at hback
  rcases List.eq_nil_or_concat v.toList with hlist | ⟨before, last, hlist⟩
  · rw [hlist]
    exact List.forall_mem_nil _
  · rw [List.concat_eq_append] at hlist
    rw [hlist] at hle hsorted hback ⊢
    rw [List.getLast?_concat] at hback
    have hlast : last.1 < i := Nat.lt_of_le_of_ne (hle last (by simp)) fun he => hback (congrArg some he)
    refine List.forall_mem_append.2 ⟨fun e he => ?_, List.forall_mem_singleton.2 hlast⟩
    exact Nat.lt_trans ((List.pairwise_append.1 hsorted).2.2 e he last (List.mem_singleton_self _)) hlast

/-- **Putting a pair at the end keeps columns in step**, if no index there is greater. -/
theorem append (h : LaidOut c v) {e : Nat × K} (hlast : ∀ e' ∈ v.toList, e'.1 ≤ e.1) :
    LaidOut (c.append e) (v.add e.1 e.2) := by
  have hsorted := SortedMap.ascending_toList v
  have hindices := h.indices
  have hvalues := h.values
  rw [Columns.append]
  split
  · rename_i hsame
    rw [h.back?_indices] at hsame
    obtain ⟨⟨_, y⟩, hy, hi⟩ := Option.map_eq_some_iff.1 hsame
    cases hi
    obtain ⟨before, hlist⟩ := List.getLast?_eq_some_iff.1 hy
    rw [hlist] at hsorted hindices hvalues
    have hbefore : ∀ e' ∈ before, e'.1 < e.1 := fun e' he' =>
      (List.pairwise_append.1 hsorted).2.2 e' he' (e.1, y) (List.mem_singleton_self _)
    rw [List.map_append, List.map_singleton] at hindices hvalues
    have hadded := SparseVector.toList_add (some y) hbefore (List.forall_mem_nil _) hlist e.2
    have hlength : c.values.size - 1 = (before.map (·.2)).length := by
      rw [← Array.length_toList, hvalues, List.length_append]
      rfl
    refine ⟨?_, ?_⟩
    · rw [hadded, hindices, List.map_append]
      rfl
    · rw [hadded, hlength, toList_modify hvalues, List.map_append]
      rfl
  · rename_i hother
    have hadded := SparseVector.toList_add none (h.lt_of_back?_ne hlast hother) (List.forall_mem_nil _)
      (List.append_nil _).symm e.2
    refine ⟨?_, ?_⟩
    · rw [hadded, Array.toList_push, hindices, List.map_append]
      rfl
    · rw [hadded, Array.toList_push, hvalues, List.map_append]
      rfl

theorem appendAll (h : LaidOut c v) {pairs : List (Nat × K)} (hsorted : pairs.Pairwise fun a b => a.1 ≤ b.1)
    (hlast : ∀ e' ∈ v.toList, ∀ e ∈ pairs, e'.1 ≤ e.1) :
    LaidOut (pairs.foldl Columns.append c) (v.addAll pairs) := by
  induction pairs generalizing c v with
  | nil => exact h
  | cons e rest ih =>
    obtain ⟨hfirst, hsorted⟩ := List.pairwise_cons.1 hsorted
    refine ih (h.append fun e' he' => hlast e' he' e List.mem_cons_self) hsorted fun e' he' e₁ he₁ => ?_
    by_cases hi : e'.1 = e.1
    · rw [hi]
      exact hfirst e₁ he₁
    · have hold : e' ∈ v.toList := by
        rw [Std.ExtTreeMap.mem_toList_iff_getElem?_eq_some] at he' ⊢
        rw [← SparseVector.getElem?_add_of_ne v e.2 hi, he']
      exact hlast e' hold e₁ (List.mem_cons_of_mem e he₁)

theorem addAll (h : LaidOut c v) (pairs : List (Nat × K)) : LaidOut (c.addAll pairs) (v.addAll pairs) := by
  induction pairs generalizing c v with
  | nil => exact h
  | cons e rest ih => exact ih (h.add e.1 e.2)

theorem dot (h : LaidOut c v) (parameters : Array K) (default : K) :
    c.dot parameters default = SparseVector.dot v parameters default := by
  have hzip : c.indices.toList.zip c.values.toList = v.toList := by
    have hunzip := List.zip_unzip v.toList
    rw [List.unzip_eq_map] at hunzip
    rw [h.indices, h.values, hunzip]
  rw [Columns.dot, hzip]
  rfl

end LaidOut

end Columns

/-! ## Pairs sorted by index

The sort is stable, so the values of one index stay in the order given. -/

namespace Columns

theorem byIndex_iff {a b : Nat × K} : byIndex a b = true ↔ a.1 ≤ b.1 := decide_eq_true_iff

theorem byIndex_trans (a b c : Nat × K) (hab : byIndex a b = true) (hbc : byIndex b c = true) :
    byIndex a c = true :=
  byIndex_iff.2 (Nat.le_trans (byIndex_iff.1 hab) (byIndex_iff.1 hbc))

theorem byIndex_total (a b : Nat × K) : (byIndex a b || byIndex b a) = true := by
  rw [Bool.or_eq_true, byIndex_iff, byIndex_iff]
  exact Nat.le_total a.1 b.1

/-- **Sorting by index leaves the values of each index in order.** -/
theorem given_mergeSort (i : Nat) (pairs : List (Nat × K)) :
    SparseVector.given i (pairs.mergeSort byIndex) = SparseVector.given i pairs := by
  have hsame : ∀ e ∈ pairs.filter (·.1 == i), e.1 = i := fun e he => by simpa using (List.mem_filter.1 he).2
  have hsorted : (pairs.filter (·.1 == i)).Pairwise fun a b => byIndex a b = true :=
    List.pairwise_of_forall_mem_list fun a ha b hb =>
      byIndex_iff.2 (Nat.le_of_eq ((hsame a ha).trans (hsame b hb).symm))
  have hstable : (pairs.filter (·.1 == i)).Sublist (pairs.mergeSort byIndex) :=
    List.sublist_mergeSort byIndex_trans byIndex_total hsorted List.filter_sublist
  -- it is all that there is for the index, since sorting only changes the order
  have hfiltered := hstable.filter (·.1 == i)
  rw [List.filter_filter] at hfiltered
  simp only [Bool.and_self] at hfiltered
  rw [SparseVector.given, SparseVector.given,
    hfiltered.eq_of_length ((List.mergeSort_perm pairs _).filter _).length_eq.symm]

theorem laidOut_empty : LaidOut (empty : Columns K) ∅ := ⟨rfl, rfl⟩

variable [Scalar K]

theorem laidOut_ofPairs (pairs : List (Nat × K)) : LaidOut (ofPairs pairs) (SparseVector.ofPairs pairs) := by
  have hsorted : (pairs.mergeSort byIndex).Pairwise fun a b => a.1 ≤ b.1 :=
    (List.pairwise_mergeSort byIndex_trans byIndex_total pairs).imp byIndex_iff.1
  have hvector : SparseVector.ofPairs (pairs.mergeSort byIndex) = SparseVector.ofPairs pairs :=
    Std.ExtTreeMap.ext_getElem? fun i => by
      rw [SparseVector.ofPairs, SparseVector.ofPairs, ← SparseVector.addAll, ← SparseVector.addAll,
        SparseVector.getElem?_addAll, SparseVector.getElem?_addAll, given_mergeSort]
  rw [← hvector]
  exact laidOut_empty.appendAll hsorted fun e he => absurd he List.not_mem_nil

end Columns

/-! ## A map of sums

`MapsToSums` says everything at once: which indices there are, and what each has, whichever way it is read. -/

namespace SparseVector

theorem given_eq_nil {i : Nat} {pairs : List (Nat × K)} : given i pairs = [] ↔ ∀ e ∈ pairs, e.1 ≠ i := by
  rw [given, List.map_eq_nil_iff, List.filter_eq_nil_iff]
  exact forall₂_congr fun e _ => by rw [beq_iff_eq]

variable [Scalar K]

theorem mem_keys_addAll (pairs additions : List (Nat × K)) (i : Nat) :
    i ∈ ((ofPairs pairs).addAll additions).keys ↔ ∃ e ∈ pairs ++ additions, e.1 = i := by
  rw [Std.ExtTreeMap.mem_keys, Std.ExtTreeMap.mem_iff_isSome_getElem?, getElem?_ofPairs_append]
  cases h : given i (pairs ++ additions) with
  | nil =>
    rw [given_eq_nil] at h
    exact iff_of_false nofun fun ⟨e, he, hi⟩ => h e he hi
  | cons x rest =>
    refine iff_of_true rfl (Classical.byContradiction fun hnone => ?_)
    rw [given_eq_nil.2 fun e he hi => hnone ⟨e, he, hi⟩] at h
    cases h

theorem value_addAll (pairs additions : List (Nat × K)) (i : Nat) :
    ((ofPairs pairs).addAll additions).value i = total (given i (pairs ++ additions)) := by
  rw [value, Std.ExtTreeMap.getD_eq_getD_getElem?, getElem?_ofPairs_append, getD_entryOf]

theorem value_of_mem {v : SparseVector K} {e : Nat × K} (h : e ∈ v.toList) : v.value e.1 = e.2 := by
  rw [Std.ExtTreeMap.mem_toList_iff_getElem?_eq_some] at h
  rw [value, Std.ExtTreeMap.getD_eq_getD_getElem?, h, Option.getD_some]

theorem map_snd_toList (v : SparseVector K) : v.toList.map (·.2) = v.keys.map v.value := by
  rw [← Std.ExtTreeMap.map_fst_toList_eq_keys, List.map_map]
  exact List.map_congr_left fun e he => (value_of_mem he).symm

theorem dot_eq (v : SparseVector K) (parameters : Array K) (default : K) :
    v.dot parameters default = Scalar.sum (v.keys.map fun i => v.value i * parameters.getD i default) := by
  rw [dot, dotWith, ← Std.ExtTreeMap.map_fst_toList_eq_keys, List.map_map]
  exact congrArg Scalar.sum (List.map_congr_left fun e he => by rw [Function.comp_apply, value_of_mem he])

/-- **A vector and its columns as a map of sums**: the columns hold the vector's indices in ascending order, with a
value for each, and the indices are those that some pairs give values for.  Read either way, an index has the sum of
its values in the order given, and any other index has zero; and the product with parameters takes the indices one
after another. -/
structure MapsToSums (pairs : List (Nat × K)) (v : SparseVector K) (c : Columns K) : Prop where
  keys : c.indices.toList = v.keys
  values : c.values.toList = v.keys.map v.value
  ascending : c.indices.toList.Pairwise (· < ·)
  size_eq : c.values.size = c.indices.size
  present : ∀ i, i ∈ c.indices.toList ↔ ∃ e ∈ pairs, e.1 = i
  sum : ∀ i, v.value i = total (given i pairs) ∧ c.value i = total (given i pairs)
  absent : ∀ i, i ∉ c.indices.toList → v.value i = 0 ∧ c.value i = 0
  product : ∀ parameters default,
    v.dot parameters default = Scalar.sum (c.indices.toList.map fun i =>
      total (given i pairs) * parameters.getD i default) ∧ c.dot parameters default = v.dot parameters default

/-- **A sparse vector is a map of sums**, whatever it is made of and whatever is added to it. -/
theorem mapsToSums_addAll (pairs additions : List (Nat × K)) :
    MapsToSums (pairs ++ additions) ((ofPairs pairs).addAll additions)
      ((Columns.ofPairs pairs).addAll additions) := by
  have h := (Columns.laidOut_ofPairs pairs).addAll additions
  have hkeys : ((Columns.ofPairs pairs).addAll additions).indices.toList =
      ((ofPairs pairs).addAll additions).keys := by
    rw [h.indices, Std.ExtTreeMap.map_fst_toList_eq_keys]
  have hpresent (i : Nat) : i ∈ ((Columns.ofPairs pairs).addAll additions).indices.toList ↔
      ∃ e ∈ pairs ++ additions, e.1 = i := by
    rw [hkeys]
    exact mem_keys_addAll pairs additions i
  have hsum (i : Nat) := value_addAll pairs additions i
  have habsent (i : Nat) (hi : i ∉ ((Columns.ofPairs pairs).addAll additions).indices.toList) :
      ((ofPairs pairs).addAll additions).value i = 0 := by
    rw [hsum, given_eq_nil.2 fun e he hei => hi ((hpresent i).2 ⟨e, he, hei⟩)]
    rfl
  exact
    { keys := hkeys
      values := by rw [h.values, map_snd_toList]
      ascending := h.ascending
      size_eq := by
        rw [← Array.length_toList, ← Array.length_toList, h.values, h.indices, List.length_map, List.length_map]
      present := hpresent
      sum := fun i => ⟨hsum i, (h.value i).trans (hsum i)⟩
      absent := fun i hi => ⟨habsent i hi, (h.value i).trans (habsent i hi)⟩
      product := fun parameters default => by
        refine ⟨?_, h.dot parameters default⟩
        rw [dot_eq, hkeys]
        exact congrArg Scalar.sum (List.map_congr_left fun i _ => by rw [hsum]) }

end SparseVector

end ProofWalk
