import Mathlib.Data.List.Nodup
import ProofWalk.Graph.IdGraph
import ProofWalk.Proofs.Interning
import ProofWalk.Proofs.Lists
/-!
# Proofs.NumberedFeatures — features by name and features by number

A row of numbered features stands for edges with dictionaries (`RowFor`).  Numbering the features of new edges gives
such a row (`rowOf_stands`), and it stands for the same edges when the table grows.  Read back by name, a vector has
the entries of its dictionary, though in another order (`featureNames_perm`); so the dictionary made of them is the
old one.
-/
namespace ProofWalk

variable {K : Type}

/-! ## Vectors of pairs

Pairs with different indices are the entries of their vector, and a map is the map of its entries. -/

namespace SparseVector

variable [Scalar K]

theorem getElem?_foldl_add {pairs : List (Nat × K)} (hnodup : (pairs.map (·.1)).Nodup) (v : SparseVector K)
    (hv : ∀ e ∈ pairs, v[e.1]? = none) (i : Nat) (x : K) :
    (pairs.foldl (fun v e => v.add e.1 e.2) v)[i]? = some x ↔ v[i]? = some x ∨ (i, x) ∈ pairs := by
  induction pairs generalizing v with
  | nil => simp
  | cons e rest ih =>
    rw [List.map_cons, List.nodup_cons] at hnodup
    obtain ⟨hfresh, hnodup⟩ := hnodup
    have hnew : v[e.1]? = none := hv e List.mem_cons_self
    have hself : (v.add e.1 e.2)[e.1]? = some e.2 := by simp [add, hnew]
    have hother : ∀ j, j ≠ e.1 → (v.add e.1 e.2)[j]? = v[j]? := fun j hj => SortedMap.getElem?_upsert_of_ne _ _ hj
    have hrest : ∀ e' ∈ rest, (v.add e.1 e.2)[e'.1]? = none := by
      intro e' he'
      have hne : e'.1 ≠ e.1 := fun h => hfresh (h ▸ List.mem_map_of_mem he')
      rw [hother _ hne]
      exact hv e' (List.mem_cons_of_mem _ he')
    rw [List.foldl_cons, ih hnodup _ hrest]
    by_cases hi : i = e.1
    · subst hi
      have hnot : (e.1, x) ∉ rest := fun h => hfresh (List.mem_map.2 ⟨_, h, rfl⟩)
      have hpair : (e.1, x) = e ↔ e.2 = x := by
        obtain ⟨j, y⟩ := e
        simp [eq_comm]
      simp [hself, hnew, hnot, hpair]
    · have hne : (i, x) ≠ e := fun h => hi (congrArg Prod.fst h)
      simp [hother i hi, hne]

theorem getElem?_ofPairs {pairs : List (Nat × K)} (hnodup : (pairs.map (·.1)).Nodup) (i : Nat) (x : K) :
    (ofPairs pairs)[i]? = some x ↔ (i, x) ∈ pairs := by
  have h := getElem?_foldl_add hnodup ∅ (by simp) i x
  simpa [ofPairs] using h

end SparseVector

namespace SortedMap

variable {κ ν : Type} [DecidableEq κ] [Ord κ] [Std.TransOrd κ] [Std.LawfulEqOrd κ]

omit [DecidableEq κ] in
theorem nodup_keys (m : SortedMap κ ν) : (m.toList.map (·.1)).Nodup :=
  List.pairwise_map.2 (Std.ExtTreeMap.distinct_keys_toList.imp fun h he =>
    h (by rw [he]; exact Std.ReflCmp.compare_self))

omit [DecidableEq κ] in
theorem nodup_toList (m : SortedMap κ ν) : m.toList.Nodup := m.nodup_keys.of_map

theorem getElem?_ofList {l : List (κ × ν)} (hnodup : (l.map (·.1)).Nodup) (k : κ) (x : ν) :
    (Std.ExtTreeMap.ofList l compare : SortedMap κ ν)[k]? = some x ↔ (k, x) ∈ l := by
  have hdistinct : l.Pairwise fun a b => ¬compare a.1 b.1 = .eq :=
    (List.pairwise_map.1 hnodup).imp fun hne he => hne (Std.LawfulEqCmp.eq_of_compare he)
  have hvalue : ∀ y, (k, y) ∈ l → (Std.ExtTreeMap.ofList l compare : SortedMap κ ν)[k]? = some y := fun y =>
    Std.ExtTreeMap.getElem?_ofList_of_mem Std.ReflCmp.compare_self hdistinct
  refine ⟨fun h => ?_, hvalue x⟩
  have hmem : k ∈ (Std.ExtTreeMap.ofList l compare : SortedMap κ ν) := by
    rw [Std.ExtTreeMap.mem_iff_isSome_getElem?, h]
    rfl
  rw [Std.ExtTreeMap.mem_ofList, List.contains_iff_mem] at hmem
  obtain ⟨⟨_, y⟩, hy, rfl⟩ := List.mem_map.1 hmem
  rw [hvalue y hy] at h
  cases h
  exact hy

theorem ascending_toList (m : SortedMap Nat ν) : m.toList.Pairwise fun a b => a.1 < b.1 :=
  Std.ExtTreeMap.ordered_keys_toList.imp fun h => Nat.compare_eq_lt.1 h

theorem toList_ofList {l : List (Nat × ν)} (hsorted : l.Pairwise fun a b => a.1 < b.1) :
    (Std.ExtTreeMap.ofList l compare : SortedMap Nat ν).toList = l := by
  have hnodup : (l.map (·.1)).Nodup := List.pairwise_map.2 (hsorted.imp Nat.ne_of_lt)
  refine eq_of_ascending (ascending_toList _) hsorted fun e => ?_
  rw [Std.ExtTreeMap.mem_toList_iff_getElem?_eq_some, getElem?_ofList hnodup]

end SortedMap

/-! ## Dictionaries and vectors

`VectorFor` relates one vector to one dictionary by a table that has all of its names, and `RowFor` a row to a list
of edges. -/

/-- Whether a vector holds the values of a dictionary at the numbers of its names. -/
structure VectorFor (table : Symbols) (dict : Features K) (v : SparseVector K) : Prop where
  numbered : ∀ name x, dict[name]? = some x → ∃ i, table.find? name = some i ∧ v[i]? = some x
  named : ∀ i x, v[i]? = some x → ∃ name, table.find? name = some i ∧ dict[name]? = some x

/-- **Whether a row stands for edges** under the numbers of a table. -/
def RowFor (table : Symbols) : List (Edge K) → SparseRow K → Prop :=
  List.Forall₂ fun e r => e.child = r.child ∧ VectorFor table e.features r.features

def Symbols.number (table : Symbols) (name : String) : Nat := (table.find? name).getD 0

variable {table table' : Symbols} {dict : Features K} {v : SparseVector K}

theorem VectorFor.keeps (h : VectorFor table dict v) (hkeeps : table.Keeps table') : VectorFor table' dict v where
  numbered name x hx := by
    obtain ⟨i, hi, hv⟩ := h.numbered name x hx
    exact ⟨i, hkeeps name i hi, hv⟩
  named i x hx := by
    obtain ⟨name, hname, hx⟩ := h.named i x hx
    exact ⟨name, hkeeps name i hname, hx⟩

theorem RowFor.keeps {edges : List (Edge K)} {row : SparseRow K} (h : RowFor table edges row)
    (hkeeps : table.Keeps table') : RowFor table' edges row :=
  h.imp fun _ _ he => ⟨he.1, he.2.keeps hkeeps⟩

namespace IdGraph

/-- **Read back by name, a vector has the entries of its dictionary.** -/
theorem featureNames_perm (h : VectorFor table dict v) : (featureNames table v).Perm dict.toList := by
  have hname : ∀ e ∈ v.toList, table.find? (table.name e.1) = some e.1 ∧ dict[table.name e.1]? = some e.2 := by
    intro e he
    obtain ⟨name, hname, hx⟩ := h.named e.1 e.2 (Std.ExtTreeMap.mem_toList_iff_getElem?_eq_some.1 he)
    rw [Symbols.name_of_find? hname]
    exact ⟨hname, hx⟩
  have hnodup : (featureNames table v).Nodup := by
    refine List.Nodup.map_on (fun e he e' he' heq => ?_) v.nodup_toList
    obtain ⟨hname1, hvalue⟩ := Prod.mk.inj heq
    have hi := (hname e he).1
    rw [hname1, (hname e' he').1] at hi
    exact Prod.ext (Option.some.inj hi).symm hvalue
  refine (List.perm_ext_iff_of_nodup hnodup dict.nodup_toList).2 fun ⟨name, x⟩ => ?_
  rw [Std.ExtTreeMap.mem_toList_iff_getElem?_eq_some]
  constructor
  · intro hmem
    obtain ⟨e, he, heq⟩ := List.mem_map.1 hmem
    obtain ⟨rfl, rfl⟩ := Prod.mk.inj heq
    exact (hname e he).2
  · intro hx
    obtain ⟨i, hi, hv⟩ := h.numbered name x hx
    refine List.mem_map.2 ⟨(i, x), Std.ExtTreeMap.mem_toList_iff_getElem?_eq_some.2 hv, ?_⟩
    rw [Symbols.name_of_find? hi]

theorem ofList_featureNames (h : VectorFor table dict v) :
    Std.ExtTreeMap.ofList (featureNames table v) compare = dict := by
  have hperm := featureNames_perm h
  have hnodup : ((featureNames table v).map (·.1)).Nodup := (hperm.map _).nodup_iff.2 dict.nodup_keys
  refine Std.ExtTreeMap.ext_getElem? fun name => Option.ext fun x => ?_
  rw [SortedMap.getElem?_ofList hnodup, hperm.mem_iff, Std.ExtTreeMap.mem_toList_iff_getElem?_eq_some]

theorem edges_of_row {edges : List (Edge K)} {row : SparseRow K} (h : RowFor table edges row) :
    row.map (fun e => ⟨e.child, .ofList (featureNames table e.features) compare⟩) = edges := by
  induction h with
  | nil => rfl
  | cons he _ ih => rw [List.map_cons, ih, ofList_featureNames he.2, ← he.1]

def Named (table : Symbols) (v : SparseVector K) : Prop := ∀ i x, v[i]? = some x → (table.get? i).isSome

end IdGraph

theorem VectorFor.all_named (h : VectorFor table dict v) : IdGraph.Named table v := by
  intro i x hx
  obtain ⟨name, hname, -⟩ := h.named i x hx
  rw [Symbols.get?_of_find? hname]
  rfl

theorem RowFor.all_named {edges : List (Edge K)} {row : SparseRow K} (h : RowFor table edges row) :
    ∀ e ∈ row, IdGraph.Named table e.features := by
  intro e he
  obtain ⟨_, _, -, hvector⟩ := exists_of_forall₂ h he
  exact hvector.all_named

theorem RowFor.child_mem {edges : List (Edge K)} {row : SparseRow K} (h : RowFor table edges row) :
    ∀ e ∈ row, ∃ edge ∈ edges, edge.child = e.child := by
  intro e he
  obtain ⟨edge, hedge, hchild, -⟩ := exists_of_forall₂ h he
  exact ⟨edge, hedge, hchild⟩

namespace IdGraph

/-! ## Numbering the features of edges

Names are numbered edge by edge, in the order of each dictionary, and numbers that were given out before stay. -/

theorem numberFeatures_eq (l : List (String × K)) (table : Symbols) :
    table.Keeps (numberFeatures l table).2 ∧
      (numberFeatures l table).1 = l.map (fun e => ((numberFeatures l table).2.number e.1, e.2)) ∧
      ∀ e ∈ l, (numberFeatures l table).2.find? e.1 = some ((numberFeatures l table).2.number e.1) := by
  induction l generalizing table with
  | nil => exact ⟨.refl _, rfl, nofun⟩
  | cons e rest ih =>
    obtain ⟨hkeeps, hrest, hfind⟩ := ih (table.intern e.1).1
    have hfirst := hkeeps e.1 _ (Interned.find?_intern table e.1)
    have hnumber : (numberFeatures rest (table.intern e.1).1).2.number e.1 = (table.intern e.1).2 := by
      rw [Symbols.number, hfirst, Option.getD_some]
    refine ⟨(table.keeps_intern e.1).trans hkeeps, ?_, List.forall_mem_cons.2 ⟨?_, hfind⟩⟩
    · exact congrArg₂ List.cons (congrArg (·, e.2) hnumber.symm) hrest
    · exact hfirst.trans (congrArg some hnumber.symm)

variable [Scalar K]

theorem vectorFor_numbered (dict : Features K) (table : Symbols) :
    VectorFor (numberFeatures dict.toList table).2 dict
      (SparseVector.ofPairs (numberFeatures dict.toList table).1) := by
  obtain ⟨-, hnumbered, hfind⟩ := numberFeatures_eq dict.toList table
  generalize (numberFeatures dict.toList table).2 = table' at hnumbered hfind ⊢
  have hnodup : ((numberFeatures dict.toList table).1.map (·.1)).Nodup := by
    rw [hnumbered, List.map_map]
    refine List.Nodup.map_on (fun e he e' he' heq => ?_) dict.nodup_toList
    have hname : e.1 = e'.1 := by
      rw [← Symbols.name_of_find? (hfind e he), ← Symbols.name_of_find? (hfind e' he')]
      exact congrArg _ heq
    have hvalue := Std.ExtTreeMap.mem_toList_iff_getElem?_eq_some.1 he
    rw [hname, Std.ExtTreeMap.mem_toList_iff_getElem?_eq_some.1 he'] at hvalue
    exact Prod.ext hname (Option.some.inj hvalue).symm
  have hentry := SparseVector.getElem?_ofPairs hnodup
  rw [hnumbered] at hentry ⊢
  constructor
  · intro name x hx
    have hmem : (name, x) ∈ dict.toList := Std.ExtTreeMap.mem_toList_iff_getElem?_eq_some.2 hx
    exact ⟨table'.number name, hfind _ hmem, (hentry ..).2 (List.mem_map.2 ⟨_, hmem, rfl⟩)⟩
  · intro i x hx
    obtain ⟨e, he, heq⟩ := List.mem_map.1 ((hentry ..).1 hx)
    obtain ⟨rfl, rfl⟩ := Prod.mk.inj heq
    exact ⟨e.1, hfind e he, Std.ExtTreeMap.mem_toList_iff_getElem?_eq_some.1 he⟩

theorem rowOf_stands (edges : List (Edge K)) (table : Symbols) :
    table.Keeps (rowOf edges table).2 ∧ RowFor (rowOf edges table).2 edges (rowOf edges table).1 := by
  induction edges generalizing table with
  | nil => exact ⟨.refl _, .nil⟩
  | cons e rest ih =>
    have hfirst := (numberFeatures_eq e.features.toList table).1
    have hvector := vectorFor_numbered e.features table
    obtain ⟨hkeeps, hrest⟩ := ih (numberFeatures e.features.toList table).2
    exact ⟨hfirst.trans hkeeps, .cons ⟨rfl, hvector.keeps hkeeps⟩ hrest⟩

end IdGraph

end ProofWalk
