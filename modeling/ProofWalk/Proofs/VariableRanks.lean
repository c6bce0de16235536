import Mathlib.Data.List.Induction
import ProofWalk.Proofs.CanonicalForm
import ProofWalk.Proofs.Safety
import ProofWalk.Proofs.StateReading
/-!
# Proofs.VariableRanks — ranks of variables in a pending call

A canonical form numbers the variables of a state in order of first occurrence, and it shows the arguments of the
pending call first.  So the rank of a variable of the call is its place among the different variables of the call,
read from left to right (`State.variableRank_eq_idxOf`), and it depends neither on the registers nor on the callers
nor on the layout of the heap.
-/
namespace ProofWalk

/-! ## Tables of a list

Interning the values of a list one by one removes later copies. -/

namespace Interned

variable {α κ : Type} [Ord κ] [Std.TransOrd κ] [Std.LawfulEqOrd κ] {key : α → κ}

theorem keeps_foldl_intern (l : List α) (t : Interned key) : t.Keeps (l.foldl (fun t a => (t.intern a).1) t) := by
  induction l generalizing t with
  | nil => exact .refl t
  | cons a l ih => exact (t.keeps_intern a).trans (ih _)

theorem map_toList_ofList {β : Type} [BEq β] [LawfulBEq β] {f : α → β}
    (hf : ∀ a b, f a = f b ↔ key a = key b) (l : List α) :
    (ofList l : Interned key).toList.map f = (l.map f).eraseDups := by
  induction l using List.reverseRecOn with
  | nil => rfl
  | append_singleton l a ih =>
    have hlast : (ofList (l ++ [a]) : Interned key) = ((ofList l).intern a).1 := by
      rw [ofList, List.foldl_append]
      rfl
    have hmem : f a ∈ l.map f ↔ f a ∈ (ofList l : Interned key).toList.map f := by rw [ih, List.mem_eraseDups]
    rw [hlast, List.map_append, List.eraseDups_append, ← ih]
    cases hfind : (ofList l : Interned key).find? (key a) with
    | some i =>
      obtain ⟨b, hb, hkey⟩ := find?_eq_some_iff.1 hfind
      have hold : f a ∈ l.map f := hmem.2 <| (hf b a).2 hkey ▸
        List.mem_map_of_mem (Array.mem_toList_iff.2 (Array.mem_of_getElem? hb))
      rw [intern_of_some hfind]
      simp [List.removeAll, hold]
    | none =>
      have hnew : f a ∉ l.map f := fun hold => by
        obtain ⟨b, hb, hfb⟩ := List.mem_map.1 (hmem.1 hold)
        exact find?_eq_none_iff.1 hfind b hb ((hf b a).1 hfb)
      rw [toList, (intern_of_none hfind).1, Array.toList_push, List.map_append]
      simp [List.removeAll, List.eraseDups_cons, hnew, toList]

/-- **A value is numbered by its place among the different values of a list.** -/
theorem find?_ofList {β : Type} [BEq β] [LawfulBEq β] {f : α → β}
    (hf : ∀ a b, f a = f b ↔ key a = key b) {l : List α} {a : α} (ha : a ∈ l) :
    (ofList l : Interned key).find? (key a) = some ((l.map f).eraseDups.idxOf (f a)) := by
  have hget : (l.map f).eraseDups[(l.map f).eraseDups.idxOf (f a)]? = some (f a) :=
    List.getElem?_idxOf (List.mem_eraseDups.2 (List.mem_map_of_mem ha))
  rw [← map_toList_ofList hf, List.getElem?_map] at hget
  obtain ⟨b, hb, hfb⟩ := Option.map_eq_some_iff.1 hget
  refine find?_eq_some_iff.2 ⟨b, ?_, (hf b a).1 hfb⟩
  rw [← map_toList_ofList hf]
  exact Array.getElem?_toList.symm.trans hb

end Interned

/-! ## Variables in an outline

Items that show no variable leave the numbering alone. -/

def Binding.root? : Binding → Option Nat
  | free root => some root
  | _ => none

def State.Item.root? (h : Heap) : State.Item → Option Nat
  | .mark _ => none
  | .cell none => none
  | .cell (some i) => (h.resolve i).root?

/-- **An outline numbers the variables that it shows, one after another.** -/
theorem markItems_numbers (h : Heap) : ∀ (items : List State.Item) (met : Numbering),
    (State.markItems h met items).2 = (items.filterMap (State.Item.root? h)).foldl (fun t a => (t.intern a).1) met
  | [], _ => rfl
  | item :: items, met => by
    have hitem : (State.markItem h met item).2 = (item.root? h).elim met fun root => (met.intern root).1 := by
      rcases item with mark | (_ | i)
      · rfl
      · rfl
      · rw [State.markItem, State.Item.root?]
        cases h.resolve i <;> rfl
    have hrest : (State.markItems h met (item :: items)).2 =
      (State.markItems h (State.markItem h met item).2 items).2 := rfl
    rw [hrest, markItems_numbers h items, hitem, List.filterMap_cons]
    cases item.root? h <;> rfl

/-! ## Variables of terms

A variable is a cell at the end of a chain, and terms of cells are equal where their chains end in one place. -/

def variablesOf {V : Type} [DecidableEq V] (terms : List (Term V)) :
    List V := (terms.filterMap Term.var?).eraseDups

theorem Heap.Sound.var?_term {h : Heap} (hs : h.Sound) {i : Nat} (hi : i < h.size) :
    (h.term i).var? = ((h.resolve i).root?).map Unknown.cell := by
  rcases Heap.term_cases hs hi with ⟨c, hc, hterm⟩ | ⟨root, -, hroot, hterm, -⟩
  · rw [hterm, hc]
    rfl
  · rw [hterm, hroot]
    rfl

namespace State

variable {s : State}

theorem filterMap_top (hheap : s.heap.Sound) (hsize : s.arity ≤ s.heap.size) :
    (s.heap.top s.arity).filterMap Term.var? =
      (s.argumentCells.filterMap fun i => (s.heap.resolve i).root?).map Unknown.cell := by
  rw [Heap.top, argumentCells, Nat.min_eq_left hsize, List.filterMap_map, List.map_filterMap]
  refine List.filterMap_congr fun i hi => hheap.var?_term ?_
  have := (List.mem_range'_1.1 hi).2
  omega

/-- **The rank of a variable of the pending call is its place among the variables of the call.** -/
theorem variableRank_eq_idxOf (hrunning : s.completed = false ∧ s.failed = false) (hheap : s.heap.Sound)
    (hsize : s.arity ≤ s.heap.size) {root : Nat} (hroot : .var (.cell root) ∈ s.heap.top s.arity) :
    s.variableRank root = (variablesOf (s.heap.top s.arity)).idxOf (.cell root) := by
  have hmem : Unknown.cell root ∈ (s.heap.top s.arity).filterMap Term.var? := List.mem_filterMap.2 ⟨_, hroot, rfl⟩
  rw [filterMap_top hheap hsize] at hmem
  obtain ⟨a, ha, hcell⟩ := List.mem_map.1 hmem
  obtain rfl := Unknown.cell.inj hcell
  have hfind :
      (Interned.ofList (s.argumentCells.filterMap fun i => (s.heap.resolve i).root?) : Numbering).find? a =
      some ((variablesOf (s.heap.top s.arity)).idxOf (.cell a)) := by
    rw [variablesOf, filterMap_top hheap hsize]
    exact Interned.find?_ofList (fun a b => ⟨Unknown.cell.inj, congrArg Unknown.cell⟩) ha
  -- the arguments come first in the outline, and what is met behind them changes no number
  have hkeeps : (Interned.ofList (s.argumentCells.filterMap fun i => (s.heap.resolve i).root?) : Numbering).Keeps
      s.freeCells := by
    rw [freeCells, markItems_numbers, outline_of_waiting hrunning, List.append_assoc,
      List.filterMap_append, List.foldl_append, List.filterMap_append, List.filterMap_map]
    exact Interned.keeps_foldl_intern _ _
  have hderef : s.heap.deref a = a := by
    obtain ⟨i, hi, hterm⟩ := List.mem_map.1 hroot
    have hlt : i < s.heap.size := by
      have := (List.mem_range'_1.1 hi).2
      omega
    rcases Heap.term_cases hheap hlt with ⟨c, -, hconst⟩ | ⟨root, -, -, hvar, hself⟩
    · rw [hconst] at hterm
      cases hterm
    · rw [hvar] at hterm
      cases hterm
      exact Heap.deref_of_leads (.free hself)
  rw [variableRank, hderef]
  show (s.freeCells.find? a).getD s.freeCells.size = _
  rw [hkeeps a _ hfind, Option.getD_some]

end State

end ProofWalk
