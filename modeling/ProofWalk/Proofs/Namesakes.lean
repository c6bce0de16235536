import Mathlib.Data.List.Forall2
import ProofWalk.Machine.Outlinks
import ProofWalk.Proofs.Computations
import ProofWalk.Proofs.NumberedFeatures
/-!
# Proofs.Namesakes — constants under the numbers of two tables

Two tables of symbols give a constant numbers of their own.  Heaps, states and forms that differ only in these
numbers (`Heap.Renamed`, `State.Renamed`) go on in the same way: cells lead to the same cells, changes correspond
(`Heap.Renamed.matchConst`, `Heap.Renamed.unifier`), and two states share a form exactly if their counterparts do
(`Frozen.form_eq_iff`).

Unlike heaps that look alike, the two heaps here have one layout, so that cells need no matching; only what
constants are called has to be translated.
-/
namespace ProofWalk

variable {σ τ σ' τ' : Symbols}

/-! ## Numbers of constants

`Namesakes` relates the numbers of one constant.  It is one-to-one, so comparing constants comes to the same in both
tables, and what both tables keep of a third has one number. -/

/-- **The numbers of one constant** in two tables. -/
def Namesakes (σ τ : Symbols) (a b : Nat) : Prop := ∃ name, σ.find? name = some a ∧ τ.find? name = some b

namespace Namesakes

theorem biUnique (σ τ : Symbols) : Relator.BiUnique (Namesakes σ τ) := by
  constructor
  · rintro a a' b ⟨name, ha, hb⟩ ⟨name', ha', hb'⟩
    have hname := Symbols.name_of_find? hb
    rw [Symbols.name_of_find? hb'] at hname
    subst hname
    exact Option.some.inj (ha.symm.trans ha')
  · rintro a b b' ⟨name, ha, hb⟩ ⟨name', ha', hb'⟩
    have hname := Symbols.name_of_find? ha
    rw [Symbols.name_of_find? ha'] at hname
    subst hname
    exact Option.some.inj (hb.symm.trans hb')

theorem eq_iff {a b a' b' : Nat} (h : Namesakes σ τ a b) (h' : Namesakes σ τ a' b') : a = a' ↔ b = b' :=
  Relator.rel_eq (biUnique σ τ) h h'

theorem name_eq {a b : Nat} (h : Namesakes σ τ a b) : σ.name a = τ.name b := by
  obtain ⟨name, ha, hb⟩ := h
  rw [Symbols.name_of_find? ha, Symbols.name_of_find? hb]

theorem keeps {a b : Nat} (h : Namesakes σ τ a b) (hσ : σ.Keeps σ') (hτ : τ.Keeps τ') : Namesakes σ' τ' a b := by
  obtain ⟨name, ha, hb⟩ := h
  exact ⟨name, hσ name a ha, hτ name b hb⟩

end Namesakes

theorem namesakes_intern (σ τ : Symbols) (name : String) :
    Namesakes (σ.intern name).1 (τ.intern name).1 (σ.intern name).2 (τ.intern name).2 :=
  ⟨name, Interned.find?_intern σ name, Interned.find?_intern τ name⟩

theorem Symbols.namesakes_of_keeps {table : Symbols} (hσ : table.Keeps σ) (hτ : table.Keeps τ) {c : Nat}
    (hc : (table.get? c).isSome) : Namesakes σ τ c c := by
  obtain ⟨name, hname⟩ := Option.isSome_iff_exists.1 hc
  have hfind : table.find? name = some c := Interned.find?_eq_some_iff.2 ⟨name, hname, rfl⟩
  exact ⟨name, hσ name c hfind, hτ name c hfind⟩

/-! ## Heaps

Heaps correspond cell by cell, and every request asks for corresponding changes. -/

inductive Cell.Renamed (σ τ : Symbols) : Cell → Cell → Prop
  | const {a b : Nat} (h : Namesakes σ τ a b) : Renamed σ τ (.const a) (.const b)
  | ref (i : Nat) : Renamed σ τ (.ref i) (.ref i)

inductive Binding.Renamed (σ τ : Symbols) : Binding → Binding → Prop
  | const {a b : Nat} (h : Namesakes σ τ a b) : Renamed σ τ (.const a) (.const b)
  | free (root : Nat) : Renamed σ τ (.free root) (.free root)
  | unset : Renamed σ τ .unset .unset

inductive Heap.Change.Renamed (σ τ : Symbols) : Heap.Change → Heap.Change → Prop
  | keep : Renamed σ τ .keep .keep
  | bind (root : Nat) {c d : Cell} (h : c.Renamed σ τ d) : Renamed σ τ (.bind root c) (.bind root d)

theorem size_eq_of_rel {α β : Type} {R : α → β → Prop} {as : Array α} {bs : Array β}
    (h : ∀ i : Nat, Option.Rel R as[i]? bs[i]?) : as.size = bs.size := by
  have hnone : ∀ i, as[i]? = none ↔ bs[i]? = none := fun i => by
    have hi := h i
    generalize as[i]? = x, bs[i]? = y at hi
    cases hi <;> simp
  simp only [Array.getElem?_eq_none_iff] at hnone
  exact Nat.le_antisymm ((hnone bs.size).2 (Nat.le_refl _)) ((hnone as.size).1 (Nat.le_refl _))

/-- **Heaps of one layout**, with constants of the same names. -/
def Heap.Renamed (σ τ : Symbols) (h k : Heap) : Prop := ∀ i : Nat, Option.Rel (Cell.Renamed σ τ) h[i]? k[i]?

namespace Heap.Renamed

variable {h k : Heap}

theorem size_eq (hh : Heap.Renamed σ τ h k) : h.size = k.size := size_eq_of_rel hh

theorem push (hh : Heap.Renamed σ τ h k) {c d : Cell} (hc : c.Renamed σ τ d) :
    Heap.Renamed σ τ (h.push c) (k.push d) := by
  intro i
  rw [Array.getElem?_push, Array.getElem?_push, hh.size_eq]
  split
  · exact .some hc
  · exact hh i

theorem apply (hh : Heap.Renamed σ τ h k) {change change' : Heap.Change} (hc : change.Renamed σ τ change') :
    Heap.Renamed σ τ (h.apply change) (k.apply change') := by
  cases hc with
  | keep => exact hh
  | bind root hcell =>
    intro i
    unfold Heap.apply
    rw [Array.getElem?_setIfInBounds, Array.getElem?_setIfInBounds, hh.size_eq]
    split
    · split
      · exact .some hcell
      · exact .none
    · exact hh i

theorem follow_eq (hh : Heap.Renamed σ τ h k) (fuel i : Nat) : h.follow fuel i = k.follow fuel i := by
  induction fuel generalizing i with
  | zero => rfl
  | succ fuel ih =>
    unfold Heap.follow
    have hi := hh i
    generalize h[i]? = x, k[i]? = y at hi
    cases hi with
    | none => rfl
    | some hcell =>
      cases hcell with
      | const _ => rfl
      | ref j =>
        dsimp only
        split
        · rfl
        · exact ih j

theorem deref_eq (hh : Heap.Renamed σ τ h k) (i : Nat) : h.deref i = k.deref i := by
  unfold Heap.deref
  rw [hh.size_eq, hh.follow_eq]

theorem resolve (hh : Heap.Renamed σ τ h k) (i : Nat) : (h.resolve i).Renamed σ τ (k.resolve i) := by
  unfold Heap.resolve
  rw [hh.deref_eq]
  have hi := hh (k.deref i)
  generalize h[k.deref i]? = x, k[k.deref i]? = y at hi
  cases hi with
  | none => exact .unset
  | some hcell =>
    cases hcell with
    | const hc => exact .const hc
    | ref j => exact .free _

theorem matchConst (hh : Heap.Renamed σ τ h k) (i : Nat) {c d : Nat} (hc : Namesakes σ τ c d) :
    Option.Rel (Heap.Change.Renamed σ τ) (h.matchConst i c) (k.matchConst i d) := by
  unfold Heap.matchConst
  have hi := hh.resolve i
  generalize h.resolve i = x, k.resolve i = y at hi
  cases hi with
  | const hb =>
    dsimp only
    rw [if_congr (hb.eq_iff hc) rfl rfl]
    split
    · exact .some .keep
    · exact .none
  | free root => exact .some (.bind root (.const hc))
  | unset => exact .none

theorem unifier (hh : Heap.Renamed σ τ h k) (i j : Nat) :
    Option.Rel (Heap.Change.Renamed σ τ) (h.unifier i j) (k.unifier i j) := by
  unfold Heap.unifier
  dsimp only
  rw [hh.deref_eq i, hh.deref_eq j]
  split
  · exact .some .keep
  · have hi := hh (k.deref i)
    have hj := hh (k.deref j)
    generalize h[k.deref i]? = x, k[k.deref i]? = x' at hi
    generalize h[k.deref j]? = y, k[k.deref j]? = y' at hj
    cases hi with
    | none => exact .none
    | some hx =>
      cases hj with
      | none => cases hx <;> exact .none
      | some hy =>
        cases hx with
        | ref _ => exact .some (.bind _ (.ref _))
        | const hb =>
          cases hy with
          | ref _ => exact .some (.bind _ (.ref _))
          | const hc =>
            dsimp only
            rw [if_congr (hb.eq_iff hc) rfl rfl]
            split
            · exact .some .keep
            · exact .none

theorem bound (hh : Heap.Renamed σ τ h k) (b : Builtin) (cell position : Nat) :
    Corresponds Eq (Namesakes σ τ) (b.bound h cell position) (b.bound k cell position) := by
  unfold Builtin.bound
  have hi := hh.resolve cell
  generalize h.resolve cell = x, k.resolve cell = y at hi
  cases hi with
  | const hc => exact .ok hc
  | free _ => exact .error rfl
  | unset => exact .error rfl

theorem run (hh : Heap.Renamed σ τ h k) (b : Builtin) (first second : Nat) :
    Corresponds Eq (Option.Rel (Heap.Change.Renamed σ τ)) (b.run h first second) (b.run k first second) := by
  unfold Builtin.run
  cases b with
  | eq =>
    refine (hh.bound _ first 1).bind fun x x' hx => (hh.bound _ second 2).bind fun y y' hy => .ok ?_
    rw [if_congr (hx.eq_iff hy) rfl rfl]
    split
    · exact .some .keep
    · exact .none
  | neq =>
    refine (hh.bound _ first 1).bind fun x x' hx => (hh.bound _ second 2).bind fun y y' hy => .ok ?_
    rw [if_congr (hx.eq_iff hy) rfl rfl]
    split
    · exact .none
    · exact .some .keep
  | assign =>
    refine (hh.bound _ second 2).bind fun value value' hvalue => ?_
    have hi := hh.resolve first
    generalize h.resolve first = x, k.resolve first = y at hi
    cases hi with
    | free root => exact .ok (.some (.bind root (.const hvalue)))
    | const hc =>
      refine .ok ?_
      rw [if_congr (hc.eq_iff hvalue) rfl rfl]
      split
      · exact .some .keep
      · exact .none
    | unset => exact .error rfl

end Heap.Renamed

/-! ## States and forms

Tokens correspond too, and a form has the same variables in the same order as its counterpart. -/

/-- **States that differ in the numbers of constants only.** -/
def State.Renamed (σ τ : Symbols) (s t : State) :
    Prop := ∃ heap, Heap.Renamed σ τ s.heap heap ∧ t = { s with heap := heap }

inductive Mark.Renamed (σ τ : Symbols) : Mark → Mark → Prop
  | const {a b : Nat} (h : Namesakes σ τ a b) : Renamed σ τ (.const a) (.const b)
  | same (m : Mark) (h : ∀ c, m ≠ .const c) : Renamed σ τ m m

theorem Mark.Renamed.biUnique (σ τ : Symbols) : Relator.BiUnique (Mark.Renamed σ τ) := by
  constructor
  · intro a a' b h h'
    cases h with
    | const hc =>
      cases h' with
      | const hc' => rw [(Namesakes.biUnique σ τ).1 hc hc']
      | same _ hm => exact absurd rfl (hm _)
    | same _ hm =>
      cases h' with
      | const _ => exact absurd rfl (hm _)
      | same _ _ => rfl
  · intro a b b' h h'
    cases h with
    | const hc =>
      cases h' with
      | const hc' => rw [(Namesakes.biUnique σ τ).2 hc hc']
      | same _ hm => exact absurd rfl (hm _)
    | same _ hm =>
      cases h' with
      | const _ => exact absurd rfl (hm _)
      | same _ _ => rfl

namespace State

theorem outline_marks (s : State) (m : Mark) (h : .mark m ∈ s.outline) (c : Nat) : m ≠ .const c := by
  have hregisters : ∀ registers : Registers, .mark m ∈ outlineRegisters registers → m ≠ .const c := by
    intro registers hm
    rcases List.mem_cons.1 hm with hm | hm
    · cases hm
      nofun
    · obtain ⟨_, _, hm⟩ := List.mem_map.1 hm
      cases hm
  unfold outline at h
  split at h
  · rcases List.mem_cons.1 h with h | h
    · cases h
      nofun
    · exact hregisters _ h
  split at h
  · cases List.mem_singleton.1 h
    nofun
  · simp only [List.mem_append, List.mem_cons, List.mem_map, List.mem_flatMap, List.not_mem_nil,
      or_false, Item.mark.injEq, reduceCtorEq, and_false, exists_false, or_assoc] at h
    rcases h with rfl | rfl | rfl | rfl | rfl | h | ⟨f, -, h⟩
    · nofun
    · nofun
    · nofun
    · nofun
    · nofun
    · exact hregisters _ h
    · simp only [outlineFrame, List.mem_cons, Item.mark.injEq] at h
      rcases h with rfl | rfl | rfl | h
      · nofun
      · nofun
      · nofun
      · exact hregisters _ h

theorem markItems_renamed {h k : Heap} (hh : Heap.Renamed σ τ h k) (items : List Item)
    (hitems : ∀ m, .mark m ∈ items → ∀ c, m ≠ .const c) (met : Numbering) :
    List.Forall₂ (Mark.Renamed σ τ) (markItems h met items).1 (markItems k met items).1 ∧
      (markItems h met items).2 = (markItems k met items).2 := by
  induction items generalizing met with
  | nil => exact ⟨.nil, rfl⟩
  | cons item rest ih =>
    have hitem : (markItem h met item).1.Renamed σ τ (markItem k met item).1 ∧
        (markItem h met item).2 = (markItem k met item).2 := by
      cases item with
      | mark m => exact ⟨.same m (hitems m List.mem_cons_self), rfl⟩
      | cell index =>
        cases index with
        | none => exact ⟨.same _ nofun, rfl⟩
        | some i =>
          unfold markItem
          dsimp only
          have hi := hh.resolve i
          generalize h.resolve i = x, k.resolve i = y at hi
          cases hi with
          | const hc => exact ⟨.const hc, rfl⟩
          | free root => exact ⟨.same _ nofun, rfl⟩
          | unset => exact ⟨.same _ nofun, rfl⟩
    obtain ⟨hmark, hmet⟩ := hitem
    obtain ⟨hmarks, hmet'⟩ := ih (fun m hm => hitems m (List.mem_cons_of_mem _ hm)) (markItem h met item).2
    simp only [markItems]
    rw [← hmet]
    exact ⟨.cons hmark hmarks, hmet'⟩

namespace Renamed

variable {s t : State}

theorem register (h : s.Renamed σ τ t) (i : Nat) : (s.register i).Renamed σ τ (t.register i) := by
  obtain ⟨heap, hh, rfl⟩ := h
  unfold State.register
  dsimp only
  split
  · exact hh.resolve _
  · exact .unset

theorem outline_eq (h : s.Renamed σ τ t) : t.outline = s.outline := by
  obtain ⟨heap, hh, rfl⟩ := h
  unfold outline argumentCells arity
  dsimp only
  rw [hh.size_eq]

theorem canonical (h : s.Renamed σ τ t) :
    List.Forall₂ (Mark.Renamed σ τ) s.canonical t.canonical ∧ s.freeCells = t.freeCells := by
  have hmarks : ∀ m, .mark m ∈ s.outline → ∀ c, m ≠ .const c := fun m hm => s.outline_marks m hm
  unfold State.canonical freeCells
  rw [h.outline_eq]
  obtain ⟨heap, hh, rfl⟩ := h
  exact markItems_renamed hh s.outline hmarks ∅

theorem variableRank_eq (h : s.Renamed σ τ t) (i : Nat) : s.variableRank i = t.variableRank i := by
  have hcells := h.canonical.2
  obtain ⟨heap, hh, rfl⟩ := h
  unfold State.variableRank
  rw [hcells, hh.deref_eq]

end Renamed

end State

namespace Frozen

def Renamed (σ τ : Symbols) (f g : Frozen) : Prop := f.state.Renamed σ τ g.state

/-- **States share a form exactly if their counterparts do.** -/
theorem form_eq_iff {f g f' g' : Frozen} (h : f.Renamed σ τ f') (h' : g.Renamed σ τ g') :
    f.form = g.form ↔ f'.form = g'.form := by
  rw [form_eq_form_iff, form_eq_form_iff]
  exact Relator.rel_eq (Mark.Renamed.biUnique σ τ).forall₂ h.canonical.1 h'.canonical.1

end Frozen

end ProofWalk
