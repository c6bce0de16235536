import Mathlib.Data.List.Forall2
import ProofWalk.Machine.Builtin
import ProofWalk.Machine.State
import ProofWalk.Proofs.Heap
/-!
# Proofs.Alike — heaps and states that differ in their layout only

Two heaps look alike under a matching of their unbound variables: cells that correspond stand for the same constant
or for matched variables.  Every change that the machine makes to a heap, made to both of them at corresponding
cells, keeps them so (`HeapsAlike.bind`, `HeapsAlike.pushFree`), and whatever corresponded before corresponds after
it (`Carries`).

The matching is a relation on heap indices, one-to-one between the unbound variables that it speaks of.  Nothing is
said of other cells, so the two heaps may be of different sizes and hold garbage in different places.  What a run
has at hand, the arguments that it pushed last, lies at the top of both heaps and is compared by distance from the
top.
-/
namespace ProofWalk

/-! ## Heaps

`HeapsAlike` is the matching and `CellsAlike` the relation between cells that it induces.  `Carries` composes: a
lemma about one change of the heaps gives it for the change, and a lemma about an instruction puts several changes
together. -/

inductive Binding.Alike (ρ : Nat → Nat → Prop) : Binding → Binding → Prop
  | const {c : Nat} : Alike ρ (.const c) (.const c)
  | free {a b : Nat} (h : ρ a b) : Alike ρ (.free a) (.free b)

/-- **A matching of the unbound variables of two heaps.** -/
structure HeapsAlike (ρ : Nat → Nat → Prop) (h h' : Heap) : Prop where
  sound : h.Sound
  sound' : h'.Sound
  lt {a b : Nat} (hab : ρ a b) : a < h.size ∧ b < h'.size
  unique {a b b' : Nat} (hab : ρ a b) (hab' : ρ a b') : b = b'
  unique' {a a' b : Nat} (hab : ρ a b) (hab' : ρ a' b) : a = a'

structure CellsAlike (ρ : Nat → Nat → Prop) (h h' : Heap) (i j : Nat) : Prop where
  lt : i < h.size
  lt' : j < h'.size
  resolve : (h.resolve i).Alike ρ (h'.resolve j)

/-- **Two heaps that change together**: what corresponded before corresponds after. -/
structure Carries (ρ : Nat → Nat → Prop) (h h' : Heap) (ρ₁ : Nat → Nat → Prop) (h₁ h₁' : Heap) : Prop where
  heaps : HeapsAlike ρ₁ h₁ h₁'
  cells {i j : Nat} (hij : CellsAlike ρ h h' i j) : CellsAlike ρ₁ h₁ h₁' i j

theorem Binding.Alike.mono {ρ ρ₁ : Nat → Nat → Prop} (hle : ∀ {a b}, ρ a b → ρ₁ a b)
    {x y : Binding} (h : x.Alike ρ y) : x.Alike ρ₁ y := by
  cases h with
  | const => exact .const
  | free h => exact .free (hle h)

namespace HeapsAlike

variable {ρ : Nat → Nat → Prop} {h h' : Heap}

theorem keep (hh : HeapsAlike ρ h h') : Carries ρ h h' ρ (h.apply .keep) (h'.apply .keep) := ⟨hh, id⟩

theorem bind (hh : HeapsAlike ρ h h') {a b : Nat} {cell cell' : Cell} (hf : Heap.Change.Fits h (.bind a cell))
    (hf' : Heap.Change.Fits h' (.bind b cell')) (hab : ρ a b)
    (hcell : (h.cellValue cell).Alike ρ (h'.cellValue cell')) :
    Carries ρ h h' ρ (h.apply (.bind a cell)) (h'.apply (.bind b cell')) where
  heaps :=
    { sound := hh.sound.apply hf
      sound' := hh.sound'.apply hf'
      lt := fun hxy => by rw [Heap.size_apply, Heap.size_apply]; exact hh.lt hxy
      unique := hh.unique
      unique' := hh.unique' }
  cells {i j} hij :=
    { lt := by rw [Heap.size_apply]; exact hij.lt
      lt' := by rw [Heap.size_apply]; exact hij.lt'
      resolve := by
        rw [Heap.resolve_bind hh.sound hf hij.lt, Heap.resolve_bind hh.sound' hf' hij.lt']
        have hresolve := hij.resolve
        revert hresolve
        generalize h.resolve i = x
        generalize h'.resolve j = y
        intro hxy
        cases hxy with
        | const => exact .const
        | @free x y hxy =>
          by_cases hx : x = a
          · subst hx
            obtain rfl := hh.unique hab hxy
            rw [if_pos rfl, if_pos rfl]
            exact hcell
          · have hy : y ≠ b := fun hy => hx (hh.unique' hxy (hy ▸ hab))
            rw [if_neg fun he => hx (Binding.free.inj he), if_neg fun he => hy (Binding.free.inj he)]
            exact .free hxy }

theorem push_cells {ρ₁ : Nat → Nat → Prop} (hh : HeapsAlike ρ h h') (hle : ∀ {a b}, ρ a b → ρ₁ a b)
    (c c' : Cell) {i j : Nat} (hij : CellsAlike ρ h h' i j) : CellsAlike ρ₁ (h.push c) (h'.push c') i j where
  lt := Heap.size_push h c ▸ Nat.lt_succ_of_lt hij.lt
  lt' := Heap.size_push h' c' ▸ Nat.lt_succ_of_lt hij.lt'
  resolve := by
    rw [Heap.resolve_push h hh.sound c hij.lt, Heap.resolve_push h' hh.sound' c' hij.lt']
    exact hij.resolve.mono hle

theorem push {c c' : Cell} (hh : HeapsAlike ρ h h') (hc : ∀ j, c = .ref j → j ≤ h.size)
    (hc' : ∀ j, c' = .ref j → j ≤ h'.size) : Carries ρ h h' ρ (h.push c) (h'.push c') where
  heaps :=
    { sound := hh.sound.push c hc
      sound' := hh.sound'.push c' hc'
      lt := fun hab => by
        rw [Heap.size_push, Heap.size_push]
        exact ⟨Nat.lt_succ_of_lt (hh.lt hab).1, Nat.lt_succ_of_lt (hh.lt hab).2⟩
      unique := hh.unique
      unique' := hh.unique' }
  cells := hh.push_cells id c c'

theorem pushConst (hh : HeapsAlike ρ h h') (c : Nat) : Carries ρ h h' ρ (h.pushConst c) (h'.pushConst c) ∧
    CellsAlike ρ (h.pushConst c) (h'.pushConst c) h.size h'.size :=
  ⟨hh.push (fun _ he => nomatch he) (fun _ he => nomatch he),
    { lt := Heap.size_push h _ ▸ Nat.lt_succ_self _
      lt' := Heap.size_push h' _ ▸ Nat.lt_succ_self _
      resolve := by
        rw [Heap.pushConst, Heap.pushConst, Heap.resolve_push_const h hh.sound,
          Heap.resolve_push_const h' hh.sound']
        exact .const }⟩

theorem pushRef (hh : HeapsAlike ρ h h') {i j : Nat} (hij : CellsAlike ρ h h' i j) :
    Carries ρ h h' ρ (h.push (.ref (h.deref i))) (h'.push (.ref (h'.deref j))) ∧
      CellsAlike ρ (h.push (.ref (h.deref i))) (h'.push (.ref (h'.deref j))) h.size h'.size := by
  have hi := hh.sound.deref_lt hij.lt
  have hj := hh.sound'.deref_lt hij.lt'
  exact ⟨hh.push (fun _ he => by cases he; exact Nat.le_of_lt hi) (fun _ he => by cases he; exact Nat.le_of_lt hj),
    { lt := Heap.size_push h _ ▸ Nat.lt_succ_self _
      lt' := Heap.size_push h' _ ▸ Nat.lt_succ_self _
      resolve := by
        rw [Heap.resolve_push_ref h hh.sound hi, Heap.resolve_push_ref h' hh.sound' hj,
          hh.sound.resolve_deref hij.lt, hh.sound'.resolve_deref hij.lt']
        exact hij.resolve }⟩

theorem pushFree (hh : HeapsAlike ρ h h') :
    Carries ρ h h' (fun a b => ρ a b ∨ a = h.size ∧ b = h'.size) h.pushFree h'.pushFree ∧
      CellsAlike (fun a b => ρ a b ∨ a = h.size ∧ b = h'.size) h.pushFree h'.pushFree h.size h'.size := by
  have hsize : h.pushFree.size = h.size + 1 := Heap.size_push h _
  have hsize' : h'.pushFree.size = h'.size + 1 := Heap.size_push h' _
  refine ⟨⟨⟨?_, ?_, ?_, ?_, ?_⟩, hh.push_cells .inl _ _⟩, ⟨?_, ?_, ?_⟩⟩
  · exact hh.sound.push _ fun j hj => by cases hj; exact Nat.le_refl _
  · exact hh.sound'.push _ fun j hj => by cases hj; exact Nat.le_refl _
  · rintro a b (hab | ⟨rfl, rfl⟩)
    · have := hh.lt hab
      omega
    · omega
  · rintro a b b' (hab | ⟨rfl, rfl⟩) (hab' | ⟨ha, rfl⟩)
    · exact hh.unique hab hab'
    · exact absurd (hh.lt hab).1 (by omega)
    · exact absurd (hh.lt hab').1 (by omega)
    · rfl
  · rintro a a' b (hab | ⟨rfl, rfl⟩) (hab' | ⟨rfl, hb⟩)
    · exact hh.unique' hab hab'
    · exact absurd (hh.lt hab).2 (by omega)
    · exact absurd (hh.lt hab').2 (by omega)
    · rfl
  · omega
  · omega
  · rw [Heap.resolve_pushFree, Heap.resolve_pushFree]
    exact .free (.inr ⟨rfl, rfl⟩)

end HeapsAlike

/-! ## Unification and builtins

Unification looks at what cells stand for only, so the same request asks corresponding changes of both heaps
(`ChangesAlike`): both keep their heap, or both bind matched variables to corresponding cells or to one constant, or
neither has a change to make. -/

/-- **Changes that the same request asks of two heaps.** -/
inductive ChangesAlike (ρ : Nat → Nat → Prop) (h h' : Heap) : Option Heap.Change → Option Heap.Change → Prop
  | none : ChangesAlike ρ h h' none none
  | some {change change' : Heap.Change} (hf : change.Fits h) (hf' : change'.Fits h')
      (hcarries : Carries ρ h h' ρ (h.apply change) (h'.apply change')) :
        ChangesAlike ρ h h' (some change) (some change')

namespace HeapsAlike

variable {ρ : Nat → Nat → Prop} {h h' : Heap}

theorem keeps (hh : HeapsAlike ρ h h') : ChangesAlike ρ h h' (some .keep) (some .keep) := .some .keep .keep hh.keep

theorem resolve_cases (hh : HeapsAlike ρ h h') {i j : Nat} (hij : CellsAlike ρ h h' i j) :
    (∃ c, h.resolve i = .const c ∧ h'.resolve j = .const c) ∨
      ∃ a b, ρ a b ∧ h.resolve i = .free a ∧ h'.resolve j = .free b ∧ h[a]? = some (Cell.ref a) ∧
        h'[b]? = some (Cell.ref b) := by
  have hresolve := hij.resolve
  revert hresolve
  generalize hx : h.resolve i = x
  generalize hy : h'.resolve j = y
  intro hxy
  cases hxy with
  | const => exact .inl ⟨_, rfl, rfl⟩
  | free hab =>
    exact .inr ⟨_, _, hab, rfl, rfl, (hh.sound.root_of_free hij.lt hx).2, (hh.sound'.root_of_free hij.lt' hy).2⟩

theorem bindConst (hh : HeapsAlike ρ h h') {a b : Nat} (hab : ρ a b) (ha : h[a]? = some (Cell.ref a))
    (hb : h'[b]? = some (Cell.ref b)) (c : Nat) :
    ChangesAlike ρ h h' (some (.bind a (.const c))) (some (.bind b (.const c))) :=
  .some (.bindConst ha) (.bindConst hb) (hh.bind (.bindConst ha) (.bindConst hb) hab .const)

theorem matchConst (hh : HeapsAlike ρ h h') {i j : Nat} (hij : CellsAlike ρ h h' i j) (c : Nat) :
    ChangesAlike ρ h h' (h.matchConst i c) (h'.matchConst j c) := by
  unfold Heap.matchConst
  rcases hh.resolve_cases hij with ⟨d, hi, hj⟩ | ⟨a, b, hab, hi, hj, ha, hb⟩
  · rw [hi, hj]
    dsimp only
    split
    · exact hh.keeps
    · exact .none
  · rw [hi, hj]
    exact hh.bindConst hab ha hb c

theorem bindRef (hh : HeapsAlike ρ h h') {a b : Nat} (hab : ρ a b) (ha : h[a]? = some (Cell.ref a))
    (hb : h'[b]? = some (Cell.ref b)) {i j : Nat} (hij : CellsAlike ρ h h' i j) (hi : h.resolve i ≠ .free a)
    (hj : h'.resolve j ≠ .free b) :
    ChangesAlike ρ h h' (some (.bind a (.ref (h.deref i)))) (some (.bind b (.ref (h'.deref j)))) := by
  obtain ⟨n, hl⟩ := hh.sound.leads hij.lt
  obtain ⟨n', hl'⟩ := hh.sound'.leads hij.lt'
  have hne : h.deref i ≠ a := fun he => hi (by rw [Heap.resolve, he, ha])
  have hne' : h'.deref j ≠ b := fun he => hj (by rw [Heap.resolve, he, hb])
  refine .some (.bindRef ha hl.end_leads hne) (.bindRef hb hl'.end_leads hne')
    (hh.bind (.bindRef ha hl.end_leads hne) (.bindRef hb hl'.end_leads hne') hab ?_)
  rw [Heap.cellValue, Heap.cellValue, hh.sound.resolve_deref hij.lt, hh.sound'.resolve_deref hij.lt']
  exact hij.resolve

theorem unifier (hh : HeapsAlike ρ h h') {i j k l : Nat} (hij : CellsAlike ρ h h' i j)
    (hkl : CellsAlike ρ h h' k l) : ChangesAlike ρ h h' (h.unifier i k) (h'.unifier j l) := by
  rw [Heap.unifier_eq hh.sound hij.lt hkl.lt, Heap.unifier_eq hh.sound' hij.lt' hkl.lt']
  rcases hh.resolve_cases hij with ⟨c, hi, hj⟩ | ⟨a, b, hab, hi, hj, ha, hb⟩ <;>
    rcases hh.resolve_cases hkl with ⟨d, hk, hl⟩ | ⟨a', b', hab', hk, hl, ha', hb'⟩ <;>
    simp only [hi, hj, hk, hl]
  · split
    · exact hh.keeps
    · exact .none
  · exact hh.bindRef hab' ha' hb' hij (by rw [hi]; exact fun he => nomatch he)
      (by rw [hj]; exact fun he => nomatch he)
  · exact hh.bindRef hab ha hb hkl (by rw [hk]; exact fun he => nomatch he)
      (by rw [hl]; exact fun he => nomatch he)
  · by_cases haa : a = a'
    · subst haa
      obtain rfl := hh.unique hab hab'
      rw [if_pos rfl, if_pos rfl]
      exact hh.keeps
    · have hbb : b ≠ b' := fun he => haa (hh.unique' hab (he ▸ hab'))
      rw [if_neg haa, if_neg hbb]
      have hbind := hh.bindRef hab ha hb hkl (by rw [hk]; exact fun he => haa (Binding.free.inj he).symm)
        (by rw [hl]; exact fun he => hbb (Binding.free.inj he).symm)
      rwa [(hh.sound.root_of_free hkl.lt hk).1, (hh.sound'.root_of_free hkl.lt' hl).1] at hbind

end HeapsAlike

inductive AnswersAlike (ρ : Nat → Nat → Prop) (h h' : Heap) :
    Except LogicError (Option Heap.Change) → Except LogicError (Option Heap.Change) → Prop
  | ok {change change' : Option Heap.Change} (hc : ChangesAlike ρ h h' change change') :
      AnswersAlike ρ h h' (.ok change) (.ok change')
  | error {e : LogicError} : AnswersAlike ρ h h' (.error e) (.error e)

/-- **A builtin treats corresponding arguments alike.** -/
theorem HeapsAlike.run {ρ : Nat → Nat → Prop} {h h' : Heap} (hh : HeapsAlike ρ h h') {i j k l : Nat}
    (hij : CellsAlike ρ h h' i j) (hkl : CellsAlike ρ h h' k l) (b : Builtin) :
    AnswersAlike ρ h h' (b.run h i k) (b.run h' j l) := by
  have hbound : ∀ {x y : Nat} (position : Nat), CellsAlike ρ h h' x y →
      b.bound h x position = b.bound h' y position := by
    intro x y position hxy
    unfold Builtin.bound
    rcases hh.resolve_cases hxy with ⟨c, hx, hy⟩ | ⟨a, b, -, hx, hy, -, -⟩ <;> rw [hx, hy]
  by_cases hb : b = .assign
  · subst hb
    unfold Builtin.run
    rw [hbound 2 hkl]
    rcases Builtin.bound .assign h' l 2 with e | value
    · exact .error
    · rcases hh.resolve_cases hij with ⟨c, hi, hj⟩ | ⟨a, b, hab, hi, hj, ha, hb⟩
      · rw [hi, hj]
        show AnswersAlike ρ h h' (.ok (if c = value then some .keep else none))
          (.ok (if c = value then some .keep else none))
        split
        · exact .ok hh.keeps
        · exact .ok .none
      · rw [hi, hj]
        exact .ok (hh.bindConst hab ha hb value)
  · have hsame : b.run h i k = b.run h' j l := by
      unfold Builtin.run
      cases b with
      | eq | neq => rw [hbound 1 hij, hbound 2 hkl]
      | assign => exact absurd rfl hb
    rw [hsame]
    cases hrun : b.run h' j l with
    | error e => exact .error
    | ok answer =>
      cases answer with
      | none => exact .ok .none
      | some change =>
        obtain rfl | ⟨_, _, hassign, -⟩ := Builtin.change_of_run hrun
        · exact .ok hh.keeps
        · exact absurd hassign hb

/-! ## States

Registers and saved callers correspond place by place.  The number `hand` of a pair of states says how many cells on
top of the heaps are known to correspond.  An instruction that pushes an argument adds one to it, and once a rule
has reported its features the arguments that its head has matched are no longer at hand. -/

def RegistersAlike (ρ : Nat → Nat → Prop) (h h' : Heap) : Registers → Registers → Prop :=
  List.Forall₂ (Option.Rel (CellsAlike ρ h h'))

structure FramesAlike (ρ : Nat → Nat → Prop) (h h' : Heap) (f f' : Frame) : Prop where
  returnTo : f.returnTo = f'.returnTo
  caller : f.caller = f'.caller
  registers : RegistersAlike ρ h h' f.registers f'.registers

/-- **States that look alike**, of whose heaps the top `hand` cells correspond. -/
structure StatesAlike (ρ : Nat → Nat → Prop) (hand : Nat) (s t : State) : Prop where
  heaps : HeapsAlike ρ s.heap t.heap
  registers : RegistersAlike ρ s.heap t.heap s.registers t.registers
  stack : List.Forall₂ (FramesAlike ρ s.heap t.heap) s.stack t.stack
  pc : s.pc = t.pc
  jumpTo : s.jumpTo = t.jumpTo
  completed : s.completed = t.completed
  failed : s.failed = t.failed
  hand_le : hand ≤ s.heap.size ∧ hand ≤ t.heap.size
  top : ∀ k < hand, CellsAlike ρ s.heap t.heap (s.heap.size - hand + k) (t.heap.size - hand + k)

namespace RegistersAlike

variable {ρ ρ₁ : Nat → Nat → Prop} {h h' h₁ h₁' : Heap}

theorem carried (hc : Carries ρ h h' ρ₁ h₁ h₁') {registers registers' : Registers}
    (hr : RegistersAlike ρ h h' registers registers') : RegistersAlike ρ₁ h₁ h₁' registers registers' :=
  List.Forall₂.imp (fun _ _ hrel => by
    cases hrel with
    | none => exact .none
    | some hij => exact .some (hc.cells hij)) hr

theorem length_eq {registers registers' : Registers} (hr : RegistersAlike ρ h h' registers registers') :
    registers.length = registers'.length := List.Forall₂.length_eq hr

theorem get : ∀ {registers registers' : Registers}, RegistersAlike ρ h h' registers registers' → ∀ {i cell : Nat},
    registers[i]? = some (some cell) → ∃ cell', registers'[i]? = some (some cell') ∧ CellsAlike ρ h h' cell cell'
  | _, _, .nil, _, _, hget => nomatch hget
  | _, _, .cons hrel _, 0, cell, hget => by
    cases hrel with
    | none => cases hget
    | some hij =>
      cases hget
      exact ⟨_, rfl, hij⟩
  | _, _, .cons hrel hr, i + 1, cell, hget => get hr hget

theorem set : ∀ {registers registers' : Registers}, RegistersAlike ρ h h' registers registers' →
    ∀ (i : Nat) {cell cell' : Nat},
    CellsAlike ρ h h' cell cell' → RegistersAlike ρ h h' (registers.set i (some cell))
      (registers'.set i (some cell'))
  | _, _, .nil, _, _, _, _ => .nil
  | _, _, .cons _ hr, 0, _, _, hij => .cons (.some hij) hr
  | _, _, .cons hrel hr, i + 1, _, _, hij => .cons hrel (set hr i hij)

theorem fresh : ∀ size : Nat, RegistersAlike ρ h h' (List.replicate size none) (List.replicate size none)
  | 0 => .nil
  | size + 1 => .cons .none (fresh size)

end RegistersAlike

namespace StatesAlike

variable {ρ : Nat → Nat → Prop} {hand : Nat} {s t : State}

theorem fewer (hs : StatesAlike ρ hand s t) {hand' : Nat} (hle : hand' ≤ hand) : StatesAlike ρ hand' s t :=
  { hs with
    hand_le := ⟨Nat.le_trans hle hs.hand_le.1, Nat.le_trans hle hs.hand_le.2⟩
    top := fun k hk => by
      have htop := hs.top (hand - hand' + k) (by omega)
      have := hs.hand_le
      rwa [show s.heap.size - hand + (hand - hand' + k) = s.heap.size - hand' + k by omega,
        show t.heap.size - hand + (hand - hand' + k) = t.heap.size - hand' + k by omega] at htop }

/-- **States that change together look alike after.** -/
theorem stepped (hs : StatesAlike ρ hand s t) {ρ₁ : Nat → Nat → Prop} {h₁ h₁' : Heap}
    (hc : Carries ρ s.heap t.heap ρ₁ h₁ h₁') {registers registers' : Registers}
    (hr : RegistersAlike ρ₁ h₁ h₁' registers registers') {hand' : Nat} (hhand : hand' ≤ h₁.size ∧ hand' ≤ h₁'.size)
    (htop : ∀ k < hand', CellsAlike ρ₁ h₁ h₁' (h₁.size - hand' + k) (h₁'.size - hand' + k))
    {pc pc' : Nat} (hpc : pc = pc') :
    StatesAlike ρ₁ hand' { s with heap := h₁, registers := registers, pc := pc }
      { t with heap := h₁', registers := registers', pc := pc' } where
  heaps := hc.heaps
  registers := hr
  stack := hs.stack.imp fun _ _ hf => ⟨hf.returnTo, hf.caller, hf.registers.carried hc⟩
  pc := hpc
  jumpTo := hs.jumpTo
  completed := hs.completed
  failed := hs.failed
  hand_le := hhand
  top := htop

theorem advanced (hs : StatesAlike ρ hand s t) {pc pc' : Nat} (hpc : pc = pc') :
    StatesAlike ρ hand { s with pc := pc } { t with pc := pc' } := { hs with pc := hpc }

theorem changed (hs : StatesAlike ρ hand s t) {change change' : Heap.Change}
    (hc : Carries ρ s.heap t.heap ρ (s.heap.apply change) (t.heap.apply change')) {pc pc' : Nat} (hpc : pc = pc') :
    StatesAlike ρ hand { s with heap := s.heap.apply change, pc := pc }
      { t with heap := t.heap.apply change', pc := pc' } :=
  hs.stepped hc (hs.registers.carried hc) (by rw [Heap.size_apply, Heap.size_apply]; exact hs.hand_le)
    (fun k hk => by rw [Heap.size_apply, Heap.size_apply]; exact hc.cells (hs.top k hk)) hpc

theorem pushed (hs : StatesAlike ρ hand s t) {ρ₁ : Nat → Nat → Prop} {c c' : Cell}
    (hc : Carries ρ s.heap t.heap ρ₁ (s.heap.push c) (t.heap.push c'))
    (hnew : CellsAlike ρ₁ (s.heap.push c) (t.heap.push c') s.heap.size t.heap.size)
    {registers registers' : Registers}
    (hr : RegistersAlike ρ₁ (s.heap.push c) (t.heap.push c') registers registers')
    {pc pc' : Nat} (hpc : pc = pc') :
    StatesAlike ρ₁ (hand + 1) { s with heap := s.heap.push c, registers := registers, pc := pc }
      { t with heap := t.heap.push c', registers := registers', pc := pc' } := by
  have hle := hs.hand_le
  refine hs.stepped hc hr (by rw [Heap.size_push, Heap.size_push]; omega) (fun k hk => ?_) hpc
  rw [Heap.size_push, Heap.size_push, Nat.add_sub_add_right, Nat.add_sub_add_right]
  rcases Nat.lt_succ_iff_lt_or_eq.1 hk with hlt | rfl
  · exact hc.cells (hs.top k hlt)
  · rwa [Nat.sub_add_cancel hle.1, Nat.sub_add_cancel hle.2]

theorem argument_nonneg (hs : StatesAlike ρ hand s t) {offset : Int} (hlow : -(hand : Int) ≤ offset) :
    0 ≤ (t.heap.size : Int) + offset := by
  have := hs.hand_le
  omega

theorem argument (hs : StatesAlike ρ hand s t) {offset : Int}
    (hlow : -(hand : Int) ≤ offset) (hhigh : offset < 0) :
    CellsAlike ρ s.heap t.heap ((s.heap.size : Int) + offset).toNat ((t.heap.size : Int) + offset).toNat := by
  have hle := hs.hand_le
  have htop := hs.top ((hand : Int) + offset).toNat (by omega)
  rwa [show s.heap.size - hand + ((hand : Int) + offset).toNat = ((s.heap.size : Int) + offset).toNat by omega,
    show t.heap.size - hand + ((hand : Int) + offset).toNat =
      ((t.heap.size : Int) + offset).toNat by omega] at htop

end StatesAlike

end ProofWalk
