import Mathlib.Logic.Equiv.Basic
import ProofWalk.Proofs.CanonicalForm
import ProofWalk.Proofs.Lists
/-!
# Proofs.SharedForms — which states share a form

A canonical form shows register files: the arguments of the pending call, the registers, and those of the callers
(`State.shown`).  Two sane states have the same form just if they are of the same kind, stand at the same place, and
the variables in the files that they show can be renamed into each other (`State.canonical_eq_iff`).  The ranks that
a form gives to its variables are such a renaming (`sameRank_renames`); the other way round, a renaming is a
matching of two heaps, and numberings run alike through matched heaps.
-/
namespace ProofWalk

/-! ## What a numbering meets

A variable gets a rank when an item of the outline first shows it, and in no other way. -/

theorem met_of_markItem {h : Heap} {met : Numbering} {item : State.Item} {a k : Nat}
    (hk : (State.markItem h met item).2.find? a = some k) :
    (∃ k', met.find? a = some k') ∨ ∃ i, item = .cell (some i) ∧ h.resolve i = .free a := by
  rcases item with m | (_ | i)
  · exact .inl ⟨k, hk⟩
  · exact .inl ⟨k, hk⟩
  · cases hr : h.resolve i with
    | const c =>
      simp only [State.markItem, hr] at hk
      exact .inl ⟨k, hk⟩
    | unset =>
      simp only [State.markItem, hr] at hk
      exact .inl ⟨k, hk⟩
    | free root =>
      simp only [State.markItem, hr] at hk
      obtain ⟨b, hb, rfl⟩ := Interned.find?_eq_some_iff.1 hk
      rcases Interned.get?_intern_cases hb with hb | rfl
      · exact .inl ⟨k, Interned.find?_eq_some_iff.2 ⟨b, hb, rfl⟩⟩
      · exact .inr ⟨i, rfl, hr⟩

theorem met_of_markItems {h : Heap} {a k : Nat} : ∀ {items : List State.Item} {met : Numbering},
    (State.markItems h met items).2.find? a = some k →
      (∃ k', met.find? a = some k') ∨ ∃ i, .cell (some i) ∈ items ∧ h.resolve i = .free a
  | [], _, hk => .inl ⟨k, hk⟩
  | item :: items, met, hk => by
    have hrest : (State.markItems h (State.markItem h met item).2 items).2.find? a = some k := hk
    rcases met_of_markItems hrest with ⟨k', hk'⟩ | ⟨i, hi, hfree⟩
    · rcases met_of_markItem hk' with hmet | ⟨i, rfl, hfree⟩
      · exact .inl hmet
      · exact .inr ⟨i, List.mem_cons_self, hfree⟩
    · exact .inr ⟨i, List.mem_cons_of_mem _ hi, hfree⟩

/-! ## Files in correspondence

Correspondence of files is symmetric, and each side has a cell for what the other shows. -/

namespace Binding.Alike

variable {ρ : Nat → Nat → Prop} {x y : Binding}

theorem of_free (h : x.Alike ρ y) {a : Nat} (hx : x = .free a) : ∃ b, y = .free b ∧ ρ a b := by
  cases h with
  | const => cases hx
  | free hab => exact ⟨_, rfl, Binding.free.inj hx ▸ hab⟩

theorem of_free_right (h : x.Alike ρ y) {b : Nat} (hy : y = .free b) : ∃ a, x = .free a ∧ ρ a b := by
  cases h with
  | const => cases hy
  | free hab => exact ⟨_, rfl, Binding.free.inj hy ▸ hab⟩

end Binding.Alike

theorem exists_cell_right {R : Nat → Nat → Prop} {files files' : List Registers}
    (h : List.Forall₂ (List.Forall₂ (Option.Rel R)) files files') {file : Registers}
    (hfile : file ∈ files) {i : Nat}
    (hi : some i ∈ file) : ∃ file' ∈ files', ∃ j, some j ∈ file' ∧ R i j := by
  obtain ⟨file', hfile', halike⟩ := exists_of_forall₂ h.flip hfile
  obtain ⟨r, hr, hrel⟩ := exists_of_forall₂ (List.Forall₂.flip halike) hi
  cases hrel with
  | some hij => exact ⟨file', hfile', _, hr, hij⟩

theorem exists_cell_left {R : Nat → Nat → Prop} {files files' : List Registers}
    (h : List.Forall₂ (List.Forall₂ (Option.Rel R)) files files') {file' : Registers}
    (hfile' : file' ∈ files') {j : Nat}
    (hj : some j ∈ file') : ∃ file ∈ files, ∃ i, some i ∈ file ∧ R i j := by
  obtain ⟨file, hfile, halike⟩ := exists_of_forall₂ h hfile'
  obtain ⟨r, hr, hrel⟩ := exists_of_forall₂ halike hj
  cases hrel with
  | some hij => exact ⟨file, hfile, _, hr, hij⟩

namespace State

variable {s t : State}

/-! ## What a form shows

The callers of a state are shown with the registers that they have saved. -/

/-- **The register files that the canonical form shows.**  The arguments of a call count as one. -/
def shown (s : State) : List Registers :=
  if s.completed then [s.registers]
  else if s.failed then []
  else s.argumentCells.map some :: s.registers :: s.stack.map Frame.registers

theorem shown_of_completed (h : s.completed = true) : s.shown = [s.registers] := by rw [shown, if_pos h]

theorem shown_of_failed (h : s.completed = false ∧ s.failed = true) : s.shown = [] := by
  rw [shown, h.1, h.2]
  rfl

theorem shown_of_waiting (h : s.completed = false ∧ s.failed = false) :
    s.shown = s.argumentCells.map some :: s.registers :: s.stack.map Frame.registers := by
  rw [shown, h.1, h.2]
  rfl

/-- **The outline has just the cells that are shown.** -/
theorem mem_outline_iff {r : Option Nat} : .cell r ∈ s.outline ↔ ∃ file ∈ s.shown, r ∈ file := by
  rw [outline, shown]
  split
  · simp [outlineRegisters]
  · split
    · simp
    · simp [outlineRegisters, outlineFrame]

theorem Sane.shown_lt (hs : s.Sane) {file : Registers} (hfile : file ∈ s.shown) {i : Nat} (hi : some i ∈ file) :
    i < s.heap.size := by
  rw [shown] at hfile
  split at hfile
  · exact hs.registers i (List.mem_singleton.1 hfile ▸ hi)
  · split at hfile
    · cases hfile
    · rcases List.mem_cons.1 hfile with rfl | hfile
      · obtain ⟨j, hj, hsome⟩ := List.mem_map.1 hi
        cases hsome
        have hj := List.mem_range'_1.1 hj
        omega
      · rcases List.mem_cons.1 hfile with rfl | hfile
        · exact hs.registers i hi
        · obtain ⟨f, hf, rfl⟩ := List.mem_map.1 hfile
          exact hs.saved f hf i hi

theorem Sane.seen (hs : s.Sane) {file : Registers} (hfile : file ∈ s.shown) {i : Nat} (hi : some i ∈ file) :
    Seen s.heap s.freeCells i := seen_of_mem (hs.shown_lt hfile hi) (mem_outline_iff.2 ⟨file, hfile, hi⟩)

/-- **A free variable of a state**: an unbound variable that something shown stands for, by its cell. -/
def FreeVariable (s : State) :
    Type := { a : Nat // ∃ file ∈ s.shown, ∃ i, some i ∈ file ∧ s.heap.resolve i = .free a }

theorem FreeVariable.lt (hs : s.Sane) (a : s.FreeVariable) : a.1 < s.heap.size := by
  obtain ⟨a, file, hfile, i, hi, hfree⟩ := a
  have hlt := hs.shown_lt hfile hi
  exact (hs.heap.root_of_free hlt hfree).1 ▸ hs.heap.deref_lt hlt

theorem exists_freeVariable {a k : Nat} (h : s.freeCells.find? a = some k) : ∃ x : s.FreeVariable, x.1 = a := by
  rcases met_of_markItems h with ⟨k', hk'⟩ | ⟨i, hi, hfree⟩
  · obtain ⟨b, hb, -⟩ := Interned.find?_eq_some_iff.1 hk'
    cases hb
  · obtain ⟨file, hfile, hmem⟩ := mem_outline_iff.1 hi
    exact ⟨⟨a, file, hfile, i, hmem, hfree⟩, rfl⟩

/-! ## Renamings

A renaming pairs the free variables of two states, one with one; the pairs make a matching of the heaps in the sense
of `Proofs.Alike`. -/

def Renames (e : s.FreeVariable ≃ t.FreeVariable) (a b : Nat) : Prop := ∃ x, x.1 = a ∧ (e x).1 = b

/-- **A renaming is a matching of the heaps.** -/
theorem heapsAlike_of_renaming (hs : s.Sane) (ht : t.Sane) (e : s.FreeVariable ≃ t.FreeVariable) :
    HeapsAlike (Renames e) s.heap t.heap where
  sound := hs.heap
  sound' := ht.heap
  lt := by
    rintro _ _ ⟨x, rfl, rfl⟩
    exact ⟨x.lt hs, (e x).lt ht⟩
  unique := by
    rintro _ _ _ ⟨x, rfl, rfl⟩ ⟨y, hy, rfl⟩
    rw [Subtype.ext hy]
  unique' := by
    rintro _ _ _ ⟨x, rfl, rfl⟩ ⟨y, rfl, hy⟩
    rw [e.injective (Subtype.ext hy)]

/-- **Where files correspond, their variables do one by one.** -/
theorem exists_renaming {ρ : Nat → Nat → Prop} (hh : HeapsAlike ρ s.heap t.heap)
    (h : List.Forall₂ (RegistersAlike ρ s.heap t.heap) s.shown t.shown) :
    ∃ e : s.FreeVariable ≃ t.FreeVariable, ∀ x, ρ x.1 (e x).1 := by
  have hright : ∀ x : s.FreeVariable, ∃ y : t.FreeVariable, ρ x.1 y.1 := fun ⟨a, file, hfile, i, hi, hfree⟩ => by
    obtain ⟨file', hfile', j, hj, hij⟩ := exists_cell_right h hfile hi
    obtain ⟨b, hb, hab⟩ := hij.resolve.of_free hfree
    exact ⟨⟨b, file', hfile', j, hj, hb⟩, hab⟩
  have hleft : ∀ y : t.FreeVariable, ∃ x : s.FreeVariable, ρ x.1 y.1 := fun ⟨b, file', hfile', j, hj, hfree⟩ => by
    obtain ⟨file, hfile, i, hi, hij⟩ := exists_cell_left h hfile' hj
    obtain ⟨a, ha, hab⟩ := hij.resolve.of_free_right hfree
    exact ⟨⟨a, file, hfile, i, hi, ha⟩, hab⟩
  choose f hf using hright
  refine ⟨Equiv.ofBijective f ⟨fun x x' hxx' => ?_, fun y => ?_⟩, hf⟩
  · exact Subtype.ext (hh.unique' (hf x) (hxx' ▸ hf x'))
  · obtain ⟨x, hx⟩ := hleft y
    exact ⟨x, Subtype.ext (hh.unique (hf x) hx)⟩

/-- **The ranks of variables are a renaming**, if the files that are shown correspond by rank. -/
theorem sameRank_renames (hs : s.Sane) (ht : t.Sane)
    (h : List.Forall₂ (RegistersAlike (SameRank s t) s.heap t.heap) s.shown t.shown) :
    ∃ e : s.FreeVariable ≃ t.FreeVariable,
      List.Forall₂ (RegistersAlike (Renames e) s.heap t.heap) s.shown t.shown := by
  have hh := sameRank_alike hs.heap ht.heap
  obtain ⟨e, he⟩ := exists_renaming hh h
  have hrenames : ∀ {a b}, SameRank s t a b → Renames e a b := fun {a b} hab => by
    obtain ⟨x, rfl⟩ := exists_freeVariable hab.1.choose_spec.1
    exact ⟨x, rfl, hh.unique (he x) hab⟩
  have hcarries : Carries (SameRank s t) s.heap t.heap (Renames e) s.heap t.heap :=
    ⟨heapsAlike_of_renaming hs ht e, fun hij => ⟨hij.lt, hij.lt', hij.resolve.mono hrenames⟩⟩
  exact ⟨e, h.imp fun _ _ hfile => hfile.carried hcarries⟩

/-! ## Forms and what they show

A form is a list of tokens.  None of a cell is a word, so the words among them tell where a file ends, and files can
be read off the form one by one. -/

/-- **States of the same kind at the same place.**  States in which the query has been decided have no other place;
others have one in the code, a pending call with so many arguments, and callers to return to. -/
def SamePlace (s t : State) : Prop :=
  s.completed = true ∧ t.completed = true ∨
  (s.completed = false ∧ s.failed = true) ∧ (t.completed = false ∧ t.failed = true) ∨
  (s.completed = false ∧ s.failed = false) ∧ (t.completed = false ∧ t.failed = false) ∧
    s.pc = t.pc ∧ s.jumpTo = t.jumpTo ∧ s.argumentCells.length = t.argumentCells.length ∧
    List.Forall₂ (fun f f' => f.returnTo = f'.returnTo ∧ f.caller = f'.caller) s.stack t.stack

/-- **States at the same place that show corresponding files have corresponding outlines.** -/
theorem outline_of_shown {ρ : Nat → Nat → Prop} (hplace : SamePlace s t)
    (h : List.Forall₂ (RegistersAlike ρ s.heap t.heap) s.shown t.shown) :
    List.Forall₂ (ItemsAlike ρ s.heap t.heap) s.outline t.outline := by
  rcases hplace with ⟨hs, ht⟩ | ⟨hs, ht⟩ | ⟨hs, ht, hpc, hjump, -, hframes⟩
  · rw [shown_of_completed hs, shown_of_completed ht] at h
    rw [outline_of_completed hs, outline_of_completed ht]
    cases h with
    | cons hregisters _ => exact .cons .mark (outlineRegisters_alike hregisters)
  · rw [outline_of_failed hs, outline_of_failed ht]
    exact .cons .mark .nil
  · rw [shown_of_waiting hs, shown_of_waiting ht] at h
    rw [outline_of_waiting hs, outline_of_waiting ht, hpc, hjump]
    cases h with
    | cons harguments h =>
      cases h with
      | cons hregisters hsaved =>
        have hsaved := List.forall₂_map_right_iff.1 (List.forall₂_map_left_iff.1 hsaved)
        have hstack : List.Forall₂ (FramesAlike ρ s.heap t.heap) s.stack t.stack :=
          List.Forall₂.mp (fun _ _ hplace hregisters => ⟨hplace.1, hplace.2, hregisters⟩) hframes hsaved
        have hcells : List.Forall₂ (ItemsAlike ρ s.heap t.heap) (s.argumentCells.map fun i => .cell (some i))
            (t.argumentCells.map fun i => .cell (some i)) := by
          have hcells := List.forall₂_map_right_iff.1 (List.forall₂_map_left_iff.1 harguments)
          refine List.forall₂_map_left_iff.2 (List.forall₂_map_right_iff.2 (hcells.imp fun i j hij => ?_))
          cases hij with
          | some hij => exact .cell hij
        exact List.rel_append (List.rel_append
          (List.rel_append (.cons .mark (.cons .mark (.cons .mark (.cons .mark .nil)))) hcells)
          (.cons .mark (outlineRegisters_alike hregisters))) (outlineFrames_alike hstack)

theorem before_inj {m : Mark} : ∀ {l l' r r' : List Mark}, m ∉ l → m ∉ l' →
    l ++ m :: r = l' ++ m :: r' → l = l' ∧ r = r'
  | [], [], _, _, _, _, h => ⟨rfl, (List.cons.inj h).2⟩
  | [], a :: l', _, _, _, hl', h => absurd (List.cons.inj h).1 (List.ne_of_not_mem_cons hl')
  | a :: l, [], _, _, hl, _, h => absurd (List.cons.inj h).1.symm (List.ne_of_not_mem_cons hl)
  | a :: l, a' :: l', _, _, hl, hl', h => by
    obtain ⟨hhead, htail⟩ := List.cons.inj h
    obtain ⟨hl, hr⟩ := before_inj (List.not_mem_of_not_mem_cons hl) (List.not_mem_of_not_mem_cons hl') htail
    exact ⟨by rw [hhead, hl], hr⟩

theorem word_notMem_cells (h : Heap) (met : Numbering) (cells : List Nat) (w : String) :
    Mark.word w ∉ cells.map fun i => tokenOf h met (.cell (some i)) := by
  intro hmem
  obtain ⟨i, -, hi⟩ := List.mem_map.1 hmem
  rw [tokenOf] at hi
  split at hi <;> cases hi

/-- **What waiting states with the same form have in common.** -/
theorem shown_of_canonical_waiting (hs : s.completed = false ∧ s.failed = false)
    (ht : t.completed = false ∧ t.failed = false) (hsane : s.Sane) (hsane' : t.Sane)
    (h : s.canonical = t.canonical) :
    SamePlace s t ∧ List.Forall₂ (RegistersAlike (SameRank s t) s.heap t.heap) s.shown t.shown := by
  have hseen : ∀ file ∈ s.shown, ∀ i, some i ∈ file → Seen s.heap s.freeCells i :=
    fun _ hfile _ => hsane.seen hfile
  have hseen' : ∀ file ∈ t.shown, ∀ i, some i ∈ file → Seen t.heap t.freeCells i :=
    fun _ hfile _ => hsane'.seen hfile
  rw [shown_of_waiting hs] at hseen
  rw [shown_of_waiting ht] at hseen'
  rw [canonical_eq_map, canonical_eq_map, outline_of_waiting hs, outline_of_waiting ht] at h
  simp only [List.map_append, List.map_cons, List.cons_append, List.nil_append,
    List.append_assoc, List.map_map] at h
  obtain ⟨-, h⟩ := List.cons.inj h
  obtain ⟨hpc, h⟩ := List.cons.inj h
  obtain ⟨hlabel, h⟩ := List.cons.inj h
  obtain ⟨-, h⟩ := List.cons.inj h
  obtain ⟨harguments, h⟩ := before_inj (word_notMem_cells _ _ _ "regs") (word_notMem_cells _ _ _ "regs") h
  obtain ⟨hregisters, hstack⟩ := outlineRegisters_inj (fun _ => rfl) (fun _ => rfl) h
  have hframes := frames_of_tokens hsane.heap hsane'.heap hstack
    (fun f hf => hseen _ (List.mem_cons_of_mem _ (List.mem_cons_of_mem _ (List.mem_map_of_mem hf))))
    fun f hf => hseen' _ (List.mem_cons_of_mem _ (List.mem_cons_of_mem _ (List.mem_map_of_mem hf)))
  refine ⟨.inr (.inr ⟨hs, ht, Mark.number.inj hpc, Mark.label.inj hlabel, ?_, ?_⟩), ?_⟩
  · simpa using congrArg List.length harguments
  · exact hframes.imp fun _ _ hframe => ⟨hframe.returnTo, hframe.caller⟩
  · rw [shown_of_waiting hs, shown_of_waiting ht]
    refine .cons ?_ (.cons ?_ ?_)
    · refine registers_of_tokens hsane.heap hsane'.heap ?_ (hseen _ List.mem_cons_self)
        (hseen' _ List.mem_cons_self)
      rw [List.map_map, List.map_map]
      exact harguments
    · exact registers_of_tokens hsane.heap hsane'.heap hregisters
        (hseen _ (List.mem_cons_of_mem _ List.mem_cons_self))
          (hseen' _ (List.mem_cons_of_mem _ List.mem_cons_self))
    · exact List.forall₂_map_left_iff.2
        (List.forall₂_map_right_iff.2 (hframes.imp fun _ _ hframe => hframe.registers))

/-- **What states with the same form have in common.** -/
theorem shown_of_canonical (hs : s.Sane) (ht : t.Sane) (h : s.canonical = t.canonical) :
    SamePlace s t ∧ List.Forall₂ (RegistersAlike (SameRank s t) s.heap t.heap) s.shown t.shown := by
  obtain ⟨hcompleted, hfailed⟩ := flags_of_canonical h
  cases hdone : s.completed with
  | true =>
    have hdone' := hcompleted.symm.trans hdone
    have hseen := fun i => hs.seen (i := i) (shown_of_completed hdone ▸ List.mem_cons_self)
    have hseen' := fun i => ht.seen (i := i) (shown_of_completed hdone' ▸ List.mem_cons_self)
    rw [canonical_eq_map, canonical_eq_map, outline_of_completed hdone, outline_of_completed hdone',
      List.map_cons, List.map_cons] at h
    have htokens := (List.cons.inj h).2
    rw [← List.append_nil (List.map _ _), ← List.append_nil (List.map (tokenOf t.heap _) _)] at htokens
    have hregisters := (outlineRegisters_inj (fun _ => rfl) (fun _ => rfl) htokens).1
    refine ⟨.inl ⟨hdone, hdone'⟩, ?_⟩
    rw [shown_of_completed hdone, shown_of_completed hdone']
    exact .cons (registers_of_tokens hs.heap ht.heap hregisters hseen hseen') .nil
  | false =>
    have hdone' := hcompleted.symm.trans hdone
    have hfailed' := (hfailed hdone).symm
    cases hfail : s.failed with
    | true =>
      refine ⟨.inr (.inl ⟨⟨hdone, hfail⟩, hdone', hfailed'.trans hfail⟩), ?_⟩
      rw [shown_of_failed ⟨hdone, hfail⟩, shown_of_failed ⟨hdone', hfailed'.trans hfail⟩]
      exact .nil
    | false => exact shown_of_canonical_waiting ⟨hdone, hfail⟩ ⟨hdone', hfailed'.trans hfail⟩ hs ht h

/-- **States have the same form just if they are equal up to the names of variables and the layout of the heap.**
Two sane states have the same form just if they are of the same kind and at the same place, and one renaming of
their free variables makes all files that they show correspond: these have the same lengths and are unset in the
same places, constants are equal, and variables match. -/
theorem canonical_eq_iff (hs : s.Sane) (ht : t.Sane) : s.canonical = t.canonical ↔ SamePlace s t ∧
    ∃ e : s.FreeVariable ≃ t.FreeVariable,
      List.Forall₂ (RegistersAlike (Renames e) s.heap t.heap) s.shown t.shown := by
  constructor
  · intro h
    obtain ⟨hplace, hshown⟩ := shown_of_canonical hs ht h
    exact ⟨hplace, sameRank_renames hs ht hshown⟩
  · rintro ⟨hplace, e, hshown⟩
    exact (markItems_alike (heapsAlike_of_renaming hs ht e) (outline_of_shown hplace hshown) .empty).1

/-- A call of `q` by a clause of `p`: the clause of `q` runs with one register set, and two registers of its caller
are. -/
def callOf (heap : Heap) (register saved constant : Nat) : State :=
  ⟨heap, [some register, none], [⟨5, [some constant, some saved], some ⟨"p", 1⟩⟩], 9, some ⟨"q", 1⟩, false, false⟩

theorem sane_callOf {heap : Heap} {register saved constant : Nat} (hheap : heap.Sound)
    (h : register < heap.size ∧ saved < heap.size ∧ constant < heap.size) :
    (callOf heap register saved constant).Sane where
  heap := hheap
  registers := by
    intro cell hcell
    simp only [callOf, List.mem_cons, Option.some.injEq, List.not_mem_nil, reduceCtorEq, or_false] at hcell
    exact hcell ▸ h.1
  saved := by
    intro f hf cell hcell
    obtain rfl := List.mem_singleton.1 hf
    simp only [List.mem_cons, Option.some.injEq, List.not_mem_nil, or_false] at hcell
    rcases hcell with rfl | rfl
    · exact h.2.2
    · exact h.2.1

def looseHeap : Heap := #[.ref 0, .const 7, .ref 2, .ref 0]

def chainedHeap : Heap := #[.const 7, .ref 1, .ref 1, .ref 2]

theorem sound_looseHeap : looseHeap.Sound := by
  have hnil : Heap.Sound #[] := fun i hi => absurd hi (Nat.not_lt_zero i)
  exact (((hnil.push (.ref 0) (by simp)).push (.const 7) (by simp)).push (.ref 2) (by simp)).push
    (.ref 0) (by simp)

theorem sound_chainedHeap : chainedHeap.Sound := by
  have hnil : Heap.Sound #[] := fun i hi => absurd hi (Nat.not_lt_zero i)
  exact (((hnil.push (.const 7) (by simp)).push (.ref 1) (by simp)).push (.ref 1) (by simp)).push
    (.ref 2) (by simp)

/-- One call in two heaps: its argument and two registers are one variable, and a register is a constant. -/
theorem canonical_eq_iff_layouts :
    (callOf looseHeap 0 3 1).Sane ∧ (callOf chainedHeap 1 2 0).Sane ∧
      (callOf looseHeap 0 3 1).canonical = (callOf chainedHeap 1 2 0).canonical ∧
      ∃ e : (callOf looseHeap 0 3 1).FreeVariable ≃ (callOf chainedHeap 1 2 0).FreeVariable,
        List.Forall₂ (RegistersAlike (Renames e) looseHeap chainedHeap) (callOf looseHeap 0 3 1).shown
          (callOf chainedHeap 1 2 0).shown := by
  have hs : (callOf looseHeap 0 3 1).Sane := sane_callOf sound_looseHeap (by decide)
  have ht : (callOf chainedHeap 1 2 0).Sane := sane_callOf sound_chainedHeap (by decide)
  have hforms : (callOf looseHeap 0 3 1).canonical = (callOf chainedHeap 1 2 0).canonical := by decide +kernel
  exact ⟨hs, ht, hforms, ((canonical_eq_iff hs ht).1 hforms).2⟩

end State

end ProofWalk
