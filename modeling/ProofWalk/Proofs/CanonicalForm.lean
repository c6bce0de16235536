import ProofWalk.Machine.Canonical
import ProofWalk.Proofs.Alike
import ProofWalk.Proofs.Interning
import ProofWalk.Proofs.Standing
/-!
# Proofs.CanonicalForm — equal canonical forms are states that look alike

The ranks of a canonical form are a matching of the unbound variables of two states.  States that look alike have
the same form (`StatesAlike.canonical_eq`), and settled states with the same form look alike (`alike_of_canonical`).

The two directions are proved by different readings of a form.  Going forwards, two outlines with corresponding
items are turned into tokens side by side, and the tables of variables met so far number matched variables alike
(`TablesAlike`).  Going backwards, all tokens of an outline are read off its final table (`markItems_eq`), in which
every variable of the state has been met; so equal tokens say for each cell what it stands for.
-/
namespace ProofWalk

/-! ## Numberings

Tables that number matched variables in the same order stay so when a variable and its match are met. -/

/-- **Tables that number matched variables in the same order.** -/
def TablesAlike (ρ : Nat → Nat → Prop) (met met' : Numbering) : Prop := List.Forall₂ ρ met.toList met'.toList

theorem forall₂_getElem? {α β : Type} {R : α → β → Prop} :
    ∀ {l : List α} {l' : List β}, List.Forall₂ R l l' → ∀ {k : Nat} {a : α},
    l[k]? = some a → ∃ b, l'[k]? = some b ∧ R a b
  | _, _, .nil, _, _, h => nomatch h
  | _, _, .cons hab _, 0, _, h => by cases h; exact ⟨_, rfl, hab⟩
  | _, _, .cons _ hl, _ + 1, _, h => forall₂_getElem? hl h

namespace TablesAlike

variable {ρ : Nat → Nat → Prop} {h h' : Heap} {met met' : Numbering}

theorem empty : TablesAlike ρ ∅ ∅ := List.Forall₂.nil

theorem find?_eq (ht : TablesAlike ρ met met') (hh : HeapsAlike ρ h h') {a b : Nat} (hab : ρ a b) :
    met.find? a = met'.find? b := by
  have hget : ∀ k, met.get? k = some a ↔ met'.get? k = some b := by
    intro k
    rw [Interned.get?, Interned.get?, ← Array.getElem?_toList, ← Array.getElem?_toList]
    constructor
    · intro hk
      obtain ⟨b', hk', hab'⟩ := forall₂_getElem? ht hk
      rw [hh.unique hab hab']
      exact hk'
    · intro hk
      obtain ⟨a', hk', hab'⟩ := forall₂_getElem? ht.flip hk
      rw [hh.unique' hab hab']
      exact hk'
  cases hfind : met.find? a with
  | some k =>
    obtain ⟨a', ha', rfl⟩ := Interned.find?_eq_some_iff.1 hfind
    exact (Interned.find?_eq_some_iff.2 ⟨b, (hget k).1 ha', rfl⟩).symm
  | none =>
    cases hfind' : met'.find? b with
    | none => rfl
    | some k =>
      obtain ⟨b', hb', rfl⟩ := Interned.find?_eq_some_iff.1 hfind'
      rw [Interned.find?_eq_some_iff.2 ⟨a, (hget k).2 hb', rfl⟩] at hfind
      cases hfind

theorem size_eq (ht : TablesAlike ρ met met') : met.size = met'.size := by
  rw [Interned.size, Interned.size, ← Array.length_toList, ← Array.length_toList]
  exact List.Forall₂.length_eq ht

theorem intern (ht : TablesAlike ρ met met') (hh : HeapsAlike ρ h h') {a b : Nat} (hab : ρ a b) :
    (met.intern a).2 = (met'.intern b).2 ∧ TablesAlike ρ (met.intern a).1 (met'.intern b).1 := by
  have hfind := ht.find?_eq hh hab
  cases hk : met.find? a with
  | some k =>
    rw [hk] at hfind
    rw [Interned.intern_of_some hk, Interned.intern_of_some hfind.symm]
    exact ⟨rfl, ht⟩
  | none =>
    rw [hk] at hfind
    obtain ⟨hitems, hnumber⟩ := Interned.intern_of_none hk
    obtain ⟨hitems', hnumber'⟩ := Interned.intern_of_none hfind.symm
    rw [hnumber, hnumber', TablesAlike, Interned.toList, Interned.toList, hitems, hitems',
      Array.toList_push, Array.toList_push]
    exact ⟨ht.size_eq, List.rel_append ht (.cons hab .nil)⟩

end TablesAlike

/-! ## Outlines

Items correspond when they are the same token or corresponding cells. -/

inductive ItemsAlike (ρ : Nat → Nat → Prop) (h h' : Heap) : State.Item → State.Item → Prop
  | mark {m : Mark} : ItemsAlike ρ h h' (.mark m) (.mark m)
  | unset : ItemsAlike ρ h h' (.cell none) (.cell none)
  | cell {i j : Nat} (hij : CellsAlike ρ h h' i j) : ItemsAlike ρ h h' (.cell (some i)) (.cell (some j))

variable {ρ : Nat → Nat → Prop} {h h' : Heap}

theorem markItem_alike (hh : HeapsAlike ρ h h') {met met' : Numbering} (ht : TablesAlike ρ met met')
    {item item' : State.Item} (hi : ItemsAlike ρ h h' item item') :
    (State.markItem h met item).1 = (State.markItem h' met' item').1 ∧
      TablesAlike ρ (State.markItem h met item).2 (State.markItem h' met' item').2 := by
  cases hi with
  | mark => exact ⟨rfl, ht⟩
  | unset => exact ⟨rfl, ht⟩
  | cell hij =>
    rw [State.markItem, State.markItem]
    rcases hh.resolve_cases hij with ⟨c, hi, hj⟩ | ⟨a, b, hab, hi, hj, -, -⟩
    · rw [hi, hj]
      exact ⟨rfl, ht⟩
    · rw [hi, hj]
      obtain ⟨hrank, htables⟩ := ht.intern hh hab
      exact ⟨congrArg Mark.var hrank, htables⟩

/-- **Corresponding outlines have the same tokens.** -/
theorem markItems_alike (hh : HeapsAlike ρ h h') :
    ∀ {items items' : List State.Item}, List.Forall₂ (ItemsAlike ρ h h') items items' →
    ∀ {met met' : Numbering}, TablesAlike ρ met met' →
      (State.markItems h met items).1 = (State.markItems h' met' items').1 ∧
        TablesAlike ρ (State.markItems h met items).2 (State.markItems h' met' items').2
  | _, _, .nil, _, _, ht => ⟨rfl, ht⟩
  | _, _, .cons hi hitems, _, _, ht => by
    obtain ⟨hmark, ht⟩ := markItem_alike hh ht hi
    obtain ⟨hmarks, ht⟩ := markItems_alike hh hitems ht
    exact ⟨congrArg₂ List.cons hmark hmarks, ht⟩

theorem outlineRegisters_alike {registers registers' : Registers}
    (hr : RegistersAlike ρ h h' registers registers') :
    List.Forall₂ (ItemsAlike ρ h h') (State.outlineRegisters registers) (State.outlineRegisters registers') := by
  rw [State.outlineRegisters, State.outlineRegisters, hr.length_eq]
  refine .cons .mark
    (List.forall₂_map_left_iff.2 (List.forall₂_map_right_iff.2 (List.Forall₂.imp (fun _ _ hrel => ?_) hr)))
  cases hrel with
  | none => exact .unset
  | some hij => exact .cell hij

theorem outlineFrames_alike : ∀ {stack stack' : List Frame}, List.Forall₂ (FramesAlike ρ h h') stack stack' →
    List.Forall₂ (ItemsAlike ρ h h') (stack.flatMap State.outlineFrame) (stack'.flatMap State.outlineFrame)
  | _, _, .nil => .nil
  | _, _, .cons (a := f) (b := f') hf hstack => by
    rw [List.flatMap_cons, List.flatMap_cons]
    refine List.rel_append ?_ (outlineFrames_alike hstack)
    rw [State.outlineFrame, State.outlineFrame, hf.returnTo, hf.caller]
    exact .cons .mark (.cons .mark (.cons .mark (outlineRegisters_alike hf.registers)))

namespace StatesAlike

variable {hand : Nat} {s t : State}

theorem arity_eq (hs : StatesAlike ρ hand s t) : s.arity = t.arity := by rw [State.arity, State.arity, hs.jumpTo]

theorem argumentCells_alike (hs : StatesAlike ρ hand s t) (harity : s.arity ≤ hand) :
    List.Forall₂ (CellsAlike ρ s.heap t.heap) s.argumentCells t.argumentCells := by
  have hs' := hs.fewer harity
  have hle := hs'.hand_le
  rw [State.argumentCells, State.argumentCells, ← hs.arity_eq, Nat.min_eq_left hle.1, Nat.min_eq_left hle.2,
    List.range'_eq_map_range, List.range'_eq_map_range]
  refine List.forall₂_map_left_iff.2 (List.forall₂_map_right_iff.2 (List.forall₂_same.2 fun k hk => ?_))
  exact hs'.top k (List.mem_range.1 hk)

theorem outline_alike (hs : StatesAlike ρ hand s t) (harity : s.arity ≤ hand) :
    List.Forall₂ (ItemsAlike ρ s.heap t.heap) s.outline t.outline := by
  rw [State.outline, State.outline, ← hs.completed, ← hs.failed, ← hs.pc, ← hs.jumpTo]
  split
  · exact .cons .mark (outlineRegisters_alike hs.registers)
  · split
    · exact .cons .mark .nil
    · have hargs : List.Forall₂ (ItemsAlike ρ s.heap t.heap) (s.argumentCells.map fun i => .cell (some i))
          (t.argumentCells.map fun i => .cell (some i)) :=
        List.forall₂_map_left_iff.2 (List.forall₂_map_right_iff.2
          ((hs.argumentCells_alike harity).imp fun _ _ hij => .cell hij))
      exact List.rel_append (List.rel_append
        (List.rel_append (.cons .mark (.cons .mark (.cons .mark (.cons .mark .nil)))) hargs)
        (.cons .mark (outlineRegisters_alike hs.registers))) (outlineFrames_alike hs.stack)

/-- **States that look alike have the same canonical form.** -/
theorem canonical_eq (hs : StatesAlike ρ hand s t) (harity : s.arity ≤ hand) : s.canonical = t.canonical :=
  (markItems_alike hs.heaps (hs.outline_alike harity) .empty).1

/-- **Matched variables have the same rank.** -/
theorem variableRank_eq (hs : StatesAlike ρ hand s t) (harity : s.arity ≤ hand) {a b : Nat} (hab : ρ a b)
    (ha : s.heap[a]? = some (Cell.ref a)) (hb : t.heap[b]? = some (Cell.ref b)) :
    s.variableRank a = t.variableRank b := by
  have htables := (markItems_alike hs.heaps (hs.outline_alike harity) .empty).2
  rw [State.variableRank, State.variableRank, Heap.deref_of_leads (.free ha), Heap.deref_of_leads (.free hb)]
  show (s.freeCells.find? a).getD s.freeCells.size = (t.freeCells.find? b).getD t.freeCells.size
  rw [State.freeCells, State.freeCells, htables.find?_eq hs.heaps hab, htables.size_eq]

end StatesAlike

/-! ## From forms to states

`SameRank` matches the variables of one rank.  A form begins with a token that tells the kind of a state, so that
completed, failed and waiting states are not mixed up; the outline of a waiting state meets every cell that the
state knows of, its arguments, its registers and those of its callers. -/

def tokenOf (h : Heap) (met : Numbering) : State.Item → Mark
  | .mark m => m
  | .cell none => .unset
  | .cell (some i) =>
    match h.resolve i with
    | .const c => .const c
    | .unset => .unset
    | .free root => .var ((met.find? root).getD met.size)

structure Seen (h : Heap) (met : Numbering) (i : Nat) : Prop where
  lt : i < h.size
  number {root : Nat} (hroot : h.resolve i = .free root) : ∃ k, met.find? root = some k

/-- **The tokens of an outline can be read off its final table.** -/
theorem markItems_eq (h : Heap) : ∀ (items : List State.Item) (met : Numbering),
    (State.markItems h met items).1 = items.map (tokenOf h (State.markItems h met items).2) ∧
      met.Keeps (State.markItems h met items).2 ∧
      ∀ i root, .cell (some i) ∈ items → h.resolve i = .free root →
        ∃ k, (State.markItems h met items).2.find? root = some k
  | [], met => ⟨rfl, .refl _, fun _ _ hi => nomatch hi⟩
  | item :: items, met => by
    obtain ⟨htokens, hkeeps, hseen⟩ := markItems_eq h items (State.markItem h met item).2
    have hitem : met.Keeps (State.markItem h met item).2 ∧ ∀ after, (State.markItem h met item).2.Keeps after →
        (State.markItem h met item).1 = tokenOf h after item ∧
          ∀ i root, item = .cell (some i) → h.resolve i = .free root → ∃ k, after.find? root = some k := by
      rcases item with m | (_ | i)
      · exact ⟨.refl _, fun _ _ => ⟨rfl, fun _ _ he => nomatch he⟩⟩
      · exact ⟨.refl _, fun _ _ => ⟨rfl, fun _ _ he => nomatch he⟩⟩
      · cases hr : h.resolve i with
        | const c =>
          rw [State.markItem, hr]
          exact ⟨.refl _,
            fun _ _ => ⟨by rw [tokenOf, hr], fun j root he hj => by cases he; rw [hr] at hj; cases hj⟩⟩
        | unset =>
          rw [State.markItem, hr]
          exact ⟨.refl _,
            fun _ _ => ⟨by rw [tokenOf, hr], fun j root he hj => by cases he; rw [hr] at hj; cases hj⟩⟩
        | free root =>
          rw [State.markItem, hr]
          refine ⟨met.keeps_intern root, fun after hafter => ?_⟩
          have hfind := hafter root _ (Interned.find?_intern met root)
          refine ⟨?_, fun j root' he hj => ?_⟩
          · rw [tokenOf, hr]
            show Mark.var (met.intern root).2 = Mark.var ((after.find? root).getD after.size)
            rw [hfind]
            rfl
          · cases he
            rw [hr] at hj
            cases hj
            exact ⟨_, hfind⟩
    obtain ⟨htoken, hnumber⟩ := hitem.2 _ hkeeps
    refine ⟨congrArg₂ List.cons htoken htokens, hitem.1.trans hkeeps, fun i root hi hroot => ?_⟩
    rcases List.mem_cons.1 hi with hi | hi
    · exact hnumber i root hi.symm hroot
    · exact hseen i root hi hroot

/-- **Variables of the same rank** in the canonical forms of two states. -/
def SameRank (s t : State) (a b : Nat) : Prop :=
  (∃ k, s.freeCells.find? a = some k ∧ t.freeCells.find? b = some k) ∧ a < s.heap.size ∧ b < t.heap.size

theorem find?_injective {met : Numbering} {a a' k : Nat} (h : met.find? a = some k) (h' : met.find? a' = some k) :
    a = a' := by
  obtain ⟨x, hx, rfl⟩ := Interned.find?_eq_some_iff.1 h
  obtain ⟨y, hy, rfl⟩ := Interned.find?_eq_some_iff.1 h'
  rw [hx] at hy
  exact Option.some.inj hy

theorem sameRank_alike {s t : State} (hs : s.heap.Sound) (ht : t.heap.Sound) :
    HeapsAlike (SameRank s t) s.heap t.heap where
  sound := hs
  sound' := ht
  lt h := h.2
  unique h h' := by
    obtain ⟨⟨k, ha, hb⟩, -⟩ := h
    obtain ⟨⟨k', ha', hb'⟩, -⟩ := h'
    rw [ha] at ha'
    cases ha'
    exact find?_injective hb hb'
  unique' h h' := by
    obtain ⟨⟨k, ha, hb⟩, -⟩ := h
    obtain ⟨⟨k', ha', hb'⟩, -⟩ := h'
    rw [hb] at hb'
    cases hb'
    exact find?_injective ha ha'

section Tokens

variable {s t : State} (hs : s.heap.Sound) (ht : t.heap.Sound)

include hs ht

theorem cells_of_tokens {i j : Nat} (hi : Seen s.heap s.freeCells i) (hj : Seen t.heap t.freeCells j)
    (h : tokenOf s.heap s.freeCells (.cell (some i)) = tokenOf t.heap t.freeCells (.cell (some j))) :
    CellsAlike (SameRank s t) s.heap t.heap i j where
  lt := hi.lt
  lt' := hj.lt
  resolve := by
    rw [tokenOf, tokenOf] at h
    rcases hs.resolve_cases hi.lt with ⟨c, hc, -⟩ | ⟨hr, hcell⟩ <;>
      rcases ht.resolve_cases hj.lt with ⟨d, hd, -⟩ | ⟨hr', hcell'⟩
    · rw [hc, hd] at h ⊢
      cases h
      exact .const
    · rw [hc, hr'] at h
      cases h
    · rw [hr, hd] at h
      cases h
    · obtain ⟨k, hk⟩ := hi.number hr
      obtain ⟨k', hk'⟩ := hj.number hr'
      rw [hr, hr'] at h
      dsimp only at h
      rw [hk, hk'] at h
      obtain rfl : k = k' := Mark.var.inj h
      rw [hr, hr']
      exact .free ⟨⟨k, hk, hk'⟩, hs.deref_lt hi.lt, ht.deref_lt hj.lt⟩

theorem registers_of_tokens : ∀ {registers registers' : Registers},
    registers.map (fun r => tokenOf s.heap s.freeCells (.cell r)) =
      registers'.map (fun r => tokenOf t.heap t.freeCells (.cell r)) →
    (∀ i, some i ∈ registers → Seen s.heap s.freeCells i) →
      (∀ j, some j ∈ registers' → Seen t.heap t.freeCells j) →
    RegistersAlike (SameRank s t) s.heap t.heap registers registers'
  | [], [], _, _, _ => .nil
  | [], _ :: _, h, _, _ => nomatch h
  | _ :: _, [], h, _, _ => nomatch h
  | r :: registers, r' :: registers', h, hseen, hseen' => by
    obtain ⟨htoken, htokens⟩ := List.cons.inj h
    have hne : ∀ {h : Heap} {met : Numbering} {i : Nat}, h.Sound → Seen h met i →
        tokenOf h met (.cell (some i)) ≠ .unset := by
      intro h met i hsound hi he
      rw [tokenOf] at he
      rcases hsound.resolve_cases hi.lt with ⟨c, hc, -⟩ | ⟨hr, -⟩
      · rw [hc] at he; cases he
      · rw [hr] at he; cases he
    refine .cons ?_ (registers_of_tokens htokens (fun i hi => hseen i (List.mem_cons_of_mem _ hi))
      fun j hj => hseen' j (List.mem_cons_of_mem _ hj))
    rcases r with _ | i <;> rcases r' with _ | j
    · exact .none
    · exact absurd htoken.symm (hne ht (hseen' j List.mem_cons_self))
    · exact absurd htoken (hne hs (hseen i List.mem_cons_self))
    · exact .some (cells_of_tokens hs ht (hseen i List.mem_cons_self) (hseen' j List.mem_cons_self) htoken)

omit hs ht in
theorem outlineRegisters_inj {T T' : State.Item → Mark} (hT : ∀ m, T (.mark m) = m) (hT' : ∀ m, T' (.mark m) = m)
    {registers registers' : Registers} {rest rest' : List Mark}
    (h : (State.outlineRegisters registers).map T ++ rest = (State.outlineRegisters registers').map T' ++ rest') :
    registers.map (fun r => T (.cell r)) = registers'.map (fun r => T' (.cell r)) ∧ rest = rest' := by
  rw [State.outlineRegisters, State.outlineRegisters, List.map_cons, List.map_cons, hT, hT',
    List.map_map, List.map_map, List.cons_append, List.cons_append] at h
  obtain ⟨hlength, h⟩ := List.cons.inj h
  exact List.append_inj h (by rw [List.length_map, List.length_map]; exact Mark.number.inj hlength)

theorem frames_of_tokens : ∀ {stack stack' : List Frame},
    (stack.flatMap State.outlineFrame).map (tokenOf s.heap s.freeCells) =
      (stack'.flatMap State.outlineFrame).map (tokenOf t.heap t.freeCells) →
    (∀ f ∈ stack, ∀ i, some i ∈ f.registers → Seen s.heap s.freeCells i) →
    (∀ f ∈ stack', ∀ j, some j ∈ f.registers → Seen t.heap t.freeCells j) →
    List.Forall₂ (FramesAlike (SameRank s t) s.heap t.heap) stack stack'
  | [], [], _, _, _ => .nil
  | [], _ :: _, h, _, _ => nomatch h
  | _ :: _, [], h, _, _ => nomatch h
  | f :: stack, f' :: stack', h, hseen, hseen' => by
    rw [List.flatMap_cons, List.flatMap_cons, List.map_append, List.map_append,
      State.outlineFrame, State.outlineFrame,
      List.map_cons, List.map_cons, List.map_cons, List.map_cons, List.map_cons, List.map_cons] at h
    obtain ⟨-, h⟩ := List.cons.inj h
    obtain ⟨hreturn, h⟩ := List.cons.inj h
    obtain ⟨hcaller, h⟩ := List.cons.inj h
    obtain ⟨hregisters, h⟩ := outlineRegisters_inj (fun _ => rfl) (fun _ => rfl) h
    exact .cons
      { returnTo := Mark.number.inj hreturn
        caller := Mark.label.inj hcaller
        registers := registers_of_tokens hs ht hregisters (hseen f List.mem_cons_self)
          (hseen' f' List.mem_cons_self) }
      (frames_of_tokens h (fun g hg => hseen g (List.mem_cons_of_mem _ hg)) fun g hg =>
        hseen' g (List.mem_cons_of_mem _ hg))

end Tokens

theorem canonical_eq_map (s : State) : s.canonical = s.outline.map (tokenOf s.heap s.freeCells) :=
  (markItems_eq s.heap s.outline ∅).1

theorem seen_of_mem {s : State} {i : Nat} (hlt : i < s.heap.size) (hmem : .cell (some i) ∈ s.outline) :
    Seen s.heap s.freeCells i := ⟨hlt, fun hroot => (markItems_eq s.heap s.outline ∅).2.2 i _ hmem hroot⟩

theorem outline_of_waiting {s : State} (hrunning : s.completed = false ∧ s.failed = false) :
    s.outline = [.mark (.word "pc"), .mark (.number s.pc), .mark (.label s.jumpTo), .mark (.word "args")] ++
      s.argumentCells.map (fun i => .cell (some i)) ++ .mark (.word "regs") ::
        State.outlineRegisters s.registers ++
      s.stack.flatMap State.outlineFrame := by
  rw [State.outline, hrunning.1, hrunning.2]
  rfl

theorem outline_of_completed {s : State} (h : s.completed = true) :
    s.outline = .mark (.word "done") :: State.outlineRegisters s.registers := by
  rw [State.outline, if_pos h]

theorem outline_of_failed {s : State} (h : s.completed = false ∧ s.failed = true) :
    s.outline = [.mark (.word "failed")] := by
  rw [State.outline, h.1, h.2]
  rfl

theorem canonical_of_failed {s : State} (h : s.completed = false ∧ s.failed = true) :
    s.canonical = [.word "failed"] := by
  rw [canonical_eq_map, outline_of_failed h]
  rfl

theorem head?_canonical (s : State) :
    s.canonical.head? = some (.word (if s.completed then "done" else if s.failed then "failed" else "pc")) := by
  rw [canonical_eq_map]
  cases hc : s.completed with
  | true => rw [outline_of_completed hc]; rfl
  | false =>
    cases hf : s.failed with
    | true => rw [outline_of_failed ⟨hc, hf⟩]; rfl
    | false => rw [outline_of_waiting ⟨hc, hf⟩]; rfl

theorem flags_of_canonical {s t : State} (h : s.canonical = t.canonical) :
    s.completed = t.completed ∧ (s.completed = false → s.failed = t.failed) := by
  have hhead := (head?_canonical s).symm.trans ((congrArg List.head? h).trans (head?_canonical t))
  have hword := Mark.word.inj (Option.some.inj hhead)
  cases hs : s.completed <;> cases ht : t.completed <;> cases hf : s.failed <;> cases hg : t.failed <;>
    rw [hs, ht, hf, hg] at hword <;> revert hword <;> decide

theorem seen_of_waiting {s : State} (hs : s.completed = false ∧ s.failed = false) (hsane : s.Sane)
    (hsize : s.arity ≤ s.heap.size) :
    (∀ k < s.arity, Seen s.heap s.freeCells (s.heap.size - s.arity + k)) ∧
      (∀ i, some i ∈ s.registers → Seen s.heap s.freeCells i) ∧
      ∀ f ∈ s.stack, ∀ i, some i ∈ f.registers → Seen s.heap s.freeCells i := by
  have hregisters : ∀ {registers : Registers} {i : Nat}, some i ∈ registers →
      State.Item.cell (some i) ∈ State.outlineRegisters registers := fun hi =>
    List.mem_cons_of_mem _ (List.mem_map_of_mem hi)
  refine ⟨fun k hk => seen_of_mem (by omega) ?_, fun i hi => seen_of_mem (hsane.registers i hi) ?_,
    fun f hf i hi => seen_of_mem (hsane.saved f hf i hi) ?_⟩ <;> rw [outline_of_waiting hs]
  · refine List.mem_append_left _ (List.mem_append_left _ (List.mem_append_right _ (List.mem_map.2 ⟨_, ?_, rfl⟩)))
    rw [State.argumentCells, Nat.min_eq_left hsize, List.mem_range'_1]
    omega
  · exact List.mem_append_left _ (List.mem_append_right _ (List.mem_cons_of_mem _ (hregisters hi)))
  · refine List.mem_append_right _ (List.mem_flatMap.2 ⟨f, hf, ?_⟩)
    exact List.mem_cons_of_mem _ (List.mem_cons_of_mem _ (List.mem_cons_of_mem _ (hregisters hi)))

/-- **Waiting states with the same canonical form look alike.** -/
theorem alike_of_canonical {s t : State} (hs : s.completed = false ∧ s.failed = false)
    (ht : t.completed = false ∧ t.failed = false) (hsane : s.Sane) (hsane' : t.Sane)
    (hsize : s.arity ≤ s.heap.size) (hsize' : t.arity ≤ t.heap.size)
    (h : s.canonical = t.canonical) : StatesAlike (SameRank s t) s.arity s t := by
  obtain ⟨hargs, hregs, hframes⟩ := seen_of_waiting hs hsane hsize
  obtain ⟨hargs', hregs', hframes'⟩ := seen_of_waiting ht hsane' hsize'
  rw [canonical_eq_map, canonical_eq_map, outline_of_waiting hs, outline_of_waiting ht] at h
  simp only [List.map_append, List.map_cons, List.cons_append, List.nil_append, List.append_assoc] at h
  obtain ⟨-, h⟩ := List.cons.inj h
  obtain ⟨hpc, h⟩ := List.cons.inj h
  obtain ⟨hlabel, h⟩ := List.cons.inj h
  obtain ⟨-, h⟩ := List.cons.inj h
  have hjump : s.jumpTo = t.jumpTo := Mark.label.inj hlabel
  have harity : s.arity = t.arity := by rw [State.arity, State.arity, hjump]
  obtain ⟨htop, h⟩ := List.append_inj h (by
    rw [List.length_map, List.length_map, List.length_map, List.length_map,
      State.argumentCells, State.argumentCells,
      List.length_range', List.length_range', Nat.min_eq_left hsize, Nat.min_eq_left hsize', harity])
  obtain ⟨-, h⟩ := List.cons.inj h
  obtain ⟨hregisters, hstack⟩ := outlineRegisters_inj (fun _ => rfl) (fun _ => rfl) h
  exact
    { heaps := sameRank_alike hsane.heap hsane'.heap
      registers := registers_of_tokens hsane.heap hsane'.heap hregisters hregs hregs'
      stack := frames_of_tokens hsane.heap hsane'.heap hstack hframes hframes'
      pc := Mark.number.inj hpc
      jumpTo := hjump
      completed := hs.1.trans ht.1.symm
      failed := hs.2.trans ht.2.symm
      hand_le := ⟨hsize, harity ▸ hsize'⟩
      top := fun k hk => by
        rw [harity] at hk
        refine cells_of_tokens hsane.heap hsane'.heap (hargs k (harity ▸ hk)) (harity ▸ hargs' k hk) ?_
        have hk' := congrArg (·[k]?) htop
        simp only [State.argumentCells, Nat.min_eq_left hsize, Nat.min_eq_left hsize', List.map_map,
          List.getElem?_map] at hk'
        rw [List.getElem?_range' (harity ▸ hk), List.getElem?_range' hk] at hk'
        simp only [Option.map_some, Function.comp_apply, Nat.one_mul, Option.some.injEq] at hk'
        rw [← harity] at hk'
        exact hk' }

end ProofWalk
