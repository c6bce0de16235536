import ProofWalk.Proofs.GatheredFeatures
import ProofWalk.Proofs.Safety
/-!
# Proofs.GroundClauses — ground clauses without a body

A rule that is a fact (`Rule.Asserts`) is compiled to code that matches one constant after another, reports the
default feature and returns (`GroundCode`).  The heap that such code leaves is that of unifying the arguments of the
call with the constants from left to right, and the state that it comes to is that of a call which has returned
(`ground_runs`).

The arguments of the call lie on top of the heap before the code runs, and since no instruction of it pushes
anything they stay there; the offsets of the code count them from the first to the last.
-/
namespace ProofWalk

open Machine

/-! ## The code of a ground clause

A constant of a table has the number that it was given by a table before it, so the code may be read by any later
table. -/

/-- **A rule that asserts what a fact does**: its arguments are the constants of some numbers, and it has neither
body nor features. -/
structure Rule.Asserts (table : Symbols) (r : Rule) (args : List Nat) : Prop where
  args : List.Forall₂ (fun a i => ∃ c, a = .const c ∧ table.get? i = some c) r.head.args args
  body : r.body = []
  features : r.features = []

def matchCode : Int → List Nat → List Instruction
  | _, [] => []
  | offset, c :: rest => .unifyConst c offset :: matchCode (offset + 1) rest

/-- **The code of a ground clause**, with whatever stands behind it. -/
def GroundCode (table : Symbols) (args : List Nat) (code : List Instruction) : Prop :=
  ∃ text feature rest, table.get? feature = some Rule.defaultFeature ∧
    code = .comment text :: .allocate 0 [] :: (matchCode (-(args.length : Int)) args ++ .clearFeatures ::
      .startFeature "id" 1 :: .featureConst feature :: .reportFeatures :: .proceed :: rest)

theorem constant_number {table : Symbols} {c : String} {i : Nat} (hget : table.get? i = some c) {s : Scope}
    (hkeeps : (Scope.constant c s).2.symbols.Keeps table) : (Scope.constant c s).1 = i := by
  obtain ⟨-, -, -, hnumber⟩ := constant_compiled c s
  rw [← hnumber table hkeeps, Interned.find?_eq_some_iff.2 ⟨c, hget, rfl⟩]
  rfl

theorem matchArguments_ground {table : Symbols} {args : List Argument} {numbers : List Nat}
    (h : List.Forall₂ (fun a i => ∃ c, a = .const c ∧ table.get? i = some c) args numbers)
    (offset : Int) (s : Scope)
    (hkeeps : (Rule.matchArguments offset args s).2.symbols.Keeps table) :
    (Rule.matchArguments offset args s).1 = matchCode offset numbers ∧
      (Rule.matchArguments offset args s).2.names = s.names := by
  induction h generalizing offset s with
  | nil => exact ⟨rfl, rfl⟩
  | @cons a i args numbers hfirst _ ih =>
    obtain ⟨c, rfl, hget⟩ := hfirst
    obtain ⟨hgrows, -⟩ := matchArguments_compiled args (offset + 1) (Scope.constant c s).2
    obtain ⟨hcode, hnames⟩ := ih (offset + 1) (Scope.constant c s).2 hkeeps
    refine ⟨?_, hnames⟩
    show Instruction.unifyConst (Scope.constant c s).1 offset ::
      (Rule.matchArguments (offset + 1) args (Scope.constant c s).2).1 = _
    rw [constant_number hget (hgrows.symbols.trans hkeeps), hcode]
    rfl

theorem addRule_fact (p : Program) (head : Goal) (t : Symbols) :
    p.addRule (.fact head) t =
      (.ok (p.append head.label (frameCode (Rule.fact head).text (Rule.headCode head ⟨[], 0, t⟩).2.names
        ((Rule.headCode head ⟨[], 0, t⟩).1 ++ [.clearFeatures, .startFeature "id" 1,
          .featureConst (Scope.constant Rule.defaultFeature (Rule.headCode head ⟨[], 0, t⟩).2).1, .reportFeatures,
          .proceed]))),
        (Scope.constant Rule.defaultFeature (Rule.headCode head ⟨[], 0, t⟩).2).2.symbols) := by
  show (Except.ok (p.append _ (frameCode _ _ (_ ++ _ ++ _))), _) = _
  rw [List.append_assoc]
  rfl

theorem append_injective (p : Program) (label : Label) :
    Function.Injective (p.append label) := fun code code' h => by
  have hcode : p.code ++ code.toArray = p.code ++ code'.toArray := congrArg Program.code h
  exact Array.toList_inj.2 (Array.append_right_inj p.code |>.1 hcode)

theorem addRule_ground {p p' : Program} {r : Rule} {t t' : Symbols} (h : p.addRule r t = (.ok p', t')) :
    t.Keeps t' ∧ ∃ code, p' = p.append r.head.label code ∧
      ∀ table, t'.Keeps table → ∀ rest args, r.Asserts table args → GroundCode table args (code ++ rest) := by
  obtain ⟨hkeeps, code, rfl, -⟩ := addRule_compiled h
  refine ⟨hkeeps, code, rfl, fun table htable rest args hasserts => ?_⟩
  obtain ⟨head, body, features⟩ := r
  obtain ⟨hargs, hnobody, hnofeatures⟩ := hasserts
  obtain rfl : body = [] := hnobody
  obtain rfl : features = [] := hnofeatures
  obtain ⟨hp, rfl⟩ := Prod.mk.inj ((addRule_fact p head t).symm.trans h)
  obtain rfl := append_injective p head.label (Except.ok.inj hp)
  have hhead := (constant_numbers Rule.defaultFeature (Rule.headCode head ⟨[], 0, t⟩).2).symbols.trans htable
  obtain ⟨hcode, hnames⟩ := matchArguments_ground hargs (-head.arity) ⟨[], 0, t⟩ hhead
  have harity : (head.arity : Int) = args.length := congrArg Nat.cast hargs.length_eq
  have hfeature := Interned.find?_eq_some_iff.1 (htable _ _ (Interned.find?_intern _ Rule.defaultFeature))
  obtain ⟨_, hget, rfl⟩ := hfeature
  refine ⟨(Rule.fact head).text, _, rest, hget, ?_⟩
  have hframe : (Rule.headCode head ⟨[], 0, t⟩).2.names = [] := hnames
  have hmatch : (Rule.headCode head ⟨[], 0, t⟩).1 = matchCode (-(args.length : Int)) args := by
    rw [← harity]
    exact hcode
  rw [frameCode, hframe, hmatch, List.cons_append, List.cons_append, List.append_assoc]
  rfl

/-! ## Heaps that keep what cells stand for

A cell that stands for a constant stands for it whatever is unified later, which is why the arguments of a call
stand for the constants of the fact in the end. -/

/-- **A heap that has grown from another**: a cell that stood for a constant stands for it still. -/
structure Heap.Keeps (h h' : Heap) : Prop where
  size_le : h.size ≤ h'.size
  const : ∀ {i c : Nat}, i < h.size → h.resolve i = .const c → h'.resolve i = .const c

namespace Heap

theorem Keeps.refl (h : Heap) : h.Keeps h := ⟨Nat.le_refl _, fun _ hc => hc⟩

theorem Keeps.trans {h h' h'' : Heap} (hk : h.Keeps h') (hk' : h'.Keeps h'') : h.Keeps h'' :=
  ⟨Nat.le_trans hk.size_le hk'.size_le, fun hi hc => hk'.const (Nat.lt_of_lt_of_le hi hk.size_le) (hk.const hi hc)⟩

theorem Sound.keeps_push {h : Heap} (hs : h.Sound) (cell : Cell) : h.Keeps (h.push cell) where
  size_le := Heap.size_push h cell ▸ Nat.le_succ _
  const hi hc := (resolve_push h hs cell hi).trans hc

theorem Sound.keeps_apply {h : Heap} (hs : h.Sound) {change : Change} (hf : change.Fits h) :
    h.Keeps (h.apply change) where
  size_le := Nat.le_of_eq (size_apply h change).symm
  const {i c} hi hc := by
    cases change with
    | keep => exact hc
    | bind root cell =>
      rw [resolve_bind hs hf hi, hc]
      exact if_neg nofun

theorem resolve_matchConst {h : Heap} (hs : h.Sound) {i c : Nat} (hi : i < h.size) {change : Change}
    (hm : h.matchConst i c = some change) : (h.apply change).resolve i = .const c := by
  have hf := matchConst_fits hs hi hm
  unfold matchConst at hm
  split at hm
  · rename_i d hd
    split at hm
    · rename_i hdc
      cases hm
      rw [← hdc]
      exact hd
    · cases hm
  · rename_i root hroot
    cases hm
    rw [resolve_bind hs hf hi, if_pos hroot]
    rfl
  · cases hm

end Heap

theorem matchAll_keeps : ∀ {pairs : List (Nat × Nat)} {h h' : Heap}, h.Sound → (∀ p ∈ pairs, p.1 < h.size) →
    matchAll h pairs = some h' → h.Keeps h' ∧ ∀ p ∈ pairs, h'.resolve p.1 = .const p.2
  | [], h, h', _, _, hm => by
    cases hm
    exact ⟨.refl h, nofun⟩
  | (cell, constant) :: rest, h, h', hs, hlt, hm => by
    obtain ⟨hcell, hrest⟩ := List.forall_mem_cons.1 hlt
    obtain ⟨change, hchange, hm⟩ := Option.bind_eq_some_iff.1 hm
    have hfits := Heap.matchConst_fits hs hcell hchange
    have hsize := Heap.size_apply h change
    obtain ⟨hkeeps, hmatched⟩ := matchAll_keeps (hs.apply hfits) (fun p hp => hsize.symm ▸ hrest p hp) hm
    refine ⟨(hs.keeps_apply hfits).trans hkeeps, List.forall_mem_cons.2 ⟨?_, hmatched⟩⟩
    exact hkeeps.const (hsize.symm ▸ hcell) (Heap.resolve_matchConst hs hcell hchange)

/-! ## Running a ground clause

The code is run part by part: the constants, which unify or fail as a whole, then the default feature, then the
return. -/

section Run

variable {K : Type} [Scalar K] {m : Machine K}

theorem matchCode_runs :
    ∀ {args : List Nat} {offset : Int} {r : Run K} {j : Instruction} {rest : List Instruction},
    offset + args.length = 0 → args.length ≤ r.state.heap.size →
    m.query.codeFrom r.state.pc = matchCode offset args ++ j :: rest →
    match matchAll r.state.heap ((List.range' (r.state.heap.size - args.length) args.length).zip args) with
    | some h => ∃ r₁ pc, m.Continues r r₁ ∧ r₁.state = { r.state with heap := h, pc := pc } ∧
        m.query.codeFrom r₁.state.pc = j :: rest
    | none => m.Dooms r
  | [], _, r, _, _, _, _, hcode => ⟨r, r.state.pc, .refl r, rfl, hcode⟩
  | c :: args, offset, r, j, rest, hend, hsize, hcode => by
    rw [List.length_cons] at hend hsize
    have hcell : cellAt r.state.heap.size offset = r.state.heap.size - (args.length + 1) := by
      rw [cellAt]
      omega
    have hnext : r.state.heap.size - (args.length + 1) + 1 = r.state.heap.size - args.length := by omega
    have hlow : 0 ≤ ((counted r).state.heap.size : Int) + offset := by
      show 0 ≤ (r.state.heap.size : Int) + offset
      omega
    have hexec := execute_unifyConst m (counted r) c hlow (by omega)
    have hstate : (counted r).state = r.state := rfl
    rw [hstate, hcell] at hexec
    rw [List.length_cons, List.range'_succ, hnext, List.zip_cons_cons, matchAll]
    cases hmatch : r.state.heap.matchConst (r.state.heap.size - (args.length + 1)) c with
    | none =>
      rw [hmatch] at hexec
      exact dooms_halt hcode hexec rfl
    | some change =>
      rw [hmatch] at hexec
      obtain ⟨hgoes, hcode₁⟩ :=
        continues_step hcode (List.append_ne_nil_of_right_ne_nil _ (List.cons_ne_nil _ _)) hexec rfl
      have hsize₁ := Heap.size_apply r.state.heap change
      have hruns :=
        matchCode_runs (by omega) (by rw [state_advanced]; exact hsize₁.symm ▸ Nat.le_of_succ_le hsize) hcode₁
      have hheap :
          (m.advanced ((counted r).withState { r.state with heap := r.state.heap.apply change })).state.heap =
          r.state.heap.apply change := rfl
      rw [hheap, hsize₁] at hruns
      rw [Option.bind_some]
      cases hrest : matchAll (r.state.heap.apply change)
          ((List.range' (r.state.heap.size - args.length) args.length).zip args) with
      | none =>
        rw [hrest] at hruns
        exact hgoes.dooms hruns
      | some h =>
        rw [hrest] at hruns
        obtain ⟨r₂, pc, hgoes₂, hstate, hcode₂⟩ := hruns
        exact ⟨r₂, pc, hgoes.trans hgoes₂, hstate, hcode₂⟩

def defaultFeatures : Features K := (∅ : Features K).insert "id(defaultRule)" (0 + 1)

theorem count_default : (∅ : Features K).count "id(defaultRule)" = defaultFeatures := by
  refine Std.ExtTreeMap.ext_getElem? fun k => ?_
  by_cases hk : k = "id(defaultRule)"
  · subst hk
    rw [Features.count, SortedMap.getElem?_upsert_self, defaultFeatures, Std.ExtTreeMap.getElem?_insert_self]
    rfl
  · rw [Features.count, SortedMap.getElem?_upsert_of_ne _ _ hk, defaultFeatures, Std.ExtTreeMap.getElem?_insert,
      if_neg fun he => hk (Std.LawfulEqCmp.eq_of_compare he).symm]

theorem default_runs {r : Run K} {feature : Nat} {i : Instruction} {rest : List Instruction}
    (hfeature : m.symbols.find? Rule.defaultFeature = some feature) (hcode : m.query.codeFrom r.state.pc =
      .clearFeatures :: .startFeature "id" 1 :: .featureConst feature :: .reportFeatures :: i :: rest) :
    ∃ r₁ pc, m.Continues r r₁ ∧ r₁.state = { r.state with pc := pc } ∧ r₁.reported = some defaultFeatures ∧
      m.query.codeFrom r₁.state.pc = i :: rest := by
  have hgather : GatherCode m.symbols [] 0 [⟨"id", [.const Rule.defaultFeature]⟩] [.startFeature "id" 1,
      .featureConst feature] :=
    .cons (g := ⟨"id", [.const Rule.defaultFeature]⟩) (.cons (.const hfeature) .nil) .nil
  have hwrites : Writes m r.state [] 0 id := fun _ hlt => absurd hlt (Nat.not_lt_zero _)
  obtain ⟨r₁, pc, hgoes, hstate, hcode₁, hreported⟩ :=
    features_reported hwrites hgather (List.cons_ne_nil _ _) hcode
  exact ⟨r₁, pc, hgoes, hstate, hreported.trans (congrArg some count_default), hcode₁⟩

/-- **A run through a ground clause** comes to where a call has returned whose arguments have been unified with the
constants, with the default feature reported, or fails since they do not unify. -/
theorem ground_runs {s : State} {label : Label} {address : Nat} {args : List Nat} (hw : Waiting m.query label s)
    (hlength : args.length = label.arity) (hcode : GroundCode m.symbols args (m.query.codeFrom address))
    {f : Frame}
    {frames : List Frame} (hstack : s.stack = f :: frames) :
    match matchAll s.heap ((List.range' (s.heap.size - label.arity) label.arity).zip args) with
    | some h => ∃ r : Run K, m.Continues (.resume { s with pc := address }) r ∧
        r.state = returned { s with heap := h } f frames ∧ r.reported = some defaultFeatures
    | none => m.Dooms (.resume { s with pc := address }) := by
  obtain ⟨text, feature, rest, hfeature, hcode⟩ := hcode
  have hfound : m.symbols.find? Rule.defaultFeature = some feature :=
    Interned.find?_eq_some_iff.2 ⟨_, hfeature, rfl⟩
  have hsize := hw.arity_le
  rw [← hlength] at hsize ⊢
  -- the clause is entered with no register and its head is matched
  obtain ⟨hgoes₁, hcode₁⟩ := continues_step (r := .resume { s with pc := address }) hcode (List.cons_ne_nil _ _)
    (execute_comment m _ text) rfl
  obtain ⟨r₂, hgoes₂, ⟨pc₂, hstate₂⟩, hcode₂⟩ : ∃ r₂ : Run K, m.Continues (.resume { s with pc := address }) r₂ ∧
      (∃ pc, r₂.state = { s with registers := [], pc := pc }) ∧
      m.query.codeFrom r₂.state.pc = matchCode (-(args.length : Int)) args ++ _ := by
    obtain ⟨hgoes₂, hcode₂⟩ := continues_step hcode₁ (List.append_ne_nil_of_right_ne_nil _ (List.cons_ne_nil _ _))
      (execute_allocate m _ 0 []) rfl
    exact ⟨_, hgoes₁.trans hgoes₂, ⟨_, rfl⟩, hcode₂⟩
  have hruns := matchCode_runs (r := r₂) (Int.add_left_neg _) (by rw [hstate₂]; exact hsize) hcode₂
  rw [hstate₂] at hruns
  cases hmatch : matchAll s.heap ((List.range' (s.heap.size - args.length) args.length).zip args) with
  | none =>
    rw [hmatch] at hruns
    exact hgoes₂.dooms hruns
  | some h =>
    rw [hmatch] at hruns
    obtain ⟨r₃, pc₃, hgoes₃, hstate₃, hcode₃⟩ := hruns
    -- the default feature is reported and the call returns
    obtain ⟨r₄, pc₄, hgoes₄, hstate₄, hreported, hcode₄⟩ := default_runs hfound hcode₃
    have hstack₄ : (counted r₄).state.stack = f :: frames := by
      show r₄.state.stack = f :: frames
      rw [hstate₄, hstate₃]
      exact hstack
    have hgoes₅ := continues_next hcode₄ ((execute_proceed m _).trans (returnToCaller_cons _ hstack₄))
    refine ⟨_, ((hgoes₂.trans hgoes₃).trans hgoes₄).trans hgoes₅, ?_, hreported⟩
    show { r₄.state with pc := f.returnTo, registers := f.registers, jumpTo := f.caller, stack := frames } = _
    rw [hstate₄, hstate₃]
    rfl

end Run

end ProofWalk
