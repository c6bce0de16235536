import ProofWalk.Proofs.Derivation
/-!
# Proofs.HeadMatching — matching a head is solving equations

The instructions of a head solve the equations between the arguments of the call and those of the head, one after
another.  The substitution that solves them can be read off the heap and the registers (`Matched`), or there is
none.

Nothing is known in advance of how the run will end: a failing instruction fails the whole way, and any other leads
on to the rest.  So a head is described by where a run from its beginning `Continues`, and the outcome of the run is
left to what stands behind the head.
-/
namespace ProofWalk

open Machine

/-! ## Runs that go on

A run that goes on from one point to another comes to whatever a run from there comes to. -/

namespace Machine

variable {K : Type} [Scalar K]

/-- **Whatever a run from one point comes to, one from another point comes to.** -/
def Continues (m : Machine K) (r r₁ : Run K) : Prop :=
  ∀ fuel r', m.runFor fuel r = (.ok (), r') → ∃ fuel', m.runFor fuel' r₁ = (.ok (), r')

def Dooms (m : Machine K) (r : Run K) : Prop := ∀ fuel r', m.runFor fuel r = (.ok (), r') → r'.state.failed = true

variable {m : Machine K} {r r₁ r₂ : Run K}

theorem Continues.refl (r : Run K) : m.Continues r r := fun fuel _ h => ⟨fuel, h⟩

theorem Continues.trans (h : m.Continues r r₁) (h' : m.Continues r₁ r₂) :
    m.Continues r r₂ := fun fuel r' hrun => by
  obtain ⟨fuel', hrun'⟩ := h fuel r' hrun
  exact h' fuel' r' hrun'

theorem Continues.dooms (h : m.Continues r r₁) (h' : m.Dooms r₁) : m.Dooms r := fun fuel r' hrun => by
  obtain ⟨fuel', hrun'⟩ := h fuel r' hrun
  exact h' fuel' r' hrun'

theorem continues_next {i : Instruction} {code : List Instruction}
    (hcode : m.query.codeFrom r.state.pc = i :: code) (h : m.execute i (counted r) = (.ok .next, r₁)) :
    m.Continues r r₁
  | 0, _, hrun => nomatch hrun
  | fuel + 1, r', hrun => by
    rw [runFor_succ m r fuel (QueryProgram.fetch_of_codeFrom hcode), h] at hrun
    exact ⟨fuel, hrun⟩

theorem continues_step {r r₁ : Run K} {i : Instruction} {code : List Instruction}
    (hcode : m.query.codeFrom r.state.pc = i :: code) (hne : code ≠ [])
    (hexec : m.execute i (counted r) = (.ok .next, r₁))
    (hpc : r₁.state.pc = m.query.next r.state.pc) : m.Continues r r₁ ∧ m.query.codeFrom r₁.state.pc = code :=
  ⟨continues_next hcode hexec, hpc ▸ (QueryProgram.codeFrom_next hcode hne).1⟩

theorem dooms_halt {i : Instruction} {code : List Instruction} (hcode : m.query.codeFrom r.state.pc = i :: code)
    (h : m.execute i (counted r) = (.ok .halt, r₁)) (hfailed : r₁.state.failed = true) : m.Dooms r
  | 0, _, hrun => nomatch hrun
  | fuel + 1, r', hrun => by
    rw [runFor_succ m r fuel (QueryProgram.fetch_of_codeFrom hcode), h] at hrun
    cases hrun
    exact hfailed

end Machine

/-! ## Equations solved so far

`Matched` holds of a heap that has grown, and been bound, from the one in which the call was made.  A unification
extends the substitution by the solution of one more equation, and a register that is met for the first time takes
the term of its argument, which is the solution of an equation with a new variable. -/

def headTerm (h : Heap) (registers : Registers) (i : Nat) : Term (Unknown ⊕ Nat) :=
  match registers[i]? with
  | some (some cell) => (h.term cell).map .inl
  | _ => .var (.inr i)

/-- **The equations solved so far**, and the substitution that heap and registers hold, as seen from an earlier
heap. -/
structure Matched (before : Heap) (equations : List (Term (Unknown ⊕ Nat) × Term (Unknown ⊕ Nat)))
    (σ : Unknown ⊕ Nat → Term (Unknown ⊕ Nat)) (h : Heap) (registers : Registers) : Prop where
  solves : Solves equations σ
  size : h.size = before.size
  cells : ∀ i < before.size, ((before.term i).map .inl).subst σ = (h.term i).map .inl
  unmet : ∀ depth i, σ (.inl (.unmet depth i)) = .var (.inl (.unmet depth i))
  registers : ∀ i, σ (.inr i) = headTerm h registers i

namespace Matched

variable {before h : Heap} {equations : List (Term (Unknown ⊕ Nat) × Term (Unknown ⊕ Nat))}
  {σ : Unknown ⊕ Nat → Term (Unknown ⊕ Nat)} {registers : Registers}

theorem start (h : Heap) (size : Nat) : Matched h [] .var h (List.replicate size none) where
  solves := .nil
  size := rfl
  cells _ _ := Term.subst_id _
  unmet _ _ := rfl
  registers i := by
    unfold headTerm
    split
    · rename_i cell hget
      have := List.eq_of_mem_replicate (List.mem_of_getElem? hget)
      cases this
    · rfl

theorem changed (hm : Matched before equations σ h registers) (hlt : ∀ cell, some cell ∈ registers → cell < h.size)
    {change : Heap.Change} {s t : Term Unknown} {θ : Unknown → Term Unknown} (hchange : change.Solves h (s, t) θ)
    {e : Term (Unknown ⊕ Nat) × Term (Unknown ⊕ Nat)} (hs : e.1.subst σ = s.map .inl)
    (ht : e.2.subst σ = t.map .inl) :
    Matched before (equations ++ [e]) (fun v => (σ v).subst (besides θ)) (h.apply change) registers where
  solves := hm.solves.snoc (by rw [hs, ht]; exact hchange.solves.apart)
  size := (Heap.size_apply h change).trans hm.size
  cells i hi := by
    rw [← Term.subst_subst, hm.cells i hi, subst_besides, hchange.cells i (hm.size ▸ hi)]
  unmet depth i := by
    have hθ : (besides θ (.inl (.unmet depth i)) : Term (Unknown ⊕ Nat)) = (θ (.unmet depth i)).map .inl := rfl
    rw [hm.unmet, Term.subst_var, hθ, hchange.unmet]
    rfl
  registers i := by
    rw [hm.registers]
    unfold headTerm
    split
    · rename_i cell hget
      rw [subst_besides, hchange.cells cell (hlt cell (List.mem_of_getElem? hget))]
    · rfl

theorem initialized (hm : Matched before equations σ h registers) {met : Nat} (hmet : registers[met]? = some none)
    {cell : Nat} {e : Term (Unknown ⊕ Nat) × Term (Unknown ⊕ Nat)} (hs : e.1.subst σ = (h.term cell).map .inl)
    (ht : e.2 = .var (.inr met)) :
    Matched before (equations ++ [e]) (fun v => (σ v).subst (put (.inr met) ((h.term cell).map .inl))) h
      (registers.set met (some cell)) := by
  have hfix : ∀ t : Term Unknown,
      (t.map .inl).subst (put (.inr met) ((h.term cell).map .inl)) =
        (t.map .inl : Term (Unknown ⊕ Nat)) := fun t => by
    rw [Term.subst_map]
    exact congrArg t.subst (funext fun v => put_of_ne Sum.inl_ne_inr _)
  have hnew : σ (.inr met) = .var (.inr met) := by rw [hm.registers, headTerm, hmet]
  have hlt : met < registers.length := (List.getElem?_eq_some_iff.1 hmet).1
  refine ⟨hm.solves.snoc ?_, hm.size, fun i hi => ?_, fun depth i => ?_, fun i => ?_⟩
  · rw [hs, ht, Term.subst_var, hnew]
    exact (Solves.put _ _).symm
  · rw [← Term.subst_subst, hm.cells i hi, hfix]
  · rw [hm.unmet]
    exact put_of_ne Sum.inl_ne_inr _
  · by_cases hi : i = met
    · subst hi
      rw [hnew, headTerm, List.getElem?_set_self hlt]
      exact put_self _ _
    · rw [hm.registers, headTerm, headTerm, List.getElem?_set_ne (Ne.symm hi)]
      have hother := put_of_ne (fun he => hi (Sum.inr.inj he)) ((h.term cell).map (.inl : Unknown → Unknown ⊕ Nat))
      rcases registers[i]? with _ | (_ | other)
      · exact hother
      · exact hother
      · exact hfix _

end Matched

/-! ## Heads

The equations are those between the cells on top and the terms of the head, and they are solved from left to right. -/

def topEquations (h : Heap) (terms : List (Term Nat)) : List (Term (Unknown ⊕ Nat) × Term (Unknown ⊕ Nat)) :=
  ((h.top terms.length).map (Term.map .inl)).zip (terms.map (Term.map .inr))

theorem topEquations_cons {h : Heap} {t : Term Nat} {terms : List (Term Nat)} (hle : terms.length + 1 ≤ h.size) :
    topEquations h (t :: terms) =
      ((h.term (h.size - (terms.length + 1))).map .inl, t.map .inr) :: topEquations h terms := by
  have hnext : h.size - (terms.length + 1) + 1 = h.size - terms.length := by omega
  rw [topEquations, List.length_cons, Heap.top, List.range'_succ, hnext]
  rfl

variable {K : Type} [Scalar K] {m : Machine K}

/-- **What becomes of a run through a head**: it fails in the end since the equations have no solution, or it goes
on behind the head with their solution. -/
inductive HeadOutcome (m : Machine K) (before : Heap)
    (equations : List (Term (Unknown ⊕ Nat) × Term (Unknown ⊕ Nat))) (size met hand : Nat)
    (rest : List Instruction) (r : Run K) : Prop
  | clash (hdooms : m.Dooms r) (hclash : Clashes equations)
  | matched {r₁ : Run K} {σ : Unknown ⊕ Nat → Term (Unknown ⊕ Nat)} (hgoes : m.Continues r r₁)
      (hs : Standing m.query size met hand .head r₁.state) (hcode : m.query.codeFrom r₁.state.pc = rest)
      (hmatched : Matched before equations σ r₁.state.heap r₁.state.registers)
        (hstack : r₁.state.stack = r.state.stack)

theorem HeadOutcome.of_continues {before : Heap} {equations : List (Term (Unknown ⊕ Nat) × Term (Unknown ⊕ Nat))}
    {size met hand : Nat} {rest : List Instruction} {r r₁ : Run K}
    (h : HeadOutcome m before equations size met hand rest r₁)
    (hgoes : m.Continues r r₁) (hstack : r₁.state.stack = r.state.stack) :
    HeadOutcome m before equations size met hand rest r := by
  cases h with
  | clash hdooms hclash => exact .clash (hgoes.dooms hdooms) hclash
  | matched hgoes' hs hcode hmatched hstack' =>
    exact .matched (hgoes.trans hgoes') hs hcode hmatched (hstack'.trans hstack)

theorem head_change {before : Heap} {size met met' hand : Nat} {r : Run K} {i : Instruction}
    {code rest : List Instruction} {equations todo : List (Term (Unknown ⊕ Nat) × Term (Unknown ⊕ Nat))}
    {σ : Unknown ⊕ Nat → Term (Unknown ⊕ Nat)}
    (hs : Standing m.query size met hand .head r.state) (hcode : m.query.codeFrom r.state.pc = i :: code)
    (hfits : Fits size .head met hand code) (hm : Matched before equations σ r.state.heap r.state.registers)
    {asked : Option Heap.Change} {t t' : Term Unknown} {e : Term (Unknown ⊕ Nat) × Term (Unknown ⊕ Nat)}
    (hexec : m.execute i (counted r) = match asked with
      | some change =>
        (.ok .next, m.advanced ((counted r).withState { r.state with heap := r.state.heap.apply change }))
      | none => (.ok .halt, failing (counted r)))
    (hdecides : r.state.heap.Decides (t, t') asked)
    (hleft : e.1.subst σ = t.map .inl) (hright : e.2.subst σ = t'.map .inl)
    (hnext : ∀ {r₁ : Run K} {σ' : Unknown ⊕ Nat → Term (Unknown ⊕ Nat)},
      Standing m.query size met hand .head r₁.state →
      m.query.codeFrom r₁.state.pc = code → Matched before (equations ++ [e]) σ' r₁.state.heap r₁.state.registers →
      HeadOutcome m before (equations ++ [e] ++ todo) size met' hand rest r₁) :
    HeadOutcome m before (equations ++ e :: todo) size met' hand rest r := by
  cases hdecides with
  | clash hclash =>
    refine .clash (dooms_halt hcode hexec rfl) (hm.solves.clash ?_ _)
    rw [hleft, hright]
    exact hclash.apart
  | solved hchange =>
    have hs' := hs.changed hcode hfits rfl hchange.fits (Nat.le_refl _) fun _ => rfl
    have hm' := hm.changed (fun _ hmem => (hs.registers rfl).lt_bound hmem) hchange hleft hright
    rw [List.append_cons]
    exact (hnext hs' (QueryProgram.codeFrom_next hcode hfits.ne_nil).1 hm').of_continues
      (continues_next hcode hexec) rfl

omit [Scalar K] in
theorem Matched.argument {before : Heap} {offset : Int} {n : Nat} {r : Run K}
    {equations : List (Term (Unknown ⊕ Nat) × Term (Unknown ⊕ Nat))} {σ : Unknown ⊕ Nat → Term (Unknown ⊕ Nat)}
    (hm : Matched before equations σ r.state.heap r.state.registers) (hend : offset + (n + 1 : Nat) = 0)
    (hcell : 0 ≤ (r.state.heap.size : Int) + offset) : n + 1 ≤ before.size ∧
      ((before.term (before.size - (n + 1))).map .inl).subst σ =
        (r.state.heap.term (cellAt r.state.heap.size offset)).map .inl := by
  have hindex : cellAt r.state.heap.size offset = before.size - (n + 1) := by
    rw [cellAt, hm.size]
    omega
  have hle : n + 1 ≤ before.size := by rw [← hm.size]; omega
  exact ⟨hle, by rw [hindex]; exact hm.cells _ (by omega)⟩

/-- **Matching a head solves the equations between the cells on top and its terms.** -/
theorem head_runs {before : Heap} {size met met' hand : Nat} {offset : Int} {terms : List (Term Nat)}
    {code rest : List Instruction} (hhead : HeadCode met offset terms met' code)
    (hend : offset + terms.length = 0) {r : Run K}
    {equations : List (Term (Unknown ⊕ Nat) × Term (Unknown ⊕ Nat))} {σ : Unknown ⊕ Nat → Term (Unknown ⊕ Nat)}
    (hs : Standing m.query size met hand .head r.state) (hcode : m.query.codeFrom r.state.pc = code ++ rest)
    (hm : Matched before equations σ r.state.heap r.state.registers) :
    HeadOutcome m before (equations ++ topEquations before terms) size met' hand rest r := by
  induction hhead generalizing r equations σ with
  | nil =>
    exact .matched (.refl r) hs hcode (by rwa [show topEquations before [] = [] from rfl, List.append_nil]) rfl
  | @const met met' c offset terms code _ ih =>
    have hfits := hs.code
    rw [hcode] at hfits
    cases hfits with | unifyConst hlow hhigh hfits
    have hcell := hs.cellAt_nonneg hlow
    obtain ⟨hle, hleft⟩ := hm.argument hend hcell
    have hexec := execute_unifyConst m (counted r) c hcell hhigh
    have hdecides := Heap.matchConst_decides hs.heap (cellAt_lt hhigh hcell) c
    rw [topEquations_cons hle]
    rw [List.length_cons] at hend
    exact head_change hs hcode hfits hm hexec hdecides hleft rfl fun hs' hcode' hm' => ih (by omega) hs' hcode' hm'
  | @old met met' register offset terms code hlt _ ih =>
    have hfits := hs.code
    rw [hcode] at hfits
    cases hfits with | unifyBoundVar hlow hhigh hregister hfits
    obtain ⟨cell, hbelow, hget⟩ := (hs.registers rfl).isSet _ hregister
    have hcell := hs.cellAt_nonneg hlow
    obtain ⟨hle, hleft⟩ := hm.argument hend hcell
    have hright : σ (.inr register) = (r.state.heap.term cell).map .inl := by rw [hm.registers, headTerm, hget]
    have hexec := execute_unifyBoundVar m (counted r) hget hcell hhigh
    have hdecides := (Heap.unifier_decides hs.heap hbelow (cellAt_lt hhigh hcell)).symm
    rw [topEquations_cons hle]
    rw [List.length_cons] at hend
    exact head_change hs hcode hfits hm hexec hdecides hleft hright fun hs' hcode' hm' =>
      ih (by omega) hs' hcode' hm'
  | @new met met' offset terms code _ ih =>
    have hfits := hs.code
    rw [hcode] at hfits
    cases hfits with | initFreeVar hlow hhigh hmet hfits
    have hcell := hs.cellAt_nonneg hlow
    obtain ⟨hle, hleft⟩ := hm.argument hend hcell
    have hexec := execute_initFreeVar m (counted r) hcell hhigh ((hs.registers rfl).length.symm ▸ hmet)
    have hunset := (hs.registers rfl).isUnset met (Nat.le_refl _) hmet
    have hs' := hs.initialized hcode hfits hmet (cellAt_lt hhigh hcell)
    have hm' := hm.initialized hunset (e := (_, (Term.var met).map .inr)) hleft rfl
    rw [topEquations_cons hle, List.append_cons]
    rw [List.length_cons] at hend
    exact (ih (by omega) hs' (QueryProgram.codeFrom_next hcode hfits.ne_nil).1 hm').of_continues
      (continues_next hcode hexec) rfl

end ProofWalk
