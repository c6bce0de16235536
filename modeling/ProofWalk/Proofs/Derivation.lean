import ProofWalk.Proofs.ClauseCode
import ProofWalk.Proofs.StateReading
/-!
# Proofs.Derivation — running code is resolving goals

A run through the body of a clause takes the builtins at the front of the goal list one by one (`runFor_derives`).
The goal list of a state is what is left to be proved there: the goals that the code from its address on calls, then
those of its callers, with variables for cells of the heap.  A run to the next branching point therefore derives one
goal list from another by builtins alone, or comes to a goal list whose first builtin fails.
-/
namespace ProofWalk

open Machine

/-! ## Builtins

A builtin that changes the heap makes the same change to every goal list that is read off the heap. -/

theorem Builtin.run_reads (b : Builtin) {h : Heap} (hs : h.Sound) {first second : Nat} (hfirst : first < h.size)
    (hsecond : second < h.size) :
    match b.run h first second with
    | .ok (some change) => ∃ e θ, change.Solves h e θ ∧ ∀ rest answers,
        Reading.Runs ⟨⟨b.label, [h.term first, h.term second]⟩ :: rest, answers⟩ (Reading.subst θ ⟨rest, answers⟩)
    | .ok none => ∀ rest answers, Reading.Fails ⟨⟨b.label, [h.term first, h.term second]⟩ :: rest, answers⟩
    | .error _ => True := by
  have hkeep : ∀ R R' : Reading Unknown, R.Runs R' → R.Runs (R'.subst .var) :=
    fun R R' hruns => by rwa [Reading.subst_id]
  have hbound : ∀ {cell position c : Nat}, h.resolve cell = .const c → b.bound h cell position = .ok c :=
      fun hc => by
    rw [Builtin.bound, hc]
  have hfree : ∀ {cell root : Nat} (position : Nat), h.resolve cell = .free root →
      ∃ e, b.bound h cell position = .error e :=
    fun position hr => by
      rw [Builtin.bound, hr]
      exact ⟨_, rfl⟩
  rcases Heap.term_cases hs hsecond with ⟨y, hy, hterm'⟩ | ⟨root', -, hr', hterm', -⟩
  · rcases Heap.term_cases hs hfirst with ⟨x, hx, hterm⟩ | ⟨root, -, hr, hterm, hcell⟩
    · rw [hterm, hterm']
      by_cases he : x = y
      · subst he
        cases b <;> simp only [Builtin.run, hbound hx, hbound hy, hx, bind, Except.bind, pure, Except.pure, if_pos]
        · exact ⟨_, _, .keep (.const x), fun _ _ => hkeep _ _ .eq⟩
        · exact fun _ _ => .neq
        · exact ⟨_, _, .keep (.const x), fun _ _ => hkeep _ _ .same⟩
      · cases b <;> simp only [Builtin.run, hbound hx, hbound hy, hx, bind, Except.bind,
          pure, Except.pure, if_neg he]
        · exact fun _ _ => .eq he
        · exact ⟨_, _, .keep (.const x), fun _ _ => hkeep _ _ (.neq he)⟩
        · exact fun _ _ => .assign he
    · obtain ⟨e, he⟩ := hfree 1 hr
      rw [hterm, hterm']
      cases b
      · simp only [Builtin.run, he, bind, Except.bind]
      · simp only [Builtin.run, he, bind, Except.bind]
      · simp only [Builtin.run, hbound hy, hr, bind, Except.bind, pure, Except.pure]
        exact ⟨_, _, .bind hs (.bindConst hcell) (fun he => by cases he), fun _ _ => .assign⟩
  · obtain ⟨e, he⟩ := hfree 2 hr'
    cases b
    · cases hx : Builtin.eq.bound h first 1 <;> simp only [Builtin.run, hx, he, bind, Except.bind]
    · cases hx : Builtin.neq.bound h first 1 <;> simp only [Builtin.run, hx, he, bind, Except.bind]
    · simp only [Builtin.run, he, bind, Except.bind]

/-! ## Bodies

`Derives` is what becomes of a goal list in a run, and `BodyStep` what one instruction does: an instruction that
pushes an argument or returns keeps the list, a call of a builtin takes it from the front, any other call stops. -/

/-- **What becomes of a goal list in a run** to the next branching point. -/
inductive Derives (q : QueryProgram) (R : Reading Unknown) (s : State) : Prop
  | refuted (hfailed : s.failed = true) (h : R.Refuted)
  | leads {R' : Reading Unknown} (hrunning : s.failed = false) (h : R.Leads R')
      (hvariant : R'.Variant (s.reading q))

namespace Derives

variable {q : QueryProgram} {R R' : Reading Unknown} {s : State}

theorem of_runs (hruns : R.Runs R') (h : Derives q R' s) : Derives q R s := by
  cases h with
  | refuted hfailed h =>
    obtain ⟨R'', hmany, hfails⟩ := h
    exact .refuted hfailed ⟨R'', .head hruns hmany, hfails⟩
  | leads hrunning h hvariant => exact .leads hrunning ⟨.head hruns h.1, h.2⟩ hvariant

theorem of_swap {u v : Unknown} (h : Derives q (R.map (Equiv.swap u v)) s) : Derives q R s := by
  have hinj : Function.Injective (Equiv.swap u v) := (Equiv.swap u v).injective
  have hback : (R.map (Equiv.swap u v)).map (Equiv.swap u v) = R := by
    rw [Reading.map_map]
    simp only [Equiv.swap_apply_self]
    exact R.subst_id
  cases h with
  | refuted hfailed h => exact .refuted hfailed (hback ▸ h.map hinj)
  | @leads R'' hrunning h hvariant =>
    refine .leads hrunning (hback ▸ h.map hinj) ?_
    obtain ⟨f, hf, hmap⟩ := hvariant
    refine ⟨fun w => f (Equiv.swap u v w), hf.comp hinj, ?_⟩
    rw [Reading.map_map]
    simp only [Equiv.swap_apply_self]
    exact hmap

end Derives

variable {K : Type} [Scalar K] (m : Machine K)

/-- **What one instruction of a body does to the goal list.** -/
def BodyStep (q : QueryProgram) (R : Reading Unknown) : Except LogicError Control × Run K → Prop
  | (.error _, _) => True
  | (.ok .next, r) => ∃ size met hand, Standing q size met hand .body r.state ∧
      ∀ s, Derives q (r.state.running q hand) s → Derives q R s
  | (.ok _, r) => Derives q R r.state

theorem call_derives {size met : Nat} {label : Label} {code : List Instruction} {r : Run K}
    (hs : Standing m.query size met label.arity .body r.state)
    (hcode : m.query.codeFrom r.state.pc = .call label :: code)
    (hfits : Fits size .body met 0 code) :
    BodyStep m.query (r.state.running m.query label.arity) (m.execute (.call label) r) := by
  cases hb : Builtin.ofLabel? label with
  | some b =>
    obtain rfl := label_of_builtin hb
    have harity : b.label.arity = 2 := arity_of_builtin hb
    rw [harity] at hs ⊢
    have hsize := hs.hand_le
    rw [execute_builtin m r hb hsize]
    have hfirst : r.state.heap.size - 2 < r.state.heap.size := by omega
    have hsecond : r.state.heap.size - 1 < r.state.heap.size := by omega
    have hreads := b.run_reads hs.heap hfirst hsecond
    rcases hrun : b.run r.state.heap (r.state.heap.size - 2) (r.state.heap.size - 1) with e | (_ | change)
    · trivial
    · rw [hrun] at hreads
      obtain ⟨rest, hrunning, -⟩ := hs.running_changed hcode hfits.ne_nil (.keep (.const 0))
      refine .refuted rfl ⟨_, .refl, ?_⟩
      rw [hrunning]
      exact hreads _ _
    · rw [hrun] at hreads
      obtain ⟨e, θ, hchange, hruns⟩ := hreads
      obtain ⟨rest, hrunning, hnext⟩ := hs.running_changed hcode hfits.ne_nil hchange
      refine ⟨_, _, _, hs.changed hcode hfits rfl hchange.fits (Nat.zero_le _) (fun hne => absurd rfl hne),
        fun s h => ?_⟩
      rw [hrunning]
      refine .of_runs (hruns rest _) ?_
      rw [← hnext]
      exact h
  | none =>
    rw [execute_call m r hb hs.hand_le]
    split
    · trivial
    · have hreading := hs.reading_called hcode hfits.ne_nil
      refine .leads hs.running.2 ⟨.refl, ?_⟩ ?_
      · rw [← hreading]
        intro goal hgoal
        cases hgoal
        exact hb
      · rw [← hreading]
        exact ⟨id, Function.injective_id, Reading.subst_id _⟩

omit [Scalar K] in
theorem return_derives {q : QueryProgram} {size : Nat} {code : List Instruction} {r : Run K}
    (hs : Standing q size size 0 .body r.state) (hcode : q.codeFrom r.state.pc = .proceed :: code) :
    BodyStep q (r.state.running q 0) ((returnToCaller : RunM K Control) r) := by
  cases hstack : r.state.stack with
  | nil =>
    have hreading := Standing.reading_finished hcode hstack
    rw [returnToCaller_nil r hstack]
    refine .leads hs.running.2 ⟨.refl, ?_⟩ ?_
    · rw [← hreading]
      intro goal hgoal
      simp [State.reading, State.pendingGoals, hstack, callerGoals] at hgoal
    · rw [← hreading]
      exact ⟨id, Function.injective_id, Reading.subst_id _⟩
  | cons f rest =>
    rw [returnToCaller_cons r hstack]
    obtain ⟨size', met, hs'⟩ := hs.returned hstack
    refine ⟨size', met, 0, hs', fun s h => ?_⟩
    rw [← Standing.running_returned hcode hstack]
    exact h

theorem execute_derives {size met hand : Nat} {r : Run K} (hs : Standing m.query size met hand .body r.state)
    {i : Instruction} {code : List Instruction} (hcode : m.query.codeFrom r.state.pc = i :: code) :
    BodyStep m.query (r.state.running m.query hand) (m.execute i r) := by
  have hfits := hs.code
  rw [hcode] at hfits
  cases hfits with
  | pushConst h =>
    rw [execute_pushConst]
    refine ⟨_, _, _, hs.pushedConst hcode h _, fun s hderives => ?_⟩
    rw [← hs.running_push hcode h.ne_nil (Heap.term_pushConst hs.heap _) fun _ => rfl]
    exact hderives
  | pushFreeVar hmet h =>
    rw [execute_pushFreeVar m r ((hs.registers rfl).length.symm ▸ hmet)]
    refine ⟨_, _, _, hs.pushedFree hcode h hmet, fun s hderives => ?_⟩
    have hrunning := hs.running_pushFree hcode h.ne_nil hmet
    exact .of_swap (hrunning ▸ hderives)
  | pushBoundVar hregister h =>
    obtain ⟨cell, hlt, hget⟩ := (hs.registers rfl).isSet _ hregister
    rw [execute_pushBoundVar m r hget]
    refine ⟨_, _, _, hs.pushedBound hcode h hlt, fun s hderives => ?_⟩
    rw [← hs.running_push hcode h.ne_nil (Heap.term_pushRef hs.heap hlt)
      fun hand => by rw [goalsOf, registerTerm, hget]]
    exact hderives
  | call h => exact call_derives m hs hcode h
  | proceed =>
    rw [execute_proceed]
    exact return_derives hs hcode

/-- **A run through a body resolves the builtins at the front of its goal list.** -/
theorem runFor_derives : ∀ (fuel : Nat) {size met hand : Nat} {r r' : Run K},
    Standing m.query size met hand .body r.state →
    m.runFor fuel r = (.ok (), r') → Derives m.query (r.state.running m.query hand) r'.state
  | 0, _, _, _, _, _, _, h => nomatch h
  | fuel + 1, _, _, hand, r, r', hs, h => by
    obtain ⟨i, code, hcode⟩ := List.exists_cons_of_ne_nil hs.code.ne_nil
    rw [runFor_succ m r fuel (QueryProgram.fetch_of_codeFrom hcode)] at h
    have hstep := execute_derives m (r := counted r) hs hcode
    generalize m.execute i (counted r) = outcome at hstep h
    rcases outcome with ⟨e | c, r₁⟩
    · cases h
    · cases c with
      | next =>
        obtain ⟨size', met', hand', hs', hderives⟩ := hstep
        exact hderives _ (runFor_derives fuel hs' h)
      | branch => cases h; exact hstep
      | halt => cases h; exact hstep

end ProofWalk
