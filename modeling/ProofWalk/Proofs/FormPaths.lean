import ProofWalk.Proofs.Explorations
/-!
# Proofs.FormPaths — paths from form to form

Where the outlinks of a reachable state lead depends on its form alone (`FormStep.outlink`).  So the states that are
some number of outlinks away from the start are told by paths of forms (`formPath_iff`), which a graph can follow
though it has only one state of each form.  A path of forms goes on from whichever state of a form is at hand; that
these states are all reachable is part of a step, so that paths can be put together at forms.
-/
namespace ProofWalk

variable {K : Type} [Scalar K]

namespace Machine

/-- **The forms of the completed states that are at most so many outlinks away from the start.** -/
def AnswersWithin (m : Machine K) (depth : Nat) (form : Form) : Prop :=
  ∃ n ≤ depth, ∃ s, m.ReachableIn n s ∧ s.completed = true ∧ (Frozen.of s).form = form

def FormStep (m : Machine K) (a b : Form) : Prop :=
  ∃ f : Frozen, m.Reachable f.state ∧ f.form = a ∧ ∃ o ∈ m.waysOn f, o.target.form = b

inductive FormPath (m : Machine K) : Nat → Form → Form → Prop
  | refl (a : Form) : FormPath m 0 a a
  | step {n : Nat} {a b c : Form} (h : m.FormStep a b) (hrest : FormPath m n b c) : FormPath m (n + 1) a c

variable {m : Machine K} {n : Nat} {a b c : Form}

theorem FormPath.snoc (h : m.FormPath n a b) (hlast : m.FormStep b c) : m.FormPath (n + 1) a c := by
  induction h with
  | refl a => exact .step hlast (.refl _)
  | step h _ ih => exact .step h (ih hlast)

theorem FormPath.last (h : m.FormPath (n + 1) a c) : ∃ b, m.FormPath n a b ∧ m.FormStep b c := by
  induction n generalizing a with
  | zero =>
    obtain _ | ⟨hstep, hrest⟩ := h
    cases hrest
    exact ⟨a, .refl a, hstep⟩
  | succ n ih =>
    obtain _ | ⟨hstep, hrest⟩ := h
    obtain ⟨b, hpath, hlast⟩ := ih hrest
    exact ⟨b, .step hstep hpath, hlast⟩

theorem FormStep.outlink (hq : m.query.Fitting) {f : Frozen} (hf : m.Reachable f.state) (h : m.FormStep f.form b) :
    ∃ o ∈ m.waysOn f, o.target.form = b := by
  obtain ⟨f', hf', hform, o, ho, rfl⟩ := h
  have hmem : (o.features, o.target.form) ∈ byForm (m.waysOn f) := by
    rw [← waysOn_alike hq hf' hf hform]
    exact List.mem_map_of_mem ho
  obtain ⟨o', ho', hsame⟩ := List.mem_map.1 hmem
  exact ⟨o', ho', (Prod.mk.inj hsame).2⟩

theorem form_of (f : Frozen) : (Frozen.of f.state).form = f.form := Frozen.form_eq_form_iff.2 rfl

/-- **Paths of forms from the start tell which states are reachable**, and in how many steps. -/
theorem formPath_iff (hq : m.query.Fitting) {start : Frozen} (hstart : m.startState = .ok start) :
    m.FormPath n start.form a ↔ ∃ s, m.ReachableIn n s ∧ (Frozen.of s).form = a := by
  constructor
  · intro h
    induction n generalizing a with
    | zero =>
      cases h
      exact ⟨start.state, .start hstart, form_of start⟩
    | succ n ih =>
      obtain ⟨b, hpath, hlast⟩ := h.last
      obtain ⟨s, hs, rfl⟩ := ih hpath
      obtain ⟨o, ho, rfl⟩ := hlast.outlink hq (f := .of s) hs.reachable
      obtain ⟨outlinks, hexpand, ho⟩ := mem_waysOn.1 ho
      exact ⟨o.target.state, .outlink hs hexpand ho, form_of o.target⟩
  · rintro ⟨s, hs, rfl⟩
    induction hs with
    | @start f hf =>
      rw [hstart] at hf
      cases hf
      rw [form_of]
      exact .refl _
    | @outlink n s r outlinks o hs h ho ih =>
      rw [m.outlinks_eq_expand s r] at h
      rw [form_of]
      exact ih.snoc ⟨.of s, hs.reachable, rfl, o, mem_waysOn.2 ⟨outlinks, h, ho⟩, rfl⟩

theorem completed_of_form {f f' : Frozen} (h : f.form = f'.form) : f.state.completed = f'.state.completed :=
  (flags_of_canonical (Frozen.form_eq_form_iff.1 h)).1

theorem waysOn_of_completed {f : Frozen} (h : f.state.completed = true) : m.waysOn f = [] := by
  unfold waysOn
  rw [m.expand_of_stopped (.inl h)]

end Machine

end ProofWalk
