/-!
# Proofs.Computations — computations that change a state and may fail

The machine, the graphs and the provers compute in monads with a state and failures that keep the state.  The first
lemmas take a sequence of such computations apart, by what its first step came to; with them a proof need not unfold
the monad.

`Meets` is the triple for computations that keep an invariant: from any good state they end in a good state, and
their outcome is as told, which includes the failures.
-/
namespace ProofWalk

variable {ε σ α β : Type}

theorem bind_ok {x : ExceptT ε (StateM σ) α} {f : α → ExceptT ε (StateM σ) β} {s s' : σ} {a : α}
    (h : x s = (.ok a, s')) : (x >>= f) s = f a s' := by
  show (match x s with | (a, s) => (ExceptT.bindCont f a : StateM σ (Except ε β)) s) = _
  rw [h]
  rfl

theorem bind_error {x : ExceptT ε (StateM σ) α} {f : α → ExceptT ε (StateM σ) β} {s s' : σ}
    {e : ε} (h : x s = (.error e, s')) : (x >>= f) s = (.error e, s') := by
  show (match x s with | (a, s) => (ExceptT.bindCont f a : StateM σ (Except ε β)) s) = _
  rw [h]
  rfl

theorem bind_congr_run {x : ExceptT ε (StateM σ) α} {f : α → ExceptT ε (StateM σ) β} {s t : σ} (h : x s = x t) :
    (x >>= f) s = (x >>= f) t := by
  rcases ht : x t with ⟨e | a, t'⟩
  · rw [bind_error (h.trans ht), bind_error ht]
  · rw [bind_ok (h.trans ht), bind_ok ht]

theorem bind_eq_ok {x : ExceptT ε (StateM σ) α} {f : α → ExceptT ε (StateM σ) β} {s s'' : σ}
    {b : β} (h : (x >>= f) s = (.ok b, s'')) : ∃ a s', x s = (.ok a, s') ∧ f a s' = (.ok b, s'') := by
  rcases hx : x s with ⟨e | a, s'⟩
  · rw [bind_error hx] at h
    cases h
  · exact ⟨a, s', rfl, (bind_ok hx).symm.trans h⟩

theorem bind_pure_eq (x : ExceptT ε (StateM σ) α) (f : α → β) (s : σ) :
    (x >>= fun a => pure (f a)) s = ((x s).1.map f, (x s).2) := by
  rcases h : x s with ⟨e | a, s'⟩
  · rw [bind_error h]
    rfl
  · rw [bind_ok h]
    rfl

theorem except_bind_eq_ok {x : Except ε α} {f : α → Except ε β} {b : β} (h : (x >>= f) = .ok b) :
    ∃ a, x = .ok a ∧ f a = .ok b := by
  cases x with
  | error e => cases h
  | ok a => exact ⟨a, rfl, h⟩

/-- **A computation that keeps an invariant of the state**, and whose outcome is as told. -/
def Meets (good : σ → Prop) (x : ExceptT ε (StateM σ) α) (outcome : Except ε α → Prop) : Prop :=
  ∀ s, good s → outcome (x s).1 ∧ good (x s).2

variable {good : σ → Prop}

theorem meets_pure {outcome : Except ε α → Prop} {a : α} (h : outcome (.ok a)) :
    Meets good (pure a : ExceptT ε (StateM σ) α) outcome :=
  fun _ hs => ⟨h, hs⟩

theorem Meets.bind {x : ExceptT ε (StateM σ) α} {f : α → ExceptT ε (StateM σ) β} {outcome : Except ε α → Prop}
    {outcome' : Except ε β → Prop} (hx : Meets good x outcome)
    (hok : ∀ a, outcome (.ok a) → Meets good (f a) outcome')
    (herror : ∀ e, outcome (.error e) → outcome' (.error e)) : Meets good (x >>= f) outcome' := by
  intro s hs
  obtain ⟨hout, hgood⟩ := hx s hs
  rcases hrun : x s with ⟨e | a, s'⟩
  · rw [hrun] at hout hgood
    rw [bind_error hrun]
    exact ⟨herror e hout, hgood⟩
  · rw [hrun] at hout hgood
    rw [bind_ok hrun]
    exact hok a hout s' hgood

theorem Meets.bind_ok {x : ExceptT ε (StateM σ) α} {f : α → ExceptT ε (StateM σ) β} {a : α}
    {outcome : Except ε β → Prop} (hx : Meets good x (· = .ok a)) (hf : Meets good (f a) outcome) :
    Meets good (x >>= f) outcome := by
  refine hx.bind (fun b hb => ?_) fun e he => ?_
  · cases hb
    exact hf
  · cases he

theorem Meets.bind_eq {x : ExceptT ε (StateM σ) α} {f : α → ExceptT ε (StateM σ) β}
    {r : Except ε α} {r' : α → Except ε β} (hx : Meets good x (· = r)) (hf : ∀ a, Meets good (f a) (· = r' a)) :
    Meets good (x >>= f) (· = r >>= r') := by
  refine hx.bind (fun a ha => ?_) fun e he => ?_
  · rw [← ha]
    exact hf a
  · rw [← he]
    rfl

/-! ## Computations side by side

`Together` is the triple for two computations at once.  They start in states that are related, have outcomes that
correspond, and leave states that are related; like `Meets` it goes through sequences, choices and pure steps. -/

inductive Corresponds {ε' β : Type} (E : ε → ε' → Prop) (A : α → β → Prop) : Except ε α → Except ε' β → Prop
  | ok {a : α} {b : β} (h : A a b) : Corresponds E A (.ok a) (.ok b)
  | error {e : ε} {e' : ε'} (h : E e e') : Corresponds E A (.error e) (.error e')

/-- **Two computations with corresponding outcomes**, which leave states related that are. -/
def Together {τ ε' β : Type} (R : σ → τ → Prop) (E : ε → ε' → Prop) (A : α → β → Prop) (x : ExceptT ε (StateM σ) α)
    (y : ExceptT ε' (StateM τ) β) : Prop :=
  ∀ s t, R s t → Corresponds E A (x s).1 (y t).1 ∧ R (x s).2 (y t).2

section

variable {τ ε' α' β' : Type} {R : σ → τ → Prop} {E : ε → ε' → Prop} {A : α → α' → Prop} {B : β → β' → Prop}

theorem Corresponds.bind {x : Except ε α} {y : Except ε' α'} {f : α → Except ε β} {g : α' → Except ε' β'}
    (h : Corresponds E A x y) (hf : ∀ a b, A a b → Corresponds E B (f a) (g b)) :
    Corresponds E B (x >>= f) (y >>= g) := by
  cases h with
  | ok h => exact hf _ _ h
  | error h => exact .error h

theorem Corresponds.mono {E' : ε → ε' → Prop} {A' : α → α' → Prop} {x : Except ε α} {y : Except ε' α'}
    (h : Corresponds E A x y) (herror : ∀ e e', E e e' → E' e e') (hok : ∀ a b, A a b → A' a b) :
    Corresponds E' A' x y := by
  cases h with
  | ok h => exact .ok (hok _ _ h)
  | error h => exact .error (herror _ _ h)

theorem together_pure {a : α} {b : α'} (h : A a b) : Together R E A (pure a) (pure b) := fun _ _ hs => ⟨.ok h, hs⟩

theorem together_throw {e : ε} {e' : ε'} (h : E e e') : Together R E A (throw e) (throw e') :=
  fun _ _ hs => ⟨.error h, hs⟩

theorem Together.bind {x : ExceptT ε (StateM σ) α} {y : ExceptT ε' (StateM τ) α'} {f : α → ExceptT ε (StateM σ) β}
    {g : α' → ExceptT ε' (StateM τ) β'} (hx : Together R E A x y)
    (hf : ∀ a b, A a b → Together R E B (f a) (g b)) :
    Together R E B (x >>= f) (y >>= g) := by
  intro s t hs
  obtain ⟨hout, hstates⟩ := hx s t hs
  rcases hrun : x s with ⟨e | a, s'⟩
  · rcases hrun' : y t with ⟨e' | b, t'⟩
    · rw [hrun, hrun'] at hout hstates
      rw [bind_error hrun, bind_error hrun']
      cases hout with
      | error h => exact ⟨.error h, hstates⟩
    · rw [hrun, hrun'] at hout
      cases hout
  · rcases hrun' : y t with ⟨e' | b, t'⟩
    · rw [hrun, hrun'] at hout
      cases hout
    · rw [hrun, hrun'] at hout hstates
      rw [bind_ok hrun, bind_ok hrun']
      cases hout with
      | ok h => exact hf a b h s' t' hstates

theorem together_get : Together R E R (get : ExceptT ε (StateM σ) σ) (get : ExceptT ε' (StateM τ) τ) :=
  fun _ _ hs => ⟨.ok hs, hs⟩

theorem together_set {s : σ} {t : τ} (h : R s t) :
    Together R E (fun _ _ => True) (set s : ExceptT ε (StateM σ) PUnit) (set t : ExceptT ε' (StateM τ) PUnit) :=
  fun _ _ _ => ⟨.ok trivial, h⟩

theorem together_modify {f : σ → σ} {g : τ → τ} (h : ∀ s t, R s t → R (f s) (g t)) :
    Together R E (fun _ _ => True) (modify f : ExceptT ε (StateM σ) PUnit)
      (modify g : ExceptT ε' (StateM τ) PUnit) :=
  fun s t hs => ⟨.ok trivial, h s t hs⟩

theorem together_of_meets {good' : τ → Prop} {x : ExceptT ε (StateM σ) α}
    {y : ExceptT ε' (StateM τ) α'} {r : Except ε α} {r' : Except ε' α'} (hx : Meets good x (· = r))
    (hy : Meets good' y (· = r')) (h : Corresponds E A r r') :
    Together (fun s t => good s ∧ good' t) E A x y := by
  intro s t hs
  obtain ⟨hout, hgood⟩ := hx s hs.1
  obtain ⟨hout', hgood'⟩ := hy t hs.2
  rw [hout, hout']
  exact ⟨h, hgood, hgood'⟩

end

end ProofWalk
