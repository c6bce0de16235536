import ProofWalk.Proofs.Resolution
/-!
# Proofs.SolvedForm — equations solved one after another

A solution that every unifier absorbs is a most general unifier (`Solves.mostGeneral`).  Equations are solved from
left to right: the next equation is read through the solution so far, and its own solution is put behind
(`Solves.snoc`).  If it has none, all of them have none (`Solves.clash`).

The machine unifies cells one after another, and each of its steps solves one equation in this sense.
-/
namespace ProofWalk

variable {V W : Type}

/-- **A unifier that every unifier absorbs.** -/
structure Solves (equations : List (Term V × Term V)) (σ : V → Term V) : Prop where
  unifies : Unifies equations σ
  absorbed : ∀ {W : Type} (τ : V → Term W), Unifies equations τ → ∀ v, (σ v).subst τ = τ v

namespace Solves

variable {equations : List (Term V × Term V)} {σ θ : V → Term V}

theorem mostGeneral (h : Solves equations σ) : MostGeneral equations σ where
  unifies := h.unifies
  factors τ hτ := ⟨τ, fun v => (h.absorbed τ hτ v).symm⟩

theorem nil : Solves ([] : List (Term V × Term V)) .var where
  unifies _ he := nomatch he
  absorbed _ _ _ := rfl

theorem subst_absorbed (h : Solves equations σ) {τ : V → Term W} (hτ : Unifies equations τ) (t : Term V) :
    (t.subst σ).subst τ = t.subst τ := by
  rw [Term.subst_subst]
  exact congrArg t.subst (funext fun v => h.absorbed τ hτ v)

/-- A unifier of more equations unifies the next one as it reads through the solution of the others. -/
theorem unifies_next (h : Solves equations σ) {e : Term V × Term V} {τ : V → Term W}
    (hτ : Unifies (equations ++ [e]) τ) : Unifies equations τ ∧ Unifies [(e.1.subst σ, e.2.subst σ)] τ := by
  have hbefore : Unifies equations τ := fun e' he' => hτ e' (List.mem_append_left _ he')
  refine ⟨hbefore, fun e' he' => ?_⟩
  obtain rfl := List.mem_singleton.1 he'
  show (e.1.subst σ).subst τ = (e.2.subst σ).subst τ
  rw [h.subst_absorbed hbefore, h.subst_absorbed hbefore]
  exact hτ e (List.mem_append_right _ List.mem_cons_self)

/-- **One more equation is solved.** -/
theorem snoc (h : Solves equations σ) {e : Term V × Term V} (hθ : Solves [(e.1.subst σ, e.2.subst σ)] θ) :
    Solves (equations ++ [e]) fun v => (σ v).subst θ where
  unifies e' he' := by
    rw [← Term.subst_subst, ← Term.subst_subst]
    rcases List.mem_append.1 he' with he' | he'
    · rw [h.unifies e' he']
    · obtain rfl := List.mem_singleton.1 he'
      exact hθ.unifies _ List.mem_cons_self
  absorbed τ hτ v := by
    obtain ⟨hbefore, hnext⟩ := h.unifies_next hτ
    rw [hθ.subst_absorbed hnext]
    exact h.absorbed τ hbefore v

/-- **One equation that has no solution is enough.** -/
theorem clash (h : Solves equations σ) {e : Term V × Term V} (hclash : Clashes [(e.1.subst σ, e.2.subst σ)])
    (rest : List (Term V × Term V)) : Clashes (equations ++ e :: rest) := fun _ τ hτ => by
  refine hclash _ τ (h.unifies_next fun e' he' => hτ e' ?_).2
  rw [List.append_cons]
  exact List.mem_append_left _ he'

theorem refl (t : Term V) : Solves [(t, t)] .var where
  unifies e he := by
    obtain rfl := List.mem_singleton.1 he
    rfl
  absorbed _ _ _ := rfl

theorem symm {s t : Term V} (h : Solves [(s, t)] σ) : Solves [(t, s)] σ where
  unifies e he := by
    obtain rfl := List.mem_singleton.1 he
    exact (h.unifies _ List.mem_cons_self).symm
  absorbed τ hτ := h.absorbed τ fun e he => by
    obtain rfl := List.mem_singleton.1 he
    exact (hτ _ List.mem_cons_self).symm

theorem put [DecidableEq V] (v : V) (t : Term V) : Solves [(.var v, t)] (put v t) where
  unifies e he := by
    obtain rfl := List.mem_singleton.1 he
    cases t with
    | const c => simp [ProofWalk.put]
    | var w => by_cases hw : w = v <;> simp [ProofWalk.put, hw]
  absorbed τ hτ w := by
    by_cases hw : w = v
    · subst hw
      rw [put_self]
      exact (hτ _ List.mem_cons_self).symm
    · rw [put_of_ne hw]
      rfl

end Solves

theorem clashes_const {c d : Nat} (hne : c ≠ d) : Clashes [((.const c : Term V), .const d)] := fun _ _ hτ =>
  hne (Term.const.inj (hτ _ List.mem_cons_self))

def besides (θ : V → Term V) : V ⊕ W → Term (V ⊕ W) := Sum.elim (fun v => (θ v).map .inl) fun w => .var (.inr w)

theorem subst_besides (θ : V → Term V) (t : Term V) :
    (t.map .inl).subst (besides (W := W) θ) = (t.subst θ).map .inl := by
  cases t <;> rfl

theorem Clashes.symm {s t : Term V} (h : Clashes [(s, t)]) : Clashes [(t, s)] := fun _ τ hτ => h _ τ fun e he => by
  obtain rfl := List.mem_singleton.1 he
  exact (hτ _ List.mem_cons_self).symm

theorem Clashes.apart {s t : Term V} (h : Clashes [(s, t)]) :
    Clashes [(s.map (.inl : V → V ⊕ W), t.map .inl)] := fun _ τ hτ =>
  h _ (fun v => τ (.inl v)) fun e he => by
    obtain rfl := List.mem_singleton.1 he
    have hboth := hτ _ List.mem_cons_self
    rwa [Term.subst_map, Term.subst_map] at hboth

/-- **An equation is solved with other variables beside it.** -/
theorem Solves.apart {s t : Term V} {θ : V → Term V} (h : Solves [(s, t)] θ) :
    Solves [(s.map (.inl : V → V ⊕ W), t.map .inl)] (besides θ) where
  unifies e he := by
    obtain rfl := List.mem_singleton.1 he
    show (s.map .inl).subst (besides θ) = (t.map .inl).subst (besides θ)
    rw [subst_besides, subst_besides, h.unifies _ List.mem_cons_self]
  absorbed τ hτ
    | .inr _ => rfl
    | .inl v => by
      refine (Term.subst_map _ _ _).trans (h.absorbed (fun v => τ (.inl v)) (fun e he => ?_) v)
      obtain rfl := List.mem_singleton.1 he
      have hboth := hτ _ List.mem_cons_self
      rwa [Term.subst_map, Term.subst_map] at hboth

theorem MostGeneral.map {Z Z' : Type} {equations : List (Term V × Term V)} {σ : V → Term Z} {f : Z → Z'}
    (hf : Function.Injective f) (h : MostGeneral equations σ) : MostGeneral equations fun v => (σ v).map f where
  unifies e he := by
    rw [← Term.map_subst, ← Term.map_subst, h.unifies e he]
  factors τ hτ := by
    obtain ⟨δ, hδ⟩ := h.factors τ hτ
    refine ⟨Function.extend f δ fun _ => .const 0, fun v => ?_⟩
    rw [hδ, Term.subst_map]
    exact congrArg (σ v).subst (funext fun z => (hf.extend_apply _ _ z).symm)

end ProofWalk
