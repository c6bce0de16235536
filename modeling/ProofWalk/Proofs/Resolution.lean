import Mathlib.Data.List.Forall2
import Mathlib.Data.List.ReduceOption
import Mathlib.Data.Sum.Basic
import Mathlib.Logic.Function.Basic
import Mathlib.Logic.Relation
import ProofWalk.Clause.Rule
import ProofWalk.Interned
import ProofWalk.Machine.Builtin
/-!
# Proofs.Resolution — goal lists, most general unifiers and resolvents

Rules without function symbols are resolved from the left: the first goal is unified with the head of a clause, and
the body of the clause takes its place.  Builtins at the front of a goal list run before the next clause is tried.
Nothing here knows of a machine.

Goals that remain are kept with what the variables of the query stand for (`Reading`), so that an answer is part of
what is compared.  Two readings are the same up to the names of variables if each can be renamed into the other.
-/
namespace ProofWalk

/-! ## Terms, atoms and clauses

Variables may be of any type.  A clause brings variables of its own, so a resolvent is over the sum of two types,
and no variable has to be renamed apart. -/

/-- **A term of a language without function symbols**: a constant, by number, or a variable. -/
inductive Term (V : Type)
  | const (c : Nat)
  | var (v : V)
deriving DecidableEq, Repr

structure Atom (V : Type) where
  label : Label
  args : List (Term V)
deriving DecidableEq, Repr

structure Clause (V : Type) where
  head : Atom V
  body : List (Atom V)
deriving DecidableEq, Repr

/-- **Goals that remain, with what the variables of the query stand for.** -/
structure Reading (V : Type) where
  goals : List (Atom V)
  answers : List (Term V)
deriving DecidableEq, Repr

variable {V W Z : Type}

namespace Term

def subst (σ : V → Term W) : Term V → Term W
  | const c => const c
  | var v => σ v

def map (f : V → W) : Term V → Term W := subst fun v => var (f v)

@[simp] theorem subst_const (σ : V → Term W) (c : Nat) : (const c).subst σ = const c := rfl

@[simp] theorem subst_var (σ : V → Term W) (v : V) : (var v).subst σ = σ v := rfl

@[simp] theorem map_const (f : V → W) (c : Nat) : (const c).map f = const c := rfl

@[simp] theorem map_var (f : V → W) (v : V) : (var v).map f = var (f v) := rfl

theorem subst_id (t : Term V) : t.subst var = t := by cases t <;> rfl

theorem subst_subst (σ : V → Term W) (τ : W → Term Z) (t : Term V) :
    (t.subst σ).subst τ = t.subst fun v => (σ v).subst τ := by
  cases t <;> rfl

theorem subst_map (f : V → W) (τ : W → Term Z) (t : Term V) : (t.map f).subst τ = t.subst fun v => τ (f v) :=
  subst_subst _ τ t

theorem map_subst (σ : V → Term W) (f : W → Z) (t : Term V) : (t.subst σ).map f = t.subst fun v => (σ v).map f :=
  subst_subst σ _ t

theorem map_map (f : V → W) (g : W → Z) (t : Term V) : (t.map f).map g = t.map fun v => g (f v) := subst_map f _ t

end Term

namespace Atom

def subst (σ : V → Term W) (a : Atom V) : Atom W := ⟨a.label, a.args.map (Term.subst σ)⟩

def map (f : V → W) : Atom V → Atom W := subst fun v => .var (f v)

theorem subst_id (a : Atom V) : a.subst .var = a :=
  congrArg (Atom.mk a.label) ((List.map_congr_left fun t _ => t.subst_id).trans a.args.map_id)

theorem subst_subst (σ : V → Term W) (τ : W → Term Z) (a : Atom V) :
    (a.subst σ).subst τ = a.subst fun v => (σ v).subst τ := by
  rw [subst, subst, subst, List.map_map]
  exact congrArg (Atom.mk a.label) (List.map_congr_left fun t _ => t.subst_subst σ τ)

end Atom

def Clause.map (f : V → W) (c : Clause V) : Clause W := ⟨c.head.map f, c.body.map (Atom.map f)⟩

theorem Clause.map_map (f : V → W) (g : W → Z) (c : Clause V) : (c.map f).map g = c.map fun v => g (f v) :=
  congrArg₂ Clause.mk (c.head.subst_subst _ _)
    (List.map_map.trans (List.map_congr_left fun a _ => a.subst_subst _ _))

namespace Reading

def subst (σ : V → Term W) (R : Reading V) : Reading W :=
  ⟨R.goals.map (Atom.subst σ), R.answers.map (Term.subst σ)⟩

def map (f : V → W) : Reading V → Reading W := subst fun v => .var (f v)

theorem subst_id (R : Reading V) : R.subst .var = R :=
  congrArg₂ Reading.mk ((List.map_congr_left fun a _ => a.subst_id).trans R.goals.map_id)
    ((List.map_congr_left fun t _ => t.subst_id).trans R.answers.map_id)

theorem subst_subst (σ : V → Term W) (τ : W → Term Z) (R : Reading V) :
    (R.subst σ).subst τ = R.subst fun v => (σ v).subst τ := by
  rw [subst, subst, subst, List.map_map, List.map_map]
  exact congrArg₂ Reading.mk (List.map_congr_left fun a _ => a.subst_subst σ τ)
    (List.map_congr_left fun t _ => t.subst_subst σ τ)

theorem map_map (f : V → W) (g : W → Z) (R : Reading V) :
    (R.map f).map g = R.map fun v => g (f v) := subst_subst _ _ R

/-- **Readings that differ in the names of their variables.** -/
def Variant (R : Reading V) (R' : Reading W) : Prop := ∃ f : V → W, Function.Injective f ∧ R.map f = R'

end Reading

/-! ## Most general unifiers

Unifiers are substitutions into terms of any variables. -/

def Unifies (equations : List (Term V × Term V)) (σ : V → Term W) :
    Prop := ∀ e ∈ equations, e.1.subst σ = e.2.subst σ

/-- **A most general unifier**: a unifier of which every other is an instance. -/
structure MostGeneral (equations : List (Term V × Term V)) (σ : V → Term Z) : Prop where
  unifies : Unifies equations σ
  factors : ∀ {W : Type} (τ : V → Term W), Unifies equations τ → ∃ δ : Z → Term W, ∀ v, τ v = (σ v).subst δ

def Clashes (equations : List (Term V × Term V)) : Prop := ∀ (W : Type) (τ : V → Term W), ¬ Unifies equations τ

def headEquations (goal : Atom V) (head : Atom W) : List (Term (V ⊕ W) × Term (V ⊕ W)) :=
  (goal.args.map (Term.map .inl)).zip (head.args.map (Term.map .inr))

def put [DecidableEq V] (v : V) (t : Term V) (w : V) : Term V := if w = v then t else .var w

theorem put_self [DecidableEq V] (v : V) (t : Term V) : put v t v = t := if_pos rfl

theorem put_of_ne [DecidableEq V] {v w : V} (h : w ≠ v) (t : Term V) : put v t w = .var w := if_neg h

/-! ## Builtins and resolvents

Builtins stand in front of a resolvent like other goals.  They run at once, from the left, until a goal is left that
is not one of them, or one of them fails. -/

inductive Reading.Runs [DecidableEq V] : Reading V → Reading V → Prop
  | eq {rest : List (Atom V)} {answers : List (Term V)} {c : Nat} :
      Runs ⟨⟨Builtin.eq.label, [.const c, .const c]⟩ :: rest, answers⟩ ⟨rest, answers⟩
  | neq {rest : List (Atom V)} {answers : List (Term V)} {c d : Nat} (hne : c ≠ d) :
      Runs ⟨⟨Builtin.neq.label, [.const c, .const d]⟩ :: rest, answers⟩ ⟨rest, answers⟩
  | same {rest : List (Atom V)} {answers : List (Term V)} {c : Nat} :
      Runs ⟨⟨Builtin.assign.label, [.const c, .const c]⟩ :: rest, answers⟩ ⟨rest, answers⟩
  | assign {rest : List (Atom V)} {answers : List (Term V)} {v : V} {c : Nat} :
      Runs ⟨⟨Builtin.assign.label, [.var v, .const c]⟩ :: rest, answers⟩
        (Reading.subst (put v (.const c)) ⟨rest, answers⟩)

inductive Reading.Fails : Reading V → Prop
  | eq {rest : List (Atom V)} {answers : List (Term V)} {c d : Nat} (hne : c ≠ d) :
      Fails ⟨⟨Builtin.eq.label, [.const c, .const d]⟩ :: rest, answers⟩
  | neq {rest : List (Atom V)} {answers : List (Term V)} {c : Nat} :
      Fails ⟨⟨Builtin.neq.label, [.const c, .const c]⟩ :: rest, answers⟩
  | assign {rest : List (Atom V)} {answers : List (Term V)} {c d : Nat} (hne : c ≠ d) :
      Fails ⟨⟨Builtin.assign.label, [.const c, .const d]⟩ :: rest, answers⟩

/-- **The builtins at the front succeed**, and no other is left there. -/
def Reading.Leads [DecidableEq V] (R R' : Reading V) : Prop :=
  Relation.ReflTransGen Reading.Runs R R' ∧ ∀ goal ∈ R'.goals.head?, Builtin.ofLabel? goal.label = none

def Reading.Refuted [DecidableEq V] (R : Reading V) :
    Prop := ∃ R', Relation.ReflTransGen Reading.Runs R R' ∧ R'.Fails

/-- **The leftmost resolvent** under a substitution: the body of a clause in the place of the first goal. -/
def resolvent (rest : List (Atom V)) (answers : List (Term V)) (body : List (Atom W)) (σ : V ⊕ W → Term Z) :
    Reading Z :=
  ⟨body.map (Atom.subst fun w => σ (.inr w)) ++ rest.map (Atom.subst fun v => σ (.inl v)),
    answers.map (Term.subst fun v => σ (.inl v))⟩

/-- **What one clause makes of a goal list**: a child, read up to the names of variables, or none if its head does
not unify with the first goal or a builtin then fails. -/
inductive Resolves (goal : Atom V) (rest : List (Atom V)) (answers : List (Term V)) (clause : Clause W) :
    Option (Reading Z) → Prop
  | clash (hclash : Clashes (headEquations goal clause.head)) : Resolves goal rest answers clause none
  | refuted {X : Type} [DecidableEq X] {σ : V ⊕ W → Term X} (hσ : MostGeneral (headEquations goal clause.head) σ)
      (hrefuted : (resolvent rest answers clause.body σ).Refuted) : Resolves goal rest answers clause none
  | resolved {X : Type} [DecidableEq X] {σ : V ⊕ W → Term X} {R : Reading X} {child : Reading Z}
      (hσ : MostGeneral (headEquations goal clause.head) σ)
        (hleads : (resolvent rest answers clause.body σ).Leads R)
      (hchild : R.Variant child) : Resolves goal rest answers clause (some child)

/-- **The children of a goal list**: one for each clause that resolves with its first goal, in the order of the
clauses. -/
def Children (goal : Atom V) (rest : List (Atom V)) (answers : List (Term V)) (clauses : List (Clause W))
    (children : List (Reading Z)) : Prop :=
  ∃ outcomes, List.Forall₂ (Resolves goal rest answers) clauses outcomes ∧ children = outcomes.reduceOption

/-! ## Renaming

All this is stable under renaming, which lets a clause be read with whatever variables are at hand. -/

section Renaming

variable [DecidableEq V] [DecidableEq W] {f : V → W}

theorem Reading.Runs.map (hf : Function.Injective f) {R R' : Reading V} (h : R.Runs R') :
    (R.map f).Runs (R'.map f) := by
  cases h with
  | eq => exact .eq
  | neq hne => exact .neq hne
  | same => exact .same
  | @assign rest answers v c =>
    have hput : Reading.map f (Reading.subst (put v (.const c)) ⟨rest, answers⟩) =
        Reading.subst (put (f v) (.const c)) (Reading.map f ⟨rest, answers⟩) := by
      refine (Reading.subst_subst ..).trans (Eq.trans ?_ (Reading.subst_subst ..).symm)
      refine congrArg (fun σ => Reading.subst σ ⟨rest, answers⟩) (funext fun w => ?_)
      by_cases hw : w = v
      · simp [put, hw]
      · simp [put, hw, hf.eq_iff]
    rw [hput]
    exact .assign

omit [DecidableEq V] [DecidableEq W] in
theorem Reading.Fails.map {R : Reading V} (h : R.Fails) : (R.map f).Fails := by
  cases h with
  | eq hne => exact .eq hne
  | neq => exact .neq
  | assign hne => exact .assign hne

theorem Reading.Leads.map (hf : Function.Injective f) {R R' : Reading V} (h : R.Leads R') :
    (R.map f).Leads (R'.map f) := by
  refine ⟨h.1.lift _ fun _ _ hruns => hruns.map hf, fun goal hgoal => ?_⟩
  have hhead : (R'.map f).goals.head? = R'.goals.head?.map (Atom.subst fun v => .var (f v)) := List.head?_map
  rw [hhead] at hgoal
  obtain ⟨goal', hgoal', rfl⟩ := Option.map_eq_some_iff.1 hgoal
  exact h.2 goal' hgoal'

theorem Reading.Refuted.map (hf : Function.Injective f) {R : Reading V} (h : R.Refuted) : (R.map f).Refuted := by
  obtain ⟨R', hruns, hfails⟩ := h
  exact ⟨R'.map f, hruns.lift _ fun _ _ h => h.map hf, hfails.map⟩

end Renaming

def renamed (f : V → W) (equations : List (Term V × Term V)) : List (Term W × Term W) :=
  equations.map fun e => (e.1.map f, e.2.map f)

theorem unifies_renamed {f : V → W} {equations : List (Term V × Term V)} {τ : W → Term Z} :
    Unifies (renamed f equations) τ ↔ Unifies equations fun v => τ (f v) := by
  unfold Unifies renamed
  simp only [List.forall_mem_map, Term.subst_map]

theorem exists_renamed {f : V → W} (hf : Function.Injective f)
    {equations : List (Term V × Term V)} {τ : V → Term Z} (hτ : Unifies equations τ) :
    ∃ τ' : W → Term Z, Unifies (renamed f equations) τ' ∧ ∀ v, τ' (f v) = τ v := by
  have hextend : ∀ v, Function.extend f τ (fun _ => .const 0) (f v) = τ v := fun v => hf.extend_apply _ _ v
  refine ⟨_, unifies_renamed.2 ?_, hextend⟩
  rwa [funext hextend]

theorem Clashes.of_renamed {f : V → W} (hf : Function.Injective f) {equations : List (Term V × Term V)}
    (h : Clashes (renamed f equations)) : Clashes equations := fun _ _ hτ => by
  obtain ⟨τ', hτ', -⟩ := exists_renamed hf hτ
  exact h _ τ' hτ'

theorem MostGeneral.of_renamed {f : V → W} (hf : Function.Injective f)
    {equations : List (Term V × Term V)} {σ : W → Term Z} (h : MostGeneral (renamed f equations) σ) :
    MostGeneral equations fun v => σ (f v) where
  unifies := unifies_renamed.1 h.unifies
  factors τ hτ := by
    obtain ⟨τ', hτ', heq⟩ := exists_renamed hf hτ
    obtain ⟨δ, hδ⟩ := h.factors τ' hτ'
    exact ⟨δ, fun v => (heq v).symm.trans (hδ (f v))⟩

/-- **A variable of a head stands for an argument of the unified goal.** -/
theorem mem_of_unifies {goal : Atom V} {head : Atom W}
    (hlength : head.args.length = goal.args.length) {σ : V ⊕ W → Term Z} (h : Unifies (headEquations goal head) σ)
    {w : W} (hw : .var w ∈ head.args) :
    σ (.inr w) ∈ goal.args.map (Term.subst fun v => σ (.inl v)) := by
  obtain ⟨i, hi, hget⟩ := List.mem_iff_getElem.1 hw
  have hgoal : i < goal.args.length := hlength ▸ hi
  have hlt : i < (headEquations goal head).length := by
    rw [headEquations, List.length_zip, List.length_map, List.length_map]
    omega
  have hpair : (headEquations goal head)[i] = (goal.args[i].map .inl, (Term.var w).map .inr) := by
    simp only [headEquations, List.getElem_zip, List.getElem_map, hget]
  have hequal := h _ (hpair ▸ List.getElem_mem hlt)
  rw [Term.subst_map, Term.subst_map] at hequal
  exact List.mem_map.2 ⟨_, List.getElem_mem _, hequal⟩

theorem headEquations_map (goal : Atom V) (head : Atom W) (f : W → Z) :
    headEquations goal (head.map f) = renamed (Sum.map id f) (headEquations goal head) := by
  have hgoal : goal.args.map (Term.map .inl) = (goal.args.map (Term.map .inl)).map (Term.map (Sum.map id f)) := by
    simp only [List.map_map, Function.comp_def, Term.map_map, Sum.map_inl, id]
  have hhead : (head.map f).args.map (Term.map .inr) =
      (head.args.map (Term.map .inr)).map (Term.map (Sum.map (id : V → V) f)) := by
    show (head.args.map (Term.map f)).map (Term.map (Sum.inr : Z → V ⊕ Z)) = _
    simp only [List.map_map, Function.comp_def, Term.map_map, Sum.map_inr]
  rw [headEquations, hgoal, hhead, List.zip_map]
  rfl

theorem resolvent_map (rest : List (Atom V)) (answers : List (Term V))
    (body : List (Atom W)) {W' : Type} (f : W → W') (σ : V ⊕ W' → Term Z) :
    resolvent rest answers (body.map (Atom.map f)) σ =
      resolvent rest answers body fun v => σ (Sum.map id f v) := by
  have hbody : (body.map (Atom.map f)).map (Atom.subst fun w => σ (.inr w)) =
      body.map (Atom.subst fun w => σ (.inr (f w))) := by
    rw [List.map_map]
    exact List.map_congr_left fun a _ => a.subst_subst _ _
  rw [resolvent, hbody]
  rfl

/-- **The names of the variables of a clause do not matter.** -/
theorem Resolves.of_map {goal : Atom V} {rest : List (Atom V)} {answers : List (Term V)}
    {clause : Clause W} {W' : Type} {f : W → W'} (hf : Function.Injective f) {outcome : Option (Reading Z)}
    (h : Resolves goal rest answers (clause.map f) outcome) : Resolves goal rest answers clause outcome := by
  have hg : Function.Injective (Sum.map (id : V → V) f) := Sum.map_injective.2 ⟨Function.injective_id, hf⟩
  have hhead : headEquations goal (clause.map f).head = renamed (Sum.map id f) (headEquations goal clause.head) :=
    headEquations_map goal clause.head f
  cases h with
  | clash hclash =>
    rw [hhead] at hclash
    exact .clash (hclash.of_renamed hg)
  | refuted hσ hrefuted =>
    rw [hhead] at hσ
    rw [Clause.map, resolvent_map] at hrefuted
    exact .refuted (hσ.of_renamed hg) hrefuted
  | resolved hσ hleads hchild =>
    rw [hhead] at hσ
    rw [Clause.map, resolvent_map] at hleads
    exact .resolved (hσ.of_renamed hg) hleads hchild

/-! ## Rules as clauses

In a rule every `_` is a variable of its own, so it is told by its rank among the `_` of the rule. -/

/-- **A variable of a rule**: by its name, or an occurrence of `_` by its rank among these. -/
inductive RuleVar
  | named (name : String)
  /-- An occurrence of `_`, counted from 1. -/
  | anonymous (rank : Nat)
deriving DecidableEq, Repr

def countAfter (count : Nat) : Argument → Nat
  | .const _ => count
  | .var v => if v = "_" then count + 1 else count

def ruleVar (count : Nat) (name : String) : RuleVar := if name = "_" then .anonymous (count + 1) else .named name

def readArgument (symbols : Symbols) (count : Nat) : Argument → Term RuleVar
  | .const c => .const ((symbols.find? c).getD 0)
  | .var v => .var (ruleVar count v)

def readArguments (symbols : Symbols) : Nat → List Argument → List (Term RuleVar)
  | _, [] => []
  | count, a :: rest => readArgument symbols count a :: readArguments symbols (countAfter count a) rest

def readGoals (symbols : Symbols) : Nat → List Goal → List (Atom RuleVar)
  | _, [] => []
  | count, goal :: rest =>
    ⟨goal.label, readArguments symbols count goal.args⟩ ::
      readGoals symbols (goal.args.foldl countAfter count) rest

/-- **The clause of a rule**, with its constants by number and with each `_` a variable of its own. -/
def Rule.clause (symbols : Symbols) (r : Rule) : Clause RuleVar :=
  ⟨⟨r.head.label, readArguments symbols 0 r.head.args⟩, readGoals symbols (r.head.args.foldl countAfter 0) r.body⟩

end ProofWalk
