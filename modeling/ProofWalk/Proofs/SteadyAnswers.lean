import ProofWalk.Graph.Store
import ProofWalk.Proofs.Computations
/-!
# Proofs.SteadyAnswers — answers that stand while a graph grows

An operation on a graph is steady if graphs only grow under it and what it answers once it answers in every larger
graph.  Steady operations compose: the second one starts from a graph in which the first has its answer already.
-/
namespace ProofWalk

/-- **What it means for graphs to grow**, and which graphs are sound. -/
structure Growth (G : Type) where
  sound : G → Prop
  grows : G → G → Prop
  refl : ∀ g, grows g g
  trans : ∀ {g g' g''}, grows g g' → grows g' g'' → grows g g''

namespace Growth

variable {G K α β : Type} {Γ : Growth G}

/-- **An operation under which sound graphs grow**, and whose answer stands in all larger sound graphs. -/
def Steady (Γ : Growth G) (x : GraphM G K α) : Prop :=
  ∀ s, Γ.sound s.graph → Γ.sound (x s).2.graph ∧ Γ.grows s.graph (x s).2.graph ∧
    ∀ a, (x s).1 = .ok a → ∀ t : Store G K, Γ.sound t.graph → Γ.grows (x s).2.graph t.graph → (x t).1 = .ok a

/-- The graphs of a growth that have something which they do not lose. -/
def having (Γ : Growth G) (P : G → Prop) : Growth G := { Γ with sound := fun g => Γ.sound g ∧ P g }

theorem steady_pure (a : α) : Γ.Steady (pure a : GraphM G K α) :=
  fun _ hs => ⟨hs, Γ.refl _, fun _ h _ _ _ => h⟩

theorem steady_throw (e : ProverError K) : Γ.Steady (throw e : GraphM G K α) :=
  fun _ hs => ⟨hs, Γ.refl _, fun _ h => nomatch h⟩

theorem Steady.having {x : GraphM G K α} {P : G → Prop} (hx : Γ.Steady x)
    (hP : ∀ g g', P g → Γ.grows g g' → P g') : (Γ.having P).Steady x := by
  intro s hs
  obtain ⟨hsound, hgrows, hanswer⟩ := hx s hs.1
  exact ⟨⟨hsound, hP _ _ hs.2 hgrows⟩, hgrows, fun a ha t ht => hanswer a ha t ht.1⟩

theorem Steady.bind_having {x : GraphM G K α} {f : α → GraphM G K β} {P : G → Prop} (hx : Γ.Steady x)
    (hxP : ∀ s a, (x s).1 = .ok a → P (x s).2.graph) (hP : ∀ g g', P g → Γ.grows g g' → P g')
    (hf : ∀ a, (Γ.having P).Steady (f a)) : Γ.Steady (x >>= f) := by
  intro s hs
  obtain ⟨hsound, hgrows, hanswer⟩ := hx s hs
  have hhas := hxP s
  rcases hrun : x s with ⟨e | a, s'⟩
  · rw [bind_error hrun]
    rw [hrun] at hsound hgrows
    exact ⟨hsound, hgrows, fun _ h => nomatch h⟩
  · rw [bind_ok hrun]
    rw [hrun] at hsound hgrows hanswer hhas
    obtain ⟨hsound', hgrows', hanswer'⟩ := hf a s' ⟨hsound, hhas a rfl⟩
    refine ⟨hsound'.1, Γ.trans hgrows hgrows', fun b hb t ht hst => ?_⟩
    have hxt : (x t).1 = .ok a := hanswer a rfl t ht (Γ.trans hgrows' hst)
    -- the first answer is the old one, and the graph has only grown since
    obtain ⟨htsound, htgrows, -⟩ := hx t ht
    rcases hrunt : x t with ⟨r, t'⟩
    rw [hrunt] at hxt htsound htgrows
    cases hxt
    rw [bind_ok hrunt]
    have hst' := Γ.trans hst htgrows
    exact hanswer' b hb t' ⟨htsound, hP _ _ hsound'.2 hst'⟩ hst'

theorem Steady.bind {x : GraphM G K α} {f : α → GraphM G K β} (hx : Γ.Steady x) (hf : ∀ a, Γ.Steady (f a)) :
    Γ.Steady (x >>= f) :=
  hx.bind_having (P := fun _ => True) (fun _ _ _ => trivial) (fun _ _ _ _ => trivial) fun a =>
    (hf a).having fun _ _ _ _ => trivial

theorem steady_count (w : Weighter K) (c : FeatureCounts) : Γ.Steady (GraphM.count w c) :=
  fun _ hs => ⟨hs, Γ.refl _, fun _ h _ _ _ => h⟩

theorem steady_weigh [Scalar K] [Exponential K] (w : Weighter K) (features : Features K) :
    Γ.Steady (GraphM.weigh w features) := by
  unfold GraphM.weigh
  refine (steady_count w _).bind fun _ => ?_
  split
  · exact steady_pure _
  · exact steady_throw _

theorem steady_of_quiet {x : GraphM G K α} (answer : Store G K → Except (ProverError K) α)
    (hx : ∀ t, x t = (answer t, t)) (h : ∀ s t a, answer s = .ok a → answer t = .ok a) : Γ.Steady x := by
  intro s hs
  rw [hx]
  refine ⟨hs, Γ.refl _, fun a ha t _ _ => ?_⟩
  rw [hx]
  exact h s t a ha

theorem steady_graph {k : G → GraphM G K α} (hk : ∀ g g', Γ.sound g → Γ.grows g g' → k g' = k g)
    (hs : ∀ g, Γ.Steady (k g)) : Γ.Steady (GraphM.graph >>= k) := by
  intro s hsound
  have hrun : ∀ t : Store G K, (GraphM.graph >>= k : GraphM G K α) t = k t.graph t := fun _ => rfl
  obtain ⟨hsound', hgrows, hanswer⟩ := hs s.graph s hsound
  rw [hrun]
  refine ⟨hsound', hgrows, fun a ha t ht hst => ?_⟩
  rw [hrun, hk s.graph t.graph hsound (Γ.trans hgrows hst)]
  exact hanswer a ha t ht hst

end Growth

/-! ## What graphs keep

Graphs grow in their tables: each is a partial function that gets more values and never loses one. -/

def Extends {α : Type} (f f' : Nat → Option α) : Prop := ∀ i a, f i = some a → f' i = some a

namespace Extends

variable {α : Type} {f f' f'' : Nat → Option α}

theorem refl (f : Nat → Option α) : Extends f f := fun _ _ h => h

theorem trans (h : Extends f f') (h' : Extends f' f'') : Extends f f'' := fun i a hi => h' i a (h i a hi)

theorem isSome (h : Extends f f') {i : Nat} (hi : (f i).isSome) : (f' i).isSome := by
  obtain ⟨a, ha⟩ := Option.isSome_iff_exists.1 hi
  rw [h i a ha]
  rfl

theorem eq (h : Extends f f') {i : Nat} (hi : (f i).isSome) : f' i = f i := by
  obtain ⟨a, ha⟩ := Option.isSome_iff_exists.1 hi
  rw [h i a ha, ha]

end Extends

theorem Slots.extends_insert {α : Type} (s : Slots α) {i : Nat} (h : s.get? i = none) (a : α) :
    Extends s.get? (s.insert i a).get? := by
  intro j b hb
  by_cases hij : i = j
  · subst hij
    rw [h] at hb
    cases hb
  · rw [Slots.get?_insert_ne s hij, hb]

theorem numberOutlinks_extends {K : Type} (outlinks : List (Outlink K)) (states : StateTable) :
    Extends states.get? (numberOutlinks outlinks states).2.get? := by
  induction outlinks generalizing states with
  | nil => exact .refl _
  | cons o rest ih =>
    have hintern : Extends states.get? (states.intern o.target).1.get? := fun _ _ h => Interned.get?_intern h _
    exact hintern.trans (ih _)

end ProofWalk
