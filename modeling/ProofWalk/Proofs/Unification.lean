import ProofWalk.Proofs.RunSteps
import ProofWalk.Proofs.StateReading
/-!
# Proofs.Unification — unifying cells is most general

Two cells of a sound heap can be unified unless they stand for different constants.  What is done then is the least
that makes them stand for the same (`Heap.Unified`): nothing, if they already do, or else one unbound variable that
one side stands for is bound to what the other side stands for.  Read as terms, this is a most general unifier.  A
constant is unified with a cell as a cell that holds it would be.
-/
namespace ProofWalk

namespace Heap

variable {h h' : Heap} {a b : Nat}

/-! ## What unifying two cells comes to

Chains of references end in a constant or in an unbound variable, so there are three cases for two cells
(`Sound.pair_cases`). -/

def Clash (h : Heap) (a b : Nat) : Prop := ∃ x y, x ≠ y ∧ h.resolve a = .const x ∧ h.resolve b = .const y

/-- **An unbound variable that `x` stands for has been bound to what `y` stands for**: the cells that stood for the
variable stand for that now, all others stand for what they stood for, and only the cell of the variable itself has
been written to. -/
def BoundTo (h : Heap) (x y : Nat) (h' : Heap) :
  Prop := ∃ root, h.resolve x = .free root ∧ h.resolve y ≠ .free root ∧
  (∀ i, i ≠ root → h'[i]? = h[i]?) ∧ (∀ i < h.size, h.resolve i = .free root → h'.resolve i = h.resolve y) ∧
    ∀ i < h.size, h.resolve i ≠ .free root → h'.resolve i = h.resolve i

/-- **A heap in which two cells stand for the same, changed no more than that takes.** -/
structure Unified (h : Heap) (a b : Nat) (h' : Heap) : Prop where
  size : h'.size = h.size
  sound : h'.Sound
  alike : h'.resolve a = h'.resolve b
  /-- Cells that stood for the same still do. -/
  kept : ∀ i < h.size, ∀ j < h.size, h.resolve i = h.resolve j → h'.resolve i = h'.resolve j
  least : h.resolve a = h.resolve b ∧ h' = h ∨ h.BoundTo a b h' ∨ h.BoundTo b a h'
  general : ∃ θ, MostGeneral [(h.term a, h.term b)] θ ∧ ∀ i < h.size, h'.term i = (h.term i).subst θ

/-- **Two cells of a sound heap** stand for different constants, or for the same, or one of them stands for an
unbound variable that the other does not stand for. -/
theorem Sound.pair_cases (hs : h.Sound) (ha : a < h.size) (hb : b < h.size) :
    h.Clash a b ∨ h.resolve a = h.resolve b ∨ (∃ root, h.resolve a = .free root ∧ h.resolve b ≠ .free root) ∨
      ∃ root, h.resolve b = .free root ∧ ∃ x, h.resolve a = .const x := by
  rcases hs.resolve_cases ha with ⟨x, hx, -⟩ | ⟨hfree, -⟩
  · rcases hs.resolve_cases hb with ⟨y, hy, -⟩ | ⟨hfree', -⟩
    · by_cases hxy : x = y
      · right; left
        rw [hx, hy, hxy]
      · exact .inl ⟨x, y, hxy, hx, hy⟩
    · exact .inr (.inr (.inr ⟨_, hfree', x, hx⟩))
  · by_cases hsame : h.resolve b = .free (h.deref a)
    · right; left
      rw [hfree, hsame]
    · exact .inr (.inr (.inl ⟨_, hfree, hsame⟩))

/-! ## The change that is asked for

Unifying looks at two ends and asks for at most one cell to be written. -/

theorem unifier_of_clash (hs : h.Sound) (ha : a < h.size) (hb : b < h.size) (hc : h.Clash a b) :
    h.unifier a b = none := by
  obtain ⟨x, y, hne, hx, hy⟩ := hc
  rw [unifier_eq hs ha hb, hx, hy]
  exact if_neg hne

theorem unifier_of_alike (hs : h.Sound) (ha : a < h.size) (hb : b < h.size) (hsame : h.resolve a = h.resolve b) :
    h.unifier a b = some .keep := by
  rw [unifier_eq hs ha hb, hsame]
  rcases hs.resolve_cases hb with ⟨y, hy, -⟩ | ⟨hfree, -⟩
  · rw [hy]
    exact if_pos rfl
  · rw [hfree]
    exact if_pos rfl

theorem unifier_of_free (hs : h.Sound) (ha : a < h.size) (hb : b < h.size) {root : Nat}
    (hroot : h.resolve a = .free root) (hother : h.resolve b ≠ .free root) :
    h.unifier a b = some (.bind root (.ref (h.deref b))) := by
  rw [unifier_eq hs ha hb, hroot]
  rcases hs.resolve_cases hb with ⟨y, hy, -⟩ | ⟨hfree, -⟩
  · rw [hy]
  · have hne : root ≠ h.deref b := fun he => hother (by rw [hfree, he])
    rw [hfree]
    exact if_neg hne

theorem unifier_of_const_free (hs : h.Sound) (ha : a < h.size) (hb : b < h.size) {root x : Nat}
    (hroot : h.resolve b = .free root) (hx : h.resolve a = .const x) :
    h.unifier a b = some (.bind root (.ref (h.deref a))) := by
  rw [unifier_eq hs ha hb, hroot, hx]

/-! ## The heap that comes of it

A variable is bound to the end of another chain, so that no circle can come about. -/

/-- **Binding a variable to the end of another chain.** -/
theorem Sound.boundTo (hs : h.Sound) {x y root : Nat} (hy : y < h.size) (hroot : h.resolve x = .free root)
    (hother : h.resolve y ≠ .free root) (hf : Change.Fits h (.bind root (.ref (h.deref y)))) :
    h.BoundTo x y (h.apply (.bind root (.ref (h.deref y)))) := by
  have hvalue : h.cellValue (.ref (h.deref y)) = h.resolve y := hs.resolve_deref hy
  refine ⟨root, hroot, hother, fun i hi => getElem?_bind_of_ne h (Ne.symm hi) _,
    fun i hi hfree => ?_, fun i hi hfree => ?_⟩
  · rw [resolve_bind hs hf hi, if_pos hfree, hvalue]
  · rw [resolve_bind hs hf hi, if_neg hfree]

theorem BoundTo.alike (hbound : h.BoundTo a b h') (ha : a < h.size) (hb : b < h.size) :
    h'.resolve a = h'.resolve b := by
  obtain ⟨root, hroot, hother, -, hmoved, hstays⟩ := hbound
  rw [hmoved a ha hroot, hstays b hb hother]

theorem BoundTo.kept (hbound : h.BoundTo a b h') {i j : Nat} (hi : i < h.size) (hj : j < h.size)
    (hsame : h.resolve i = h.resolve j) : h'.resolve i = h'.resolve j := by
  obtain ⟨root, -, -, -, hmoved, hstays⟩ := hbound
  by_cases hfree : h.resolve i = .free root
  · rw [hmoved i hi hfree, hmoved j hj (hsame ▸ hfree)]
  · rw [hstays i hi hfree, hstays j hj (hsame ▸ hfree), hsame]

theorem least_of_unifier (hs : h.Sound) (ha : a < h.size) (hb : b < h.size) {change : Change}
    (hu : h.unifier a b = some change) : h.resolve a = h.resolve b ∧ h.apply change = h ∨
      h.BoundTo a b (h.apply change) ∨ h.BoundTo b a (h.apply change) := by
  have hf := unifier_fits hs ha hb hu
  rcases hs.pair_cases ha hb with hclash | hsame | ⟨root, hroot, hother⟩ | ⟨root, hroot, x, hx⟩
  · rw [unifier_of_clash hs ha hb hclash] at hu
    cases hu
  · rw [unifier_of_alike hs ha hb hsame] at hu
    cases hu
    exact .inl ⟨hsame, rfl⟩
  · rw [unifier_of_free hs ha hb hroot hother] at hu
    cases hu
    exact .inr (.inl (hs.boundTo hb hroot hother hf))
  · rw [unifier_of_const_free hs ha hb hroot hx] at hu
    cases hu
    exact .inr (.inr (hs.boundTo ha hroot (by rw [hx]; exact nofun) hf))

theorem general_of_unifier (hs : h.Sound) (ha : a < h.size) (hb : b < h.size) {change : Change}
    (hu : h.unifier a b = some change) :
    ∃ θ, MostGeneral [(h.term a, h.term b)] θ ∧ ∀ i < h.size, (h.apply change).term i = (h.term i).subst θ := by
  have hdecides := unifier_decides hs ha hb
  rw [hu] at hdecides
  cases hdecides with
  | solved hchange => exact ⟨_, hchange.solves.mostGeneral, hchange.cells⟩

/-- **A heap that unifying leaves.** -/
theorem unified_of_unifier (hs : h.Sound) (ha : a < h.size) (hb : b < h.size) {change : Change}
    (hu : h.unifier a b = some change) : h.Unified a b (h.apply change) := by
  have hleast := least_of_unifier hs ha hb hu
  refine ⟨size_apply h change, hs.apply (unifier_fits hs ha hb hu), ?_, fun i hi j hj hij => ?_, hleast,
    general_of_unifier hs ha hb hu⟩
  · rcases hleast with ⟨hsame, hkeep⟩ | hbound | hbound
    · rw [hkeep]
      exact hsame
    · exact hbound.alike ha hb
    · exact (hbound.alike hb ha).symm
  · rcases hleast with ⟨-, hkeep⟩ | hbound | hbound
    · rw [hkeep]
      exact hij
    · exact hbound.kept hi hj hij
    · exact hbound.kept hi hj hij

theorem unify_eq_none_iff (hs : h.Sound) (ha : a < h.size) (hb : b < h.size) :
    h.unify a b = none ↔ h.Clash a b := by
  rw [unify, Option.map_eq_none_iff]
  refine ⟨fun hnone => ?_, unifier_of_clash hs ha hb⟩
  rcases hs.pair_cases ha hb with hclash | hsame | ⟨root, hroot, hother⟩ | ⟨root, hroot, x, hx⟩
  · exact hclash
  · rw [unifier_of_alike hs ha hb hsame] at hnone
    cases hnone
  · rw [unifier_of_free hs ha hb hroot hother] at hnone
    cases hnone
  · rw [unifier_of_const_free hs ha hb hroot hx] at hnone
    cases hnone

/-! ## Unifying with a constant

The old heap is compared with one that has a cell for the constant, on the cells that both have. -/

/-- **Whether two attempts come to the same** on the first `n` cells: both fail, or both leave a sound heap and
those cells stand for the same in them. -/
def SameOutcome (n : Nat) : Option Heap → Option Heap → Prop :=
  Option.Rel fun g g' => g.Sound ∧ g'.Sound ∧ ∀ i < n, g.resolve i = g'.resolve i

/-- **A constant is unified with as a cell that holds it**, in the heap itself or in one with more cells. -/
theorem unifyConst_sameOutcome {g : Heap} (hs : h.Sound) (hg : g.Sound) (hle : h.size ≤ g.size)
    (hsame : ∀ i < h.size, g.resolve i = h.resolve i) (ha : a < h.size) {k c : Nat}
    (hk : g[k]? = some (.const c)) :
    SameOutcome h.size (h.unifyConst a c) (g.unify a k) := by
  have ha' : a < g.size := Nat.lt_of_lt_of_le ha hle
  have hk' : k < g.size := (Array.getElem?_eq_some_iff.1 hk).1
  have hend : g.deref k = k := deref_of_leads (.const hk)
  have hvalue : g.resolve k = .const c := by rw [resolve, hend, hk]
  rw [unifyConst, matchConst, unify]
  rcases hs.resolve_cases ha with ⟨d, hd, -⟩ | ⟨hfree, hcell⟩
  · have hd' : g.resolve a = .const d := (hsame a ha).trans hd
    rw [hd]
    by_cases hdc : d = c
    · rw [unifier_of_alike hg ha' hk' (by rw [hd', hvalue, hdc])]
      simp only [if_pos hdc]
      exact .some ⟨hs, hg, fun i hi => (hsame i hi).symm⟩
    · rw [unifier_of_clash hg ha' hk' ⟨d, c, hdc, hd', hvalue⟩]
      simp only [if_neg hdc]
      exact .none
  · have hfree' : g.resolve a = .free (h.deref a) := (hsame a ha).trans hfree
    have hu := unifier_of_free hg ha' hk' hfree' (by simp [hvalue])
    have hf := unifier_fits hg ha' hk' hu
    rw [hfree, hu]
    refine .some ⟨hs.apply (.bindConst hcell), hg.apply hf, fun i hi => ?_⟩
    -- the variable is overwritten with the constant in the one heap, with a reference to it in the other
    have hheld : g.cellValue (.ref (g.deref k)) = .const c := (hg.resolve_deref hk').trans hvalue
    rw [resolve_bind hs (.bindConst hcell) hi, resolve_bind hg hf (Nat.lt_of_lt_of_le hi hle), hsame i hi, hheld]
    rfl

/-! ## The whole of it

The statement and two chains to try it on. -/

/-- **Unifying two cells of a sound heap computes a most general unifier.**  It fails exactly where they stand for
different constants, and then a run keeps its heap; else it makes them stand for the same by the least change.
Unifying a cell with a constant comes to the same as unifying it with a cell that holds the constant, be it an old
one or a new one on top. -/
theorem unify_most_general {h : Heap} (hs : h.Sound) {a b : Nat} (ha : a < h.size) (hb : b < h.size) :
    ((h.unify a b = none ↔ h.Clash a b) ∧ ∀ h', h.unify a b = some h' → h.Unified a b h') ∧
    (∀ (K : Type) (m : Machine K) (r : Run K), r.state.heap = h →
      (m.proceedWith (h.unifier a b) r).2.state.heap = (h.unify a b).getD h ∧
      ∀ c, (Machine.unifyConst a c : RunM K Bool) r =
        (.ok (h.unifyConst a c).isSome, r.withState { r.state with heap := (h.unifyConst a c).getD h })) ∧
    ∀ c, (∀ k, h[k]? = some (.const c) → SameOutcome h.size (h.unifyConst a c) (h.unify a k)) ∧
      SameOutcome h.size (h.unifyConst a c) ((h.pushConst c).unify a h.size) := by
  refine ⟨⟨unify_eq_none_iff hs ha hb, fun h' hu => ?_⟩, fun K m r hr => ⟨?_, fun c => ?_⟩,
    fun c => ⟨fun k hk => ?_, ?_⟩⟩
  · obtain ⟨change, hchange, rfl⟩ := Option.map_eq_some_iff.1 hu
    exact unified_of_unifier hs ha hb hchange
  · rw [Machine.heap_proceedWith, hr]
    rfl
  · rw [Machine.unifyConst_eq, hr]
  · exact unifyConst_sameOutcome hs hs (Nat.le_refl _) (fun _ _ => rfl) ha hk
  · have hpushed : (h.pushConst c).Sound := hs.push (.const c) nofun
    have hsize : h.size ≤ (h.pushConst c).size :=
      Nat.le_of_lt (Nat.lt_of_lt_of_eq (Nat.lt_succ_self _) (size_push h _).symm)
    exact unifyConst_sameOutcome hs hpushed hsize (fun i hi => resolve_push h hs _ hi) ha (getElem?_push_top h _)

def chains : Heap := #[.ref 1, .ref 1, .ref 3, .ref 3, .const 7]

theorem sound_chains : chains.Sound := by
  have hfirst : Leads chains 0 1 1 := .free rfl
  have hsecond : Leads chains 0 3 3 := .free rfl
  intro i hi
  match i, hi with
  | 0, _ => exact ⟨1, 1, .step rfl (by decide) hfirst⟩
  | 1, _ => exact ⟨0, 1, hfirst⟩
  | 2, _ => exact ⟨1, 3, .step rfl (by decide) hsecond⟩
  | 3, _ => exact ⟨0, 3, hsecond⟩
  | 4, _ => exact ⟨0, 4, .const rfl⟩

/-- Cells 0 and 2 are unified by a reference from the root of the one to the root of the other. -/
theorem unify_most_general_chains : chains.Sound ∧ 0 < chains.size ∧ 2 < chains.size ∧
    chains.unify 0 2 = some #[.ref 1, .ref 3, .ref 3, .ref 3, .const 7] ∧
    chains.Unified 0 2 #[.ref 1, .ref 3, .ref 3, .ref 3, .const 7] := by
  have hunify : chains.unify 0 2 = some #[.ref 1, .ref 3, .ref 3, .ref 3, .const 7] := by decide
  exact ⟨sound_chains, by decide, by decide, hunify,
    (unify_most_general sound_chains (by decide) (by decide)).1.2 _ hunify⟩

end Heap

end ProofWalk
