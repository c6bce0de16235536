import Mathlib.Data.List.Nodup
import Mathlib.Data.List.Perm.Subperm
import ProofWalk.Machine.Builtin
/-!
# Proofs.Heap — chains of references end

In a sound heap every chain of references ends in a constant or in an unbound variable (`Leads`), so following
references reaches that end (`deref_of_leads`).  Pushing cells and binding variables keep a heap sound.  What a cell
stands for after a binding is what it stood for before, with the bound variable replaced (`resolve_bind`).

The program follows as many references as the heap has cells.  That this is enough is a fact about chains: the cells
of a chain are distinct, since each has its own distance from the end, and so a chain is shorter than the heap.
-/
namespace ProofWalk
namespace Heap

/-! ## Chains

A cell has one chain, and what a cell stands for is read at the end of it.  A heap is `Sound` if all of its cells
have one. -/

/-- **A chain of `n` references** from one cell to the constant or unbound variable at its end. -/
inductive Leads (h : Heap) : Nat → Nat → Nat → Prop
  | const {i c : Nat} (hi : h[i]? = some (.const c)) : Leads h 0 i i
  | free {i : Nat} (hi : h[i]? = some (.ref i)) : Leads h 0 i i
  | step {n i j e : Nat} (hi : h[i]? = some (.ref j)) (hne : j ≠ i) (hj : Leads h n j e) : Leads h (n + 1) i e

/-- **A heap whose chains all end.** -/
def Sound (h : Heap) : Prop := ∀ i < h.size, ∃ n e, Leads h n i e

theorem Leads.lt_size {h : Heap} {n i e : Nat} (hl : Leads h n i e) : i < h.size := by
  cases hl with
  | const hi => exact (Array.getElem?_eq_some_iff.1 hi).1
  | free hi => exact (Array.getElem?_eq_some_iff.1 hi).1
  | step hi _ _ => exact (Array.getElem?_eq_some_iff.1 hi).1

theorem Leads.end_cell {h : Heap} {n i e : Nat} (hl : Leads h n i e) :
    (∃ c, h[e]? = some (.const c)) ∨ h[e]? = some (.ref e) := by
  induction hl with
  | const hi => exact .inl ⟨_, hi⟩
  | free hi => exact .inr hi
  | step _ _ _ ih => exact ih

theorem Leads.end_leads {h : Heap} {n i e : Nat} (hl : Leads h n i e) : Leads h 0 e e := by
  rcases hl.end_cell with ⟨c, hc⟩ | hr
  · exact .const hc
  · exact .free hr

theorem Leads.unique {h : Heap} {n i e : Nat} (hl : Leads h n i e) :
    ∀ {n' e' : Nat}, Leads h n' i e' → n = n' ∧ e = e' := by
  induction hl with
  | const hi =>
    intro n' e' hl'
    cases hl' with
    | const _ => exact ⟨rfl, rfl⟩
    | free _ => exact ⟨rfl, rfl⟩
    | step hi' _ _ => rw [hi] at hi'; cases hi'
  | free hi =>
    intro n' e' hl'
    cases hl' with
    | const _ => exact ⟨rfl, rfl⟩
    | free _ => exact ⟨rfl, rfl⟩
    | step hi' hne _ => rw [hi] at hi'; cases hi'; exact absurd rfl hne
  | step hi hne _ ih =>
    intro n' e' hl'
    cases hl' with
    | const hi' => rw [hi] at hi'; cases hi'
    | free hi' => rw [hi] at hi'; cases hi'; exact absurd rfl hne
    | step hi' _ hj' =>
      rw [hi] at hi'
      cases hi'
      obtain ⟨rfl, rfl⟩ := ih hj'
      exact ⟨rfl, rfl⟩

theorem Leads.exists_path {h : Heap} {n i e : Nat} (hl : Leads h n i e) :
    ∃ path : List Nat, path.length = n + 1 ∧ path.Nodup ∧ ∀ x ∈ path, x < h.size ∧ ∃ k ≤ n, Leads h k x e := by
  induction hl with
  | @const i c hi =>
    refine ⟨[i], rfl, List.nodup_singleton i, fun x hx => ?_⟩
    obtain rfl := List.mem_singleton.1 hx
    exact ⟨(Leads.const hi).lt_size, 0, Nat.le_refl 0, .const hi⟩
  | @free i hi =>
    refine ⟨[i], rfl, List.nodup_singleton i, fun x hx => ?_⟩
    obtain rfl := List.mem_singleton.1 hx
    exact ⟨(Leads.free hi).lt_size, 0, Nat.le_refl 0, .free hi⟩
  | @step n i j e hi hne hj ih =>
    obtain ⟨path, hlen, hnodup, hmem⟩ := ih
    have hwhole : Leads h (n + 1) i e := .step hi hne hj
    have hi_notMem : i ∉ path := fun hin => by
      obtain ⟨-, k, hk, hlk⟩ := hmem i hin
      obtain ⟨hkn, -⟩ := hwhole.unique hlk
      omega
    refine ⟨i :: path, by rw [List.length_cons, hlen], List.nodup_cons.2 ⟨hi_notMem, hnodup⟩, fun x hx => ?_⟩
    rcases List.mem_cons.1 hx with rfl | hx
    · exact ⟨hwhole.lt_size, n + 1, Nat.le_refl _, hwhole⟩
    · obtain ⟨hlt, k, hk, hlk⟩ := hmem x hx
      exact ⟨hlt, k, by omega, hlk⟩

/-- **A chain is shorter than the heap.** -/
theorem Leads.length_lt {h : Heap} {n i e : Nat} (hl : Leads h n i e) : n < h.size := by
  obtain ⟨path, hlen, hnodup, hmem⟩ := hl.exists_path
  have hsub : path ⊆ List.range h.size := fun x hx => List.mem_range.2 (hmem x hx).1
  have hle := (List.subperm_of_subset hnodup hsub).length_le
  rw [List.length_range, hlen] at hle
  omega

theorem Leads.follow {h : Heap} {n i e : Nat} (hl : Leads h n i e) :
    ∀ {fuel : Nat}, n ≤ fuel → h.follow fuel i = e := by
  induction hl with
  | const hi =>
    intro fuel _
    cases fuel with
    | zero => rfl
    | succ fuel => rw [Heap.follow, hi]
  | free hi =>
    intro fuel _
    cases fuel with
    | zero => rfl
    | succ fuel => rw [Heap.follow, hi]; exact if_pos rfl
  | step hi hne _ ih =>
    intro fuel hle
    cases fuel with
    | zero => omega
    | succ fuel =>
      rw [Heap.follow, hi]
      exact (if_neg hne).trans (ih (by omega))

/-- **Following references reaches the end of the chain.** -/
theorem deref_of_leads {h : Heap} {n i e : Nat} (hl : Leads h n i e) : h.deref i = e :=
  hl.follow (Nat.le_succ_of_le (Nat.le_of_lt hl.length_lt))

namespace Sound

variable {h : Heap}

theorem leads (hs : h.Sound) {i : Nat} (hi : i < h.size) : ∃ n, Leads h n i (h.deref i) := by
  obtain ⟨n, e, hl⟩ := hs i hi
  rw [deref_of_leads hl]
  exact ⟨n, hl⟩

theorem deref_lt (hs : h.Sound) {i : Nat} (hi : i < h.size) : h.deref i < h.size := by
  obtain ⟨n, hl⟩ := hs.leads hi
  exact hl.end_leads.lt_size

theorem deref_deref (hs : h.Sound) {i : Nat} (hi : i < h.size) : h.deref (h.deref i) = h.deref i := by
  obtain ⟨n, hl⟩ := hs.leads hi
  exact deref_of_leads hl.end_leads

theorem resolve_cases (hs : h.Sound) {i : Nat} (hi : i < h.size) :
    (∃ c, h.resolve i = .const c ∧ h[h.deref i]? = some (.const c)) ∨
      (h.resolve i = .free (h.deref i) ∧ h[h.deref i]? = some (.ref (h.deref i))) := by
  obtain ⟨n, hl⟩ := hs.leads hi
  rcases hl.end_cell with ⟨c, hc⟩ | hr
  · exact .inl ⟨c, by rw [resolve, hc], hc⟩
  · exact .inr ⟨by rw [resolve, hr], hr⟩

theorem resolve_ne_unset (hs : h.Sound) {i : Nat} (hi : i < h.size) : h.resolve i ≠ .unset := by
  rcases hs.resolve_cases hi with ⟨c, hc, -⟩ | ⟨hr, -⟩
  · rw [hc]; exact fun he => nomatch he
  · rw [hr]; exact fun he => nomatch he

theorem root_of_free (hs : h.Sound) {i r : Nat} (hi : i < h.size) (hr : h.resolve i = .free r) :
    h.deref i = r ∧ h[r]? = some (.ref r) := by
  rcases hs.resolve_cases hi with ⟨c, hc, -⟩ | ⟨hf, hcell⟩
  · rw [hc] at hr; cases hr
  · rw [hf] at hr; cases hr; exact ⟨rfl, hcell⟩

theorem resolve_deref (hs : h.Sound) {i : Nat} (hi : i < h.size) : h.resolve (h.deref i) = h.resolve i := by
  rw [resolve, resolve, hs.deref_deref hi]

end Sound

theorem resolve_root {h : Heap} {r : Nat} (hr : h[r]? = some (.ref r)) : h.resolve r = .free r := by
  rw [resolve, deref_of_leads (.free hr), hr]

theorem Sound.ref_lt {h : Heap} (hs : h.Sound) {i j : Nat} (hi : h[i]? = some (.ref j)) : j < h.size := by
  obtain ⟨n, e, hl⟩ := hs i (Array.getElem?_eq_some_iff.1 hi).1
  cases hl with
  | const hi' => rw [hi] at hi'; cases hi'
  | free hi' => rw [hi] at hi'; cases hi'; exact (Array.getElem?_eq_some_iff.1 hi).1
  | step hi' _ hj => rw [hi] at hi'; cases hi'; exact hj.lt_size

/-! ## Pushing

A pushed cell refers to itself, to a cell below, or holds a constant; nothing changes below. -/

theorem size_push (h : Heap) (c : Cell) : Array.size (h.push c) = h.size + 1 := Array.size_push c

theorem getElem?_push_of_lt (h : Heap) (c : Cell) {i : Nat} (hi : i < h.size) : (h.push c)[i]? = h[i]? := by
  rw [Array.getElem?_push, if_neg (Nat.ne_of_lt hi)]

theorem getElem?_push_top (h : Heap) (c : Cell) : (h.push c)[h.size]? = some c := by
  rw [Array.getElem?_push, if_pos rfl]

theorem Leads.push {h : Heap} {n i e : Nat} (hl : Leads h n i e) (c : Cell) : Leads (h.push c) n i e := by
  induction hl with
  | const hi => exact .const ((getElem?_push_of_lt h c (Leads.const hi).lt_size).trans hi)
  | free hi => exact .free ((getElem?_push_of_lt h c (Leads.free hi).lt_size).trans hi)
  | step hi hne hj ih => exact .step ((getElem?_push_of_lt h c (Leads.step hi hne hj).lt_size).trans hi) hne ih

theorem deref_push (h : Heap) (hs : h.Sound) (c : Cell) {i : Nat} (hi : i < h.size) :
    deref (h.push c) i = h.deref i := by
  obtain ⟨n, hl⟩ := hs.leads hi
  exact deref_of_leads (hl.push c)

theorem resolve_push (h : Heap) (hs : h.Sound) (c : Cell) {i : Nat} (hi : i < h.size) :
    resolve (h.push c) i = h.resolve i := by
  rw [resolve, resolve, deref_push h hs c hi, getElem?_push_of_lt h c (hs.deref_lt hi)]

def pushedEnd (h : Heap) : Cell → Nat
  | .const _ => h.size
  | .ref j => if j = h.size then h.size else h.deref j

theorem leads_top (h : Heap) (hs : h.Sound) (c : Cell) (hc : ∀ j, c = .ref j → j ≤ h.size) :
    ∃ n, Leads (h.push c) n h.size (h.pushedEnd c) := by
  cases c with
  | const c => exact ⟨0, .const (getElem?_push_top h _)⟩
  | ref j =>
    rw [pushedEnd]
    by_cases hj : j = h.size
    · rw [if_pos hj]
      exact ⟨0, .free (by rw [getElem?_push_top, hj])⟩
    · rw [if_neg hj]
      obtain ⟨n, hl⟩ := hs.leads (Nat.lt_of_le_of_ne (hc j rfl) hj)
      exact ⟨n + 1, .step (getElem?_push_top h _) hj (hl.push _)⟩

theorem Sound.push {h : Heap} (hs : h.Sound) (c : Cell) (hc : ∀ j, c = .ref j → j ≤ h.size) :
    Sound (h.push c) := by
  intro i hi
  rw [Array.size_push] at hi
  rcases Nat.lt_succ_iff_lt_or_eq.1 hi with hlt | rfl
  · obtain ⟨n, e, hl⟩ := hs i hlt
    exact ⟨n, e, hl.push c⟩
  · obtain ⟨n, hl⟩ := leads_top h hs c hc
    exact ⟨n, _, hl⟩

theorem resolve_push_const (h : Heap) (hs : h.Sound) (c : Nat) :
    resolve (h.push (.const c)) h.size = .const c := by
  obtain ⟨n, hl⟩ := leads_top h hs (.const c) (fun _ he => nomatch he)
  rw [resolve, deref_of_leads hl, pushedEnd, getElem?_push_top]

theorem resolve_pushFree (h : Heap) : h.pushFree.resolve h.size = .free h.size :=
  resolve_root (getElem?_push_top h _)

theorem resolve_push_ref (h : Heap) (hs : h.Sound) {j : Nat} (hj : j < h.size) :
    resolve (h.push (.ref j)) h.size = h.resolve j := by
  obtain ⟨n, hl⟩ := leads_top h hs (.ref j) (fun i hi => by cases hi; exact Nat.le_of_lt hj)
  rw [resolve, deref_of_leads hl, pushedEnd, if_neg (Nat.ne_of_lt hj),
    getElem?_push_of_lt h _ (hs.deref_lt hj), resolve]

/-! ## Binding

Unification asks for a change that binds an unbound variable to a constant or to the end of another chain
(`Change.Fits`).  Chains through the variable grow by what it is bound to, and all others stay as they are. -/

def cellValue (h : Heap) : Cell → Binding
  | .const c => .const c
  | .ref j => h.resolve j

/-- **A change that binds an unbound variable** to a constant or to the end of another chain. -/
inductive Change.Fits (h : Heap) : Change → Prop
  | keep : Fits h .keep
  | bindConst {root c : Nat} (hr : h[root]? = some (.ref root)) : Fits h (.bind root (.const c))
  | bindRef {root e : Nat} (hr : h[root]? = some (.ref root)) (he : Leads h 0 e e) (hne : e ≠ root) :
      Fits h (.bind root (.ref e))

@[simp] theorem size_apply (h : Heap) (change : Change) : (h.apply change).size = h.size := by
  cases change with
  | keep => rfl
  | bind root cell => exact Array.size_setIfInBounds

theorem getElem?_bind_self {h : Heap} {root : Nat} (hr : root < h.size) (cell : Cell) :
    (h.apply (.bind root cell))[root]? = some cell := by
  show (h.setIfInBounds root cell)[root]? = some cell
  rw [Array.getElem?_setIfInBounds, if_pos rfl, if_pos hr]

theorem getElem?_bind_of_ne (h : Heap) {root i : Nat} (hne : root ≠ i) (cell : Cell) :
    (h.apply (.bind root cell))[i]? = h[i]? := by
  show (h.setIfInBounds root cell)[i]? = h[i]?
  rw [Array.getElem?_setIfInBounds, if_neg hne]

theorem Leads.bind_of_ne {h : Heap} {n i e root : Nat} (hl : Leads h n i e) (hr : h[root]? = some (.ref root))
    (hne : e ≠ root) (cell : Cell) : Leads (h.apply (.bind root cell)) n i e := by
  induction hl with
  | const hi => exact .const ((getElem?_bind_of_ne h (Ne.symm hne) cell).trans hi)
  | free hi => exact .free ((getElem?_bind_of_ne h (Ne.symm hne) cell).trans hi)
  | @step n i j e hi hji hj ih =>
    have hroot : root ≠ i := fun he => by
      subst he
      rw [hr] at hi
      cases hi
      exact hji rfl
    exact .step ((getElem?_bind_of_ne h hroot cell).trans hi) hji (ih hne)

theorem Leads.bind_of_eq {h : Heap} {n i e root : Nat} (hl : Leads h n i e) (he : e = root)
    (hr : h[root]? = some (.ref root)) {cell : Cell} {n' e' : Nat}
    (hnew : Leads (h.apply (.bind root cell)) n' root e') :
    ∃ k, Leads (h.apply (.bind root cell)) k i e' := by
  induction hl with
  | const hi => subst he; exact ⟨n', hnew⟩
  | free hi => subst he; exact ⟨n', hnew⟩
  | @step n i j e hi hji hj ih =>
    obtain ⟨k, hk⟩ := ih he
    have hroot : root ≠ i := fun hri => by
      rw [← hri, hr] at hi
      cases hi
      exact hji hri
    exact ⟨k + 1, .step ((getElem?_bind_of_ne h hroot cell).trans hi) hji hk⟩

def boundEnd (root : Nat) : Cell → Nat
  | .const _ => root
  | .ref e => e

theorem leads_bound {h : Heap} {root : Nat} {cell : Cell} (hf : Change.Fits h (.bind root cell)) :
    ∃ n, Leads (h.apply (.bind root cell)) n root (boundEnd root cell) := by
  cases hf with
  | bindConst hr => exact ⟨0, .const (getElem?_bind_self (Leads.free hr).lt_size _)⟩
  | @bindRef _ e hr he hne =>
    exact ⟨1, .step (getElem?_bind_self (Leads.free hr).lt_size _) hne (he.bind_of_ne hr hne _)⟩

theorem Change.Fits.root {h : Heap} {root : Nat} {cell : Cell} (hf : Change.Fits h (.bind root cell)) :
    h[root]? = some (.ref root) := by
  cases hf with
  | bindConst hr => exact hr
  | bindRef hr _ _ => exact hr

theorem Sound.apply {h : Heap} (hs : h.Sound) {change : Change} (hf : change.Fits h) : (h.apply change).Sound := by
  cases change with
  | keep => exact hs
  | bind root cell =>
    intro i hi
    rw [size_apply] at hi
    obtain ⟨n, e, hl⟩ := hs i hi
    by_cases he : e = root
    · subst he
      obtain ⟨n', hnew⟩ := leads_bound hf
      obtain ⟨k, hk⟩ := hl.bind_of_eq rfl hf.root hnew
      exact ⟨k, _, hk⟩
    · exact ⟨n, e, hl.bind_of_ne hf.root he cell⟩

theorem deref_bind {h : Heap} (hs : h.Sound) {root : Nat} {cell : Cell}
    (hf : Change.Fits h (.bind root cell)) {i : Nat} (hi : i < h.size) :
    (h.apply (.bind root cell)).deref i = if h.deref i = root then boundEnd root cell else h.deref i := by
  obtain ⟨n, hl⟩ := hs.leads hi
  split
  · rename_i he
    obtain ⟨n', hnew⟩ := leads_bound hf
    obtain ⟨k, hk⟩ := hl.bind_of_eq he hf.root hnew
    exact deref_of_leads hk
  · rename_i he
    exact deref_of_leads (hl.bind_of_ne hf.root he cell)

/-- **After a binding, a cell stands for what it stood for before, with the bound variable replaced.** -/
theorem resolve_bind {h : Heap} (hs : h.Sound) {root : Nat} {cell : Cell}
    (hf : Change.Fits h (.bind root cell)) {i : Nat} (hi : i < h.size) :
    (h.apply (.bind root cell)).resolve i = if h.resolve i = .free root then h.cellValue cell
      else h.resolve i := by
  have hroot := hf.root
  rw [resolve, deref_bind hs hf hi]
  by_cases he : h.deref i = root
  · have hfree : h.resolve i = .free root := by rw [resolve, he, hroot]
    rw [if_pos he, if_pos hfree]
    cases hf with
    | bindConst hr => rw [boundEnd, getElem?_bind_self (Leads.free hr).lt_size, cellValue]
    | @bindRef _ e hr hle hne =>
      rw [boundEnd, getElem?_bind_of_ne h (Ne.symm hne), cellValue, resolve, deref_of_leads hle]
  · have hfree : h.resolve i ≠ .free root := fun hc => he (hs.root_of_free hi hc).1
    rw [if_neg he, if_neg hfree, getElem?_bind_of_ne h (Ne.symm he), resolve]

theorem matchConst_fits {h : Heap} (hs : h.Sound) {i c : Nat} (hi : i < h.size) {change : Change}
    (hm : h.matchConst i c = some change) : change.Fits h := by
  unfold matchConst at hm
  rcases hs.resolve_cases hi with ⟨d, hd, -⟩ | ⟨hr, hcell⟩
  · rw [hd] at hm
    dsimp only at hm
    split at hm
    · cases hm; exact .keep
    · cases hm
  · rw [hr] at hm
    cases hm
    exact .bindConst hcell

theorem unifier_eq {h : Heap} (hs : h.Sound) {a b : Nat} (ha : a < h.size) (hb : b < h.size) :
    h.unifier a b =
      match h.resolve a, h.resolve b with
      | .const x, .const y => if x = y then some .keep else none
      | .free r, .free r' => if r = r' then some .keep else some (.bind r (.ref r'))
      | .free r, _ => some (.bind r (.ref (h.deref b)))
      | _, .free r' => some (.bind r' (.ref (h.deref a)))
      | _, _ => none := by
  unfold unifier
  rcases hs.resolve_cases ha with ⟨x, hx, hcx⟩ | ⟨hra, hca⟩ <;>
    rcases hs.resolve_cases hb with ⟨y, hy, hcy⟩ | ⟨hrb, hcb⟩
  · rw [hx, hy]
    dsimp only
    by_cases he : h.deref a = h.deref b
    · rw [he, hcy] at hcx
      cases hcx
      rw [if_pos he, if_pos rfl]
    · rw [if_neg he, hcx, hcy]
  · have he : h.deref a ≠ h.deref b := fun he => by rw [he, hcb] at hcx; cases hcx
    rw [hx, hrb, if_neg he, hcx, hcb]
  · have he : h.deref a ≠ h.deref b := fun he => by rw [he, hcy] at hca; cases hca
    rw [hra, hy, if_neg he, hca, hcy]
  · rw [hra, hrb]
    dsimp only
    by_cases he : h.deref a = h.deref b
    · rw [if_pos he, if_pos he]
    · rw [if_neg he, if_neg he, hca, hcb]

theorem unifier_fits {h : Heap} (hs : h.Sound) {a b : Nat} (ha : a < h.size) (hb : b < h.size) {change : Change}
    (hu : h.unifier a b = some change) : change.Fits h := by
  obtain ⟨na, hla⟩ := hs.leads ha
  obtain ⟨nb, hlb⟩ := hs.leads hb
  unfold unifier at hu
  dsimp only at hu
  split at hu
  · cases hu; exact .keep
  · rename_i hne
    rcases hla.end_cell with ⟨x, hx⟩ | hra <;> rcases hlb.end_cell with ⟨y, hy⟩ | hrb
    · rw [hx, hy] at hu
      dsimp only at hu
      split at hu
      · cases hu; exact .keep
      · cases hu
    · rw [hx, hrb] at hu
      cases hu
      exact .bindRef hrb hla.end_leads hne
    · rw [hra, hy] at hu
      cases hu
      exact .bindRef hra hlb.end_leads (Ne.symm hne)
    · rw [hra, hrb] at hu
      cases hu
      exact .bindRef hra hlb.end_leads (Ne.symm hne)

end Heap

/-! ## Builtins

Of the builtins only an assignment changes the heap. -/

namespace Builtin

variable {b : Builtin} {h : Heap} {first second : Nat}

theorem change_of_run {change : Heap.Change} (hrun : b.run h first second = .ok (some change)) :
    change = .keep ∨ ∃ root value, b = .assign ∧ h.resolve first = .free root ∧
      change = .bind root (.const value) := by
  cases b with
  | eq | neq =>
    left
    simp only [run, bind, Except.bind, pure, Except.pure] at hrun
    grind
  | assign =>
    simp only [run, bind, Except.bind, pure, Except.pure, throw, throwThe, MonadExceptOf.throw] at hrun
    grind

theorem error_of_run {e : LogicError} (hrun : b.run h first second = .error e) :
    ∃ message, e = .builtinPrecondition b.label message := by
  cases b with
  | eq | neq | assign =>
    simp only [run, bound, bind, Except.bind, pure, Except.pure, throw, throwThe, MonadExceptOf.throw] at hrun
    grind

end Builtin
end ProofWalk
