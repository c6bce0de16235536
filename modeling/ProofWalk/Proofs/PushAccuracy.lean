import ProofWalk.Proofs.PushBudget
import ProofWalk.Proofs.RegularGraphs
/-!
# Proofs.PushAccuracy — passes of pushes end, and leave little residual mass

The passes at one threshold go on until one of them makes no push, or until their number reaches its bound
(`Passing`).  Every push at a threshold is paid for (`Walk.Budgeted`), so passes end; a pass without pushes has
found every state calm.

The program takes two bounds that it never reaches, on the number of thresholds and on the number of passes.  So
that the result does not speak of them, the loop is described by relations without bounds (`Passing`, `PassingAll`),
and the program is shown to run it to its end.
-/
namespace ProofWalk

open MassVector (mass)

variable {K V : Type} [Field K] [LinearOrder K] [FloorSemiring K] [MassVector V K] [Exponential K]

/-! ## The loop

One case for each way in which passes at a threshold go on or end. -/

/-- **The thresholds from a level on down**, as long as they are not close to the last one. -/
inductive Thresholds (epsilon : K) : K → List K → Prop
  | last {level : K} (h : ¬epsilon * (1 + 1 / 1000000000) < level) : Thresholds epsilon level [epsilon]
  | next {level : K} {rest : List K} (h : epsilon * (1 + 1 / 1000000000) < level)
    (hrest : Thresholds epsilon (level / 10) rest) : Thresholds epsilon level (level :: rest)

/-- **Passes at one threshold** from some masses, with the number of passes so far, to others. -/
inductive Passing (w : Weighter K) (settings : ProverSettings K) (name : String) (level : K) :
    Pushing V × Nat → ProofState K → Pushing V × Nat → ProofState K → Prop
  | capped {st : Pushing V} {passes : Nat} {τ : ProofState K}
    (hcap : settings.apr.stopEarly.any (· ≤ passes) = true) :
    Passing w settings name level (st, passes) τ (st, passes) τ
  | idle {st next : Pushing V} {passes : Nat} {τ τ' : ProofState K}
    (hcap : settings.apr.stopEarly.any (· ≤ passes) = false)
    (hpass : (ProofGraph.walk w).pass settings level st τ = (.ok next, τ')) (hidle : next.pushes = st.pushes) :
    Passing w settings name level (st, passes) τ (next, passes) τ'
  | again {st next : Pushing V} {passes : Nat} {τ τ₁ τ₂ τ' : ProofState K} {last : Pushing V × Nat}
    (hcap : settings.apr.stopEarly.any (· ≤ passes) = false)
    (hpass : (ProofGraph.walk w).pass settings level st τ = (.ok next, τ₁)) (hbusy : next.pushes ≠ st.pushes)
    (hreport : (ProofGraph.walk w).progress name (passes + 1) next.pushes next.settled next.residual τ₁ =
      (.ok (), τ₂))
    (hrest : Passing w settings name level (next, passes + 1) τ₂ last τ') :
    Passing w settings name level (st, passes) τ last τ'

/-- **Passes at some thresholds, one after the other.** -/
inductive PassingAll (w : Weighter K) (settings : ProverSettings K) (name : String) :
    List K → Pushing V × Nat → ProofState K → Pushing V × Nat → ProofState K → Prop
  | done {st : Pushing V × Nat} {τ : ProofState K} : PassingAll w settings name [] st τ st τ
  | next {level : K} {rest : List K} {st st' last : Pushing V × Nat} {τ τ₁ τ' : ProofState K}
    (hhere : Passing w settings name level st τ st' τ₁) (hrest : PassingAll w settings name rest st' τ₁ last τ') :
    PassingAll w settings name (level :: rest) st τ last τ'

/-! ## Thresholds

Thresholds fall by factors of ten, and the bound on their number exceeds the number of digits of `1 / epsilon`; so
they come close to `epsilon` before it is reached. -/

omit [MassVector V K] [Exponential K] in
theorem levelsFrom_thresholds [IsStrictOrderedRing K] {epsilon : K}
    (hepsilon : 0 < epsilon) {fuel : Nat} {level : K} (hfuel : level < epsilon * 10 ^ fuel) :
    Thresholds epsilon level (Walk.levelsFrom epsilon fuel level ++ [epsilon]) := by
  have hten : (Scalar.ofNat 10 : K) = 10 := Scalar.ofNat_eq 10
  have hnear : (Scalar.ofNat 1000000000 : K) = 1000000000 := Scalar.ofNat_eq 1000000000
  induction fuel generalizing level with
  | zero =>
    refine .last fun h => ?_
    rw [pow_zero, mul_one] at hfuel
    have hmore : epsilon < epsilon * (1 + 1 / 1000000000) := by
      rw [mul_add, mul_one]
      exact lt_add_of_pos_right _ (mul_pos hepsilon (by norm_num))
    exact lt_asymm hmore (h.trans hfuel)
  | succ fuel ih =>
    unfold Walk.levelsFrom
    rw [hten, hnear]
    split
    · rename_i h
      refine .next h (ih ?_)
      rw [div_lt_iff₀ (by norm_num), mul_assoc, ← pow_succ]
      exact hfuel
    · rename_i h
      exact .last h

omit [MassVector V K] [Exponential K] in
theorem levels_thresholds [IsStrictOrderedRing K] {epsilon : K} (hepsilon : 0 < epsilon) :
    Thresholds epsilon 1 (Walk.levels epsilon) := by
  refine levelsFrom_thresholds hepsilon ?_
  have hdigits : ∀ n, n < 10 ^ Decimal.digitCount n := fun n =>
    (Nat.length_toDigits_le_iff (by decide) Nat.length_toDigits_pos).1 le_rfl
  have hceil : 1 / epsilon ≤ Scalar.ceil (1 / epsilon) := Nat.le_ceil _
  have hpower : ((Scalar.ceil (1 / epsilon) : Nat) : K) < 10 ^ Decimal.digitCount (Scalar.ceil (1 / epsilon)) := by
    exact_mod_cast hdigits _
  have hmore : (10 : K) ^ Decimal.digitCount (Scalar.ceil (1 / epsilon)) ≤
      10 ^ (Decimal.digitCount (Scalar.ceil (1 / epsilon)) + 400) :=
    pow_le_pow_right₀ (by norm_num) (Nat.le_add_right _ _)
  rw [mul_comm, ← div_lt_iff₀ hepsilon]
  exact hceil.trans_lt (hpower.trans_le hmore)

omit [MassVector V K] [Exponential K] in
theorem Thresholds.epsilon_le [IsStrictOrderedRing K] {epsilon level : K}
    {levels : List K} (hepsilon : 0 < epsilon) (h : Thresholds epsilon level levels) :
    ∀ x ∈ levels, epsilon ≤ x := by
  induction h with
  | last h => simp
  | next h _ ih =>
    refine List.forall_mem_cons.2 ⟨le_of_lt (lt_of_le_of_lt ?_ h), ih⟩
    rw [mul_add, mul_one]
    exact le_add_of_nonneg_right (mul_nonneg hepsilon.le (by norm_num))

/-! ## Legal weights

A weighter refuses a negative weight or takes zero for it, so that weights that are given are not negative. -/

namespace Weighter

def Refuses (w : Weighter K) (e : ProverError K) : Prop :=
  ∃ illegal, e = .weight illegal ∧ w.weighNamed illegal.features = .error e ∧ illegal.weight < 0

def Yields {α : Type} (w : Weighter K) (good : α → Prop) : Except (ProverError K) α → Prop
  | .ok a => good a
  | .error e => w.Refuses e

variable {α β : Type} {w : Weighter K}

theorem Yields.bind {x : Except (ProverError K) α} {f : α → Except (ProverError K) β}
    {good : α → Prop} {good' : β → Prop} (hx : w.Yields good x) (hf : ∀ a, good a → w.Yields good' (f a)) :
    w.Yields good' (x >>= f) := by
  cases x with
  | error e => exact hx
  | ok a => exact hf a hx

theorem weighNamed_eq (w : Weighter K) (l : List (String × K)) : w.weighNamed l =
    let y := w.squash.apply (Scalar.sum (l.map fun e => e.2 * w.param e.1))
    if 0 ≤ y then .ok y else if w.strict then .error (.weight ⟨y, l⟩) else .ok 0 := by
  have hfinite (x : K) : Scalar.isFinite x = true := rfl
  unfold weighNamed check
  simp only [hfinite, Bool.true_and, decide_eq_true_eq]
  split
  · rfl
  · split <;> rfl

theorem weighNamed_yields (l : List (String × K)) : w.Yields (0 ≤ ·) (w.weighNamed l) := by
  by_cases hlegal : 0 ≤ w.squash.apply (Scalar.sum (l.map fun e => e.2 * w.param e.1))
  · rw [weighNamed_eq, if_pos hlegal]
    exact hlegal
  · by_cases hstrict : w.strict = true
    · have hrefused := w.weighNamed_eq l
      rw [if_neg hlegal, if_pos hstrict] at hrefused
      rw [hrefused]
      exact ⟨_, rfl, hrefused, not_le.1 hlegal⟩
    · rw [weighNamed_eq, if_neg hlegal, if_neg hstrict]
      exact le_rfl

theorem weighAll_yields (edges : List (Nat × List (String × K))) :
    w.Yields (fun weights => ∀ x ∈ weights, 0 ≤ x.2 ∧ ∃ e ∈ edges, e.1 = x.1) (w.weighAll edges) := by
  induction edges with
  | nil => exact nofun
  | cons e rest ih =>
    refine (weighNamed_yields e.2).bind fun weight hweight => ih.bind fun weights hweights => ?_
    refine List.forall_mem_cons.2 ⟨⟨hweight, e, List.mem_cons_self, rfl⟩, fun x hx => ?_⟩
    obtain ⟨hlegal, e', he', hchild⟩ := hweights x hx
    exact ⟨hlegal, e', List.mem_cons_of_mem _ he', hchild⟩

theorem linksOf_yields (id : Nat) (looped : Bool) (edges : List (Nat × List (String × K))) :
    w.Yields (fun links => ∀ l ∈ links, 0 ≤ l.weight ∧ (l.child = 0 ∨ l.child = id ∨ ∃ e ∈ edges, e.1 = l.child))
      (w.linksOf id looped edges) := by
  have hloop : w.Yields (fun loops : List (Link K) => ∀ l ∈ loops, 0 ≤ l.weight ∧ l.child = id)
      (w.weighLoop id looped) := by
    unfold weighLoop
    split
    · refine (weighNamed_yields _).bind fun weight hweight => ?_
      exact List.forall_mem_singleton.2 ⟨hweight, rfl⟩
    · exact nofun
  refine (weighAll_yields edges).bind fun derived hderived => hloop.bind fun loops hloops =>
    (weighNamed_yields _).bind fun restart hrestart => fun l hl => ?_
  rcases List.mem_append.1 hl with hl | hl
  · rcases List.mem_append.1 hl with hl | hl
    · obtain ⟨x, hx, rfl⟩ := List.mem_map.1 hl
      exact ⟨(hderived x hx).1, .inr (.inr (hderived x hx).2)⟩
    · exact ⟨(hloops l hl).1, .inr (.inl (hloops l hl).2)⟩
  · rw [List.mem_singleton.1 hl]
    exact ⟨hrestart, .inl rfl⟩

end Weighter

/-! ## Proofs under way

`Sound` is the invariant of masses under way: they have been paid for, lie on states of a regular graph, and settled
mass is only where it may be.  A state is `Calm` at a threshold if it need not be pushed; what is calm stays so
while the graph grows. -/

def ProverSettings.Allows (settings : ProverSettings K) (g : ProofGraph K) (u : Nat) : Prop :=
  ∀ limit, settings.maxTreeDepth = some limit → ∀ s, g.state? u = some s → s.stack.length ≤ limit

def ProofGraph.degreeOf (s : Store (ProofGraph K) K) (u : Nat) : Nat :=
  match (degree u true s).1 with
  | .ok d => d
  | .error _ => 0

def ProofGraph.DegreeStands (w : Weighter K) (g : ProofGraph K) (u d : Nat) : Prop :=
  ∀ t : Store (ProofGraph K) K, (growth w).sound t.graph → (growth w).grows g t.graph → (degree u true t).1 = .ok d

/-- **A state that need not be pushed** at a threshold: it holds little residual mass for its degree, or none, or it
may not be settled. -/
def Calm (settings : ProverSettings K) (w : Weighter K) (level : K) (τ : ProofState K)
    (st : Pushing V) (u : Nat) : Prop :=
  mass st.residual u ≤ 0 ∨ ¬settings.Allows τ.store.graph u ∨
    ∃ d, ProofGraph.DegreeStands w τ.store.graph u d ∧ mass st.residual u ≤ level * d

/-- **Why a proof may halt**: an edge has a negative weight, which a strict weighter refuses, or the audience has
lost its patience. -/
inductive Halted (w : Weighter K) (audience : Audience) : Halt K → Prop
  | refused {e : ProverError K} (h : w.Refuses e) : Halted w audience (.failed e)
  | abandoned {n : Nat} (h : audience = .present (some n)) : Halted w audience .abandoned

/-- What a proof keeps of the state in which it was. -/
structure Grown (w : Weighter K) (τ τ' : ProofState K) : Prop where
  grows : (ProofGraph.growth w).grows τ.store.graph τ'.store.graph
  audience : τ'.audience = τ.audience

/-- **Masses under way**: paid for, on states of a regular graph, and settled only where that is allowed. -/
structure Sound (settings : ProverSettings K) (params : Nat → Params K) (τ : ProofState K)
    (st : Pushing V) : Prop where
  regular : ProofGraph.Regular params τ.store
  budgeted : Walk.Budgeted settings st
  placed : ∀ u, mass st.residual u ≠ 0 → (τ.store.graph.states.get? u).isSome
  allowed : ∀ u, mass st.settled u ≠ 0 → (τ.store.graph.states.get? u).isSome ∧ settings.Allows τ.store.graph u

section

variable {settings : ProverSettings K} {params : Nat → Params K} {w : Weighter K} {level : K}
  {τ τ' τ'' : ProofState K} {st : Pushing V} {u : Nat}

omit [LinearOrder K] [FloorSemiring K] [MassVector V K] [Exponential K] [Field K] in
theorem Grown.refl (w : Weighter K) (τ : ProofState K) : Grown w τ τ := ⟨(ProofGraph.growth w).refl _, rfl⟩

omit [LinearOrder K] [FloorSemiring K] [MassVector V K] [Exponential K] [Field K] in
theorem Grown.trans (h : Grown w τ τ') (h' : Grown w τ' τ'') : Grown w τ τ'' :=
  ⟨(ProofGraph.growth w).trans h.grows h'.grows, h'.audience.trans h.audience⟩

omit [LinearOrder K] [FloorSemiring K] [MassVector V K] [Exponential K] [Field K] in
theorem Grown.states (h : Grown w τ τ') : Extends τ.store.graph.states.get? τ'.store.graph.states.get? := by
  have hgrows := h.grows
  generalize τ.store.graph = g, τ'.store.graph = g' at hgrows
  cases g <;> cases g'
  · exact hgrows.1
  · exact hgrows.elim
  · exact hgrows.elim
  · exact hgrows.states

omit [LinearOrder K] [FloorSemiring K] [MassVector V K] [Exponential K] [Field K] in
theorem Grown.allows_iff (h : Grown w τ τ') (hu : (τ.store.graph.states.get? u).isSome) :
    settings.Allows τ'.store.graph u ↔ settings.Allows τ.store.graph u := by
  unfold ProverSettings.Allows ProofGraph.state?
  rw [h.states.eq hu]

omit [Exponential K] in
theorem Sound.grow (h : Sound settings params τ st) (hregular : ProofGraph.Regular params τ'.store)
    (hgrown : Grown w τ τ') : Sound settings params τ' st where
  regular := hregular
  budgeted := h.budgeted
  placed u hu := hgrown.states.isSome (h.placed u hu)
  allowed u hu :=
    ⟨hgrown.states.isSome (h.allowed u hu).1, (hgrown.allows_iff (h.allowed u hu).1).2 (h.allowed u hu).2⟩

omit [Exponential K] in
theorem Calm.grow (h : Calm settings w level τ st u) (hsound : Sound settings params τ st)
    (hgrown : Grown w τ τ') : Calm settings w level τ' st u := by
  by_cases hmass : mass st.residual u = 0
  · exact .inl hmass.le
  · rcases h with hnone | hdeep | ⟨d, hd, hlittle⟩
    · exact .inl hnone
    · exact .inr (.inl ((hgrown.allows_iff (hsound.placed u hmass)).not.2 hdeep))
    · exact .inr (.inr ⟨d, fun t ht hgrows => hd t ht ((ProofGraph.growth w).trans hgrown.grows hgrows), hlittle⟩)

/-! ## Proofs that end

`Ends` is the triple for computations of a proof: they come to a result as told, on a graph that has grown, or they
halt for a reason.  No other outcome is left open. -/

/-- **A computation that ends**: with a result as told, or it halts for a reason. -/
def Ends {α : Type} (w : Weighter K) (τ : ProofState K) (x : ProofM K α) (good : α → ProofState K → Prop) : Prop :=
  (∃ a τ', x τ = (.ok a, τ') ∧ Grown w τ τ' ∧ good a τ') ∨ ∃ halt, (x τ).1 = .error halt ∧ Halted w τ.audience halt

section

variable {α β : Type} {x : ProofM K α} {good : α → ProofState K → Prop}

omit [MassVector V K] in
theorem ends_pure {a : α} (h : good a τ) : Ends w τ (pure a) good := .inl ⟨a, τ, rfl, .refl w τ, h⟩

omit [MassVector V K] in
theorem Ends.mono {good' : α → ProofState K → Prop} (h : Ends w τ x good)
    (hmono : ∀ a τ', Grown w τ τ' → good a τ' → good' a τ') : Ends w τ x good' := by
  rcases h with ⟨a, τ', hrun, hgrown, ha⟩ | hhalted
  · exact .inl ⟨a, τ', hrun, hgrown, hmono a τ' hgrown ha⟩
  · exact .inr hhalted

omit [MassVector V K] in
theorem Ends.bind {f : α → ProofM K β} {good' : β → ProofState K → Prop} (hx : Ends w τ x good)
    (hf : ∀ a τ', x τ = (.ok a, τ') → Grown w τ τ' → good a τ' → Ends w τ' (f a) good') :
    Ends w τ (x >>= f) good' := by
  rcases hx with ⟨a, τ₁, hrun, hgrown, ha⟩ | ⟨halt, hhalt, hreason⟩
  · unfold Ends
    rw [bind_ok hrun]
    rcases hf a τ₁ hrun hgrown ha with ⟨b, τ₂, hrun', hgrown', hb⟩ | ⟨halt, hhalt, hreason⟩
    · exact .inl ⟨b, τ₂, hrun', hgrown.trans hgrown', hb⟩
    · exact .inr ⟨halt, hhalt, hgrown.audience ▸ hreason⟩
  · rcases hrun : x τ with ⟨r, τ₁⟩
    rw [hrun] at hhalt
    obtain rfl : r = .error halt := hhalt
    unfold Ends
    rw [bind_error hrun]
    exact .inr ⟨halt, rfl, hreason⟩

end

/-! ## Requests of a pusher

Each comes to an answer and leaves masses sound.  That a degree is positive makes ratios meaningful. -/

omit [MassVector V K] in
theorem ends_settleable (settings : ProverSettings K) (w : Weighter K) (τ : ProofState K) (u : Nat) :
    Ends w τ ((ProofGraph.walk w).settleable settings u) fun allowed τ' =>
      τ' = τ ∧ (allowed = true ↔ settings.Allows τ.store.graph u) := by
  unfold Walk.settleable ProverSettings.Allows
  cases settings.maxTreeDepth with
  | none => exact ends_pure ⟨rfl, by simp⟩
  | some limit =>
    refine .inl ⟨_, τ, rfl, .refl w τ, rfl, ?_⟩
    cases τ.store.graph.state? u with
    | none => simp
    | some s => simp

theorem ends_report (w : Weighter K) (τ : ProofState K)
    (name : String) (number pushes : Nat) (settled residual : V) :
    Ends w τ ((ProofGraph.walk w).progress name number pushes settled residual)
      fun _ τ' => τ'.store = τ.store := by
  obtain ⟨store, reports, audience⟩ := τ
  obtain ⟨r, hr⟩ : ∃ r : Thunk (Progress K),
      (ProofGraph.walk w).progress name number pushes settled residual = ProofM.report r := ⟨_, rfl⟩
  rw [hr]
  cases audience with
  | absent => exact .inl ⟨(), _, rfl, .refl w _, rfl⟩
  | present patience =>
    have hrun : ProofM.report r ⟨store, reports, .present patience⟩ =
      (if patience = some (reports.push r.get).size then throw .abandoned else pure () : ProofM K Unit)
        ⟨store, reports.push r.get, .present patience⟩ := rfl
    unfold Ends
    rw [hrun]
    split
    · rename_i hpatience
      exact .inr ⟨.abandoned, rfl, .abandoned (congrArg Audience.present hpatience)⟩
    · exact .inl ⟨(), _, rfl, ⟨(ProofGraph.growth w).refl _, rfl⟩, rfl⟩

theorem Sound.degree (h : Sound settings params τ st) (w : Weighter K)
    (hu : (τ.store.graph.states.get? u).isSome) :
    ∃ n τ', (ProofGraph.walk w).degree u τ = (.ok (n + 1), τ') ∧ Sound settings params τ' st ∧ Grown w τ τ' ∧
      ProofGraph.DegreeStands w τ'.store.graph u (n + 1) := by
  obtain ⟨n, hn, hregular⟩ := h.regular.degree hu true
  obtain ⟨-, hgrows, hanswer⟩ := ProofGraph.steady_degree w u true τ.store (h.regular.sound w)
  have hgrown : Grown w τ { τ with store := (ProofGraph.degree u true τ.store).2 } := ⟨hgrows, rfl⟩
  refine ⟨n, _, ?_, h.grow hregular hgrown, hgrown, hanswer _ hn⟩
  show ProofM.onGraph (ProofGraph.degree u true) τ = _
  rw [onGraph_eq, hn]
  rfl

theorem ends_ratio [IsStrictOrderedRing K] (h : Sound settings params τ st) (w : Weighter K) (u : Nat) :
    Ends w τ ((ProofGraph.walk w).ratio st u) fun x τ' => Sound settings params τ' st ∧ ∀ level, 0 ≤ level →
      (x ≤ level → Calm settings w level τ' st u) ∧
        (level < x → level < mass st.residual u ∧ (τ.store.graph.states.get? u).isSome) := by
  unfold Walk.ratio
  by_cases hnone : mass st.residual u ≤ 0
  · simp only [hnone, if_true]
    exact ends_pure ⟨h, fun level hlevel => ⟨fun _ => .inl hnone, fun hx => absurd hx (not_lt.2 hlevel)⟩⟩
  · have hu : (τ.store.graph.states.get? u).isSome := h.placed u fun h0 => hnone h0.le
    obtain ⟨n, τ', hdegree, hsound, hgrown, hstands⟩ := h.degree w hu
    have hpos : (0 : K) < (n + 1 : Nat) := Nat.cast_pos.2 n.succ_pos
    have hrun : (ProofGraph.walk w).ratio st u τ = (.ok (mass st.residual u / (n + 1 : Nat)), τ') := by
      unfold Walk.ratio
      simp only [hnone, if_false]
      rw [bind_ok hdegree, Scalar.ofNat_eq]
      rfl
    refine .inl ⟨_, τ', hrun, hgrown, hsound, fun level hlevel => ⟨fun hx => ?_, fun hx => ⟨?_, hu⟩⟩⟩
    · exact .inr (.inr ⟨n + 1, hstands, (div_le_iff₀ hpos).1 hx⟩)
    · refine lt_of_le_of_lt (le_mul_of_one_le_right hlevel ?_) ((lt_div_iff₀ hpos).1 hx)
      rw [Nat.cast_succ]
      exact le_add_of_nonneg_left n.cast_nonneg

/-! ## Pushes

A computation that is `Careful` about some states has pushed, or it has found them calm. -/

/-- **Settings for which pushes make sense.** -/
structure ProverSettings.Sensible (settings : ProverSettings K) : Prop where
  epsilon : 0 < settings.apr.epsilon ∧ settings.apr.epsilon < 1
  alpha : settings.apr.epsilon ≤ settings.apr.alpha ∧ settings.apr.alpha ≤ 1
  stay : 0 ≤ settings.stay ∧ settings.stay < 1

omit [Exponential K] in
theorem mass_spread_ne_zero [LawfulMass V K] {moved : K} {links : List (Link K)} {v : V} {i : Nat}
    (h : mass (links.foldl (fun r l => MassVector.add r l.child (moved * l.weight)) v) i ≠ 0) :
    mass v i ≠ 0 ∨ ∃ l ∈ links, l.child = i := by
  induction links generalizing v with
  | nil => exact .inl h
  | cons l rest ih =>
    rcases ih h with hadded | ⟨l', hl', hchild⟩
    · rw [LawfulMass.mass_add] at hadded
      split at hadded
      · rename_i hi
        exact .inr ⟨l, List.mem_cons_self, hi.symm⟩
      · exact .inl hadded
    · exact .inr ⟨l', List.mem_cons_of_mem l hl', hchild⟩

omit [Exponential K] in
theorem Sound.pushed [IsStrictOrderedRing K] [LawfulMass V K] (hsettings : settings.Sensible)
    (h : Sound settings params τ st) (hallows : settings.Allows τ.store.graph u)
    (hu : settings.apr.epsilon < mass st.residual u) {links : List (Link K)}
    (hlinks : ∀ l ∈ links, 0 ≤ l.weight ∧ (τ.store.graph.states.get? l.child).isSome) :
    Sound settings params τ (Walk.pushed settings st u (Walk.normalize links)) where
  regular := h.regular
  budgeted := h.budgeted.pushed ⟨hsettings.epsilon.1.trans_le hsettings.alpha.1, hsettings.alpha.2⟩
    ⟨hsettings.stay.1, hsettings.stay.2.le⟩ hu fun l hl => (hlinks l hl).1
  placed i hi := by
    have hstate : (τ.store.graph.states.get? u).isSome := h.placed u (hsettings.epsilon.1.trans hu).ne'
    rcases mass_spread_ne_zero hi with hkept | ⟨l, hl, rfl⟩
    · rw [LawfulMass.mass_set] at hkept
      split at hkept
      · rename_i hiu
        rw [hiu]
        exact hstate
      · exact h.placed i hkept
    · obtain ⟨l', hl', hchild, -⟩ := Walk.mem_normalize hl
      rw [← hchild]
      exact (hlinks l' hl').2
  allowed i hi := by
    by_cases hiu : i = u
    · rw [hiu]
      exact ⟨h.placed u (hsettings.epsilon.1.trans hu).ne', hallows⟩
    · refine h.allowed i ?_
      have hsettled := LawfulMass.mass_add st.settled u (settings.apr.alpha * mass st.residual u) i
      rw [if_neg hiu] at hsettled
      exact hsettled ▸ hi

/-- **A computation that is careful about some states**: it pushes, or finds that they are calm. -/
def Careful {α : Type} (settings : ProverSettings K) (params : Nat → Params K) (w : Weighter K)
    (level : K) (st : Pushing V) (us : List Nat) (x : ProofM K α) (next : α → Pushing V) : Prop :=
  ∀ τ, Sound settings params τ st → Ends w τ x fun a τ' => Sound settings params τ' (next a) ∧
    (st.pushes < (next a).pushes ∨ next a = st ∧ ∀ u ∈ us, Calm settings w level τ' st u)

variable {α β : Type} {us us' : List Nat}

theorem careful_pure (next : α → Pushing V) (a : α) : Careful settings params w level (next a) [] (pure a) next :=
  fun _ h => ends_pure ⟨h, .inr ⟨rfl, nofun⟩⟩

theorem Careful.of_subset {x : ProofM K α} {next : α → Pushing V}
    (h : Careful settings params w level st us x next) (hsub : us' ⊆ us) :
    Careful settings params w level st us' x next := by
  refine fun τ hτ => (h τ hτ).mono fun a τ' _ ha => ⟨ha.1, ?_⟩
  rcases ha.2 with hpushed | ⟨heq, hcalm⟩
  · exact .inl hpushed
  · exact .inr ⟨heq, fun u hu => hcalm u (hsub hu)⟩

theorem Careful.bind {x : ProofM K α} {f : α → ProofM K β} {next : α → Pushing V} {next' : β → Pushing V}
    (hx : Careful settings params w level st us x next)
    (hf : ∀ a, Careful settings params w level (next a) us' (f a) next') :
    Careful settings params w level st (us ++ us') (x >>= f) next' := by
  refine fun τ hτ => (hx τ hτ).bind fun a τ₁ _ _ ha => (hf a τ₁ ha.1).mono fun b τ₂ hgrown hb => ⟨hb.1, ?_⟩
  rcases ha.2 with hpushed | ⟨heq, hcalm⟩
  · left
    rcases hb.2 with hpushed' | ⟨heq', -⟩
    · exact hpushed.trans hpushed'
    · rw [heq']
      exact hpushed
  · have hsound := heq ▸ ha.1
    rw [heq] at hb
    rcases hb.2 with hpushed' | ⟨heq', hcalm'⟩
    · exact .inl hpushed'
    · -- neither part has pushed, so what the first one found calm still is
      refine .inr ⟨heq', fun u hu => ?_⟩
      rcases List.mem_append.1 hu with hu | hu
      · exact (hcalm u hu).grow hsound hgrown
      · exact hcalm' u hu

theorem careful_foldlM {f : Pushing V → β → ProofM K (Pushing V)} (state : β → Nat)
    (hf : ∀ st b, Careful settings params w level st [state b] (f st b) id) (l : List β) (st : Pushing V) :
    Careful settings params w level st (l.map state) (l.foldlM f st) id := by
  induction l generalizing st with
  | nil => exact careful_pure id st
  | cons b rest ih =>
    rw [List.foldlM_cons]
    exact (hf st b).bind fun st' => ih st'

/-! ## Careful pushers

From a push to a pass, each function is careful about the states that it is called for. -/

variable [IsStrictOrderedRing K] [LawfulMass V K]

theorem ends_push (hsettings : settings.Sensible) (hw : w.params = params w.key) (h : Sound settings params τ st)
    (hallows : settings.Allows τ.store.graph u) (hu : settings.apr.epsilon < mass st.residual u)
    (hstate : (τ.store.graph.states.get? u).isSome) :
    Ends w τ ((ProofGraph.walk w).push settings st u) fun a τ' => Sound settings params τ' a.1 ∧
      st.pushes < a.1.pushes := by
  obtain ⟨looped, edges, hlinks, hregular, hchildren⟩ := h.regular.weightedOutlinks hstate hw true
  obtain ⟨-, hgrows, -⟩ := ProofGraph.steady_weightedOutlinks u w true τ.store (h.regular.sound w)
  have hyields := Weighter.linksOf_yields (w := w) u looped edges
  have hrun := onGraph_eq (ProofGraph.weightedOutlinks u w true) τ
  have hgrown : Grown w τ { τ with store := (ProofGraph.weightedOutlinks u w true τ.store).2 } := ⟨hgrows, rfl⟩
  rw [hlinks] at hrun
  rw [push_eq]
  rcases hout : w.linksOf u looped edges with e | links
  · rw [hout] at hrun hyields
    right
    rw [bind_error hrun]
    exact ⟨_, rfl, .refused hyields⟩
  · rw [hout] at hrun hyields
    left
    rw [bind_ok hrun]
    refine ⟨_, _, rfl, hgrown, ?_, Nat.lt_succ_self _⟩
    refine (h.grow hregular hgrown).pushed hsettings ((hgrown.allows_iff hstate).2 hallows) hu fun l hl =>
      ⟨(hyields l hl).1, ?_⟩
    rcases (hyields l hl).2 with hroot | hself | ⟨e, he, hchild⟩
    · rw [hroot]
      exact hregular.root
    · rw [hself]
      exact hgrown.states.isSome hstate
    · rw [← hchild]
      exact hchildren e he

theorem careful_tryPush (hsettings : settings.Sensible) (hw : w.params = params w.key)
    (hlevel : settings.apr.epsilon ≤ level) (st : Pushing V) (u : Nat) :
    Careful settings params w level st [u] ((ProofGraph.walk w).tryPush settings level st u) Prod.fst := by
  intro τ h
  have hpos : 0 ≤ level := hsettings.epsilon.1.le.trans hlevel
  unfold Walk.tryPush
  refine (ends_settleable settings w τ u).bind fun allowed τ₀ _ _ hallowed => ?_
  obtain ⟨hsame, hallows⟩ := hallowed
  subst τ₀
  cases allowed with
  | false =>
    have hdeep : ¬settings.Allows τ.store.graph u := fun h => Bool.false_ne_true (hallows.2 h)
    exact ends_pure ⟨h, .inr ⟨rfl, List.forall_mem_singleton.2 (.inr (.inl hdeep))⟩⟩
  | true =>
    refine (ends_ratio h w u).bind fun x τ₁ _ hgrown hratio => ?_
    obtain ⟨hsound, hx⟩ := hratio
    by_cases hsmall : x ≤ level
    · rw [if_pos hsmall]
      exact ends_pure ⟨hsound, .inr ⟨rfl, List.forall_mem_singleton.2 ((hx level hpos).1 hsmall)⟩⟩
    · rw [if_neg hsmall]
      obtain ⟨hmore, hstate⟩ := (hx level hpos).2 (not_le.1 hsmall)
      have hallows₁ := (hgrown.allows_iff hstate).2 (hallows.1 rfl)
      have hpush := ends_push hsettings hw hsound hallows₁ (hlevel.trans_lt hmore) (hgrown.states.isSome hstate)
      exact hpush.mono fun a τ' _ ha => ⟨ha.1, .inl ha.2⟩

theorem careful_pushFrom (hsettings : settings.Sensible) (hw : w.params = params w.key)
    (hlevel : settings.apr.epsilon ≤ level) (hops : Nat) (st : Pushing V) (u : Nat) :
    Careful settings params w level st [u] ((ProofGraph.walk w).pushFrom settings level hops u st) id := by
  induction hops generalizing u st with
  | zero => exact (careful_tryPush hsettings hw hlevel st u).bind fun r => careful_pure id r.1
  | succ hops ih =>
    refine (careful_tryPush hsettings hw hlevel st u).bind fun r => ?_
    -- children are only reached after a push, so nothing need be known of them
    exact (careful_foldlM id (fun st c => ih st c) r.2 r.1).of_subset (List.nil_subset _)

/-- **A pass without pushes finds every state calm.** -/
theorem ends_pass (hsettings : settings.Sensible) (hw : w.params = params w.key)
    (hlevel : settings.apr.epsilon ≤ level) (h : Sound settings params τ st) :
    Ends w τ ((ProofGraph.walk w).pass settings level st) fun next τ' => Sound settings params τ' next ∧
      (st.pushes < next.pushes ∨ next = st ∧ ∀ u, Calm settings w level τ' st u) := by
  have hpass : Careful settings params w level st ((MassVector.entries st.residual).map (·.1))
      ((ProofGraph.walk w).pass settings level st) id :=
    careful_foldlM Prod.fst (fun st (e : Nat × K) =>
      careful_pushFrom hsettings hw hlevel settings.apr.maxDepth st e.1) _ st
  refine (hpass τ h).mono fun next τ' _ ⟨hsound, houtcome⟩ => ⟨hsound, ?_⟩
  rcases houtcome with hpushed | ⟨heq, hcalm⟩
  · exact .inl hpushed
  · refine .inr ⟨heq, fun u => ?_⟩
    by_cases hu : mass st.residual u = 0
    · exact .inl hu.le
    · exact hcalm u (List.mem_map.2 ⟨(u, mass st.residual u), (LawfulMass.mem_entries ..).2 ⟨rfl, hu⟩, rfl⟩)

/-! ## Passes end

Either a pass pushes, which is paid for, or all states with residual mass at its beginning are calm.  As the masses
can pay for less than the bound on the number of passes, some pass makes no push, unless a bound of the prover's own
stops them. -/

omit [IsStrictOrderedRing K] [LawfulMass V K] in
theorem ends_progress (name : String) (number : Nat) (h : Sound settings params τ st) :
    Ends w τ ((ProofGraph.walk w).progress name number st.pushes st.settled st.residual) fun _ τ' =>
      Sound settings params τ' st := by
  refine (ends_report w τ name number st.pushes st.settled st.residual).mono fun _ τ' _ hstore => ?_
  exact ⟨hstore ▸ h.regular, h.budgeted, hstore ▸ h.placed, hstore ▸ h.allowed⟩

/-- **Passes at a threshold end by themselves** before their number reaches the bound, and leave every state calm. -/
theorem ends_passesAt (hsettings : settings.Sensible) (hw : w.params = params w.key)
    (hlevel : settings.apr.epsilon ≤ level) (name : String) {fuel : Nat} {st : Pushing V} {passes : Nat}
    {τ : ProofState K} (h : Sound settings params τ st)
    (hfuel : 1 / (settings.apr.alpha * settings.apr.epsilon) ≤ st.pushes + fuel) :
    Ends w τ ((ProofGraph.walk w).passesAt settings name level fuel (st, passes)) fun last τ' =>
      Passing w settings name level (st, passes) τ last τ' ∧ Sound settings params τ' last.1 ∧
        (settings.apr.stopEarly.any (· ≤ last.2) = false → ∀ u, Calm settings w level τ' last.1 u) := by
  induction fuel generalizing st passes τ with
  | zero =>
    -- without fuel there would have been more pushes than masses can pay for
    have hpushes := h.budgeted.pushes_lt hsettings.epsilon.1 (hsettings.epsilon.1.trans_le hsettings.alpha.1)
    rw [Nat.cast_zero, add_zero] at hfuel
    exact absurd hfuel (not_le.2 hpushes)
  | succ fuel ih =>
    unfold Walk.passesAt
    cases hcap : settings.apr.stopEarly.any (· ≤ passes) with
    | true =>
      rw [if_pos rfl]
      refine ends_pure ⟨.capped hcap, h, fun hopen => ?_⟩
      rw [hcap] at hopen
      cases hopen
    | false =>
      rw [if_neg Bool.false_ne_true]
      refine (ends_pass hsettings hw hlevel h).bind fun next τ₁ hpass _ hnext => ?_
      obtain ⟨hsound, hpushed | ⟨rfl, hcalm⟩⟩ := hnext
      · have hbusy : next.pushes ≠ st.pushes := hpushed.ne'
        have hcount : (st.pushes : K) + 1 ≤ next.pushes := by exact_mod_cast hpushed
        rw [if_neg (by simpa using hbusy)]
        refine (ends_progress name (passes + 1) hsound).bind fun _ τ₂ hreport _ hsound' => ?_
        -- a pass that is not the last has pushed, and makes up for the fuel it took
        have hmore : 1 / (settings.apr.alpha * settings.apr.epsilon) ≤ next.pushes + fuel := by
          rw [Nat.cast_succ] at hfuel
          linarith
        exact (ih hsound' hmore).mono fun last τ' _ hlast => ⟨.again hcap hpass hbusy hreport hlast.1, hlast.2⟩
      · rw [if_pos (by simp)]
        exact ends_pure ⟨.idle hcap hpass rfl, hsound, fun _ => hcalm⟩

omit [MassVector V K] [Exponential K] [LawfulMass V K] in
theorem passBound_le (settings : ProverSettings K) (pushes : Nat) :
    1 / (settings.apr.alpha * settings.apr.epsilon) ≤ pushes + Walk.passBound settings := by
  have hceil : 1 / (settings.apr.alpha * settings.apr.epsilon) ≤
      (Scalar.ceil (1 / (settings.apr.alpha * settings.apr.epsilon)) : Nat) := Nat.le_ceil _
  have hmore : Scalar.ceil (1 / (settings.apr.alpha * settings.apr.epsilon)) ≤
      pushes + Walk.passBound settings := by
    unfold Walk.passBound
    omega
  refine hceil.trans ?_
  exact_mod_cast hmore

theorem ends_passesOver (hsettings : settings.Sensible) (hw : w.params = params w.key)
    (name : String) {levels : List K} (hlevels : ∀ level ∈ levels, settings.apr.epsilon ≤ level)
    {st : Pushing V × Nat} {τ : ProofState K}
    (h : Sound settings params τ st.1) :
    Ends w τ (levels.foldlM (fun st level => (ProofGraph.walk w).passesAt settings name level
      (Walk.passBound settings) st) st)
      fun last τ' => PassingAll w settings name levels st τ last τ' ∧ Sound settings params τ' last.1 ∧
        ∀ level, levels.getLast? = some level → settings.apr.stopEarly.any (· ≤ last.2) = false →
          ∀ u, Calm settings w level τ' last.1 u := by
  induction levels generalizing st τ with
  | nil => exact ends_pure ⟨.done, h, nofun⟩
  | cons level rest ih =>
    obtain ⟨hlevel, hrest⟩ := List.forall_mem_cons.1 hlevels
    rw [List.foldlM_cons]
    refine (ends_passesAt hsettings hw hlevel name h (passBound_le settings st.1.pushes)).bind
      fun st' τ₁ _ _ ⟨hpassing, hsound, hcalm⟩ => ?_
    refine (ih hrest hsound).mono fun last τ' _ ⟨hall, hsound', hcalm'⟩ =>
      ⟨.next hpassing hall, hsound', fun final hfinal hopen => ?_⟩
    cases rest with
    | nil =>
      cases hall
      cases hfinal
      exact hcalm hopen
    | cons level' rest => exact hcalm' final (by rwa [List.getLast?_cons_cons] at hfinal) hopen

omit [Exponential K] in
theorem sound_seed (h : ProofGraph.Regular params τ.store) : Sound settings params τ (Walk.seed : Pushing V) where
  regular := h
  budgeted := Walk.budgeted_seed
  placed u hu := by
    rw [MassVector.eq_of_mass_start hu]
    exact h.root
  allowed u hu := absurd (LawfulMass.mass_none u) hu

omit [IsStrictOrderedRing K] [LawfulMass V K] [Exponential K] in
theorem Calm.degreeOf (h : Calm settings w level τ st u) (hlevel : 0 ≤ level)
    (hregular : ProofGraph.Regular params τ.store) (hallows : settings.Allows τ.store.graph u) [IsOrderedRing K] :
    mass st.residual u ≤ level * ProofGraph.degreeOf τ.store u := by
  rcases h with hnone | hdeep | ⟨d, hd, hlittle⟩
  · exact hnone.trans (mul_nonneg hlevel (Nat.cast_nonneg _))
  · exact absurd hallows hdeep
  · have hdegree := hd τ.store (hregular.sound w) ((ProofGraph.growth w).refl _)
    unfold ProofGraph.degreeOf
    rw [hdegree]
    exact hlittle

end

/-! ## The whole loop

The last threshold is the one that was asked for, so the states that are calm then hold as little as was asked for. -/

/-- **The loop ends** on every regular graph, with sound masses, and with every state calm at the last threshold
unless the number of passes has been bounded. -/
theorem ends_loop [LawfulMass V K] [IsStrictOrderedRing K] {params : Nat → Params K} {p : Prover K}
    (hsettings : p.settings.Sensible) (hw : p.weighter.params = params p.weighter.key) {start : ProofState K}
    (hstart : ProofGraph.Regular params start.store) :
    Ends p.weighter start (p.pushPasses (V := V)) fun st last => ∃ levels passes,
      Thresholds p.settings.apr.epsilon 1 levels ∧
      PassingAll p.weighter p.settings p.kind.name levels (Walk.seed, 0) start (st, passes) last ∧
      Sound p.settings params last st ∧ (p.settings.apr.stopEarly.any (· ≤ passes) = false →
        ∀ u, Calm p.settings p.weighter p.settings.apr.epsilon last st u) := by
  have hcheck : p.settings.checkMinAlpha = .ok () := if_neg (not_lt.2 hsettings.alpha.1)
  have hthresholds := levels_thresholds hsettings.epsilon.1
  have hlast : (Walk.levels p.settings.apr.epsilon).getLast? = some p.settings.apr.epsilon := by simp [Walk.levels]
  have hseed : Sound p.settings params start (Walk.seed (V := V), 0).1 := sound_seed hstart
  unfold Prover.pushPasses Walk.pushPasses
  rw [hcheck]
  refine (ends_passesOver hsettings hw p.kind.name (hthresholds.epsilon_le hsettings.epsilon.1) hseed).bind
    fun last τ' _ _ ⟨hall, hsound, hcalm⟩ => ?_
  exact ends_pure ⟨_, last.2, hthresholds, hall, hsound, hcalm _ hlast⟩

/-- **What passes of pushes come to**: the run is one of the loop as it stands, whose passes end by themselves;
there are few pushes; unless the number of passes has been bounded, no state that may be settled holds much residual
mass for its degree; and no state that is too deep has any settled mass. -/
structure Accurate (settings : ProverSettings K) (w : Weighter K) (name : String)
    (start : ProofState K) (st : Pushing V) (last : ProofState K) : Prop where
  loop : ∃ levels passes, Thresholds settings.apr.epsilon 1 levels ∧
    PassingAll w settings name levels (Walk.seed, 0) start (st, passes) last ∧
    (settings.apr.stopEarly.any (· ≤ passes) = false → ∀ u, settings.Allows last.store.graph u →
      mass st.residual u ≤ settings.apr.epsilon * ProofGraph.degreeOf last.store u)
  pushes : (st.pushes : K) < 1 / (settings.apr.alpha * settings.apr.epsilon)
  shallow : ∀ u, ¬settings.Allows last.store.graph u → mass st.settled u = 0

/-- **Passes of pushes end with the accuracy that was asked for**, on every regular graph, however large.  They do
not end so only where a strict weighter refuses an edge of negative weight, or the audience leaves. -/
theorem pushPasses_accurate [LawfulMass V K] [IsStrictOrderedRing K] {params : Nat → Params K} (p : Prover K)
    (hsettings : p.settings.Sensible) (hw : p.weighter.params = params p.weighter.key) {start : ProofState K}
    (hstart : ProofGraph.Regular params start.store) :
    Ends p.weighter start (p.pushPasses (V := V)) (Accurate p.settings p.weighter p.kind.name start) := by
  refine (ends_loop hsettings hw hstart).mono fun st last _ hloop => ?_
  obtain ⟨levels, passes, hthresholds, hall, hsound, hcalm⟩ := hloop
  refine ⟨⟨levels, passes, hthresholds, hall, fun hopen u hallows => ?_⟩, ?_, fun u hdeep => ?_⟩
  · exact (hcalm hopen u).degreeOf hsettings.epsilon.1.le hsound.regular hallows
  · exact hsound.budgeted.pushes_lt hsettings.epsilon.1 (hsettings.epsilon.1.trans_le hsettings.alpha.1)
  · by_contra hsettled
    exact hdeep (hsound.allowed u hsettled).2

/-! ## Passes along paths -/

attribute [local instance] flatExponential

def pathProver : Prover ℚ := ⟨.dpr, { halfway with maxTreeDepth := some 1 }, .uniform 0, [], false, 0⟩

theorem regular_pathStart : ProofGraph.Regular (fun _ => .unit) pathStart.store := by
  have hopens : (ProofGraph.build .cachingId (⟨pathCode, [], ⟨100, 10⟩, pathTable⟩ : Machine ℚ)
      ∅).toOption.isSome = true := by
    decide +kernel
  unfold pathStart
  dsimp only
  split
  · rename_i hbuild
    exact .build hbuild _
  · rename_i hfails
    rw [hfails] at hopens
    cases hopens

/-- The passes about paths end after some pushes, fewer than fifty. -/
theorem pushPasses_accurate_path : pathProver.settings.Sensible ∧
    ProofGraph.Regular (fun _ => .unit) pathStart.store ∧
    ∃ (st : Pushing (DenseVector ℚ)) (last : ProofState ℚ), pathProver.pushPasses pathStart = (.ok st, last) ∧
      Accurate pathProver.settings pathProver.weighter "dpr" pathStart st last ∧ st.pushes = 2 := by
  have hsettings : pathProver.settings.Sensible := by
    constructor <;> norm_num [pathProver, halfway]
  have hpushes : (pathProver.pushPasses (V := DenseVector ℚ) pathStart).1.toOption.map (·.pushes) =
    some 2 := by decide +kernel
  refine ⟨hsettings, regular_pathStart, ?_⟩
  rcases pushPasses_accurate (V := DenseVector ℚ) pathProver hsettings rfl regular_pathStart with
    ⟨st, last, hrun, -, haccurate⟩ | ⟨halt, hhalt, -⟩
  · rw [hrun] at hpushes
    exact ⟨st, last, hrun, haccurate, Option.some.inj hpushes⟩
  · rw [hhalt] at hpushes
    cases hpushes

end ProofWalk
