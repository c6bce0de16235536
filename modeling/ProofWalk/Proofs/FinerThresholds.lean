import ProofWalk.Proofs.PushAccuracy
/-!
# Proofs.FinerThresholds — a smaller last threshold only carries a proof on

Thresholds fall from one by factors of ten, so those that end with one power of a tenth are the first of those that
end with a higher power (`Thresholds.eq_tenths`).  Passes look at the threshold of the moment, not at the last one,
so the coarser proof is a beginning of the finer one, wherever a bound on the number of passes stops either of them
(`PassingAll.append_iff`).  And pushes only ever settle mass, since a state without residual mass is not pushed
(`Passing.within`).

A run of the passes is described by a relation (`Prover.Loops`), with no bound on how long it takes.  On any graph
the relation says what the loop comes to if it ends; on a regular graph it does end, and the prover comes to the
same.
-/
namespace ProofWalk

open MassVector (mass)

/-- **Whether other masses have come of some**: since then pushes have been made, if any, and no state has lost
settled mass. -/
structure Pushing.Within {K V : Type} [Scalar K] [MassVector V K] (st st' : Pushing V) : Prop where
  pushes : st.pushes ≤ st'.pushes
  settled : ∀ u, mass st.settled u ≤ mass st'.settled u

section

variable {K : Type}

def ProverSettings.withEpsilon (settings : ProverSettings K) (epsilon : K) : ProverSettings K :=
  { settings with apr := { settings.apr with epsilon } }

/-- **A prover with another last threshold.** -/
def Prover.withEpsilon (p : Prover K) (epsilon : K) :
    Prover K := { p with settings := p.settings.withEpsilon epsilon }

end

variable {K V : Type} [Field K] [LinearOrder K] [FloorSemiring K] [MassVector V K] [Exponential K]

/-- **A run of the passes of pushes from their seed**, however many passes there are. -/
def Prover.Loops (p : Prover K) (start : ProofState K) (st : Pushing V) (last : ProofState K) : Prop :=
  ∃ levels passes, Thresholds p.settings.apr.epsilon 1 levels ∧
    PassingAll p.weighter p.settings p.kind.name levels (Walk.seed, 0) start (st, passes) last

omit [MassVector V K] [Exponential K] in
theorem Thresholds.unique {epsilon level : K} {levels levels' : List K} (h : Thresholds epsilon level levels)
    (h' : Thresholds epsilon level levels') : levels = levels' := by
  induction h generalizing levels' with
  | last hlast =>
    cases h' with
    | last _ => rfl
    | next hnext _ => exact absurd hnext hlast
  | next hnext _ ih =>
    cases h' with
    | last hlast => exact absurd hnext hlast
    | next _ hrest' => rw [ih hrest']

/-! ## Thresholds that are powers of a tenth

The list of thresholds is determined by what it is to satisfy, and the powers of a tenth satisfy it. -/

def tenths (first count : Nat) : List K := (List.range' first count).map fun n => 1 / 10 ^ n

omit [MassVector V K] [Exponential K] in
theorem tenth_lt [IsStrictOrderedRing K] {i j : Nat} :
    (1 / 10 ^ j * (1 + 1 / 1000000000) : K) < 1 / 10 ^ i ↔ i < j := by
  have hpow (n : Nat) : (0 : K) < 10 ^ n := pow_pos (by norm_num) n
  rw [div_mul_eq_mul_div, one_mul, div_lt_div_iff₀ (hpow j) (hpow i), one_mul]
  constructor
  · intro h
    by_contra hle
    have hpowers : (10 : K) ^ j ≤ 10 ^ i := pow_le_pow_right₀ (by norm_num) (not_lt.1 hle)
    have hmore : (10 : K) ^ i ≤ (1 + 1 / 1000000000) * 10 ^ i := le_mul_of_one_le_left (hpow i).le (by norm_num)
    exact absurd h (not_lt.2 (hpowers.trans hmore))
  · intro h
    calc (1 + 1 / 1000000000 : K) * 10 ^ i < 10 * 10 ^ i := mul_lt_mul_of_pos_right (by norm_num) (hpow i)
      _ = 10 ^ (i + 1) := (pow_succ' 10 i).symm
      _ ≤ 10 ^ j := pow_le_pow_right₀ (by norm_num) h

omit [MassVector V K] [Exponential K] in
/-- **The thresholds down to a power of a tenth are the powers down to it.** -/
theorem Thresholds.eq_tenths [IsStrictOrderedRing K] {j : Nat} (count : Nat) {i : Nat}
    {levels : List K} (hij : i + count = j) (h : Thresholds (1 / 10 ^ j) (1 / 10 ^ i) levels) :
    levels = tenths i (count + 1) := by
  induction count generalizing i levels with
  | zero =>
    obtain rfl : i = j := hij
    cases h with
    | last _ => rfl
    | next hnext _ => exact absurd (tenth_lt.1 hnext) (lt_irrefl i)
  | succ count ih =>
    cases h with
    | last hlast => exact absurd (tenth_lt.2 (by omega)) hlast
    | next _ hrest =>
      rw [div_div, ← pow_succ] at hrest
      rw [ih (by omega) hrest]
      rfl

omit [MassVector V K] [Exponential K] in
theorem tenths_append (first count more : Nat) :
    (tenths first (count + more) : List K) = tenths first count ++ tenths (first + count) more := by
  unfold tenths
  rw [← List.map_append, List.range'_append_1]

omit [MassVector V K] [Exponential K] in
theorem tenths_nonneg [IsStrictOrderedRing K] (first count : Nat) :
    ∀ level ∈ (tenths first count : List K), 0 ≤ level := by
  intro level hlevel
  obtain ⟨n, -, rfl⟩ := List.mem_map.1 hlevel
  exact div_nonneg zero_le_one (pow_nonneg (by norm_num) n)

/-! ## Settled mass stays settled

`Pushing.Within` compares masses before and after: pushes have been made, if any, and no state has lost settled
mass.  A computation that only `Adds` in this sense does so in sequence, too. -/

section

variable {w : Weighter K} {settings : ProverSettings K} {name : String} {level : K} {levels levels' : List K}
  {τ τ' τ'' : ProofState K} {u : Nat}

namespace Pushing.Within

variable {st st' st'' : Pushing V}

omit [Exponential K] in
theorem refl (st : Pushing V) : st.Within st := ⟨le_rfl, fun _ => le_rfl⟩

omit [Exponential K] in
theorem trans (h : st.Within st') (h' : st'.Within st'') : st.Within st'' :=
  ⟨h.pushes.trans h'.pushes, fun u => (h.settled u).trans (h'.settled u)⟩

end Pushing.Within

def Adds {α : Type} (st : Pushing V) (x : ProofM K α) (next : α → Pushing V) : Prop :=
  ∀ τ a τ', x τ = (.ok a, τ') → st.Within (next a)

section

variable {α β : Type} {st : Pushing V} {x : ProofM K α} {next : α → Pushing V}

omit [Exponential K] in
theorem adds_pure (next : α → Pushing V) (a : α) : Adds (next a) (pure a) next := by
  intro τ b τ' h
  cases h
  exact .refl _

omit [Exponential K] in
theorem adds_nothing (st : Pushing V) (x : ProofM K α) : Adds st x fun _ => st := fun _ _ _ _ => .refl st

omit [Exponential K] in
theorem Adds.bind {f : α → ProofM K β} {next' : β → Pushing V} (hx : Adds st x next)
    (hf : ∀ τ a τ', x τ = (.ok a, τ') → Adds (next a) (f a) next') : Adds st (x >>= f) next' := by
  intro τ b τ' h
  obtain ⟨a, τ₁, hrun, hrest⟩ := bind_eq_ok h
  exact (hx τ a τ₁ hrun).trans (hf τ a τ₁ hrun τ₁ b τ' hrest)

omit [Exponential K] in
theorem adds_foldlM {f : Pushing V → β → ProofM K (Pushing V)} (hf : ∀ st b, Adds st (f st b) id) (l : List β)
    (st : Pushing V) : Adds st (l.foldlM f st) id := by
  induction l generalizing st with
  | nil => exact adds_pure id st
  | cons b rest ih =>
    rw [List.foldlM_cons]
    exact (hf st b).bind fun _ st' _ _ => ih st'

end

theorem residual_pos_of_ratio_ok {st : Pushing V} {x : K} (h : (ProofGraph.walk w).ratio st u τ = (.ok x, τ'))
    (hx : 0 < x) : 0 < mass st.residual u := by
  by_contra hnone
  unfold Walk.ratio at h
  simp only [not_lt.1 hnone, if_true] at h
  cases h
  exact lt_irrefl _ hx

omit [Exponential K] in
theorem within_pushed [LawfulMass V K] [IsStrictOrderedRing K] {st : Pushing V} (halpha : 0 ≤ settings.apr.alpha)
    (hresidual : 0 < mass st.residual u) (links : List (Link K)) :
    st.Within (Walk.pushed settings st u links) where
  pushes := Nat.le_succ _
  settled i := by
    show _ ≤ mass (MassVector.add st.settled u (settings.apr.alpha * mass st.residual u)) i
    rw [LawfulMass.mass_add]
    split
    · rename_i hi
      rw [hi]
      exact le_add_of_nonneg_right (mul_nonneg halpha hresidual.le)
    · exact le_rfl

variable [LawfulMass V K] [IsStrictOrderedRing K]

theorem adds_tryPush (halpha : 0 ≤ settings.apr.alpha) (hlevel : 0 ≤ level) (st : Pushing V) (u : Nat) :
    Adds st ((ProofGraph.walk w).tryPush settings level st u) Prod.fst := by
  unfold Walk.tryPush
  refine (adds_nothing st _).bind fun _ allowed _ _ => ?_
  cases allowed with
  | false => exact adds_pure Prod.fst (st, [])
  | true =>
    refine (adds_nothing st _).bind fun τ x τ' hratio => ?_
    by_cases hsmall : x ≤ level
    · rw [if_pos hsmall]
      exact adds_pure Prod.fst (st, [])
    · rw [if_neg hsmall]
      have hresidual := residual_pos_of_ratio_ok hratio (hlevel.trans_lt (not_le.1 hsmall))
      rw [push_eq]
      intro τ₁ a τ₂ hpush
      obtain ⟨links, τ₃, -, hrest⟩ := bind_eq_ok hpush
      cases hrest
      exact within_pushed halpha hresidual _

theorem adds_pushFrom (halpha : 0 ≤ settings.apr.alpha) (hlevel : 0 ≤ level) (hops : Nat)
    (st : Pushing V) (u : Nat) : Adds st ((ProofGraph.walk w).pushFrom settings level hops u st) id := by
  induction hops generalizing u st with
  | zero => exact (adds_tryPush halpha hlevel st u).bind fun _ r _ _ => adds_pure id r.1
  | succ hops ih =>
    exact (adds_tryPush halpha hlevel st u).bind fun _ r _ _ => adds_foldlM (fun st c => ih st c) r.2 r.1

theorem adds_pass (halpha : 0 ≤ settings.apr.alpha) (hlevel : 0 ≤ level) (st : Pushing V) :
    Adds st ((ProofGraph.walk w).pass settings level st) id :=
  adds_foldlM (fun st (e : Nat × K) => adds_pushFrom halpha hlevel settings.apr.maxDepth st e.1) _ st

variable {first last : Pushing V × Nat}

/-- **Passes only ever settle mass.** -/
theorem Passing.within (halpha : 0 ≤ settings.apr.alpha) (hlevel : 0 ≤ level)
    (h : Passing w settings name level first τ last τ') : first.1.Within last.1 := by
  induction h with
  | capped _ => exact .refl _
  | idle _ hpass _ => exact adds_pass halpha hlevel _ _ _ _ hpass
  | again _ hpass _ _ _ ih => exact (adds_pass halpha hlevel _ _ _ _ hpass).trans ih

theorem PassingAll.within (halpha : 0 ≤ settings.apr.alpha) (hlevels : ∀ level ∈ levels, 0 ≤ level)
    (h : PassingAll w settings name levels first τ last τ') : first.1.Within last.1 := by
  induction h with
  | done => exact .refl _
  | next hhere _ ih =>
    obtain ⟨hlevel, hrest⟩ := List.forall_mem_cons.1 hlevels
    exact (hhere.within halpha hlevel).trans (ih hrest)

end

/-! ## One run of passes is the beginning of another

Passes have one outcome, so that a run over more thresholds starts with the run over the first of them. -/

section

variable {w : Weighter K} {settings : ProverSettings K} {name : String} {level : K} {levels levels' : List K}
  {τ τ' τ'' : ProofState K} {first last last' : Pushing V × Nat}

theorem Passing.unique (h : Passing w settings name level first τ last τ')
    (h' : Passing w settings name level first τ last' τ'') : last = last' ∧ τ' = τ'' := by
  induction h with
  | capped hcap =>
    cases h' with
    | capped _ => exact ⟨rfl, rfl⟩
    | idle hopen _ _ => exact absurd (hcap.symm.trans hopen) (by decide)
    | again hopen _ _ _ _ => exact absurd (hcap.symm.trans hopen) (by decide)
  | idle hopen hpass hidle =>
    cases h' with
    | capped hcap => exact absurd (hcap.symm.trans hopen) (by decide)
    | idle _ hpass' _ =>
      cases hpass.symm.trans hpass'
      exact ⟨rfl, rfl⟩
    | again _ hpass' hbusy _ _ =>
      cases hpass.symm.trans hpass'
      exact absurd hidle hbusy
  | again hopen hpass hbusy hreport _ ih =>
    cases h' with
    | capped hcap => exact absurd (hcap.symm.trans hopen) (by decide)
    | idle _ hpass' hidle =>
      cases hpass.symm.trans hpass'
      exact absurd hidle hbusy
    | again _ hpass' _ hreport' hrest' =>
      cases hpass.symm.trans hpass'
      cases hreport.symm.trans hreport'
      exact ih hrest'

theorem PassingAll.unique (h : PassingAll w settings name levels first τ last τ')
    (h' : PassingAll w settings name levels first τ last' τ'') : last = last' ∧ τ' = τ'' := by
  induction h with
  | done =>
    cases h'
    exact ⟨rfl, rfl⟩
  | next hhere _ ih =>
    cases h' with
    | next hhere' hrest' =>
      obtain ⟨rfl, rfl⟩ := hhere.unique hhere'
      exact ih hrest'

/-- **Passes at more thresholds begin with the passes at the first of them.** -/
theorem PassingAll.append_iff : PassingAll w settings name (levels ++ levels') first τ last τ' ↔
    ∃ mid τ₁, PassingAll w settings name levels first τ mid τ₁ ∧
      PassingAll w settings name levels' mid τ₁ last τ' := by
  constructor
  · intro h
    induction levels generalizing first τ with
    | nil => exact ⟨first, τ, .done, h⟩
    | cons level rest ih =>
      cases h with
      | next hhere hrest =>
        obtain ⟨mid, τ₁, hbefore, hafter⟩ := ih hrest
        exact ⟨mid, τ₁, .next hhere hbefore, hafter⟩
  · rintro ⟨mid, τ₁, hbefore, hafter⟩
    induction hbefore with
    | done => exact hafter
    | next hhere _ ih => exact .next hhere (ih hafter)

/-! ## Passes do not look at the last threshold

A prover with another last threshold makes the same pushes at the same threshold of the moment. -/

theorem pushFrom_withEpsilon (epsilon : K) (hops u : Nat) (st : Pushing V) :
    (ProofGraph.walk w).pushFrom (settings.withEpsilon epsilon) level hops u st =
      (ProofGraph.walk w).pushFrom settings level hops u st := by
  induction hops generalizing u st with
  | zero => rfl
  | succ hops ih =>
    unfold Walk.pushFrom
    simp only [ih]
    rfl

theorem pass_withEpsilon (epsilon : K) (st : Pushing V) :
    (ProofGraph.walk w).pass (settings.withEpsilon epsilon) level st =
      (ProofGraph.walk w).pass settings level st := by
  unfold Walk.pass
  simp only [pushFrom_withEpsilon]
  rfl

theorem Passing.withEpsilon (epsilon : K) (h : Passing w settings name level first τ last τ') :
    Passing w (settings.withEpsilon epsilon) name level first τ last τ' := by
  induction h with
  | capped hcap => exact .capped hcap
  | idle hopen hpass hidle => exact .idle hopen ((congrFun (pass_withEpsilon epsilon _) _).trans hpass) hidle
  | again hopen hpass hbusy hreport _ ih =>
    exact .again hopen ((congrFun (pass_withEpsilon epsilon _) _).trans hpass) hbusy hreport ih

theorem PassingAll.withEpsilon (epsilon : K) (h : PassingAll w settings name levels first τ last τ') :
    PassingAll w (settings.withEpsilon epsilon) name levels first τ last τ' := by
  induction h with
  | done => exact .done
  | next hhere _ ih => exact .next (hhere.withEpsilon epsilon) ih

end

/-! ## Whole loops

What the loop comes to is what the bounded functions of the prover compute, if their bounds are large enough, and
they are. -/

theorem Prover.loops_tenths [IsStrictOrderedRing K] {p : Prover K} {j : Nat}
    {start last : ProofState K} {st : Pushing V} : (p.withEpsilon (1 / 10 ^ j)).Loops start st last ↔
      ∃ passes, PassingAll p.weighter p.settings p.kind.name (tenths 0 (j + 1)) (Walk.seed, 0)
        start (st, passes) last := by
  have hthresholds : Thresholds (1 / 10 ^ j : K) 1 (Walk.levels (1 / 10 ^ j)) :=
    levels_thresholds (div_pos one_pos (pow_pos (by norm_num) j))
  have hlevels {levels : List K} (h : Thresholds (1 / 10 ^ j) 1 levels) : levels = tenths 0 (j + 1) :=
    Thresholds.eq_tenths j (i := 0) (Nat.zero_add j) (by simpa using h)
  constructor
  · rintro ⟨levels, passes, h, hall⟩
    obtain rfl := hlevels h
    exact ⟨passes, hall.withEpsilon p.settings.apr.epsilon⟩
  · rintro ⟨passes, hall⟩
    exact ⟨_, passes, hlevels hthresholds ▸ hthresholds, hall.withEpsilon (1 / 10 ^ j)⟩

section

variable {w : Weighter K} {settings : ProverSettings K} {name : String} {level : K} {levels : List K}
  {params : Nat → Params K} {first last : Pushing V × Nat} {τ τ' : ProofState K}

theorem Passing.passesAt_ok (h : Passing w settings name level first τ last τ') (fuel : Nat) :
    ∃ reached, ((ProofGraph.walk w).passesAt settings name level fuel first τ).1 = .ok reached := by
  induction h generalizing fuel with
  | @capped st passes _ hcap =>
    cases fuel with
    | zero => exact ⟨_, rfl⟩
    | succ fuel =>
      unfold Walk.passesAt
      rw [if_pos hcap]
      exact ⟨_, rfl⟩
  | @idle st next passes _ _ hopen hpass hidle =>
    cases fuel with
    | zero => exact ⟨_, rfl⟩
    | succ fuel =>
      unfold Walk.passesAt
      rw [if_neg (by simp [hopen]), bind_ok hpass, if_pos (by simpa using hidle)]
      exact ⟨_, rfl⟩
  | @again st next passes _ _ _ _ _ hopen hpass hbusy hreport _ ih =>
    cases fuel with
    | zero => exact ⟨_, rfl⟩
    | succ fuel =>
      unfold Walk.passesAt
      rw [if_neg (by simp [hopen]), bind_ok hpass, if_neg (by simpa using hbusy), bind_ok hreport]
      exact ih fuel

variable [LawfulMass V K] [IsStrictOrderedRing K]

theorem PassingAll.foldlM_eq (hsettings : settings.Sensible) (hw : w.params = params w.key)
    (hlevels : ∀ level ∈ levels, settings.apr.epsilon ≤ level) (hsound : Sound settings params τ first.1)
    (h : PassingAll w settings name levels first τ last τ') :
    levels.foldlM (fun st level => (ProofGraph.walk w).passesAt settings name level (Walk.passBound settings) st)
      first τ = (.ok last, τ') := by
  induction h with
  | done => rfl
  | @next level rest st st' last τ τ₁ τ' hhere _ ih =>
    obtain ⟨hlevel, hrest⟩ := List.forall_mem_cons.1 hlevels
    obtain ⟨reached, hreached⟩ := hhere.passesAt_ok (Walk.passBound settings)
    rw [List.foldlM_cons]
    rcases ends_passesAt hsettings hw hlevel name hsound (passBound_le settings st.1.pushes) with
      ⟨a, τ₂, hrun, -, hpassing, hsound', -⟩ | ⟨halt, hhalt, -⟩
    · obtain ⟨rfl, rfl⟩ := hhere.unique hpassing
      rw [bind_ok hrun]
      exact ih hrest hsound'
    · rw [hreached] at hhalt
      cases hhalt

end

section

variable [LawfulMass V K] [IsStrictOrderedRing K] {params : Nat → Params K} {p : Prover K} {start : ProofState K}

/-- **Passes of pushes are a run of the loop** on a regular graph, unless the proof halts for a reason. -/
theorem ends_pushPasses (hsettings : p.settings.Sensible) (hw : p.weighter.params = params p.weighter.key)
    (hstart : ProofGraph.Regular params start.store) :
    Ends p.weighter start (p.pushPasses (V := V)) fun st last => p.Loops start st last :=
  (ends_loop hsettings hw hstart).mono fun _ _ _ ⟨levels, passes, hthresholds, hall, _⟩ =>
    ⟨levels, passes, hthresholds, hall⟩

theorem Prover.Loops.pushPasses_eq {st : Pushing V} {last : ProofState K} (hsettings : p.settings.Sensible)
    (hw : p.weighter.params = params p.weighter.key) (hstart : ProofGraph.Regular params start.store)
    (h : p.Loops start st last) : p.pushPasses start = (.ok st, last) := by
  have hcheck : p.settings.checkMinAlpha = .ok () := if_neg (not_lt.2 hsettings.alpha.1)
  obtain ⟨levels, passes, hthresholds, hall⟩ := h
  obtain rfl := hthresholds.unique (levels_thresholds hsettings.epsilon.1)
  have hrun := hall.foldlM_eq hsettings hw (hthresholds.epsilon_le hsettings.epsilon.1) (sound_seed hstart)
  unfold Prover.pushPasses Walk.pushPasses
  rw [hcheck]
  exact (bind_ok hrun).trans rfl

end

/-- **A smaller last threshold only carries a proof on.**  With thresholds that end with a higher power of a tenth,
and all else alike, a proof makes no fewer pushes, and no state ends with less settled mass: wherever the finer loop
ends, on any graph, the coarser one ends too, and that from which it goes on is what the coarser one comes to.
Where a walk does not always stay, provers on a regular graph run these loops to their end. -/
theorem tighter_threshold_refines [LawfulMass V K] [IsStrictOrderedRing K] (p : Prover K) {j k : Nat}
    (hj : 1 ≤ j) (hjk : j ≤ k) (halpha : 1 / 10 ^ j ≤ p.settings.apr.alpha ∧ p.settings.apr.alpha ≤ 1) :
    (∀ start last', ∀ st' : Pushing V, (p.withEpsilon (1 / 10 ^ k)).Loops start st' last' →
      (∃ (st : Pushing V) (last : _), (p.withEpsilon (1 / 10 ^ j)).Loops start st last) ∧
      ∀ (st : Pushing V) (last : _), (p.withEpsilon (1 / 10 ^ j)).Loops start st last → st.Within st') ∧
    (0 ≤ p.settings.stay ∧ p.settings.stay < 1 → ∀ params, p.weighter.params = params p.weighter.key →
      ∀ start, ProofGraph.Regular params start.store →
        Ends p.weighter start ((p.withEpsilon (1 / 10 ^ k)).pushPasses (V := V)) fun st' _ =>
          ∃ st last, (p.withEpsilon (1 / 10 ^ j)).pushPasses start = (.ok st, last) ∧ st.Within st') := by
  have hpos (n : Nat) : (0 : K) < 1 / 10 ^ n := div_pos one_pos (pow_pos (by norm_num) n)
  have hsmaller : (1 / 10 ^ k : K) ≤ 1 / 10 ^ j :=
    div_le_div_of_nonneg_left zero_le_one (pow_pos (by norm_num) j) (pow_le_pow_right₀ (by norm_num) hjk)
  have hloops (start last' : ProofState K) (st' : Pushing V)
      (h : (p.withEpsilon (1 / 10 ^ k)).Loops start st' last') :
      (∃ (st : Pushing V) (last : _), (p.withEpsilon (1 / 10 ^ j)).Loops start st last) ∧
      ∀ (st : Pushing V) (last : _), (p.withEpsilon (1 / 10 ^ j)).Loops start st last → st.Within st' := by
    obtain ⟨passes', hall⟩ := Prover.loops_tenths.1 h
    -- the finer loop goes through the thresholds of the coarser one first
    rw [show k + 1 = (j + 1) + (k - j) by omega, tenths_append, PassingAll.append_iff] at hall
    obtain ⟨⟨st, passes⟩, last, hbefore, hafter⟩ := hall
    refine ⟨⟨st, last, Prover.loops_tenths.2 ⟨passes, hbefore⟩⟩, fun st₂ last₂ h₂ => ?_⟩
    obtain ⟨passes₂, hbefore₂⟩ := Prover.loops_tenths.1 h₂
    cases (hbefore₂.unique hbefore).1
    exact hafter.within ((hpos j).le.trans halpha.1) (tenths_nonneg _ _)
  refine ⟨hloops, fun hstay params hw start hstart => ?_⟩
  have hsensible (n : Nat) (hn : (1 / 10 ^ n : K) ≤ 1 / 10 ^ j) :
      (p.withEpsilon (1 / 10 ^ n)).settings.Sensible := by
    have hten : (1 / 10 ^ j : K) < 1 := by
      rw [div_lt_one (pow_pos (by norm_num) j)]
      exact one_lt_pow₀ (by norm_num) (by omega)
    exact ⟨⟨hpos n, hn.trans_lt hten⟩, ⟨hn.trans halpha.1, halpha.2⟩, hstay⟩
  refine (ends_pushPasses (hsensible k hsmaller) hw hstart).mono fun st' last' _ hfine => ?_
  obtain ⟨⟨st, last, hcoarse⟩, hwithin⟩ := hloops start last' st' hfine
  exact ⟨st, last, hcoarse.pushPasses_eq (hsensible j le_rfl) hw hstart, hwithin st last hcoarse⟩

/-! ## Passes along paths -/

attribute [local instance] flatExponential

/-- Of a proof about paths, a tenth as the last threshold makes the first two of the six pushes that a hundredth
makes. -/
theorem tighter_threshold_refines_path : (1 ≤ 1 ∧ 1 ≤ 2) ∧
    (1 / 10 ^ 1 ≤ pathProver.settings.apr.alpha ∧ pathProver.settings.apr.alpha ≤ 1) ∧
    ∃ (st st' : Pushing (DenseVector ℚ)) (last last' : ProofState ℚ),
      (pathProver.withEpsilon (1 / 10 ^ 1)).pushPasses pathStart = (.ok st, last) ∧
      (pathProver.withEpsilon (1 / 10 ^ 2)).pushPasses pathStart = (.ok st', last') ∧
      st.Within st' ∧ st.pushes = 2 ∧ st'.pushes = 6 := by
  have halpha : 1 / 10 ^ 1 ≤ pathProver.settings.apr.alpha ∧ pathProver.settings.apr.alpha ≤ 1 := by
    norm_num [pathProver, halfway]
  have hstay : 0 ≤ pathProver.settings.stay ∧ pathProver.settings.stay < 1 := by norm_num [pathProver, halfway]
  have hcoarse : ((pathProver.withEpsilon (1 / 10 ^ 1)).pushPasses (V := DenseVector ℚ) pathStart).1.toOption.map
      (·.pushes) = some 2 := by decide +kernel
  have hfine : ((pathProver.withEpsilon (1 / 10 ^ 2)).pushPasses (V := DenseVector ℚ) pathStart).1.toOption.map
      (·.pushes) = some 6 := by decide +kernel
  refine ⟨by decide, halpha, ?_⟩
  rcases (tighter_threshold_refines (V := DenseVector ℚ) pathProver le_rfl one_le_two halpha).2 hstay _
    rfl pathStart regular_pathStart with ⟨st', last', hrun', -, st, last, hrun, hwithin⟩ | ⟨halt, hhalt, -⟩
  · rw [hrun] at hcoarse
    rw [hrun'] at hfine
    exact ⟨st, st', last, last', hrun, hrun', hwithin, Option.some.inj hcoarse, Option.some.inj hfine⟩
  · rw [hhalt] at hfine
    cases hfine

end ProofWalk
