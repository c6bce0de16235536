import ProofWalk.Proofs.WalkSums
/-!
# Proofs.PowerSums — power iteration sums over walks

A step of power iteration moves the mass of every state along its edges.  So what the masses are worth after a step,
by any measure of what a state is worth, is what they are worth before it if each state counts for the average of
its edges; and after all steps they are worth what the walks of so many edges from the start are worth.  Measured by
one state alone that is the mass of this state, and measured by all states alike it is the mass of all.
-/
namespace ProofWalk

open MassVector (mass weigh)
open ProofGraph (growth EdgesStand edgesOf)

variable {K V : Type} [Field K] [LinearOrder K] [FloorSemiring K] [MassVector V K]

/-! ## What masses are worth

The measure is taken in the graph that the proof leaves behind, or in any that grows from it, where the edges of all
states that it has met are on record.  A step asks for the edges of the states with mass one after another, and
those that were given stand while the graph grows.

Normalized weights add up to one or to zero, so that mass is lost only at states without edges of positive weight,
and none is gained. -/

section

variable [LawfulMass V K] {v : V} {f g : Nat → K}

theorem MassVector.weigh_congr (h : ∀ i, mass v i ≠ 0 → f i = g i) : weigh v f = weigh v g := by
  unfold MassVector.weigh
  congr 1
  refine List.map_congr_left fun e he => ?_
  obtain ⟨hmass, hne⟩ := (LawfulMass.mem_entries v e.1 e.2).1 he
  rw [h e.1 (hmass ▸ hne)]

theorem MassVector.weigh_single (v : V) (j : Nat) : weigh v (fun i => if i = j then 1 else 0) = mass v j := by
  rw [MassVector.weigh_eq_sum v _ (Finset.subset_insert j _), Finset.sum_eq_single j]
  · rw [if_pos rfl, mul_one]
  · intro i _ hi
    rw [if_neg hi, mul_zero]
  · intro hj
    exact absurd (Finset.mem_insert_self j _) hj

end

theorem Walk.powerSteps_add {m : Type → Type} [Monad m] [LawfulMonad m] (w : Walk m K)
    (name : String) (a b iteration : Nat) (current : V) : w.powerSteps name (a + b) iteration current =
      w.powerSteps name a iteration current >>= fun next => w.powerSteps name b (iteration + a) next := by
  induction a generalizing iteration current with
  | zero => rw [Nat.zero_add, powerSteps, pure_bind, Nat.add_zero]
  | succ a ih =>
    rw [Nat.succ_add, powerSteps, powerSteps]
    simp only [ih, bind_assoc, Nat.add_assoc, Nat.add_comm 1 a]

variable [Exponential K]

/-- **The edges along which power iteration moves mass**: all edges of a state, with normalized weights. -/
def ProofGraph.transitions (w : Weighter K) (s : Store (ProofGraph K) K) (u : Nat) : List (Link K) :=
  Walk.normalize (edgesOf w true s u)

open ProofGraph (transitions)

section

variable [LawfulMass V K] {params : Nat → Params K} {w : Weighter K} {τ : ProofState K}

theorem ends_powerStep (hw : w.params = params w.key) {rest : List (Nat × K)} {next : V}
    (h : ProofGraph.Regular params τ.store) (hrest : ∀ e ∈ rest, (τ.store.graph.states.get? e.1).isSome)
    (hnext : ∀ u, mass next u ≠ 0 → (τ.store.graph.states.get? u).isSome) :
    Ends w τ ((ProofGraph.walk w).powerStep rest next) fun v τ' => ProofGraph.Regular params τ'.store ∧
      (∀ u, mass v u ≠ 0 → (τ'.store.graph.states.get? u).isSome) ∧
      ∀ later : ProofState K, (growth w).sound later.store.graph → Grown w τ' later →
        ∀ f, weigh v f = weigh next f +
        (rest.map fun e => e.2 * ((transitions w later.store e.1).map fun l => l.weight * f l.child).sum).sum := by
  induction rest generalizing τ next with
  | nil => exact ends_pure ⟨h, hnext, fun _ _ _ f => by simp⟩
  | cons e rest ih =>
    obtain ⟨hhere, hothers⟩ := List.forall_mem_cons.1 hrest
    unfold Walk.powerStep
    refine (ends_normalized h hw hhere true).bind fun links τ₁ _ hgrown ⟨hregular, all, hstand, hlinks, hlegal⟩ =>
      ?_
    subst hlinks
    refine (ih hregular (fun e he => hgrown.states.isSome (hothers e he)) fun u hu => ?_).mono
      fun v τ' hgrown' ⟨hregular', hplaced, hworth⟩ => ⟨hregular', hplaced, fun later hsound hlater f => ?_⟩
    · rcases mass_spread_ne_zero hu with hkept | ⟨l, hl, rfl⟩
      · exact hgrown.states.isSome (hnext u hkept)
      · obtain ⟨l', hl', hchild, -⟩ := Walk.mem_normalize hl
        rw [← hchild]
        exact (hlegal l' hl').2
    · have hedges : transitions w later.store e.1 = Walk.normalize all :=
        congrArg Walk.normalize ((hstand.grow (hgrown'.trans hlater).grows).edgesOf_eq hsound)
      have hspread : weigh (Walk.spread e.2 (Walk.normalize all) next) f = _ :=
        Walk.weigh_spread f e.2 (Walk.normalize all) next
      rw [hworth later hsound hlater f, hspread, List.map_cons, List.sum_cons, hedges, add_assoc]

/-- **So many steps**, measured by what states are worth: the masses are worth what walks of so many edges are from
where they were. -/
theorem ends_powerSteps (hw : w.params = params w.key) (name : String) (steps : Nat)
    {iteration : Nat} {current : V} (h : ProofGraph.Regular params τ.store)
    (hplaced : ∀ u, mass current u ≠ 0 → (τ.store.graph.states.get? u).isSome) :
    Ends w τ ((ProofGraph.walk w).powerSteps name steps iteration current) fun v τ' =>
      ProofGraph.Regular params τ'.store ∧ (∀ u, mass v u ≠ 0 → (τ'.store.graph.states.get? u).isSome) ∧
      ∀ later : ProofState K, (growth w).sound later.store.graph → Grown w τ' later → ∀ f,
        weigh v f = weigh current (walkWorth (transitions w later.store) f steps) := by
  induction steps generalizing τ iteration current with
  | zero =>
    refine ends_pure ⟨h, hplaced, fun _ _ _ f => ?_⟩
    exact MassVector.weigh_congr fun i _ => (walkWorth_zero _ f i).symm
  | succ steps ih =>
    unfold Walk.powerSteps
    have hentries : ∀ e ∈ MassVector.entries current, (τ.store.graph.states.get? e.1).isSome := fun e he => by
      obtain ⟨hmass, hne⟩ := (LawfulMass.mem_entries current e.1 e.2).1 he
      exact hplaced e.1 (hmass ▸ hne)
    have hnone : ∀ u, mass (MassVector.none : V) u ≠ 0 → (τ.store.graph.states.get? u).isSome := fun u hu =>
      absurd (LawfulMass.mass_none u) hu
    refine (ends_powerStep hw h hentries hnone).bind fun next τ₁ _ _ ⟨hregular₁, hplaced₁, hstep⟩ => ?_
    refine (ends_report w τ₁ _ _ _ _ _).bind fun _ τ₂ _ hgrown₂ hsame => ?_
    rw [← hsame] at hregular₁ hplaced₁
    refine (ih hregular₁ hplaced₁).mono fun v τ' hgrown' ⟨hregular', hplaced', hworth⟩ =>
      ⟨hregular', hplaced', fun later hsound hlater f => ?_⟩
    rw [hworth later hsound hlater, hstep later hsound ((hgrown₂.trans hgrown').trans hlater),
      MassVector.weigh_none, zero_add]
    unfold MassVector.weigh
    simp only [walkWorth_succ]

variable [IsStrictOrderedRing K]

/-- **What so many steps come to** in a graph: the mass of each state is the sum over all walks of so many edges
from the start to it, all mass together is at most one, and it is one if every state that had mass before the last
step has edges of positive weight. -/
structure Iterated (w : Weighter K) (s : Store (ProofGraph K) K) (steps : Nat) (v : V) : Prop where
  masses : ∀ u, mass v u = walkSum (transitions w s) steps 0 u
  total_le : MassVector.total v ≤ 1
  total_eq : (∀ i < steps, ∀ u, walkSum (transitions w s) i 0 u ≠ 0 →
    0 < ((edgesOf w true s u).map (·.weight)).sum) → MassVector.total v = 1

theorem Iterated.of_worth {s : Store (ProofGraph K) K} {steps : Nat} {v : V} (h : ProofGraph.Regular params s)
    (hw : w.params = params w.key) (hv : ∀ f, weigh v f = walkWorth (transitions w s) f steps 0) :
    Iterated w s steps v where
  masses u := by rw [walkSum_eq, ← hv, MassVector.weigh_single]
  total_le := by
    rw [← MassVector.weigh_one, hv]
    exact walkWorth_one_le (fun u => Walk.normalize_nonneg (ProofGraph.edgesOf_nonneg h hw true u))
      (fun u => Walk.sum_normalize_le _) ..
  total_eq hlive := by
    rw [← MassVector.weigh_one, hv]
    refine walkWorth_one_eq (fun u => Walk.normalize_nonneg (ProofGraph.edgesOf_nonneg h hw true u))
      fun i hi u hu => ?_
    exact Walk.sum_normalize (hlive i hi u hu)

end

/-- **Power iteration is the power of the transition matrix**, on every regular graph, however large: after each
step the mass of a state is the sum over all walks of so many edges to it.  Edges count as they stand in the graph
that the proof leaves behind, or in any that grows from it.  The proof does not end so only where a strict weighter
refuses an edge of negative weight, or the audience leaves. -/
theorem power_sums_walks [LawfulMass V K] [IsStrictOrderedRing K] {params : Nat → Params K} (w : Weighter K)
    (hw : w.params = params w.key) (settings : ProverSettings K) (name : String) {start : ProofState K}
    (hstart : ProofGraph.Regular params start.store) :
    Ends w start ((ProofGraph.walk w).power settings name : ProofM K V) fun v last =>
      ProofGraph.Regular params last.store ∧
      ∀ later : ProofState K, ProofGraph.Regular params later.store → Grown w last later →
        Iterated w later.store (Walk.powerCount settings.apr) v ∧
          ∀ i < Walk.powerCount settings.apr, ∃ (stage : V) (τ : ProofState K),
          (ProofGraph.walk w).powerSteps name i 1 (MassVector.add (MassVector.none : V) 0 1) start =
            (.ok stage, τ) ∧ Iterated w later.store i stage := by
  have hplaced : ∀ u, mass (MassVector.add (MassVector.none : V) 0 1) u ≠ 0 →
      (start.store.graph.states.get? u).isSome := by
    intro u hu
    rw [MassVector.eq_of_mass_start hu]
    exact hstart.root
  have hiterated {i : Nat} {v : V} {last later : ProofState K} (hregular : ProofGraph.Regular params later.store)
      (hlater : Grown w last later)
      (hworth : ∀ later : ProofState K, (growth w).sound later.store.graph → Grown w last later →
        ∀ f, weigh v f = weigh (MassVector.add (MassVector.none : V) 0 1)
          (walkWorth (transitions w later.store) f i)) :
      Iterated w later.store i v :=
    .of_worth hregular hw fun f => (hworth later (hregular.sound w) hlater f).trans (MassVector.weigh_start _)
  rcases ends_powerSteps (V := V) hw name (Walk.powerCount settings.apr) hstart hplaced with
    ⟨v, last, hrun, hgrown, hregular, -, hworth⟩ | hhalted
  · refine .inl ⟨v, last, hrun, hgrown, hregular,
      fun later hregular hlater => ⟨hiterated hregular hlater hworth, fun i hi => ?_⟩⟩
    -- the steps up to this one are the first part of the same run
    rw [← Nat.add_sub_cancel' hi.le, Walk.powerSteps_add] at hrun
    obtain ⟨stage, τ, hfirst, hrest⟩ := bind_eq_ok hrun
    obtain ⟨-, hregular', hplaced', hworth'⟩ := (ends_powerSteps hw name _ hstart hplaced).of_eq_ok hfirst
    have hgrown' := ((ends_powerSteps hw name _ hregular' hplaced').of_eq_ok hrest).1
    exact ⟨stage, τ, hfirst, hiterated hregular (hgrown'.trans hlater) hworth'⟩
  · exact .inr hhalted

/-! ## Two steps about paths -/

attribute [local instance] flatExponential

def twoSteps : ProverSettings ℚ := ⟨⟨1 / 20, 1 / 5, 3, 0, 0, some 2⟩, 0, none⟩

/-- The walks of two edges from the start to the third state have two ninths of the mass, and no mass is lost. -/
theorem power_sums_walks_path : ProofGraph.Regular (fun _ => .unit) pathStart.store ∧
    Walk.powerCount twoSteps.apr = 2 ∧
    ∃ (v : ProofVector ℚ) (last : ProofState ℚ), (ProofGraph.walk (.uniform 0)).power twoSteps "ppr" pathStart =
      (.ok v, last) ∧
      Iterated (.uniform 0) last.store 2 v ∧ walkSum (transitions (.uniform 0) last.store) 2 0 3 = 2 / 9 ∧
        MassVector.total v = 1 := by
  have hmass : ((ProofGraph.walk (.uniform 0)).power twoSteps "ppr" pathStart).1.toOption.map
      (fun v : ProofVector ℚ => (mass v 3, MassVector.total v)) = some (2 / 9, 1) := by decide +kernel
  refine ⟨regular_pathStart, rfl, ?_⟩
  rcases power_sums_walks (V := ProofVector ℚ) (.uniform 0) rfl twoSteps "ppr" regular_pathStart with
    ⟨v, last, hrun, -, hregular, hsums⟩ | ⟨halt, hhalt, -⟩
  · have hiterated : Iterated (.uniform 0) last.store 2 v := (hsums last hregular (.refl _ _)).1
    rw [hrun] at hmass
    obtain ⟨hthird, htotal⟩ := Prod.mk.inj (Option.some.inj hmass)
    refine ⟨v, last, hrun, hiterated, ?_, htotal⟩
    rw [← hiterated.masses]
    exact hthird
  · rw [hhalt] at hmass
    cases hmass

end ProofWalk
