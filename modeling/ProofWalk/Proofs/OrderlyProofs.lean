import ProofWalk.Proofs.ProofRuns
import ProofWalk.Proofs.PushRuns
/-!
# Proofs.OrderlyProofs — proofs that nothing but a bad weight or too small an `alpha` stops

A prover follows edges of the graph that it grows, and puts mass on nothing but states (`Bounded`).  So it asks for
states that exist, whatever the numbers are: each of its requests is `Orderly`.  A proof by any strategy gives a
result or fails for one of the reasons in `Prover.Stops` (`Prover.orderly_proveUnpruned`).

Nothing is assumed of the numbers here, so this holds for doubles too.  The number of states only grows, and every
statement is about the number at hand: a computation that starts on a graph with so many states or more ends on one
with no fewer.
-/
namespace ProofWalk

open MassVector (mass entries)

variable {K : Type} [Scalar K]

/-! ## Weights that are refused

A strict weighter refuses a weight that is negative, infinite or no number, and nothing else makes weighing fail. -/

namespace Weighter

/-- **What a strict weighter refuses**: a weight that is negative, infinite or no number. -/
def Rejects (w : Weighter K) (fault : ProverError K) : Prop :=
  w.strict = true ∧ ∃ e : IllegalWeight K, fault = .weight e ∧ ¬(Scalar.isFinite e.weight = true ∧ 0 ≤ e.weight)

def Gives {α : Type} (w : Weighter K) (good : α → Prop) : Except (ProverError K) α → Prop
  | .ok a => good a
  | .error fault => w.Rejects fault

theorem Gives.bind {α β : Type} {w : Weighter K} {x : Except (ProverError K) α}
    {f : α → Except (ProverError K) β} {good : α → Prop} {good' : β → Prop} (hx : w.Gives good x)
    (hf : ∀ a, good a → w.Gives good' (f a)) : w.Gives good' (x >>= f) := by
  cases x with
  | error fault => exact hx
  | ok a => exact hf a hx

variable [Exponential K]

theorem weighNamed_gives (w : Weighter K) (features : List (String × K)) :
    w.Gives (fun _ => True) (w.weighNamed features) := by
  unfold weighNamed check
  split
  · exact trivial
  · rename_i hillegal
    split
    · rename_i hstrict
      exact ⟨hstrict, _, rfl, by simpa using hillegal⟩
    · exact trivial

theorem weighAll_gives (w : Weighter K) (edges : List (Nat × List (String × K))) :
    w.Gives (fun weights => ∀ x ∈ weights, ∃ e ∈ edges, e.1 = x.1) (w.weighAll edges) := by
  induction edges with
  | nil => exact nofun
  | cons e rest ih =>
    refine (weighNamed_gives w e.2).bind fun weight _ => ih.bind fun weights hweights => ?_
    refine List.forall_mem_cons.2 ⟨⟨e, List.mem_cons_self, rfl⟩, fun x hx => ?_⟩
    obtain ⟨e', he', hchild⟩ := hweights x hx
    exact ⟨e', List.mem_cons_of_mem _ he', hchild⟩

theorem weighLoop_gives (w : Weighter K) (id : Nat) (asked : Bool) :
    w.Gives (fun loops => ∀ l ∈ loops, l.child = id) (w.weighLoop id asked) := by
  unfold weighLoop
  split
  · refine (weighNamed_gives w _).bind fun weight _ => ?_
    exact List.forall_mem_singleton.2 rfl
  · exact nofun

theorem linksOf_gives (w : Weighter K) (id : Nat) (looped : Bool) (edges : List (Nat × List (String × K))) :
    w.Gives (fun links => ∀ l ∈ links, l.child = 0 ∨ l.child = id ∨ ∃ e ∈ edges, e.1 = l.child)
      (w.linksOf id looped edges) := by
  refine (weighAll_gives w edges).bind fun derived hderived =>
    (weighLoop_gives w id looped).bind fun loops hloops =>
    (weighNamed_gives w _).bind fun restart _ => fun l hl => ?_
  rcases List.mem_append.1 hl with hl | hl
  · rcases List.mem_append.1 hl with hl | hl
    · obtain ⟨x, hx, rfl⟩ := List.mem_map.1 hl
      exact .inr (.inr (hderived x hx))
    · exact .inr (.inl (hloops l hl))
  · rw [List.mem_singleton.1 hl]
    exact .inl rfl

end Weighter

/-! ## Masses of states

Storage holds mass below a bound if none was put elsewhere, which both kinds of storage keep up. -/

/-- **Storage that holds mass below a bound only**, as long as none is put elsewhere. -/
class Bounded (V : Type) (K : outParam Type) [Scalar K] [MassVector V K] where
  Below : Nat → V → Prop
  none_below : ∀ n, Below n MassVector.none
  add_below : ∀ {n v i} x, Below n v → i < n → Below n (MassVector.add v i x)
  set_below : ∀ {n v i} x, Below n v → i < n → Below n (MassVector.set v i x)
  grow : ∀ {n n' v}, Below n v → n ≤ n' → Below n' v
  lt_of_entry : ∀ {n v e}, Below n v → e ∈ entries v → e.1 < n

open Bounded (Below)

instance : Bounded (ProofVector K) K where
  Below n v := ∀ i ∈ v, i < n
  none_below n i hi := by simp [MassVector.none] at hi
  add_below {n v i} x hv hi j hj := by
    simp only [MassVector.add, SortedMap.upsert, Std.ExtTreeMap.mem_alter] at hj
    split at hj
    · rename_i h
      rwa [← Nat.compare_eq_eq.1 h]
    · exact hv j hj
  set_below {n v i} x hv hi j hj := by
    simp only [MassVector.set] at hj
    split at hj
    · exact hv j (Std.ExtTreeMap.mem_of_mem_erase hj)
    · rcases Std.ExtTreeMap.mem_insert.1 hj with h | h
      · rwa [← Nat.compare_eq_eq.1 h]
      · exact hv j h
  grow h hn i hi := Nat.lt_of_lt_of_le (h i hi) hn
  lt_of_entry {n v e} h he := by
    refine h e.1 (Std.ExtTreeMap.mem_iff_isSome_getElem?.2 ?_)
    rw [Std.ExtTreeMap.mem_toList_iff_getElem?_eq_some.1 (List.mem_filter.1 he).1]
    rfl

theorem DenseVector.size_set (v : DenseVector K) (i : Nat) (x : K) :
    (v.set i x).values.size = max v.values.size (i + 1) := by
  simp only [set, grown, Array.size_setIfInBounds, Array.size_append, Array.size_replicate]
  omega

instance : Bounded (DenseVector K) K where
  Below n v := v.values.size ≤ n
  none_below n := Nat.zero_le n
  add_below {n v i} x hv hi := by
    show ((v.set i _).values.size) ≤ n
    rw [DenseVector.size_set]
    exact Nat.max_le.2 ⟨hv, hi⟩
  set_below {n v i} x hv hi := by
    show ((v.set i _).values.size) ≤ n
    rw [DenseVector.size_set]
    exact Nat.max_le.2 ⟨hv, hi⟩
  grow h hn := Nat.le_trans h hn
  lt_of_entry h he := Nat.lt_of_lt_of_le (Array.getElem?_eq_some_iff.1 (DenseVector.mem_nonzero.1 he).1).1 h

section

variable {V : Type} [MassVector V K] [Bounded V K] {n : Nat}

theorem below_foldl_add {α : Type} {l : List α} {child : α → Nat}
    (hl : ∀ a ∈ l, child a < n) (value : α → K) {v : V} (hv : Below n v) :
    Below n (l.foldl (fun v a => MassVector.add v (child a) (value a)) v) := by
  induction l generalizing v with
  | nil => exact hv
  | cons a rest ih =>
    obtain ⟨ha, hrest⟩ := List.forall_mem_cons.1 hl
    exact ih hrest (Bounded.add_below _ hv ha)

structure Pushing.Below (n : Nat) (st : Pushing V) : Prop where
  settled : Bounded.Below n st.settled
  residual : Bounded.Below n st.residual

theorem Pushing.Below.grow {n' : Nat} {st : Pushing V} (h : st.Below n) (hn : n ≤ n') : st.Below n' :=
  ⟨Bounded.grow h.settled hn, Bounded.grow h.residual hn⟩

theorem Walk.seed_below (hn : 0 < n) : (seed : Pushing V).Below n :=
  ⟨Bounded.none_below n, Bounded.add_below _ (Bounded.none_below n) hn⟩

theorem Walk.pushed_below {settings : ProverSettings K} {st : Pushing V} {u : Nat}
    {links : List (Link K)} (h : st.Below n) (hu : u < n) (hlinks : ∀ l ∈ links, l.child < n) :
    (pushed settings st u links).Below n where
  settled := Bounded.add_below _ h.settled hu
  residual := below_foldl_add hlinks _ (Bounded.set_below _ h.residual hu)

end

/-! ## Orderly computations

`Ready` is what an orderly computation asks of a proof: a regular graph of enough states, and no one to abandon it.
Orderly computations compose, and a loop over states that exist is orderly if its body is. -/

/-- **Why a proof by a prover may fail**: the strategy needs a greater `alpha`, or a strict weighter refuses a
weight. -/
inductive Prover.Stops (p : Prover K) : ProverError K → Prop
  | minAlpha (hpushes : p.pushes = true) (h : p.settings.apr.alpha < p.settings.apr.epsilon) :
    Stops p (.minAlpha p.settings.apr.alpha p.settings.apr.epsilon)
  | weight {fault : ProverError K} (h : p.weighter.Rejects fault) : Stops p fault

/-- **A proof that can go on**: on a regular graph of so many states or more, with no one to abandon it. -/
structure Ready (p : Prover K) (n : Nat) (τ : ProofState K) : Prop where
  regular : ProofGraph.Regular (fun _ => p.weighter.params) τ.store
  size : n ≤ τ.store.graph.size
  audience : τ.audience = .absent

/-- **A computation that stops for a reason or not at all**; what it gives is as told of the number of states. -/
def Orderly {α : Type} (p : Prover K) (n : Nat) (x : ProofM K α) (good : Nat → α → Prop) : Prop :=
  ∀ τ, Ready p n τ → (∃ a τ' n', x τ = (.ok a, τ') ∧ n ≤ n' ∧ Ready p n' τ' ∧ good n' a) ∨
    ∃ fault, (x τ).1 = .error (.failed fault) ∧ p.Stops fault

section

variable {p : Prover K} {n : Nat} {α β : Type} {good : Nat → α → Prop}

theorem orderly_pure {a : α} (h : good n a) : Orderly p n (pure a) good :=
  fun τ hτ => .inl ⟨a, τ, n, rfl, Nat.le_refl n, hτ, h⟩

theorem orderly_throw {fault : ProverError K} (h : p.Stops fault) : Orderly p n (throw (.failed fault)) good :=
  fun _ _ => .inr ⟨fault, rfl, h⟩

theorem Orderly.bind {x : ProofM K α} {f : α → ProofM K β} {good' : Nat → β → Prop} (hx : Orderly p n x good)
    (hf : ∀ n' a, n ≤ n' → good n' a → Orderly p n' (f a) good') : Orderly p n (x >>= f) good' := by
  intro τ hτ
  rcases hx τ hτ with ⟨a, τ₁, n₁, hrun, hn₁, hτ₁, ha⟩ | ⟨fault, hfault, hstops⟩
  · rw [bind_ok hrun]
    rcases hf n₁ a hn₁ ha τ₁ hτ₁ with ⟨b, τ₂, n₂, hrun', hn₂, hτ₂, hb⟩ | hstopped
    · exact .inl ⟨b, τ₂, n₂, hrun', Nat.le_trans hn₁ hn₂, hτ₂, hb⟩
    · exact .inr hstopped
  · rcases hrun : x τ with ⟨r, τ₁⟩
    rw [hrun] at hfault
    obtain rfl : r = .error (.failed fault) := hfault
    rw [bind_error hrun]
    exact .inr ⟨fault, rfl, hstops⟩

theorem Orderly.mono {good' : Nat → α → Prop} {x : ProofM K α} (h : Orderly p n x good)
    (hmono : ∀ n' a, n ≤ n' → good n' a → good' n' a) : Orderly p n x good' := by
  intro τ hτ
  rcases h τ hτ with ⟨a, τ', n', hrun, hn', hτ', ha⟩ | hstopped
  · exact .inl ⟨a, τ', n', hrun, hn', hτ', hmono n' a hn' ha⟩
  · exact .inr hstopped

theorem orderly_foldlM (child : α → Nat) (good : Nat → β → Prop) {f : β → α → ProofM K β}
    (hf : ∀ n b a, child a < n → good n b → Orderly p n (f b a) good) {l : List α}
    (hl : ∀ a ∈ l, child a < n) {b : β}
    (hb : good n b) : Orderly p n (l.foldlM f b) good := by
  induction l generalizing n b with
  | nil => exact orderly_pure hb
  | cons a rest ih =>
    obtain ⟨ha, hrest⟩ := List.forall_mem_cons.1 hl
    rw [List.foldlM_cons]
    exact (hf n b a ha hb).bind fun n' b' hn' hb' => ih (fun a ha => Nat.lt_of_lt_of_le (hrest a ha) hn') hb'

theorem Ready.present {τ : ProofState K} {u : Nat} (h : Ready p n τ) (hu : u < n) :
    (τ.store.graph.states.get? u).isSome :=
  (Interned.isSome_get?_iff _ u).2 (Nat.lt_of_lt_of_le hu h.size)

end

/-! ## Requests

The edges of a state lead to states that exist when they have been answered, since the graph stays regular. -/

variable [Exponential K] {p : Prover K} {n u : Nat}

theorem size_le_of_extends {states states' : StateTable} (h : Extends states.get? states'.get?) :
    states.size ≤ states'.size := by
  by_contra hlt
  have hsome := h.isSome ((Interned.isSome_get?_iff states _).2 (Nat.lt_of_not_le hlt))
  exact Nat.lt_irrefl _ ((Interned.isSome_get?_iff _ _).1 hsome)

omit [Scalar K] [Exponential K] in
theorem ProofGraph.size_le_of_grows {w : Weighter K} {g g' : ProofGraph K} (h : (growth w).grows g g') :
    g.size ≤ g'.size := by
  cases g <;> cases g'
  · exact size_le_of_extends h.1
  · exact h.elim
  · exact h.elim
  · exact size_le_of_extends h.states

theorem orderly_links (hu : u < n) (trueLoop : Bool) :
    Orderly p n ((ProofGraph.walk p.weighter).links u trueLoop) fun n' links => ∀ l ∈ links, l.child < n' := by
  intro τ hτ
  obtain ⟨looped, edges, hlinks, hregular, hchildren⟩ := hτ.regular.weightedOutlinks (hτ.present hu) rfl trueLoop
  obtain ⟨-, hgrows, -⟩ := ProofGraph.steady_weightedOutlinks u p.weighter trueLoop τ.store
    (hτ.regular.sound p.weighter)
  have hsize := ProofGraph.size_le_of_grows hgrows
  have hgives := p.weighter.linksOf_gives u looped edges
  have hrun := onGraph_eq (ProofGraph.weightedOutlinks u p.weighter trueLoop) τ
  rw [hlinks] at hrun
  cases hanswer : p.weighter.linksOf u looped edges with
  | error fault =>
    rw [hanswer] at hrun hgives
    exact .inr ⟨fault, congrArg Prod.fst hrun, .weight hgives⟩
  | ok links =>
    rw [hanswer] at hrun hgives
    refine .inl ⟨links, _, _, hrun, Nat.le_trans hτ.size hsize,
      ⟨hregular, Nat.le_refl _, hτ.audience⟩, fun l hl => ?_⟩
    have hu' := Nat.lt_of_lt_of_le hu (Nat.le_trans hτ.size hsize)
    rcases hgives l hl with hroot | hself | ⟨e, he, hchild⟩
    · exact hroot ▸ Nat.zero_lt_of_lt hu'
    · exact hself ▸ hu'
    · exact hchild ▸ (Interned.isSome_get?_iff _ _).1 (hchildren e he)

theorem orderly_degree (hu : u < n) : Orderly p n ((ProofGraph.walk p.weighter).degree u) fun _ _ => True := by
  intro τ hτ
  obtain ⟨d, hdegree, hregular⟩ := hτ.regular.degree (hτ.present hu) true
  obtain ⟨-, hgrows, -⟩ := ProofGraph.steady_degree p.weighter u true τ.store (hτ.regular.sound p.weighter)
  have hrun := onGraph_eq (ProofGraph.degree u true) τ
  rw [hdegree] at hrun
  have hsize := Nat.le_trans hτ.size (ProofGraph.size_le_of_grows hgrows)
  exact .inl ⟨_, _, _, hrun, hsize, ⟨hregular, Nat.le_refl _, hτ.audience⟩, trivial⟩

omit [Exponential K] in
theorem orderly_freeze : Orderly p n (ProofM.onGraph (ProofGraph.freeze p.weighter)) fun _ _ => True := by
  rintro ⟨store, reports, audience⟩ ⟨hregular, hsize, haudience⟩
  have hfrozen := hregular.freeze (w := p.weighter) rfl
  cases hregular with
  | state h => exact .inl ⟨(), _, n, rfl, Nat.le_refl n, ⟨hfrozen, hsize, haudience⟩, trivial⟩
  | cachingId h =>
    rename_i s
    obtain ⟨hok, hweighed⟩ := IdGraph.meets_freeze (w := p.weighter) rfl s ⟨rfl, rfl, h.honest⟩
    have hrun := onGraph_eq (ProofGraph.freeze p.weighter) ⟨ofId s, reports, audience⟩
    have hanswer : (ProofGraph.freeze p.weighter (ofId s)).1 = .ok () := hok
    have hstates : (ProofGraph.freeze p.weighter (ofId s)).2.graph.size = (ofId s).graph.size := by
      show (IdGraph.freeze p.weighter s).2.graph.states.size = s.graph.states.size
      rw [hweighed.graph]
    rw [hanswer] at hrun
    exact .inl ⟨(), _, n, hrun, Nat.le_refl n, ⟨hfrozen, hstates ▸ hsize, haudience⟩, trivial⟩

theorem orderly_isCompleted : Orderly p n ((ProofGraph.walk p.weighter).isCompleted u) fun _ _ => True :=
  fun τ hτ => .inl ⟨_, τ, n, rfl, Nat.le_refl n, hτ, trivial⟩

theorem orderly_settleable (settings : ProverSettings K) :
    Orderly p n ((ProofGraph.walk p.weighter).settleable settings u) fun _ _ => True := by
  unfold Walk.settleable
  split
  · exact orderly_pure trivial
  · exact fun τ hτ => .inl ⟨_, τ, n, rfl, Nat.le_refl n, hτ, trivial⟩

omit [Exponential K] in
theorem orderly_report (r : Thunk (Progress K)) : Orderly p n (ProofM.report r) fun _ _ => True := by
  rintro ⟨store, reports, audience⟩ hτ
  obtain rfl : audience = .absent := hτ.audience
  exact .inl ⟨(), _, n, rfl, Nat.le_refl n, hτ, trivial⟩

theorem orderly_normalized (hu : u < n) (trueLoop : Bool) :
    Orderly p n ((ProofGraph.walk p.weighter).normalized u trueLoop) fun n' links => ∀ l ∈ links, l.child < n' := by
  refine (orderly_links hu trueLoop).bind fun _ _ _ hlinks => orderly_pure fun l hl => ?_
  obtain ⟨l', hl', hchild, -⟩ := Walk.mem_normalize hl
  exact hchild ▸ hlinks l' hl'

/-! ## Depth first

The weights that a visit carries do not matter here; only where it goes does. -/

theorem orderly_visit (depth : Nat) (hu : u < n) (weight : K) (v : Walk.Visits K) :
    Orderly p n ((ProofGraph.walk p.weighter).visit depth u weight v) fun _ _ => True := by
  induction depth generalizing n u weight v with
  | zero => exact orderly_pure trivial
  | succ depth ih =>
    unfold Walk.visit
    refine orderly_isCompleted.bind fun n₁ completed hn₁ _ => ?_
    split
    · exact orderly_pure trivial
    · refine (orderly_normalized (Nat.lt_of_lt_of_le hu hn₁) false).bind fun n₂ links hn₂ hlinks => ?_
      refine (orderly_report _).bind fun n₃ _ hn₃ _ => ?_
      refine orderly_foldlM Prod.fst (fun _ _ => True) (fun n v e he _ => ih he e.2 v) (fun e he => ?_) trivial
      obtain ⟨l, hl, rfl⟩ := List.mem_map.1 he
      exact Nat.lt_of_lt_of_le (hlinks l (List.mem_filter.1 hl).1) hn₃

variable {V : Type} [MassVector V K] [Bounded V K] {settings : ProverSettings K}

/-! ## Power iteration

A step visits the states that hold mass and puts it where their edges lead, on a graph that may have more states by
then. -/

theorem orderly_powerStep {es : List (Nat × K)} (hes : ∀ e ∈ es, e.1 < n) {next : V} (hnext : Below n next) :
    Orderly p n ((ProofGraph.walk p.weighter).powerStep es next) Below := by
  induction es generalizing n next with
  | nil => exact orderly_pure hnext
  | cons e rest ih =>
    obtain ⟨he, hrest⟩ := List.forall_mem_cons.1 hes
    refine (orderly_normalized he true).bind fun n' links hn' hlinks => ?_
    exact ih (fun e he => Nat.lt_of_lt_of_le (hrest e he) hn') (below_foldl_add hlinks _ (Bounded.grow hnext hn'))

theorem orderly_powerSteps (name : String) (steps number : Nat) {current : V} (hcurrent : Below n current) :
    Orderly p n ((ProofGraph.walk p.weighter).powerSteps name steps number current) Below := by
  induction steps generalizing n number current with
  | zero => exact orderly_pure hcurrent
  | succ steps ih =>
    refine (orderly_powerStep (fun e he => Bounded.lt_of_entry hcurrent he) (Bounded.none_below n)).bind
      fun n₁ next _ hnext => ?_
    exact (orderly_report _).bind fun n₂ _ hn₂ _ => ih (number + 1) (Bounded.grow hnext hn₂)

theorem orderly_power (hn : 0 < n) (name : String) :
    Orderly p n ((ProofGraph.walk p.weighter).power settings name : ProofM K V) Below :=
  orderly_powerSteps name _ 1 (Bounded.add_below _ (Bounded.none_below n) hn)

/-! ## Pushes

A push settles mass where it is and moves the rest along edges, so both masses stay on states. -/

omit [Bounded V K] in
theorem orderly_ratio (hu : u < n) (st : Pushing V) :
    Orderly p n ((ProofGraph.walk p.weighter).ratio st u) fun _ _ => True := by
  unfold Walk.ratio
  dsimp only
  split
  · exact orderly_pure trivial
  · exact (orderly_degree hu).bind fun _ _ _ _ => orderly_pure trivial

def Pushed (n : Nat) (r : Pushing V × List Nat) : Prop := r.1.Below n ∧ ∀ v ∈ r.2, v < n

theorem orderly_push (hu : u < n) {st : Pushing V} (hst : st.Below n) :
    Orderly p n ((ProofGraph.walk p.weighter).push settings st u) Pushed := by
  refine (orderly_normalized hu true).bind fun n' links hn' hlinks => orderly_pure ⟨?_, fun v hv => ?_⟩
  · exact Walk.pushed_below (hst.grow hn') (Nat.lt_of_lt_of_le hu hn') hlinks
  · obtain ⟨l, hl, rfl⟩ := List.mem_map.1 hv
    exact hlinks l hl

theorem orderly_tryPush (hu : u < n) (epsilon : K) {st : Pushing V} (hst : st.Below n) :
    Orderly p n ((ProofGraph.walk p.weighter).tryPush settings epsilon st u) Pushed := by
  unfold Walk.tryPush
  refine (orderly_settleable settings).bind fun n₁ allowed hn₁ _ => ?_
  split
  · exact orderly_pure ⟨hst.grow hn₁, nofun⟩
  · refine (orderly_ratio (Nat.lt_of_lt_of_le hu hn₁) st).bind fun n₂ ratio hn₂ _ => ?_
    have hn : n ≤ n₂ := Nat.le_trans hn₁ hn₂
    split
    · exact orderly_pure ⟨hst.grow hn, nofun⟩
    · exact orderly_push (Nat.lt_of_lt_of_le hu hn) (hst.grow hn)

theorem orderly_pushFrom (hu : u < n) (epsilon : K) (hops : Nat) {st : Pushing V} (hst : st.Below n) :
    Orderly p n ((ProofGraph.walk p.weighter).pushFrom settings epsilon hops u st) Pushing.Below := by
  induction hops generalizing n u st with
  | zero => exact (orderly_tryPush hu epsilon hst).bind fun _ r _ hr => orderly_pure hr.1
  | succ hops ih =>
    refine (orderly_tryPush hu epsilon hst).bind fun n' r _ hr => ?_
    exact orderly_foldlM id Pushing.Below (fun n st v hv hst => ih hv hst) hr.2 hr.1

theorem orderly_pass (epsilon : K) {st : Pushing V} (hst : st.Below n) :
    Orderly p n ((ProofGraph.walk p.weighter).pass settings epsilon st) Pushing.Below :=
  orderly_foldlM Prod.fst Pushing.Below (fun _ _ _ he hst => orderly_pushFrom he epsilon _ hst)
    (fun _ he => Bounded.lt_of_entry hst.residual he) hst

theorem orderly_passesAt (name : String) (epsilon : K) (fuel : Nat) {st : Pushing V × Nat} (hst : st.1.Below n) :
    Orderly p n ((ProofGraph.walk p.weighter).passesAt settings name epsilon fuel st) fun n' r =>
      r.1.Below n' := by
  induction fuel generalizing n st with
  | zero => exact orderly_pure hst
  | succ fuel ih =>
    unfold Walk.passesAt
    split
    · exact orderly_pure hst
    · refine (orderly_pass epsilon hst).bind fun n₁ next _ hnext => ?_
      split
      · exact orderly_pure hnext
      · exact (orderly_report _).bind fun n₂ _ hn₂ _ => ih (hnext.grow hn₂)

theorem orderly_pushPasses (hn : 0 < n) (name : String) :
    Orderly p n ((ProofGraph.walk p.weighter).pushPasses settings name : ProofM K (Pushing V)) Pushing.Below := by
  have hlevels (levels : List K) {n : Nat} {st : Pushing V × Nat} (hst : st.1.Below n) : Orderly p n
      (levels.foldlM (fun st epsilon => (ProofGraph.walk p.weighter).passesAt settings name epsilon
        (Walk.passBound settings) st) st)
      fun n' r => r.1.Below n' := by
    induction levels generalizing n st with
    | nil => exact orderly_pure hst
    | cons epsilon rest ih =>
      rw [List.foldlM_cons]
      exact (orderly_passesAt name epsilon _ hst).bind fun _ _ _ hst' => ih hst'
  exact (hlevels _ (Walk.seed_below hn)).bind fun _ _ _ hst => orderly_pure hst

/-! ## The queue

Whatever waits in the queue is a state, and what is taken from it or put into it is one too. -/

def QueueBelow (n : Nat) (waiting : PriorityQueue (Queued K)) : Prop := ∀ q ∈ waiting.toList, q.id < n

omit [Bounded V K] in
theorem orderly_nextAmong (st : Pushing V) (count : Nat) {waiting : PriorityQueue (Queued K)}
    (hwaiting : QueueBelow n waiting) :
    Orderly p n ((ProofGraph.walk p.weighter).nextAmong settings st count waiting) fun n' next =>
      ∀ r, next = some r → r.1 < n' ∧ QueueBelow n' r.2 := by
  induction count generalizing n waiting with
  | zero => exact orderly_pure nofun
  | succ count ih =>
    unfold Walk.nextAmong
    split
    · exact orderly_pure nofun
    · rename_i q rest hpop
      have hperm := PriorityQueue.toList_of_pop? hpop
      have hq : q.id < n := hwaiting q (hperm.mem_iff.2 List.mem_cons_self)
      have hrest : QueueBelow n rest := fun q' hq' => hwaiting q' (hperm.mem_iff.2 (List.mem_cons_of_mem _ hq'))
      have hdue : Orderly p n ((ProofGraph.walk p.weighter).isDue settings st q) fun _ _ => True := by
        unfold Walk.isDue
        refine (orderly_ratio hq st).bind fun n₁ current _ _ => ?_
        split
        · exact orderly_pure trivial
        · exact orderly_settleable settings
      refine hdue.bind fun n₁ due hn₁ _ => ?_
      have hrest' : QueueBelow n₁ rest := fun q' hq' => Nat.lt_of_lt_of_le (hrest q' hq') hn₁
      split
      · refine orderly_pure fun r hr => ?_
        cases hr
        exact ⟨Nat.lt_of_lt_of_le hq hn₁, hrest'⟩
      · exact ih hrest'

omit [Bounded V K] in
theorem orderly_enqueue (st : Pushing V) (depths : SortedMap Nat Nat) {ids : List Nat} (hids : ∀ v ∈ ids, v < n)
    {waiting : PriorityQueue (Queued K)} (hwaiting : QueueBelow n waiting) :
    Orderly p n ((ProofGraph.walk p.weighter).enqueue settings st depths ids waiting) QueueBelow := by
  induction ids generalizing n waiting with
  | nil => exact orderly_pure hwaiting
  | cons v rest ih =>
    obtain ⟨hv, hrest⟩ := List.forall_mem_cons.1 hids
    unfold Walk.enqueue
    split
    · exact ih hrest hwaiting
    · refine (orderly_ratio hv st).bind fun n₁ ratio hn₁ _ => ?_
      have hwaiting' : QueueBelow n₁ waiting := fun q hq => Nat.lt_of_lt_of_le (hwaiting q hq) hn₁
      refine ih (fun v' hv' => Nat.lt_of_lt_of_le (hrest v' hv') hn₁) ?_
      split
      · intro q hq
        rcases List.mem_cons.1 ((PriorityQueue.toList_insert_perm ..).mem_iff.1 hq) with rfl | hq
        · exact Nat.lt_of_lt_of_le hv hn₁
        · exact hwaiting' q hq
      · exact hwaiting'

theorem Walk.mem_of_ascending {ids : List Nat} {v : Nat} (h : v ∈ ascending ids) : v ∈ ids := by
  have hfold : ∀ (ids : List Nat) (m : SortedMap Nat Unit), v ∈ ids.foldl (fun m i => m.insert i ()) m →
      v ∈ ids ∨ v ∈ m := by
    intro ids
    induction ids with
    | nil => exact fun _ h => .inr h
    | cons i rest ih =>
      intro m hm
      rcases ih _ hm with hrest | hinsert
      · exact .inl (List.mem_cons_of_mem _ hrest)
      · rcases Std.ExtTreeMap.mem_insert.1 hinsert with hi | hm
        · exact .inl (Nat.compare_eq_eq.1 hi ▸ List.mem_cons_self)
        · exact .inr hm
  rcases hfold ids ∅ (Std.ExtTreeMap.mem_keys.1 h) with hids | hnone
  · exact hids
  · exact absurd hnone Std.ExtTreeMap.not_mem_empty

theorem orderly_prioritySteps (steps number : Nat) {q : Walk.Queue V K} (hpushing : q.pushing.Below n)
    (hwaiting : QueueBelow n q.waiting) :
    Orderly p n ((ProofGraph.walk p.weighter).prioritySteps settings steps number q) fun _ _ => True := by
  induction steps generalizing n number q with
  | zero => exact orderly_pure trivial
  | succ steps ih =>
    unfold Walk.prioritySteps
    refine (orderly_nextAmong q.pushing _ hwaiting).bind fun n₁ next hn₁ hnext => ?_
    cases next with
    | none => exact orderly_pure trivial
    | some next =>
      obtain ⟨hid, hrest⟩ := hnext next rfl
      refine (orderly_push hid (hpushing.grow hn₁)).bind fun n₂ r hn₂ hr => ?_
      have hids : ∀ v ∈ Walk.ascending (r.2 ++ [next.1]), v < n₂ := fun v hv => by
        rcases List.mem_append.1 (Walk.mem_of_ascending hv) with hv | hv
        · exact hr.2 v hv
        · exact List.mem_singleton.1 hv ▸ Nat.lt_of_lt_of_le hid hn₂
      refine (orderly_enqueue r.1 _ hids fun q hq => Nat.lt_of_lt_of_le (hrest q hq) hn₂).bind
        fun n₃ waiting hn₃ hwaiting => ?_
      refine (orderly_report _).bind fun n₄ _ hn₄ _ => ih (number + 1) (hr.1.grow (Nat.le_trans hn₃ hn₄)) ?_
      exact fun q hq => Nat.lt_of_lt_of_le (hwaiting q hq) hn₄

theorem orderly_priority (hn : 0 < n) :
    Orderly p n ((ProofGraph.walk p.weighter).priority settings : ProofM K (Pushing V)) fun _ _ => True := by
  refine (orderly_ratio hn Walk.seed).bind fun n' ratio hn' _ => ?_
  refine orderly_prioritySteps _ 1 ((Walk.seed_below hn).grow hn') fun q hq => ?_
  obtain rfl := List.mem_singleton.1 hq
  exact Nat.lt_of_lt_of_le hn hn'

/-! ## All strategies

The sections above go through the functions of the provers one by one; here they are put together by strategy. -/

omit V [MassVector V K] [Bounded V K] [Exponential K] in
theorem Prover.stops_of_checkMinAlpha (hpushes : p.pushes = true) {fault : ProverError K}
    (h : p.settings.checkMinAlpha = .error fault) : p.Stops fault := by
  unfold ProverSettings.checkMinAlpha at h
  split at h
  · rename_i hless
    cases h
    exact .minAlpha hpushes hless
  · cases h

theorem orderly_proverPasses (hn : 0 < n) (hpushes : p.pushes = true) :
    Orderly p n (p.pushPasses : ProofM K (Pushing V)) fun _ _ => True := by
  unfold Prover.pushPasses
  split
  · rename_i fault hcheck
    exact orderly_throw (Prover.stops_of_checkMinAlpha hpushes hcheck)
  · exact (orderly_pushPasses hn _).mono fun _ _ _ _ => trivial

omit V [MassVector V K] [Bounded V K] in
theorem orderly_proveDense (hn : 0 < n) : Orderly p n p.proveDense fun _ _ => True := by
  unfold Prover.proveDense
  refine orderly_freeze.bind fun n' _ hn' _ => ?_
  have hn' := Nat.lt_of_lt_of_le hn hn'
  split
  · rename_i hkind
    have hpushes : p.pushes = true := by
      rw [Prover.pushes, hkind]
      rfl
    exact (orderly_proverPasses hn' hpushes).bind fun _ _ _ _ => orderly_pure trivial
  · exact (orderly_power hn' _).mono fun _ _ _ _ => trivial

omit V [MassVector V K] [Bounded V K] in
/-- **A proof gives a result or stops for a reason**, by whatever strategy. -/
theorem Prover.orderly_proveUnpruned (hn : 0 < n) : Orderly p n p.proveUnpruned fun _ _ => True := by
  unfold proveUnpruned
  split
  · exact (orderly_power hn _).bind fun _ _ _ _ => orderly_pure trivial
  · have hvisited : Orderly p n ((ProofGraph.walk p.weighter).depthFirst p.settings) fun _ _ => True :=
      (orderly_visit _ hn _ _).bind fun _ _ _ _ => orderly_pure trivial
    exact hvisited.bind fun _ _ _ _ => orderly_pure trivial
  · rename_i hkind
    have hpushes : p.pushes = true := by
      rw [pushes, hkind]
      rfl
    exact (orderly_proverPasses hn hpushes).bind fun _ _ _ _ => orderly_pure trivial
  · rename_i hkind
    have hpushes : p.pushes = true := by
      rw [pushes, hkind]
      rfl
    split
    · rename_i fault hcheck
      exact orderly_throw (stops_of_checkMinAlpha hpushes hcheck)
    · exact (orderly_priority hn).bind fun _ _ _ _ => orderly_pure trivial
  · exact (orderly_proveDense hn).bind fun _ _ _ _ => orderly_pure trivial

end ProofWalk
