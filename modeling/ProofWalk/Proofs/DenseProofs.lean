import ProofWalk.Proofs.GraphAgreement
import ProofWalk.Proofs.MassStorage
import ProofWalk.Proofs.ProofRuns
import ProofWalk.Proofs.PushRuns
import ProofWalk.Proofs.RenamedGraphs
/-!
# Proofs.DenseProofs — provers in dense vectors compute what provers in maps compute

A map forgets a state whose mass is set to zero, and keeps one to which zero was added; a dense vector never
shrinks.  Yet both list the same entries where all masses are equal (`SameMasses`), so two proofs in lockstep visit
the same states in the same order, ask their graphs the same and get like replies.  The graphs of one query then
have the same states at any time, although one keeps feature dictionaries and the other numbers features and takes a
snapshot first.

`SideBySide` is the relation between computations that carries this: from proofs abreast they come to related
results, or both end for like reasons, and the proofs are abreast after it.  Reports are the same but for the name
of the prover.
-/
namespace ProofWalk

open MassVector (mass entries)

variable {K : Type}

/-! ## Masses

Equal masses give equal entries (`SameMasses.entries_eq`), whatever the storage keeps besides, and the operations
that provers use keep them equal. -/

def SameMasses {V V' : Type} [MassVector V K] [MassVector V' K] (v : V) (v' : V') :
    Prop := ∀ i, mass v i = mass v' i

structure SamePushing {V V' : Type} [MassVector V K] [MassVector V' K] (st : Pushing V)
    (st' : Pushing V') : Prop where
  settled : SameMasses st.settled st'.settled
  residual : SameMasses st.residual st'.residual
  pushes : st.pushes = st'.pushes

def Progress.anonymous (p : Progress K) : Progress K := { p with prover := "" }

inductive Halt.Alike : Halt K → Halt K → Prop
  | failed {e e' : ProverError K} (h : e.Like e') : Alike (.failed e) (.failed e')
  | abandoned : Alike .abandoned .abandoned

variable [Field K] [LinearOrder K] [FloorSemiring K]

section

variable {V V' : Type} [MassVector V K] [MassVector V' K] [LawfulMass V K] [LawfulMass V' K] {v : V} {v' : V'}

theorem sameMasses_none : SameMasses (MassVector.none : V) (MassVector.none : V') := fun i => by
  rw [LawfulMass.mass_none, LawfulMass.mass_none]

theorem SameMasses.add (h : SameMasses v v') (i : Nat) (x : K) :
    SameMasses (MassVector.add v i x) (MassVector.add v' i x) :=
  fun j => by rw [LawfulMass.mass_add, LawfulMass.mass_add, h i, h j]

theorem SameMasses.set (h : SameMasses v v') (i : Nat) (x : K) :
    SameMasses (MassVector.set v i x) (MassVector.set v' i x) :=
  fun j => by rw [LawfulMass.mass_set, LawfulMass.mass_set, h j]

theorem SameMasses.entries_eq (h : SameMasses v v') : entries v = entries v' :=
  eq_of_ascending (LawfulMass.ascending v) (LawfulMass.ascending v') fun e => by
    rw [LawfulMass.mem_entries, LawfulMass.mem_entries, h]

theorem SameMasses.addAll (f : Link K → K) (links : List (Link K)) (h : SameMasses v v') :
    SameMasses (links.foldl (fun r l => MassVector.add r l.child (f l)) v)
      (links.foldl (fun r l => MassVector.add r l.child (f l)) v') := by
  induction links generalizing v v' with
  | nil => exact h
  | cons l rest ih => exact ih (h.add l.child (f l))

theorem samePushing_seed : SamePushing (Walk.seed : Pushing V) (Walk.seed : Pushing V') where
  settled := sameMasses_none
  residual := sameMasses_none.add 0 1
  pushes := rfl

theorem SamePushing.pushed {st : Pushing V} {st' : Pushing V'} (h : SamePushing st st')
    (settings : ProverSettings K) (u : Nat) (links : List (Link K)) :
    SamePushing (Walk.pushed settings st u links) (Walk.pushed settings st' u links) := by
  have hresidual := h.residual u
  unfold Walk.pushed
  rw [hresidual]
  exact ⟨h.settled.add u _, (h.residual.set u _).addAll _ links, by rw [h.pushes]⟩

end

/-! ## Requests in lockstep

`Abreast` is the invariant: the graphs agree, and the same audience has heard the same of both.  Each request of a
walk is answered alike. -/

variable [Exponential K]

/-- **Proofs under way on the two graphs of a query**, with the same audience, which has heard the same of both. -/
structure Abreast (params : Nat → Params K) (σ τ : ProofState K) : Prop where
  stores : Related params σ.store τ.store
  audience : σ.audience = τ.audience
  reports : σ.reports.toList.map Progress.anonymous = τ.reports.toList.map Progress.anonymous

abbrev SideBySide {α β : Type} (params : Nat → Params K) (A : α → β → Prop) (x : ProofM K α)
    (y : ProofM K β) : Prop :=
  Together (Abreast params) Halt.Alike A x y

section

variable {params : Nat → Params K} {α β γ : Type}

omit [Exponential K] in
theorem sideBySide_onGraph {op : ProofGraph.Op K α} (hop : ∀ s t, Related params s t →
    LikeOutcomes (op s).1 (op t).1 ∧ Related params (op s).2 (op t).2) :
    SideBySide params Eq (ProofM.onGraph op) (ProofM.onGraph op) := by
  intro σ τ h
  obtain ⟨hlike, hstores⟩ := hop σ.store τ.store h.stores
  rw [onGraph_eq, onGraph_eq]
  refine ⟨?_, hstores, h.audience, h.reports⟩
  have hsame := hlike.corresponds
  generalize (op σ.store).1 = x, (op τ.store).1 = y at hsame
  cases hsame with
  | ok ha => exact .ok ha
  | error he => exact .error (.failed he)

omit [Field K] [LinearOrder K] [FloorSemiring K] [Exponential K] in
theorem report_of_present (r : Thunk (Progress K)) (store : Store (ProofGraph K) K) (reports : Array (Progress K))
    (patience : Option Nat) : ProofM.report r ⟨store, reports, .present patience⟩ =
      (if patience = some (reports.size + 1) then .error .abandoned else .ok (),
        ⟨store, reports.push r.get, .present patience⟩) := by
  show (if patience = some (reports.push r.get).size then throw .abandoned else pure () : ProofM K Unit)
    ⟨store, reports.push r.get, .present patience⟩ = _
  rw [Array.size_push]
  split
  · rfl
  · rfl

omit [Exponential K] in
theorem sideBySide_report {r r' : Thunk (Progress K)} (h : r.get.anonymous = r'.get.anonymous) :
    SideBySide params (fun _ _ => True) (ProofM.report r) (ProofM.report r') := by
  rintro ⟨store, reports, audience⟩ ⟨store', reports', _⟩ ⟨hstores, rfl, hreports⟩
  cases audience with
  | absent => exact ⟨.ok trivial, hstores, rfl, hreports⟩
  | present patience =>
    -- the audience counts reports, and it has heard equally many
    have hsize : reports.size = reports'.size := by simpa using congrArg List.length hreports
    have hheard : (reports.push r.get).toList.map Progress.anonymous =
        (reports'.push r'.get).toList.map Progress.anonymous := by
      simp only [Array.toList_push, List.map_append, List.map_cons, List.map_nil, h, hreports]
    rw [report_of_present, report_of_present, hsize]
    refine ⟨?_, hstores, rfl, hheard⟩
    dsimp only
    split
    · exact .error .abandoned
    · exact .ok trivial

omit [Exponential K] in
theorem sideBySide_foldlM {A : α → β → Prop} {f : α → γ → ProofM K α} {g : β → γ → ProofM K β}
    (hstep : ∀ a b c, A a b → SideBySide params A (f a c) (g b c)) (l : List γ) {a : α} {b : β} (h : A a b) :
    SideBySide params A (l.foldlM f a) (l.foldlM g b) := by
  induction l generalizing a b with
  | nil => exact together_pure h
  | cons c rest ih =>
    rw [List.foldlM_cons, List.foldlM_cons]
    exact (hstep a b c h).bind fun a' b' h' => ih h'

variable {w : Weighter K} (hw : w.params = params w.key)

include hw

theorem sideBySide_normalized (u : Nat) (trueLoop : Bool) :
    SideBySide params Eq ((ProofGraph.walk w).normalized u trueLoop)
      ((ProofGraph.walk w).normalized u trueLoop) := by
  have hlinks : SideBySide params Eq (ProofM.onGraph (ProofGraph.weightedOutlinks u w trueLoop))
      (ProofM.onGraph (ProofGraph.weightedOutlinks u w trueLoop)) := by
    refine sideBySide_onGraph fun s t h => ?_
    obtain ⟨h⟩ := h
    obtain ⟨hlike, h'⟩ := h.weightedOutlinks Scalar.orderFree hw u trueLoop
    exact ⟨hlike, .mk h'⟩
  exact hlinks.bind fun links _ hsame => together_pure (by rw [hsame])

omit hw in
theorem sideBySide_degree (u : Nat) :
    SideBySide params Eq ((ProofGraph.walk w).degree u) ((ProofGraph.walk w).degree u) := by
  refine sideBySide_onGraph fun s t h => ?_
  obtain ⟨h⟩ := h
  obtain ⟨hlike, h'⟩ := h.degree u true
  exact ⟨hlike, .mk h'⟩

omit hw in
theorem sideBySide_settleable (settings : ProverSettings K) (u : Nat) :
    SideBySide params Eq ((ProofGraph.walk w).settleable settings u)
      ((ProofGraph.walk w).settleable settings u) := by
  unfold Walk.settleable
  split
  · exact together_pure rfl
  · have hdepth : SideBySide params Eq ((ProofGraph.walk w).callDepth u) ((ProofGraph.walk w).callDepth u) := by
      intro σ τ h
      have hstates : σ.store.graph.states = τ.store.graph.states := h.stores.agreement.states
      refine ⟨.ok ?_, h⟩
      show (σ.store.graph.state? u).map (·.stack.length) = (τ.store.graph.state? u).map (·.stack.length)
      rw [ProofGraph.state?, ProofGraph.state?, hstates]
    exact hdepth.bind fun depth _ hsame => together_pure (by rw [hsame])

end

/-! ## Provers in lockstep

The lemmas follow the definitions of the provers, one for each function, from a single push up to the passes.  A
snapshot is taken before the proof on the graph with numbered features, which keeps proofs abreast and never fails. -/

section

variable {params : Nat → Params K} {w : Weighter K} {settings : ProverSettings K} {V V' : Type} [MassVector V K]
  [MassVector V' K] [LawfulMass V K] [LawfulMass V' K]

theorem sideBySide_progress (name name' : String) (number : Nat) {pushes pushes' : Nat} {settled residual : V}
    {settled' residual' : V'} (hpushes : pushes = pushes') (hsettled : SameMasses settled settled')
    (hresidual : SameMasses residual residual') : SideBySide params (fun _ _ => True)
      ((ProofGraph.walk w).progress name number pushes settled residual)
      ((ProofGraph.walk w).progress name' number pushes' settled' residual') := by
  refine sideBySide_report ?_
  show Progress.anonymous ⟨_, number, pushes, _, _, _, _⟩ = Progress.anonymous ⟨_, number, pushes', _, _, _, _⟩
  simp only [Progress.anonymous, hpushes, hsettled.entries_eq, hresidual.entries_eq]

omit [LawfulMass V K] [LawfulMass V' K] in
theorem sideBySide_ratio {st : Pushing V} {st' : Pushing V'} (h : SamePushing st st') (u : Nat) :
    SideBySide params Eq ((ProofGraph.walk w).ratio st u) ((ProofGraph.walk w).ratio st' u) := by
  unfold Walk.ratio
  rw [h.residual u]
  dsimp only
  split
  · exact together_pure rfl
  · exact (sideBySide_degree u).bind fun degree _ hsame => together_pure (by rw [hsame])

section

variable (hw : w.params = params w.key)

include hw

theorem sideBySide_powerStep (l : List (Nat × K)) {next : V} {next' : V'} (h : SameMasses next next') :
    SideBySide params SameMasses ((ProofGraph.walk w).powerStep l next)
      ((ProofGraph.walk w).powerStep l next') := by
  induction l generalizing next next' with
  | nil => exact together_pure h
  | cons e rest ih =>
    obtain ⟨u, mass⟩ := e
    refine (sideBySide_normalized hw u true).bind fun links links' hsame => ?_
    rw [← hsame]
    exact ih (h.addAll _ links)

theorem sideBySide_powerSteps (name name' : String) (steps iteration : Nat) {current : V} {current' : V'}
    (h : SameMasses current current') : SideBySide params SameMasses
      ((ProofGraph.walk w).powerSteps name steps iteration current)
      ((ProofGraph.walk w).powerSteps name' steps iteration current') := by
  induction steps generalizing iteration current current' with
  | zero => exact together_pure h
  | succ steps ih =>
    unfold Walk.powerSteps
    rw [h.entries_eq]
    refine (sideBySide_powerStep hw _ sameMasses_none).bind fun next next' hnext => ?_
    refine (sideBySide_progress name name' iteration rfl hnext sameMasses_none).bind fun _ _ _ => ?_
    exact ih (iteration + 1) hnext

theorem sideBySide_power (name name' : String) : SideBySide params SameMasses
    ((ProofGraph.walk w).power settings name : ProofM K V)
      ((ProofGraph.walk w).power settings name' : ProofM K V') :=
  sideBySide_powerSteps hw name name' _ 1 (sameMasses_none.add 0 1)

def SamePush (r : Pushing V × List Nat) (r' : Pushing V' × List Nat) : Prop := SamePushing r.1 r'.1 ∧ r.2 = r'.2

theorem sideBySide_push {st : Pushing V} {st' : Pushing V'} (h : SamePushing st st') (u : Nat) :
    SideBySide params SamePush ((ProofGraph.walk w).push settings st u)
      ((ProofGraph.walk w).push settings st' u) := by
  refine (sideBySide_normalized hw u true).bind fun links links' hsame => ?_
  rw [← hsame]
  exact together_pure ⟨h.pushed settings u links, rfl⟩

theorem sideBySide_tryPush (epsilon : K) {st : Pushing V} {st' : Pushing V'} (h : SamePushing st st') (u : Nat) :
    SideBySide params SamePush ((ProofGraph.walk w).tryPush settings epsilon st u)
      ((ProofGraph.walk w).tryPush settings epsilon st' u) := by
  have hkept : SamePush (st, []) (st', []) := ⟨h, rfl⟩
  unfold Walk.tryPush
  refine (sideBySide_settleable settings u).bind fun allowed allowed' hallowed => ?_
  rw [← hallowed]
  cases allowed with
  | false => exact together_pure hkept
  | true =>
    refine (sideBySide_ratio h u).bind fun ratio ratio' hratio => ?_
    rw [← hratio]
    split
    · exact together_pure hkept
    · exact sideBySide_push hw h u

theorem sideBySide_pushFrom (epsilon : K) (hops u : Nat) {st : Pushing V} {st' : Pushing V'}
    (h : SamePushing st st') :
    SideBySide params SamePushing ((ProofGraph.walk w).pushFrom settings epsilon hops u st)
      ((ProofGraph.walk w).pushFrom settings epsilon hops u st') := by
  induction hops generalizing u st st' with
  | zero => exact (sideBySide_tryPush hw epsilon h u).bind fun r r' hr => together_pure hr.1
  | succ hops ih =>
    refine (sideBySide_tryPush hw epsilon h u).bind fun r r' hr => ?_
    obtain ⟨st, children⟩ := r
    obtain ⟨st', _⟩ := r'
    obtain ⟨hst, rfl⟩ := hr
    exact sideBySide_foldlM (fun _ _ c hst => ih c hst) children hst

theorem sideBySide_pass (epsilon : K) {st : Pushing V} {st' : Pushing V'} (h : SamePushing st st') :
    SideBySide params SamePushing ((ProofGraph.walk w).pass settings epsilon st)
      ((ProofGraph.walk w).pass settings epsilon st') := by
  unfold Walk.pass
  rw [h.residual.entries_eq]
  exact sideBySide_foldlM (fun _ _ e hst => sideBySide_pushFrom hw epsilon _ e.1 hst) _ h

def SamePasses (st : Pushing V × Nat) (st' : Pushing V' × Nat) : Prop := SamePushing st.1 st'.1 ∧ st.2 = st'.2

theorem sideBySide_passesAt (name name' : String) (epsilon : K) (fuel : Nat)
    {st : Pushing V × Nat} {st' : Pushing V' × Nat} (h : SamePasses st st') : SideBySide params SamePasses
      ((ProofGraph.walk w).passesAt settings name epsilon fuel st)
      ((ProofGraph.walk w).passesAt settings name' epsilon fuel st') := by
  induction fuel generalizing st st' with
  | zero => exact together_pure h
  | succ fuel ih =>
    obtain ⟨st, passes⟩ := st
    obtain ⟨st', _⟩ := st'
    obtain ⟨hst, rfl⟩ := h
    unfold Walk.passesAt
    dsimp only
    split
    · exact together_pure ⟨hst, rfl⟩
    · refine (sideBySide_pass hw epsilon hst).bind fun next next' hnext => ?_
      rw [hnext.pushes, hst.pushes]
      split
      · exact together_pure ⟨hnext, rfl⟩
      · refine (sideBySide_progress name name' (passes + 1) rfl hnext.settled hnext.residual).bind fun _ _ _ => ?_
        exact ih ⟨hnext, rfl⟩

/-- **Passes of pushes come to the same masses, with as many pushes.** -/
theorem sideBySide_pushPasses (name name' : String) : SideBySide params SamePushing
    ((ProofGraph.walk w).pushPasses settings name : ProofM K (Pushing V))
    ((ProofGraph.walk w).pushPasses settings name' : ProofM K (Pushing V')) := by
  unfold Walk.pushPasses
  refine Together.bind (A := SamePasses) ?_ fun st st' h => together_pure h.1
  exact sideBySide_foldlM (fun _ _ epsilon h => sideBySide_passesAt hw name name' epsilon _ h)
    _ ⟨samePushing_seed, rfl⟩

end

end

namespace Prover

def fresh (kind : ProverKind) (settings : ProverSettings K) (w : Weighter K) :
    Prover K := ⟨kind, settings, w, [], false, 0⟩

/-- **The pushes of a prover for id graphs**, in dense vectors. -/
def densePasses (p : Prover K) : ProofM K (Pushing (DenseVector K)) := do
  ProofM.onGraph (ProofGraph.freeze p.weighter)
  p.pushPasses

variable {params : Nat → Params K} {w : Weighter K} {settings : ProverSettings K}

omit [Exponential K] in
theorem freeze_abreast (hw : w.params = params w.key) {σ τ : ProofState K} (h : Abreast params σ τ) :
    ∃ τ', ProofM.onGraph (ProofGraph.freeze w) τ = (.ok (), τ') ∧ Abreast params σ τ' := by
  obtain ⟨s, reports, audience⟩ := σ
  obtain ⟨t, reports', audience'⟩ := τ
  obtain ⟨⟨hagree⟩, haudience, hreports⟩ := h
  rename_i s t
  obtain ⟨hdone, hweighed⟩ := IdGraph.meets_freeze hw t ⟨rfl, rfl, hagree.honest⟩
  refine ⟨⟨ofId (IdGraph.freeze w t).2, reports', audience'⟩, ?_,
    .mk (hagree.weighed rfl hweighed), haudience, hreports⟩
  rw [onGraph_eq]
  show (Except.mapError Halt.failed (IdGraph.freeze w t).1, _) = _
  rw [hdone]
  rfl

omit [Exponential K] in
theorem sideBySide_freeze (hw : w.params = params w.key) {α β : Type} {A : α → β → Prop}
    {x : ProofM K α} {y : ProofM K β} (h : SideBySide params A x y) :
    SideBySide params A x (ProofM.onGraph (ProofGraph.freeze w) >>= fun _ => y) := by
  intro σ τ hst
  obtain ⟨τ', hrun, hst'⟩ := freeze_abreast hw hst
  rw [bind_ok hrun]
  exact h σ τ' hst'

theorem sideBySide_pushPasses (hw : w.params = params w.key) (kind kind' : ProverKind) :
    SideBySide params SamePushing ((fresh kind settings w).pushPasses (V := ProofVector K))
      ((fresh kind' settings w).pushPasses (V := DenseVector K)) := by
  unfold pushPasses
  cases hcheck : settings.checkMinAlpha with
  | error e =>
    simp only [fresh, hcheck]
    exact together_throw (.failed (.same e))
  | ok _ =>
    simp only [fresh, hcheck]
    exact ProofWalk.sideBySide_pushPasses hw _ _

theorem sideBySide_densePasses (hw : w.params = params w.key) : SideBySide params SamePushing
    ((fresh .dpr settings w).pushPasses (V := ProofVector K)) (fresh .idDpr settings w).densePasses :=
  sideBySide_freeze hw (sideBySide_pushPasses hw .dpr .idDpr)

omit [Exponential K] in
theorem nonzero_toProof {v : ProofVector K} {v' : DenseVector K} (h : SameMasses v v') :
    v.nonzero = (MassVector.toProof v' : ProofVector K).nonzero := by
  have hresult : (MassVector.toProof v' : ProofVector K).toList = entries v' :=
    SortedMap.toList_ofList (LawfulMass.ascending v')
  have hmass : ∀ e ∈ entries v', (!(e.2 == 0)) = true := fun e he => by
    simpa using ((LawfulMass.mem_entries v' e.1 e.2).1 he).2
  calc v.nonzero = entries v' := h.entries_eq
    _ = (entries v').filter fun e => !(e.2 == 0) := (List.filter_eq_self.2 hmass).symm
    _ = (MassVector.toProof v' : ProofVector K).nonzero := by rw [ProofVector.nonzero, hresult]

theorem sideBySide_ppr (hw : w.params = params w.key) : SideBySide params (fun r r' => r.1.nonzero = r'.1.nonzero)
    (fresh .ppr settings w).proveUnpruned (fresh .idPpr settings w).proveUnpruned := by
  have hdense : SideBySide params SameMasses
      ((ProofGraph.walk w).power settings (ProverKind.name .ppr) : ProofM K (ProofVector K))
      (fresh .idPpr settings w).proveDense := sideBySide_freeze hw (sideBySide_power hw _ _)
  exact hdense.bind fun v v' h => together_pure (nonzero_toProof h)

theorem proveDense_idDpr : (fresh .idDpr settings w).proveDense =
    (fresh .idDpr settings w).densePasses >>= fun st => pure st.settled := by
  show (ProofM.onGraph (ProofGraph.freeze w) >>= fun _ => (fresh .idDpr settings w).pushPasses >>=
    fun st => pure st.settled) = _
  simp only [densePasses, bind_assoc]
  rfl

theorem proveUnpruned_idDpr : (fresh .idDpr settings w).proveUnpruned =
    (fresh .idDpr settings w).densePasses >>= fun st => pure (MassVector.toProof st.settled, 0) := by
  show (fresh .idDpr settings w).proveDense >>= (fun v => pure (MassVector.toProof v, 0)) = _
  simp only [proveDense_idDpr, bind_assoc, pure_bind]

theorem sideBySide_dpr (hw : w.params = params w.key) : SideBySide params (fun r r' => r.1.nonzero = r'.1.nonzero)
    (fresh .dpr settings w).proveUnpruned (fresh .idDpr settings w).proveUnpruned := by
  rw [proveUnpruned_idDpr]
  exact (sideBySide_densePasses hw).bind fun st st' h => together_pure (nonzero_toProof h.settled)

omit [Field K] [LinearOrder K] [FloorSemiring K] [Exponential K] in
theorem guarded_run {α : Type} {p : Prover K} {proof : ProofM K α} {audience : Audience}
    {store : Store (ProofGraph K) K} {r : Except (Halt K) α} {τ : ProofState K} (hbusy : p.busy = false)
    (hrun : proof ⟨store, #[], audience⟩ = (r, τ)) :
    ∃ busy, p.guarded proof audience store = ⟨r, τ.reports.toList, { p with busy }, τ.store⟩ := by
  have hrun : proof.run ⟨store, #[], audience⟩ = (r, τ) := hrun
  unfold guarded
  rw [if_neg (by simp [hbusy]), hrun]
  exact ⟨_, rfl⟩

theorem prove_fresh {kind : ProverKind} {store : Store (ProofGraph K) K} (audience : Audience)
    (hgraph : kind.requiresIdGraph = true → store.graph.kind = .cachingId)
    {r : Except (Halt K) (ProofVector K × Nat)}
    {τ : ProofState K} (hrun : (fresh kind settings w).proveUnpruned ⟨store, #[], audience⟩ = (r, τ)) :
    let out := (fresh kind settings w).prove audience store
    out.result = r.map Prod.fst ∧ out.reports = τ.reports.toList ∧ out.store = τ.store ∧
      ∀ result pushes, r = .ok (result, pushes) → kind = .dpr → out.prover.lastPushes = pushes := by
  obtain ⟨busy, hguarded⟩ := guarded_run (p := fresh kind settings w) rfl hrun
  unfold prove
  rw [if_neg fun h => h.2 (hgraph h.1), hguarded]
  cases r with
  | error e => exact ⟨rfl, rfl, rfl, nofun⟩
  | ok r =>
    refine ⟨rfl, rfl, rfl, fun result pushes hr hkind => ?_⟩
    cases hr
    subst hkind
    rfl

/-- **Outcomes that tell the same**: like faults or results with the same entries, the same reports but for the name of
the prover, and the same states in the graphs, as many of them expanded. -/
structure SameOutcome (out out' : Outcome K (ProofVector K)) : Prop where
  results : Corresponds Halt.Alike (fun v v' => v.nonzero = v'.nonzero) out.result out'.result
  reports : out.reports.map Progress.anonymous = out'.reports.map Progress.anonymous
  states : out.store.graph.states = out'.store.graph.states
  expanded : ∀ id, out.store.graph.isExpanded id = out'.store.graph.isExpanded id

omit [Exponential K] in
theorem isExpanded_eq {s t : Store (ProofGraph K) K} (h : Related params s t) (id : Nat) :
    s.graph.isExpanded id = t.graph.isExpanded id := by
  obtain @⟨s, t, hagree⟩ := h
  have hrow := hagree.rows id
  show (s.graph.edges.get? id).isSome = (t.graph.rows.get? id).isSome
  generalize s.graph.edges.get? id = x, t.graph.rows.get? id = y at hrow
  cases hrow with
  | none => rfl
  | some _ => rfl

theorem sameOutcome {kind kind' : ProverKind} {s t : Store (ProofGraph K) K}
    (audience : Audience) (h : Related params s t) (hkind : kind.requiresIdGraph = false)
    (hlockstep : SideBySide params (fun r r' => r.1.nonzero = r'.1.nonzero) (fresh kind settings w).proveUnpruned
      (fresh kind' settings w).proveUnpruned) :
    SameOutcome ((fresh kind settings w).prove audience s) ((fresh kind' settings w).prove audience t) := by
  have hcaching : t.graph.kind = .cachingId := by
    obtain ⟨-⟩ := h
    rfl
  obtain ⟨hout, hstores, -, hreports⟩ := hlockstep ⟨s, #[], audience⟩ ⟨t, #[], audience⟩ ⟨h, rfl, rfl⟩
  rcases hrun : (fresh kind settings w).proveUnpruned ⟨s, #[], audience⟩ with ⟨r, σ⟩
  rcases hrun' : (fresh kind' settings w).proveUnpruned ⟨t, #[], audience⟩ with ⟨r', τ⟩
  rw [hrun, hrun'] at hout hstores hreports
  obtain ⟨hresult, hheard, hstore, -⟩ := prove_fresh audience (by simp [hkind]) hrun
  obtain ⟨hresult', hheard', hstore', -⟩ := prove_fresh audience (fun _ => hcaching) hrun'
  refine ⟨?_, by rw [hheard, hheard', hreports], by rw [hstore, hstore']; exact hstores.agreement.states, fun id => ?_⟩
  · rw [hresult, hresult']
    cases hout with
    | ok h => exact .ok h
    | error h => exact .error h
  · rw [hstore, hstore']
    exact isExpanded_eq hstores id

end Prover

/-- **Provers in dense vectors compute what provers in maps compute.**  The graphs of a query in both representations
fail to open for the same fault, or fresh provers of the same settings and weighter come to the same on them: power
iteration with power iteration, and pushes with pushes, of which there are as many. -/
theorem dense_proofs_agree (m : Machine K) (features : GraphKind → Symbols)
    (counts : GraphKind → SortedMap Nat FeatureCounts) (w : Weighter K)
    (settings : ProverSettings K) (audience : Audience) :
    (∃ e, opened .state m (features .state) (counts .state) = .error e ∧
      opened .cachingId m (features .cachingId) (counts .cachingId) = .error e) ∨
    ∃ s t : Store (ProofGraph K) K, opened .state m (features .state) (counts .state) = .ok s ∧
      opened .cachingId m (features .cachingId) (counts .cachingId) = .ok t ∧
      Prover.SameOutcome ((Prover.fresh .ppr settings w).prove audience s)
        ((Prover.fresh .idPpr settings w).prove audience t) ∧
      Prover.SameOutcome ((Prover.fresh .dpr settings w).prove audience s)
        ((Prover.fresh .idDpr settings w).prove audience t) ∧
      (Prover.fresh .idDpr settings w).proveDense =
        ((Prover.fresh .idDpr settings w).densePasses >>= fun st => pure st.settled) ∧
      ∀ st, ((Prover.fresh .idDpr settings w).densePasses ⟨t, #[], audience⟩).1 = .ok st →
        ((Prover.fresh .dpr settings w).prove audience s).prover.lastPushes = st.pushes := by
  rcases opened_related (fun _ => w.params) m features counts with hfails | ⟨s, t, hs, ht, hrelated⟩
  · exact .inl hfails
  refine .inr ⟨s, t, hs, ht, Prover.sameOutcome audience hrelated rfl (Prover.sideBySide_ppr rfl),
    Prover.sameOutcome audience hrelated rfl (Prover.sideBySide_dpr rfl),
      Prover.proveDense_idDpr, fun st hst => ?_⟩
  have hpasses : SideBySide (fun _ => w.params) SamePushing
      ((Prover.fresh .dpr settings w).pushPasses (V := ProofVector K))
      (Prover.fresh .idDpr settings w).densePasses := Prover.sideBySide_densePasses rfl
  obtain ⟨hout, -⟩ := hpasses ⟨s, #[], audience⟩ ⟨t, #[], audience⟩ ⟨hrelated, rfl, rfl⟩
  rw [hst] at hout
  rcases hrun : (Prover.fresh .dpr settings w).pushPasses (V := ProofVector K) ⟨s, #[], audience⟩ with ⟨e | st', σ⟩
  · rw [hrun] at hout
    cases hout
  · rw [hrun] at hout
    cases hout with
    | ok hsame =>
      have hproof : (Prover.fresh .dpr settings w).proveUnpruned ⟨s, #[], audience⟩ =
          (.ok (st'.settled, st'.pushes), σ) := by
        show ((Prover.fresh .dpr settings w).pushPasses (V := ProofVector K) >>= fun st =>
          pure (st.settled, st.pushes)) ⟨s, #[], audience⟩ = _
        rw [bind_ok hrun]
        rfl
      obtain ⟨-, -, -, hcount⟩ := Prover.prove_fresh audience (fun h => by cases h) hproof
      rw [hcount _ _ rfl rfl, hsame.pushes]

end ProofWalk
