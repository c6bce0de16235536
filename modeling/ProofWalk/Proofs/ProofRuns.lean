import ProofWalk.Proofs.RegularGraphs
import ProofWalk.Prove.Prover
/-!
# Proofs.ProofRuns — what requests keep, proofs keep

A proof touches its graph by requests alone.  So what each request has, and what is not lost when requests follow
one another, a proof by any strategy has (`Composed.proveUnpruned`).  A property of stores that outlasts weighted
edges, degrees and snapshots thus outlasts a proof, whether it ends well or not (`keeps_proveUnpruned`).  One such
property is that a graph is regular and of some representation (`lasting_regular`).
-/
namespace ProofWalk

variable {K α β : Type}

/-- **A computation that keeps a property of stores**, whatever comes of it. -/
def Keeps (P : Store (ProofGraph K) K → Prop) (x : ProofM K α) : Prop := ∀ τ, P τ.store → P (x τ).2.store

section

variable {P : Store (ProofGraph K) K → Prop}

theorem keeps_pure (a : α) : Keeps P (pure a) := fun _ h => h

theorem keeps_throw (e : Halt K) : Keeps P (throw e : ProofM K α) := fun _ h => h

theorem Keeps.bind {x : ProofM K α} {f : α → ProofM K β} (hx : Keeps P x) (hf : ∀ a, Keeps P (f a)) :
    Keeps P (x >>= f) := by
  intro τ h
  have hkept := hx τ h
  rcases hrun : x τ with ⟨e | a, τ'⟩
  · rw [hrun] at hkept
    rw [bind_error hrun]
    exact hkept
  · rw [hrun] at hkept
    rw [bind_ok hrun]
    exact hf a τ' hkept

theorem keeps_onGraph {op : ProofGraph.Op K α} (hop : ∀ s, P s → P (op s).2) :
    Keeps P (ProofM.onGraph op) := fun τ h => hop τ.store h

theorem keeps_report (r : Thunk (Progress K)) : Keeps P (ProofM.report r) := by
  rintro ⟨store, reports, audience⟩ h
  cases audience with
  | absent => exact h
  | present patience =>
    show P ((if patience = some (reports.push r.get).size then throw .abandoned else pure () : ProofM K Unit)
      ⟨store, reports.push r.get, .present patience⟩).2.store
    split
    · exact h
    · exact h

end

/-! ## All strategies at once

`Composed` is a property of computations that requests and reports have and sequences keep.  The functions of the
provers are gone through once, for any such property, and not again for each. -/

/-- **A property of computations that every request of a proof has**, and that is not lost when computations follow
one another. -/
structure Composed [Scalar K] [Exponential K] (Q : (α : Type) → ProofM K α → Prop) (w : Weighter K) : Prop where
  pure {α : Type} (a : α) : Q α (Pure.pure a)
  throw {α : Type} (fault : ProverError K) : Q α (MonadExcept.throw (.failed fault))
  bind {α β : Type} {x : ProofM K α} {f : α → ProofM K β} (hx : Q α x) (hf : ∀ a, Q β (f a)) : Q β (x >>= f)
  links id trueLoop : Q _ ((ProofGraph.walk w).links id trueLoop)
  degree id : Q _ ((ProofGraph.walk w).degree id)
  isCompleted id : Q _ ((ProofGraph.walk w).isCompleted id)
  callDepth id : Q _ ((ProofGraph.walk w).callDepth id)
  report r : Q _ (ProofM.report r)
  freeze : Q _ (ProofM.onGraph (ProofGraph.freeze w))

variable [Scalar K] [Exponential K]

namespace Composed

variable {Q : (α : Type) → ProofM K α → Prop} {w : Weighter K} {V : Type} [MassVector V K]
  {settings : ProverSettings K}

omit V [MassVector V K] in
theorem foldlM (h : Composed Q w) {f : β → α → ProofM K β} (hf : ∀ b a, Q β (f b a)) (l : List α) (b : β) :
    Q β (l.foldlM f b) := by
  induction l generalizing b with
  | nil => exact h.pure b
  | cons a rest ih =>
    rw [List.foldlM_cons]
    exact h.bind (hf b a) fun b' => ih b'

omit V [MassVector V K] in
theorem normalized (h : Composed Q w) (id : Nat) (trueLoop : Bool) :
    Q _ ((ProofGraph.walk w).normalized id trueLoop) :=
  h.bind (h.links id trueLoop) fun _ => h.pure _

theorem ratio (h : Composed Q w) (st : Pushing V) (u : Nat) : Q _ ((ProofGraph.walk w).ratio st u) := by
  unfold Walk.ratio
  dsimp only
  split
  · exact h.pure _
  · exact h.bind (h.degree u) fun _ => h.pure _

omit V [MassVector V K] in
theorem settleable (h : Composed Q w) (u : Nat) : Q _ ((ProofGraph.walk w).settleable settings u) := by
  unfold Walk.settleable
  split
  · exact h.pure _
  · exact h.bind (h.callDepth u) fun _ => h.pure _

/-! ### Power iteration -/

theorem powerStep (h : Composed Q w) (entries : List (Nat × K)) (next : V) :
    Q _ ((ProofGraph.walk w).powerStep entries next) := by
  induction entries generalizing next with
  | nil => exact h.pure next
  | cons e rest ih => exact h.bind (h.normalized e.1 true) fun links => ih _

theorem powerSteps (h : Composed Q w) (name : String) (steps number : Nat) (current : V) :
    Q _ ((ProofGraph.walk w).powerSteps name steps number current) := by
  induction steps generalizing number current with
  | zero => exact h.pure current
  | succ steps ih => exact h.bind (h.powerStep _ _) fun next => h.bind (h.report _) fun _ => ih (number + 1) next

/-! ### Pushes -/

theorem tryPush (h : Composed Q w) (epsilon : K) (st : Pushing V) (u : Nat) :
    Q _ ((ProofGraph.walk w).tryPush settings epsilon st u) := by
  unfold Walk.tryPush
  refine h.bind (h.settleable u) fun allowed => ?_
  split
  · exact h.pure _
  · refine h.bind (h.ratio st u) fun ratio => ?_
    split
    · exact h.pure _
    · exact h.bind (h.normalized u true) fun _ => h.pure _

theorem pushFrom (h : Composed Q w) (epsilon : K) (hops u : Nat) (st : Pushing V) :
    Q _ ((ProofGraph.walk w).pushFrom settings epsilon hops u st) := by
  induction hops generalizing u st with
  | zero => exact h.bind (h.tryPush epsilon st u) fun _ => h.pure _
  | succ hops ih => exact h.bind (h.tryPush epsilon st u) fun r => h.foldlM (fun st c => ih c st) r.2 r.1

theorem passesAt (h : Composed Q w) (name : String) (epsilon : K) (fuel : Nat) (st : Pushing V × Nat) :
    Q _ ((ProofGraph.walk w).passesAt settings name epsilon fuel st) := by
  induction fuel generalizing st with
  | zero => exact h.pure st
  | succ fuel ih =>
    unfold Walk.passesAt
    split
    · exact h.pure _
    · refine h.bind (h.foldlM (fun st (e : Nat × K) => h.pushFrom epsilon settings.apr.maxDepth e.1 st) _ st.1)
        fun next => ?_
      split
      · exact h.pure _
      · exact h.bind (h.report _) fun _ => ih (next, st.2 + 1)

theorem pushPasses (h : Composed Q w) (name : String) :
    Q _ ((ProofGraph.walk w).pushPasses settings name : ProofM K (Pushing V)) :=
  h.bind (h.foldlM (fun st epsilon => h.passesAt name epsilon (Walk.passBound settings) st) _ _) fun _ => h.pure _

/-! ### The queue -/

theorem nextAmong (h : Composed Q w) (st : Pushing V) (count : Nat) (waiting : PriorityQueue (Queued K)) :
    Q _ ((ProofGraph.walk w).nextAmong settings st count waiting) := by
  induction count generalizing waiting with
  | zero => exact h.pure _
  | succ count ih =>
    unfold Walk.nextAmong
    split
    · exact h.pure _
    · rename_i q rest _
      have hdue : Q _ ((ProofGraph.walk w).isDue settings st q) := by
        unfold Walk.isDue
        refine h.bind (h.ratio st q.id) fun current => ?_
        split
        · exact h.pure _
        · exact h.settleable q.id
      refine h.bind hdue fun due => ?_
      split
      · exact h.pure _
      · exact ih rest

theorem enqueue (h : Composed Q w) (st : Pushing V) (depths : SortedMap Nat Nat) (ids : List Nat)
    (waiting : PriorityQueue (Queued K)) : Q _ ((ProofGraph.walk w).enqueue settings st depths ids waiting) := by
  induction ids generalizing waiting with
  | nil => exact h.pure _
  | cons v rest ih =>
    unfold Walk.enqueue
    split
    · exact ih _
    · exact h.bind (h.ratio st v) fun _ => ih _

theorem prioritySteps (h : Composed Q w) (steps number : Nat) (q : Walk.Queue V K) :
    Q _ ((ProofGraph.walk w).prioritySteps settings steps number q) := by
  induction steps generalizing number q with
  | zero => exact h.pure _
  | succ steps ih =>
    unfold Walk.prioritySteps
    refine h.bind (h.nextAmong q.pushing _ q.waiting) fun next => ?_
    cases next with
    | none => exact h.pure _
    | some next =>
      refine h.bind (h.bind (h.normalized next.1 true) fun _ => h.pure _) fun r => ?_
      refine h.bind (h.enqueue r.1 _ _ next.2) fun waiting => ?_
      exact h.bind (h.report _) fun _ => ih (number + 1) _

/-! ### Depth first -/

omit V [MassVector V K] in
theorem visit (h : Composed Q w) (depth u : Nat) (weight : K) (v : Walk.Visits K) :
    Q _ ((ProofGraph.walk w).visit depth u weight v) := by
  induction depth generalizing u weight v with
  | zero => exact h.pure v
  | succ depth ih =>
    unfold Walk.visit
    refine h.bind (h.isCompleted u) fun completed => ?_
    split
    · exact h.pure v
    · refine h.bind (h.normalized u false) fun links => ?_
      exact h.bind (h.report _) fun _ => h.foldlM (fun v (e : Nat × K) => ih e.1 e.2 v) _ _

/-! ### Provers -/

theorem proverPasses (h : Composed Q w) {p : Prover K} (hp : p.weighter = w) :
    Q _ (p.pushPasses : ProofM K (Pushing V)) := by
  subst hp
  unfold Prover.pushPasses
  split
  · exact h.throw _
  · exact h.pushPasses _

omit V [MassVector V K] in
theorem proveDense (h : Composed Q w) {p : Prover K} (hp : p.weighter = w) : Q _ p.proveDense := by
  unfold Prover.proveDense
  subst hp
  refine h.bind h.freeze fun _ => ?_
  split
  · exact h.bind (h.proverPasses rfl) fun _ => h.pure _
  · exact h.powerSteps _ _ _ _

omit V [MassVector V K] in
theorem proveUnpruned {p : Prover K} (h : Composed Q p.weighter) : Q _ p.proveUnpruned := by
  unfold Prover.proveUnpruned
  split
  · exact h.bind (h.powerSteps _ _ _ _) fun _ => h.pure _
  · exact h.bind (h.bind (h.visit _ _ _ _) fun _ => h.pure _) fun _ => h.pure _
  · exact h.bind (h.proverPasses rfl) fun _ => h.pure _
  · split
    · exact h.throw _
    · exact h.bind (h.bind (h.ratio _ _) fun _ => h.prioritySteps _ _ _) fun _ => h.pure _
  · exact h.bind (h.proveDense rfl) fun _ => h.pure _

end Composed

/-! ## What outlasts proofs

A lasting property is composed: the computations that keep it are the ones in question. -/

/-- **A property of stores that outlasts the requests of proofs** with a weighter. -/
structure Lasting (P : Store (ProofGraph K) K → Prop) (w : Weighter K) : Prop where
  weightedOutlinks : ∀ id trueLoop s, P s → P (ProofGraph.weightedOutlinks id w trueLoop s).2
  degree : ∀ id trueLoop s, P s → P (ProofGraph.degree id trueLoop s).2
  freeze : ∀ s, P s → P (ProofGraph.freeze w s).2

theorem Lasting.composed {P : Store (ProofGraph K) K → Prop} {w : Weighter K} (h : Lasting P w) :
    Composed (fun _ x => Keeps P x) w where
  pure := keeps_pure
  throw _ := keeps_throw _
  bind hx hf := hx.bind hf
  links id trueLoop := keeps_onGraph (h.weightedOutlinks id trueLoop)
  degree id := keeps_onGraph (h.degree id true)
  isCompleted _ := fun _ hs => hs
  callDepth _ := fun _ hs => hs
  report := keeps_report
  freeze := keeps_onGraph h.freeze

/-- **What outlasts requests outlasts proofs**, by whatever strategy. -/
theorem keeps_proveUnpruned {P : Store (ProofGraph K) K → Prop} {p : Prover K} (h : Lasting P p.weighter) :
    Keeps P p.proveUnpruned :=
  h.composed.proveUnpruned

omit [Scalar K] [Exponential K] in
theorem kind_either (onState : StateGraph.Op K α) (onId : IdGraph.Op K α) (s : Store (ProofGraph K) K) :
    (ProofGraph.either onState onId s).2.graph.kind = s.graph.kind := by
  obtain ⟨g | g, features, counts⟩ := s
  · rfl
  · rfl

theorem lasting_regular {params : Nat → Params K} {w : Weighter K}
    (hw : w.params = params w.key) (kind : GraphKind) :
    Lasting (fun s : Store (ProofGraph K) K => ProofGraph.Regular params s ∧ s.graph.kind = kind) w where
  weightedOutlinks id trueLoop s h := by
    have hrequest := h.1.request (.weightedOutlinks id w trueLoop) hw
    rw [Request.run_weightedOutlinks] at hrequest
    exact ⟨hrequest, (kind_either _ _ s).trans h.2⟩
  degree id trueLoop s h := by
    have hrequest := h.1.request (.degree id trueLoop) trivial
    rw [Request.run_degree] at hrequest
    exact ⟨hrequest, (kind_either _ _ s).trans h.2⟩
  freeze s h := ⟨h.1.freeze hw, (kind_either _ _ s).trans h.2⟩

/-! ## Proofs by a prover

What surrounds a proof, the check that the prover can start and the pruning behind it, is taken apart by its
outcomes. -/

namespace Prover

variable {p : Prover K} {audience : Audience} {store : Store (ProofGraph K) K} {τ : ProofState K}

omit [Scalar K] [Exponential K] in
theorem guarded_eq {α : Type} (proof : ProofM K α) (hbusy : p.busy = false) (audience : Audience)
    (store : Store (ProofGraph K) K) : (p.guarded proof audience store).result = (proof ⟨store, #[], audience⟩).1 ∧
      (p.guarded proof audience store).store = (proof ⟨store, #[], audience⟩).2.store := by
  unfold guarded
  rw [if_neg (by simp [hbusy])]
  exact ⟨rfl, rfl⟩

theorem prove_of_error {halt : Halt K} (hbusy : p.busy = false)
    (hgraph : p.kind.requiresIdGraph = true → store.graph.kind = .cachingId)
    (hrun : p.proveUnpruned ⟨store, #[], audience⟩ = (.error halt, τ)) :
    (p.prove audience store).result = .error halt := by
  obtain ⟨hresult, -⟩ := guarded_eq p.proveUnpruned hbusy audience store
  rw [hrun] at hresult
  unfold prove
  rw [if_neg fun h => h.2 (hgraph h.1)]
  dsimp only
  rw [hresult]

theorem prove_of_ok {result : ProofVector K} {pushes : Nat} (hbusy : p.busy = false)
    (hgraph : p.kind.requiresIdGraph = true → store.graph.kind = .cachingId)
    (hrun : p.proveUnpruned ⟨store, #[], audience⟩ = (.ok (result, pushes), τ)) :
    (p.prunes = false → (p.prove audience store).result = .ok result ∧ (p.prove audience store).store = τ.store) ∧
    (p.prunes = true → (p.prove audience store).result = (p.pruneResult result ⟨τ.store, #[], .absent⟩).1 ∧
      (p.prove audience store).store = (p.pruneResult result ⟨τ.store, #[], .absent⟩).2.store) := by
  obtain ⟨hresult, hstore⟩ := guarded_eq p.proveUnpruned hbusy audience store
  rw [hrun] at hresult hstore
  unfold prove
  rw [if_neg fun h => h.2 (hgraph h.1)]
  dsimp only
  rw [hresult]
  dsimp only
  constructor
  · intro hprunes
    rw [if_neg (by simp [hprunes])]
    exact ⟨rfl, hstore⟩
  · intro hprunes
    rw [if_pos hprunes, hstore]
    exact ⟨rfl, rfl⟩

end Prover

end ProofWalk
