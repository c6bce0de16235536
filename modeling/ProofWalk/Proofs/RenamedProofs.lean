import ProofWalk.Proofs.PrunedAnswers
import ProofWalk.Proofs.PushRuns
import ProofWalk.Proofs.RenamedGraphs
/-!
# Proofs.RenamedProofs — one proof under two tables

A proof asks its graph for weighted edges, degrees and the like, and counterparts answer alike.  So a prover comes
to the same result on both, or fails for like faults (`Prover.together_proveUnpruned`).  Pruning weighs the same
edges and removes the same states (`IdGraph.prune_renamed`), and the answers are the same in the end
(`Prover.prove_counterparts`).
-/
namespace ProofWalk

variable {K : Type}

inductive Halt.Like : Halt K → Halt K → Prop
  | failed {e e' : ProverError K} (h : e.Like e') : Like (.failed e) (.failed e')

variable [Scalar K]

/-! ## Before pruning

Being computed together is composed, so requests are all that has to be looked at (`Composed`). -/

section

variable {params : Nat → Params K} {α : Type}

structure Unheard (params : Nat → Params K) (σ τ : ProofState K) : Prop where
  stores : Counterparts params σ.store τ.store
  absent : σ.audience = .absent ∧ τ.audience = .absent

theorem together_onGraph {op : ProofGraph.Op K α} (hop : ∀ s t, Counterparts params s t →
    Corresponds ProverError.Like Eq (op s).1 (op t).1 ∧ Counterparts params (op s).2 (op t).2) :
    Together (Unheard params) Halt.Like Eq (ProofM.onGraph op) (ProofM.onGraph op) := by
  intro s t h
  obtain ⟨hout, hstores⟩ := hop s.store t.store h.stores
  rw [onGraph_eq, onGraph_eq]
  refine ⟨?_, hstores, h.absent⟩
  generalize (op s.store).1 = x, (op t.store).1 = y at hout
  cases hout with
  | ok ha => exact .ok ha
  | error he => exact .error (.failed he)

omit [Scalar K] in
theorem report_of_absent (r : Thunk (Progress K)) {τ : ProofState K} (h : τ.audience = .absent) :
    ProofM.report r τ = (.ok (), τ) := by
  obtain ⟨store, reports, audience⟩ := τ
  cases h
  rfl

variable [Exponential K]

theorem composed_together {w : Weighter K} (hw : w.params = params w.key) :
    Composed (fun _ x => Together (Unheard params) Halt.Like Eq x x) w where
  pure _ := together_pure rfl
  throw fault := together_throw (.failed (.same fault))
  bind hx hf := hx.bind fun a b hab => hab ▸ hf a
  links id trueLoop := together_onGraph fun _ _ h => h.weightedOutlinks hw id trueLoop
  degree id := together_onGraph fun _ _ h => h.degree id true
  isCompleted id := fun s t h => by
    refine ⟨.ok ?_, h⟩
    have hstate := h.stores.renamed.state?_renamed id
    show s.store.graph.isCompleted id = t.store.graph.isCompleted id
    unfold ProofGraph.isCompleted
    generalize s.store.graph.state? id = x, t.store.graph.state? id = y at hstate
    cases hstate with
    | none => rfl
    | some hs =>
      obtain ⟨heap, -, rfl⟩ := hs
      rfl
  callDepth id := fun s t h => by
    refine ⟨.ok ?_, h⟩
    have hstate := h.stores.renamed.state?_renamed id
    show (s.store.graph.state? id).map (·.stack.length) = (t.store.graph.state? id).map (·.stack.length)
    generalize s.store.graph.state? id = x, t.store.graph.state? id = y at hstate
    cases hstate with
    | none => rfl
    | some hs =>
      obtain ⟨heap, -, rfl⟩ := hs
      rfl
  report r := fun s t h => by
    rw [report_of_absent r h.absent.1, report_of_absent r h.absent.2]
    exact ⟨.ok rfl, h⟩
  freeze := together_onGraph fun _ _ h => h.freeze hw

end

/-! ## Pruning

Which states survive is told by the names of their predicates, and the rows of survivors by weights alone. -/

namespace IdGraph

variable {σ τ : Symbols} {visible : Visibility} {g g' : IdGraph K}

omit [Scalar K] in
/-- **The same states survive.** -/
theorem survives_eq (h : StateTable.Renamed σ τ g.states g'.states)
    (hvisible : ∀ s t, State.Renamed σ τ s t → visible s = visible t) :
    g.survives visible = g'.survives visible := by
  funext id
  have hid := h id
  unfold survives
  generalize g.states.get? id = x, g'.states.get? id = y at hid
  cases hid with
  | none => rfl
  | @some f f' hf =>
    have hseen := hvisible _ _ hf
    obtain ⟨heap, -, hstate⟩ := hf
    rw [Option.any_some, Option.any_some, hseen, hstate]

/-- **Graphs whose edges have like weights**: the same states are expanded, and their rows are weighed alike. -/
structure AlikeWeighed [Exponential K] (w : Weighter K) (table table' : Symbols) (g g' : IdGraph K) : Prop where
  expanded : ∀ id, (g.rows.get? id).isSome = (g'.rows.get? id).isSome
  weights : ∀ id, LikeOutcomes (w.weighAll (listed table (g.rowAt id))) (w.weighAll (listed table' (g'.rowAt id)))

variable [Exponential K] {w : Weighter K} {table table' : Symbols} {params : Nat → Params K}

theorem alikeWeighed_of_agreeing (hsums : Scalar.OrderFree K) {s t : Store (StateGraph K) K}
    {a b : Store (IdGraph K) K} (ha : Agreeing params s a) (hb : Agreeing params t b)
    (h : s.graph.Renamed t.graph) (w : Weighter K)
    (hkeeps : a.features.Keeps table) (hkeeps' : b.features.Keeps table') :
    AlikeWeighed w table table' a.graph b.graph := by
  -- both rows stand for the edges that the graphs with dictionaries share
  have hrows : ∀ id, Option.Rel (RowFor table) (s.graph.edges.get? id) (a.graph.rows.get? id) :=
    (ha.keeps hkeeps).rows
  have hrows' : ∀ id, Option.Rel (RowFor table') (s.graph.edges.get? id) (b.graph.rows.get? id) :=
    h.edges ▸ (hb.keeps hkeeps').rows
  constructor
  · intro id
    have hrow := hrows id
    have hrow' := hrows' id
    generalize s.graph.edges.get? id = edges, a.graph.rows.get? id = x, b.graph.rows.get? id = y at hrow hrow'
    cases hrow with
    | none =>
      cases hrow'
      rfl
    | some _ =>
      cases hrow'
      rfl
  · intro id
    have hrow := hrows id
    have hrow' := hrows' id
    unfold rowAt
    generalize s.graph.edges.get? id = edges, a.graph.rows.get? id = x, b.graph.rows.get? id = y at hrow hrow'
    cases hrow with
    | none =>
      cases hrow'
      exact .same _
    | some hrow =>
      cases hrow' with
      | some hrow' =>
        exact (w.weighAll_like hsums hrow.reordered).symm.trans (w.weighAll_like hsums hrow'.reordered)

section

variable (h : Regular params table g) (h' : Regular params table' g') (hw : w.params = params w.key)
  (hlike : AlikeWeighed w table table' g g')

include h h' hw hlike

theorem together_sharesOf {ids : List Nat} (hids : ∀ id ∈ ids, (g.rows.get? id).isSome) :
    Together (fun s t => Weighed params g table s ∧ Weighed params g' table' t) ProverError.Like Eq
      (sharesOf w ids) (sharesOf w ids) := by
  induction ids with
  | nil => exact together_pure rfl
  | cons id rest ih =>
    obtain ⟨hid, hrest⟩ := List.forall_mem_cons.1 hids
    have hid' := hlike.expanded id ▸ hid
    have hlinks : LikeOutcomes (linksAt w table g id) (linksAt w table' g' id) :=
      (hlike.weights id).bind fun _ => .same _
    refine (together_of_meets (meets_linksAt h hw hid) (meets_linksAt h' hw hid') hlinks.corresponds).bind
      fun links _ hsame => ?_
    exact (ih hrest).bind fun transitions _ hothers => together_pure (hsame ▸ hothers ▸ rfl)

theorem together_prunedRows (survives : Nat → Bool) (transitions : Slots (List (Nat × K)))
    (options : PruneOptions K) (subproof subproof' : Nat) {ids : List Nat}
    (hids : ∀ id ∈ ids, (g.rows.get? id).isSome) :
    Together (fun s t => Weighed params g table s ∧ Weighed params g' table' t) ProverError.Like (fun _ _ => True)
      (prunedRows w survives transitions options subproof ids)
        (prunedRows w survives transitions options subproof' ids) := by
  induction ids with
  | nil => exact together_pure trivial
  | cons id rest ih =>
    obtain ⟨hid, hrest⟩ := List.forall_mem_cons.1 hids
    have hid' := hlike.expanded id ▸ hid
    refine (together_of_meets (meets_weightedRow h hw hid) (meets_weightedRow h' hw hid')
      (hlike.weights id).corresponds).bind fun _ _ _ => ?_
    refine Together.bind (together_of_meets (meets_row hid) (meets_row hid') (A := fun _ _ => True) (.ok trivial))
      fun _ _ _ => ?_
    exact (ih hrest).bind fun _ _ _ => together_pure trivial

theorem together_survivingRows (hsize : g.states.size = g'.states.size)
    (hsurvives : g.survives visible = g'.survives visible) (options : PruneOptions K) (subproof subproof' : Nat) :
    Together (fun s t => Weighed params g table s ∧ Weighed params g' table' t) ProverError.Like (fun _ _ => True)
      (survivingRows w visible options g subproof) (survivingRows w visible options g' subproof') := by
  have hexpanded : g.expanded = g'.expanded := by
    unfold expanded
    rw [hsize]
    exact List.filter_congr fun id _ => hlike.expanded id
  have hids : ∀ p : Nat → Bool, ∀ id ∈ g.expanded.filter p, (g.rows.get? id).isSome := fun p id hid =>
    (List.mem_filter.1 (List.mem_filter.1 hid).1).2
  unfold survivingRows
  rw [← hexpanded, ← hsurvives]
  refine (together_sharesOf h h' hw hlike (hids _)).bind fun transitions _ hsame => ?_
  subst hsame
  exact together_prunedRows h h' hw hlike _ transitions options subproof subproof' (hids _)

end

/-- **Pruning tells the same new numbers of counterparts**, or fails for like faults; what remains are counterparts. -/
theorem prune_renamed (hsums : Scalar.OrderFree K) {s t : Store (StateGraph K) K} {a b : Store (IdGraph K) K}
    (ha : Agreeing params s a) (hb : Agreeing params t b) (h : s.graph.Renamed t.graph)
    (hregular : Regular params a.features a.graph)
    (hregular' : Regular params b.features b.graph) (hw : w.params = params w.key)
    (hvisible : ∀ σ τ s t, State.Renamed σ τ s t → visible s = visible t) (options : PruneOptions K) :
    Corresponds ProverError.Like Eq (prune w visible options a).1 (prune w visible options b).1 ∧
      (ProofGraph.cachingId (prune w visible options a).2.graph).Renamed
        (.cachingId (prune w visible options b).2.graph) := by
  have hrenamed := (Counterparts.cachingId hsums ha hb h).renamed
  have hsurvives : a.graph.survives visible = b.graph.survives visible :=
    survives_eq hrenamed.states (hvisible _ _)
  have hsize : a.graph.states.size = b.graph.states.size := hrenamed.states.size_eq
  cases hall : (List.range a.graph.states.size).all (a.graph.survives visible) with
  | true =>
    have hall' : (List.range b.graph.states.size).all (b.graph.survives visible) = true := hsize ▸ hsurvives ▸ hall
    rw [prune_of_all hall, prune_of_all hall', hsize]
    exact ⟨.ok rfl, hrenamed⟩
  | false =>
    have hall' : (List.range b.graph.states.size).all (b.graph.survives visible) = false :=
      hsize ▸ hsurvives ▸ hall
    have hsurvivors : a.graph.survivors visible = b.graph.survivors visible := by
      rw [survivors, survivors, hsize, hsurvives]
    have hnumber : a.graph.newNumber visible = b.graph.newNumber visible := by
      rw [newNumber, newNumber, hsurvivors]
    have hkeeps := a.features.keeps_intern subproofFeature
    have hkeeps' := b.features.keeps_intern subproofFeature
    have hrows := together_survivingRows (hregular.keeps hkeeps) (hregular'.keeps hkeeps') hw
      (alikeWeighed_of_agreeing hsums ha hb h w hkeeps hkeeps') hsize hsurvives options
        (a.features.intern subproofFeature).2
      (b.features.intern subproofFeature).2 { a with features := (a.features.intern subproofFeature).1 }
      { b with features := (b.features.intern subproofFeature).1 }
      ⟨⟨rfl, rfl, (hregular.keeps hkeeps).honest⟩, ⟨rfl, rfl, (hregular'.keeps hkeeps').honest⟩⟩
    rw [prune_of_rows hall, prune_of_rows hall', ← hsize, ← hnumber]
    generalize survivingRows w visible options a.graph _ _ = x,
      survivingRows w visible options b.graph _ _ = y at hrows
    obtain ⟨r, a'⟩ := x
    obtain ⟨r', b'⟩ := y
    obtain ⟨hout, hweighed, hweighed'⟩ := hrows
    have hmachine : a'.graph.machine = a.graph.machine := by rw [hweighed.graph]
    have hmachine' : b'.graph.machine = b.graph.machine := by rw [hweighed'.graph]
    cases hout with
    | error he =>
      refine ⟨.error he, ?_⟩
      dsimp only
      rw [hweighed.graph, hweighed'.graph]
      exact ⟨hrenamed.machine, hrenamed.states⟩
    | ok _ =>
      refine ⟨.ok rfl, ?_, fun j => ?_⟩
      · show a'.graph.machine.Renamed b'.graph.machine
        rw [hmachine, hmachine']
        exact hrenamed.machine
      · show Option.Rel (Frozen.Renamed a'.graph.machine.symbols b'.graph.machine.symbols)
          ((a.graph.survivingStates visible).get? j) ((b.graph.survivingStates visible).get? j)
        rw [hmachine, hmachine', get?_survivingStates, get?_survivingStates, ← hsurvivors]
        cases (a.graph.survivors visible)[j]? with
        | none => exact .none
        | some id => exact hrenamed.states id

end IdGraph

/-! ## Provers

The two parts are put together, and answers are read off the results. -/

namespace Prover

variable [Exponential K] {params : Nat → Params K} {p : Prover K} {s t : Store (ProofGraph K) K}

/-- **A prover comes to the same result on counterparts.** -/
theorem together_proveUnpruned (hw : p.weighter.params = params p.weighter.key) :
    Together (Unheard params) Halt.Like Eq p.proveUnpruned p.proveUnpruned :=
  (composed_together hw).proveUnpruned

theorem pruneResult_renamed (h : Counterparts params s t) (hs : ProofGraph.Regular params s)
    (ht : ProofGraph.Regular params t) (hw : p.weighter.params = params p.weighter.key) (result : ProofVector K) :
    Corresponds Halt.Like Eq (p.pruneResult result ⟨s, #[], .absent⟩).1
      (p.pruneResult result ⟨t, #[], .absent⟩).1 ∧
      (p.pruneResult result ⟨s, #[], .absent⟩).2.store.graph.Renamed
        (p.pruneResult result ⟨t, #[], .absent⟩).2.store.graph := by
  cases h with
  | state h => exact ⟨.ok rfl, h.machine, h.states⟩
  | @cachingId hsums s t a b ha hb h =>
    have hvisible : ∀ σ τ s t, State.Renamed σ τ s t → hidingCalls p.hidden s = hidingCalls p.hidden t := by
      rintro σ τ s _ ⟨heap, -, rfl⟩
      rfl
    obtain ⟨hout, hrenamed⟩ := IdGraph.prune_renamed hsums ha hb h (IdGraph.regular_of_id hs)
      (IdGraph.regular_of_id ht) hw hvisible p.options
    rw [pruneResult_ofId, pruneResult_ofId]
    refine ⟨?_, hrenamed⟩
    generalize (IdGraph.prune p.weighter (hidingCalls p.hidden) p.options a).1 = x,
      (IdGraph.prune p.weighter (hidingCalls p.hidden) p.options b).1 = y at hout
    cases hout with
    | ok hnumbers => exact .ok (congrArg _ hnumbers)
    | error he => exact .error (.failed he)

/-- **A proof has the same answers on counterparts**, or fails for like faults. -/
theorem prove_counterparts (hbusy : p.busy = false)
    (hgraph : p.kind.requiresIdGraph = true → s.graph.kind = .cachingId) (h : Counterparts params s t)
    (hs : ProofGraph.Regular params s) (ht : ProofGraph.Regular params t)
    (hw : p.weighter.params = params p.weighter.key) :
    Corresponds Halt.Like (fun r r' => Answer.all (p.prove .absent s).store.graph r =
      Answer.all (p.prove .absent t).store.graph r') (p.prove .absent s).result (p.prove .absent t).result := by
  have hgraph' : p.kind.requiresIdGraph = true → t.graph.kind = .cachingId := fun hid => h.kind_eq ▸ hgraph hid
  have hkept := keeps_proveUnpruned (lasting_regular hw s.graph.kind) ⟨s, #[], .absent⟩ ⟨hs, rfl⟩
  have hkept' := keeps_proveUnpruned (lasting_regular hw t.graph.kind) ⟨t, #[], .absent⟩ ⟨ht, rfl⟩
  obtain ⟨hout, hstores, -⟩ := together_proveUnpruned hw ⟨s, #[], .absent⟩ ⟨t, #[], .absent⟩ ⟨h, rfl, rfl⟩
  rcases hrun : p.proveUnpruned ⟨s, #[], .absent⟩ with ⟨r, σ⟩
  rcases hrun' : p.proveUnpruned ⟨t, #[], .absent⟩ with ⟨r', τ⟩
  rw [hrun, hrun'] at hout hstores
  rw [hrun] at hkept
  rw [hrun'] at hkept'
  cases hout with
  | error hhalt =>
    rw [prove_of_error hbusy hgraph hrun, prove_of_error hbusy hgraph' hrun']
    exact .error hhalt
  | ok hresult =>
    obtain ⟨hplain, hpruned⟩ := prove_of_ok hbusy hgraph hrun
    obtain ⟨hplain', hpruned'⟩ := prove_of_ok hbusy hgraph' hrun'
    cases hresult
    cases hprunes : p.prunes with
    | false =>
      obtain ⟨hresult, hstore⟩ := hplain hprunes
      obtain ⟨hresult', hstore'⟩ := hplain' hprunes
      rw [hresult, hresult', hstore, hstore']
      exact .ok (hstores.renamed.answers_eq _)
    | true =>
      obtain ⟨hresult, hstore⟩ := hpruned hprunes
      obtain ⟨hresult', hstore'⟩ := hpruned' hprunes
      obtain ⟨hlike, hrenamed⟩ := pruneResult_renamed hstores hkept.1 hkept'.1 hw _
      rw [hresult, hresult', hstore, hstore']
      exact hlike.mono (fun _ _ he => he) fun r r' hsame => hsame ▸ hrenamed.answers_eq r

end Prover

end ProofWalk
