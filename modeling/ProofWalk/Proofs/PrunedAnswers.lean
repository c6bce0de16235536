import Mathlib.Data.Rat.Floor
import ProofWalk.Engine
import ProofWalk.Proofs.ExactNumbers
import ProofWalk.Proofs.ProofRuns
import ProofWalk.Proofs.RenumberedAnswers
import ProofWalk.Proofs.Safety
/-!
# Proofs.PrunedAnswers — pruning never changes the answers

A weighter that is not strict never stops pruning.  A prover that prunes thus fails where one that does not fails,
and leaves the same proof with other numbers for its states (`Prover.prove_unpruned`); so the answers of their
engines differ in nothing but these numbers.

Answers are read off completed states, and these survive every pruning.  They keep their order, so that of several
states with one answer the same one leads it before and after.
-/
namespace ProofWalk

variable {K : Type}

/-! ## Pruning without failure

A weighter that is not strict weighs every edge, so that all rows are rewritten and the new numbers are told. -/

namespace Weighter

variable [Scalar K] [Exponential K] {w : Weighter K}

theorem weighNamed_lenient (h : w.strict = false) (features : List (String × K)) :
    ∃ x, w.weighNamed features = .ok x := by
  unfold weighNamed check
  split
  · exact ⟨_, rfl⟩
  · simp [h, Except.mapError]

theorem weighAll_lenient (h : w.strict = false) (edges : List (Nat × List (String × K))) :
    ∃ weights, w.weighAll edges = .ok weights := by
  induction edges with
  | nil => exact ⟨[], rfl⟩
  | cons e rest ih =>
    obtain ⟨weight, hweight⟩ := weighNamed_lenient h e.2
    obtain ⟨weights, hweights⟩ := ih
    rw [weighAll, hweight, hweights]
    exact ⟨_, rfl⟩

theorem linksOf_lenient (h : w.strict = false) (id : Nat) (edges : List (Nat × List (String × K))) :
    ∃ links, w.linksOf id false edges = .ok links := by
  obtain ⟨weights, hweights⟩ := weighAll_lenient h edges
  obtain ⟨restart, hrestart⟩ := weighNamed_lenient h [(restartFeature, 1)]
  rw [linksOf, hweights, weighLoop, hrestart]
  exact ⟨_, rfl⟩

end Weighter

namespace IdGraph

variable [Scalar K] [Exponential K] {params : Nat → Params K} {w : Weighter K} {s : Store (IdGraph K) K}

/-- **Pruning with a weighter that is not strict tells the new numbers**, and survivors keep their states. -/
theorem prune_lenient (h : Regular params s.features s.graph) (hw : w.params = params w.key)
    (hlenient : w.strict = false) (visible : Visibility) (options : PruneOptions K) : ∃ s',
      prune w visible options s = (.ok ((List.range s.graph.states.size).map (s.graph.newNumber visible)), s') ∧
      s'.graph.machine = s.graph.machine ∧
      ∀ j, s'.graph.states.get? j = (s.graph.survivors visible)[j]?.bind s.graph.states.get? := by
  cases hall : (List.range s.graph.states.size).all (s.graph.survives visible) with
  | true =>
    have hsurvivors := survivors_of_all hall
    rw [newNumbers_of_all hsurvivors]
    exact ⟨s, prune_of_all hall, rfl, get?_of_all hsurvivors⟩
  | false =>
    rcases prune_run h hw options hall with ⟨e, -, -, -, id, -, hillegal⟩ | ⟨_, rows, t, hrun, ht, -⟩
    · obtain ⟨links, hlinks⟩ := Weighter.linksOf_lenient hlenient id
        (listed (s.features.intern subproofFeature).1 (s.graph.rowAt id))
      rw [linksAt, hlinks] at hillegal
      cases hillegal
    · refine ⟨_, hrun, ?_, get?_survivingStates s.graph visible⟩
      show t.graph.machine = s.graph.machine
      rw [ht.graph]

end IdGraph

/-! ## Proofs with and without pruning

The prover that prunes is compared with one that is the same but hides nothing; both run the same proof, and the
first then prunes the graph and moves the result to the new numbers. -/

theorem exists_ofId [Scalar K] {params : Nat → Params K} {s : Store (ProofGraph K) K}
    (h : ProofGraph.Regular params s) (hkind : s.graph.kind = .cachingId) :
    ∃ t, s = ofId t ∧ t.graph.Regular params t.features := by
  cases h with
  | state h => cases hkind
  | cachingId h => exact ⟨_, rfl, h⟩

namespace Prover

def unpruned (p : Prover K) : Prover K := { p with hidden := [] }

variable [Scalar K] [Exponential K]

def options (p : Prover K) : PruneOptions K :=
  ⟨p.settings.apr.alpha, p.settings.apr.maxDepth, p.settings.apr.epsilon⟩

omit [Scalar K] [Exponential K] in
def inNumbers (result : ProofVector K) (numbers : List (Option Nat)) : ProofVector K :=
  .ofList (result.toList.filterMap fun e => match numbers.toArray[e.1]? with
    | some (some id) => some (id, e.2)
    | _ => none)

theorem pruneResult_ofId (p : Prover K) (t : Store (IdGraph K) K) (result : ProofVector K)
    (reports : Array (Progress K)) (audience : Audience) : p.pruneResult result ⟨ofId t, reports, audience⟩ =
      (((IdGraph.prune p.weighter (hidingCalls p.hidden) p.options t).1.mapError .failed).map (inNumbers result),
        ⟨ofId (IdGraph.prune p.weighter (hidingCalls p.hidden) p.options t).2, reports, audience⟩) :=
          bind_pure_eq _ _ _

theorem pruneResult_eq {params : Nat → Params K} {p : Prover K} {t : Store (IdGraph K) K}
    (h : t.graph.Regular params t.features) (hw : p.weighter.params = params p.weighter.key)
    (hlenient : p.weighter.strict = false) (result : ProofVector K)
    (reports : Array (Progress K)) (audience : Audience) : ∃ t',
      IdGraph.prune p.weighter (hidingCalls p.hidden) p.options t =
        (.ok ((List.range t.graph.states.size).map (t.graph.newNumber (hidingCalls p.hidden))), t') ∧
      t'.graph.machine = t.graph.machine ∧
      (∀ j, t'.graph.states.get? j = (t.graph.survivors (hidingCalls p.hidden))[j]?.bind t.graph.states.get?) ∧
      p.pruneResult result ⟨ofId t, reports, audience⟩ =
        (.ok (.ofList (IdGraph.moved (t.graph.newNumber (hidingCalls p.hidden)) result)),
          ⟨ofId t', reports, audience⟩) := by
  obtain ⟨t', hrun, hmachine, hstates⟩ := IdGraph.prune_lenient h hw hlenient (hidingCalls p.hidden) p.options
  refine ⟨t', hrun, hmachine, hstates, ?_⟩
  rw [pruneResult_ofId, hrun, ← IdGraph.filterMap_numbers]
  rfl

variable {p : Prover K} {audience : Audience} {store : Store (ProofGraph K) K} {τ : ProofState K}

/-- **What pruning makes of a proof.**  Both provers fail alike, or the one that does not prune leaves a graph that
the other prunes, and the answers differ in the numbers of states. -/
theorem prove_unpruned {params : Nat → Params K} (p : Prover K) (audience : Audience) (hbusy : p.busy = false)
    (hregular : ProofGraph.Regular params store) (hcaching : store.graph.kind = .cachingId)
    (hw : p.weighter.params = params p.weighter.key) (hlenient : p.weighter.strict = false) :
    (∃ halt, (p.prove audience store).result = .error halt ∧
      (p.unpruned.prove audience store).result = .error halt) ∨
    ∃ (t t' : Store (IdGraph K) K) (result result' : ProofVector K),
      (p.unpruned.prove audience store).result = .ok result ∧ (p.unpruned.prove audience store).store = ofId t ∧
      IdGraph.prune p.weighter (hidingCalls p.hidden) p.options t =
        (.ok ((List.range t.graph.states.size).map (t.graph.newNumber (hidingCalls p.hidden))), t') ∧
      (p.prove audience store).result = .ok result' ∧
      Answer.all (p.prove audience store).store.graph result' = (Answer.all (.cachingId t.graph) result).map
        (Answer.renumbered fun id => (t.graph.newNumber (hidingCalls p.hidden) id).getD id) := by
  have hkept := keeps_proveUnpruned (lasting_regular hw .cachingId) ⟨store, #[], audience⟩ ⟨hregular, hcaching⟩
  -- both provers make this run; what is hidden matters only once it has succeeded
  rcases hrun : p.proveUnpruned ⟨store, #[], audience⟩ with ⟨halt | ⟨result, pushes⟩, τ⟩
  · exact .inl ⟨halt, prove_of_error hbusy (fun _ => hcaching) hrun,
      prove_of_error (p := p.unpruned) hbusy (fun _ => hcaching) hrun⟩
  · rw [hrun] at hkept
    obtain ⟨t, ht, hregular'⟩ := exists_ofId hkept.1 hkept.2
    obtain ⟨hplain, -⟩ := prove_of_ok (p := p.unpruned) hbusy (fun _ => hcaching) hrun
    obtain ⟨hresult, hstore⟩ := hplain rfl
    obtain ⟨hunpruned, hpruned⟩ := prove_of_ok hbusy (fun _ => hcaching) hrun
    obtain ⟨t', hprune, hmachine, hstates, hmoved⟩ := pruneResult_eq hregular' hw hlenient result #[] .absent
    cases hprunes : p.prunes with
    | false =>
      obtain ⟨hresult', hstore'⟩ := hunpruned hprunes
      refine .inr ⟨t, t', result, result, hresult, hstore.trans ht, hprune, hresult', ?_⟩
      rw [hstore', ht]
      exact (IdGraph.all_renumbered_nothing (by simpa [prunes] using hprunes) result).symm
    | true =>
      obtain ⟨hresult', hstore'⟩ := hpruned hprunes
      rw [ht, hmoved] at hresult' hstore'
      refine .inr ⟨t, t', result, _, hresult, hstore.trans ht, hprune, hresult', ?_⟩
      rw [hstore']
      exact IdGraph.all_moved hmachine hstates result

end Prover

/-! ## Engines with and without pruning

The two engines compile a query alike and build the same graph; what they make of the proof is compared by its
outcome. -/

namespace Engine

def unpruned (e : Engine K) :
    Engine K := { e with config := { e.config with pruneHidden := [] }, prover := e.prover.unpruned }

variable [Scalar K]

omit [Scalar K] in
theorem compile_unpruned (query : String) (e : Engine K) :
    compile query e.unpruned = ((compile query e).1, (compile query e).2.unpruned) ∧
      (compile query e).2.config = e.config ∧ (compile query e).2.prover = e.prover := by
  unfold compile ExceptT.mk
  dsimp only
  cases Query.read query with
  | error fault => exact ⟨rfl, rfl, rfl⟩
  | ok q => exact ⟨rfl, rfl, rfl⟩

theorem graphOf_eq (q : QueryProgram) (e : Engine K) : graphOf q e =
    match ProofGraph.build e.config.graph (e.machine q) e.features with
    | .error fault => (.ok (.error fault), e)
    | .ok (graph, features) => (.ok (.ok graph), { e with features }) := by
  have hrun : graphOf q e = (match ProofGraph.build e.config.graph (e.machine q) e.features with
      | .error fault => pure (.error fault)
      | .ok (graph, features) => set { e with features } >>= fun _ => pure (.ok graph) :
        EngineM K (Except LogicError (ProofGraph K))) e := rfl
  rw [hrun]
  cases ProofGraph.build e.config.graph (e.machine q) e.features with
  | error fault => rfl
  | ok built => rfl

variable [Exponential K]

def storeFor (e : Engine K) (graph : ProofGraph K) : Store (ProofGraph K) K :=
  ⟨graph, e.features, (∅ : SortedMap Nat FeatureCounts).insert e.prover.weighter.key e.counts⟩

def concluded (out : Prover.Outcome K (ProofVector K)) : Except (Error K) (ProofVector K × ProofGraph K) :=
  match out.result with
  | .ok result => .ok (result, out.store.graph)
  | .error (.failed fault) => .error (.prover fault)
  | .error .abandoned => .ok (.empty, out.store.graph)

def reported (out : Prover.Outcome K (ProofVector K)) :
    EngineM K (ProofVector K × ProofGraph K × List (Progress K)) :=
  match out.result with
  | .ok result => return (result, out.store.graph, out.reports)
  | .error (.failed fault) => throw (.prover fault)
  | .error .abandoned => return (.empty, out.store.graph, out.reports)

theorem prove_eq (graph : ProofGraph K) (audience : Audience) (e : Engine K) :
    (prove graph audience e).1.map (fun r => (r.1, r.2.1)) =
      concluded (e.prover.copy.prove audience (e.storeFor graph)) ∧
      (prove graph audience e).2.features = (e.prover.copy.prove audience (e.storeFor graph)).store.features := by
  have hrun : ∃ (out : Prover.Outcome K (ProofVector K)) (e' : Engine K),
      out = e.prover.copy.prove audience (e.storeFor graph) ∧ e'.features = out.store.features ∧
      prove graph audience e = reported out e' := ⟨_, _, rfl, rfl, rfl⟩
  obtain ⟨out, e', hout, hfeatures, hrun⟩ := hrun
  rw [hrun, ← hout, ← hfeatures]
  unfold concluded reported
  cases out.result with
  | ok result => exact ⟨rfl, rfl⟩
  | error halt =>
    cases halt with
    | failed fault => exact ⟨rfl, rfl⟩
    | abandoned => exact ⟨rfl, rfl⟩

theorem proved_eq {query : String} {q : QueryProgram} {graph : ProofGraph K} {e e₁ e₂ : Engine K}
    (hcompile : compile query e = (.ok q, e₁)) (hgraph : graphOf q e₁ = (.ok (.ok graph), e₂)) :
    (proved query e).1 = (concluded (e₂.prover.copy.prove .absent (e₂.storeFor graph))).map some ∧
      (proved query e).2.features = (e₂.prover.copy.prove .absent (e₂.storeFor graph)).store.features ∧
      (solve query e).1 = (concluded (e₂.prover.copy.prove .absent (e₂.storeFor graph))).map fun r =>
        Answer.all r.2 r.1 := by
  have hproved : proved query e = (prove graph .absent >>= fun r =>
      pure (some (r.1, r.2.1)) : EngineM K _) e₂ := by
    unfold proved
    rw [bind_ok hcompile, bind_ok hgraph]
  obtain ⟨hconcluded, hfeatures⟩ := prove_eq graph .absent e₂
  rw [bind_pure_eq] at hproved
  rw [← hconcluded, ← hfeatures, hproved]
  unfold solve
  rcases hrun : prove graph .absent e₂ with ⟨fault | r, e₃⟩
  · rw [hrun] at hproved
    rw [bind_error hproved]
    exact ⟨rfl, rfl, rfl⟩
  · rw [hrun] at hproved
    rw [bind_ok hproved]
    exact ⟨rfl, rfl, rfl⟩

/-- **What pruning changes of the answers to a query**: nothing but the numbers of states, which become those that
pruning tells of the graph that the proof leaves.  They keep their order. -/
inductive AnswersAlike (e e' : Engine K) (query : String) : Prop
  | failed (fault : Error K) (hpruned : (solve query e).1 = .error fault)
      (hplain : (solve query e').1 = .error fault)
  | unanswered (hpruned : (solve query e).1 = .ok []) (hplain : (solve query e').1 = .ok [])
  | answered (t t' : Store (IdGraph K) K) (numbers : List (Option Nat)) (result : ProofVector K)
      (answers answers' : List (Answer K))
      (hproved : (proved query e').1 = .ok (some (result, .cachingId t.graph)))
        (hfeatures : (proved query e').2.features = t.features)
      (hprune : IdGraph.prune e.prover.weighter (hidingCalls e.prover.hidden) e.prover.options t =
        (.ok numbers, t'))
      (hascending : ∀ i j k l : Nat, numbers[i]? = some (some k) → numbers[j]? = some (some l) → (i < j ↔ k < l))
      (hplain : (solve query e').1 = .ok answers) (hpruned : (solve query e).1 = .ok answers')
      (hsame : List.Forall₂ (fun a a' => a' = { a with state := a'.state } ∧
        numbers[a.state]? = some (some a'.state)) answers answers')

theorem AnswersAlike.of_failed {e e' : Engine K} {query : String} {fault : Error K} {e₁ e₁' : Engine K}
    (h : proved query e = (.error fault, e₁)) (h' : proved query e' = (.error fault, e₁')) :
    AnswersAlike e e' query := by
  refine .failed fault ?_ ?_
  · unfold solve
    rw [bind_error h]
  · unfold solve
    rw [bind_error h']

theorem AnswersAlike.of_unreached {e e' : Engine K} {query : String} {e₁ e₁' : Engine K}
    (h : proved query e = (.ok none, e₁)) (h' : proved query e' = (.ok none, e₁')) : AnswersAlike e e' query := by
  refine .unanswered ?_ ?_
  · unfold solve
    rw [bind_ok h]
    rfl
  · unfold solve
    rw [bind_ok h']
    rfl

theorem AnswersAlike.of_concluded {e e' : Engine K} {query : String} (params : Nat → Params K)
    {store : Store (ProofGraph K) K} (hregular : ProofGraph.Regular params store)
    (hcaching : store.graph.kind = .cachingId)
    (hw : e.prover.weighter.params = params e.prover.weighter.key) (hlenient : e.prover.weighter.strict = false)
    (hproved' : (proved query e').1 = (concluded (e.prover.copy.unpruned.prove .absent store)).map some)
    (hfeatures' : (proved query e').2.features = (e.prover.copy.unpruned.prove .absent store).store.features)
    (hsolved : (solve query e).1 = (concluded (e.prover.copy.prove .absent store)).map fun r => Answer.all r.2 r.1)
    (hsolved' : (solve query e').1 =
      (concluded (e.prover.copy.unpruned.prove .absent store)).map fun r => Answer.all r.2 r.1) :
    AnswersAlike e e' query := by
  rcases e.prover.copy.prove_unpruned .absent rfl hregular hcaching hw hlenient with
    ⟨halt, hhalt, hhalt'⟩ | ⟨t, t', result, result', hresult, hstore, hprune, hresult', hall⟩
  · unfold concluded at hsolved hsolved'
    rw [hhalt] at hsolved
    rw [hhalt'] at hsolved'
    cases halt with
    | failed fault => exact .failed (.prover fault) hsolved hsolved'
    | abandoned =>
      refine .unanswered (hsolved.trans ?_) (hsolved'.trans ?_)
      · exact congrArg Except.ok (Answer.all_empty _)
      · exact congrArg Except.ok (Answer.all_empty _)
  · unfold concluded at hproved' hsolved hsolved'
    rw [hresult, hstore] at hproved' hsolved'
    rw [hstore] at hfeatures'
    rw [hresult'] at hsolved
    refine .answered t t' _ result _ _ hproved' hfeatures' hprune (fun i j k l hi hj => ?_) hsolved' hsolved ?_
    · exact IdGraph.newNumber_lt_iff (IdGraph.newNumber_eq_some.2 (IdGraph.getElem?_newNumbers.1 hi))
        (IdGraph.newNumber_eq_some.2 (IdGraph.getElem?_newNumbers.1 hj))
    · have hgraph : (ofId t).graph = .cachingId t.graph := rfl
      dsimp only
      rw [hgraph, hall, List.forall₂_map_right_iff, List.forall₂_same]
      intro a ha
      obtain ⟨j, hj⟩ := IdGraph.exists_newNumber_of_mem (hidingCalls e.prover.copy.hidden) ha
      have hstate : (Answer.renumbered (fun id =>
          (t.graph.newNumber (hidingCalls e.prover.copy.hidden) id).getD id) a).state = j := by
        rw [Answer.renumbered, hj]
        rfl
      refine ⟨rfl, IdGraph.getElem?_newNumbers.2 ?_⟩
      rw [hstate]
      exact IdGraph.newNumber_eq_some.1 hj

omit [Exponential K] in
theorem kind_of_build {kind : GraphKind} {m : Machine K} {features features' : Symbols} {graph : ProofGraph K}
    (h : ProofGraph.build kind m features = .ok (graph, features')) : graph.kind = kind := by
  cases kind with
  | state =>
    obtain ⟨_, -, h⟩ := except_bind_eq_ok h
    cases h
    rfl
  | cachingId =>
    obtain ⟨_, -, h⟩ := except_bind_eq_ok h
    cases h
    rfl

theorem proved_of_error {query : String} {fault : Error K} {e e₁ : Engine K}
    (h : compile query e = (.error fault, e₁)) : proved query e = (.error fault, e₁) := by
  unfold proved
  exact bind_error h

theorem proved_of_unreached {query : String} {q : QueryProgram} {fault : LogicError} {e e₁ e₂ : Engine K}
    (hcompile : compile query e = (.ok q, e₁)) (hgraph : graphOf q e₁ = (.ok (.error fault), e₂)) :
    proved query e = (.ok none, e₂) := by
  unfold proved
  rw [bind_ok hcompile, bind_ok hgraph]
  rfl

/-- **An engine that prunes answers as one that does not.** -/
theorem solve_unpruned {e : Engine K} (hcaching : e.config.graph = .cachingId)
    (hlenient : e.prover.weighter.strict = false) (query : String) : AnswersAlike e e.unpruned query := by
  obtain ⟨hcompile', hconfig, hprover⟩ := compile_unpruned query e
  rcases hcompile : compile query e with ⟨fault | q, e₁⟩
  · rw [hcompile] at hcompile'
    exact .of_failed (proved_of_error hcompile) (proved_of_error hcompile')
  rw [hcompile] at hcompile' hconfig hprover
  have hgraph := graphOf_eq q e₁
  have hgraph' := graphOf_eq q e₁.unpruned
  -- both engines build the same graph, as what is hidden is for provers only
  rcases hbuild : ProofGraph.build e₁.config.graph (e₁.machine q) e₁.features with fault | ⟨graph, features⟩
  · have hbuild' : ProofGraph.build e₁.unpruned.config.graph (e₁.unpruned.machine q) e₁.unpruned.features =
        .error fault := hbuild
    rw [hbuild] at hgraph
    rw [hbuild'] at hgraph'
    exact .of_unreached (proved_of_unreached hcompile hgraph) (proved_of_unreached hcompile' hgraph')
  · have hbuild' : ProofGraph.build e₁.unpruned.config.graph (e₁.unpruned.machine q) e₁.unpruned.features =
        .ok (graph, features) := hbuild
    rw [hbuild] at hgraph
    rw [hbuild'] at hgraph'
    obtain ⟨-, -, hsolved⟩ := proved_eq hcompile hgraph
    obtain ⟨hproved', hfeatures', hsolved'⟩ := proved_eq hcompile' hgraph'
    have hkind : graph.kind = .cachingId := by
      rw [hconfig, hcaching] at hbuild
      exact kind_of_build hbuild
    have hcopy : ({ e₁ with features } : Engine K).prover.copy = e.prover.copy := congrArg Prover.copy hprover
    have hcopy' : ({ e₁.unpruned with features } : Engine K).prover.copy = e.prover.copy.unpruned :=
      congrArg (fun p : Prover K => p.copy.unpruned) hprover
    have hstore : ({ e₁.unpruned with features } : Engine K).storeFor graph =
      ({ e₁ with features } : Engine K).storeFor graph := rfl
    rw [hcopy] at hsolved
    rw [hcopy', hstore] at hproved' hfeatures' hsolved'
    exact .of_concluded (fun _ => e.prover.weighter.params) (ProofGraph.Regular.build hbuild _) hkind rfl hlenient
      hproved' hfeatures' hsolved hsolved'

end Engine

/-! ## Configurations with and without pruning

What is hidden never makes a configuration invalid where the prover can prune. -/

namespace ProverConfig

variable [Scalar K] [Written K] {c : ProverConfig K}

def unpruned (c : ProverConfig K) : ProverConfig K := { c with pruneHidden := [] }

theorem weighter_unpruned (hid : c.prover.requiresIdGraph = true) (params : Params K) (key : Nat) :
    c.unpruned.weighter params key = c.weighter params key := by
  have hrest : c.unpruned.validateRest = c.validateRest := by
    have hcan : ∀ hidden : List String, ¬(hidden ≠ [] ∧ ¬c.prover.requiresIdGraph = true) := fun _ h => h.2 hid
    unfold validateRest
    rw [if_neg (hcan c.pruneHidden), show c.unpruned.prover = c.prover from rfl,
      if_neg (hcan c.unpruned.pruneHidden)]
    rfl
  have hvalidate : c.unpruned.validate = c.validate := by
    unfold validate
    rw [hrest]
    rfl
  unfold weighter
  rw [hvalidate]
  rfl

theorem weighter_eq_ok {params : Params K} {key : Nat} {w : Weighter K} (h : c.weighter params key = .ok w) :
    (c.prover.requiresIdGraph = true → c.graph = .cachingId) ∧ w.strict = c.failOnIllegalWeight := by
  obtain ⟨_, hvalidate, h⟩ := except_bind_eq_ok h
  obtain ⟨_, -, hvalidate⟩ := except_bind_eq_ok hvalidate
  obtain ⟨_, -, hrest⟩ := except_bind_eq_ok hvalidate
  constructor
  · intro hid
    by_contra hgraph
    unfold validateRest at hrest
    split at hrest
    · cases hrest
    · rw [if_pos ⟨hid, hgraph⟩] at hrest
      cases hrest
  · split at h
    · cases h
    · obtain ⟨squash, -, h⟩ := except_bind_eq_ok h
      cases h
      rfl

end ProverConfig

theorem Prover.ofConfig_unpruned [Scalar K] {c : ProverConfig K} (w : Weighter K) :
    Prover.ofConfig c.unpruned w = (Prover.ofConfig c w).unpruned := by
  unfold Prover.ofConfig Prover.unpruned ProverConfig.unpruned
  simp only [List.map_nil, ite_self]
  rfl

/-- **Pruning never changes the answers.**  For all that is hidden, an engine with an id prover that is not strict
answers as the one that hides nothing, up to the numbers of states. -/
theorem Engine.solve_pruned [Scalar K] [Exponential K] [Written K] (program : Program) (bases : List (FactBase K))
    (symbols : Symbols) (params : Params K) {c : ProverConfig K} (hid : c.prover.requiresIdGraph = true)
    (hlenient : c.failOnIllegalWeight = false) :
    (∃ fault, make program bases symbols c params = .error fault ∧
      make program bases symbols c.unpruned params = .error fault) ∨
    ∃ e : Engine K, make program bases symbols c params = .ok e ∧
      make program bases symbols c.unpruned params = .ok e.unpruned ∧
      ∀ (constants features : Symbols) (counts : FeatureCounts) (query : String),
        AnswersAlike { e with constants, features, counts }
          { e.unpruned with constants, features, counts } query := by
  unfold make
  rw [ProverConfig.weighter_unpruned hid]
  cases hw : c.weighter params 0 with
  | error fault => exact .inl ⟨.config fault, rfl, rfl⟩
  | ok w =>
    obtain ⟨hcaching, hstrict⟩ := ProverConfig.weighter_eq_ok hw
    have hengine : (⟨program, bases, c.unpruned, .ofConfig c.unpruned w, symbols, .empty, .zero⟩ : Engine K) =
        (⟨program, bases, c, .ofConfig c w, symbols, .empty, .zero⟩ : Engine K).unpruned := by
      rw [Prover.ofConfig_unpruned]
      rfl
    refine .inr ⟨_, rfl, congrArg Except.ok hengine, fun constants features counts query => ?_⟩
    exact solve_unpruned (e := ⟨program, bases, c, .ofConfig c w, constants, features, counts⟩) (hcaching hid)
      (hstrict.trans hlenient) query

/-! ## Paths without the calls of an edge -/

attribute [local instance] flatExponential

/-- Rational numbers without texts, which only tell what is wrong with an option. -/
@[reducible] def wordlessNumbers : Written ℚ := ⟨fun _ => "", fun _ _ => ""⟩

attribute [local instance] wordlessNumbers

def edgeless : ProverConfig ℚ :=
  { ProverConfig.usual with prover := .idPpr, graph := .cachingId, pruneHidden := ["edge/2"] }

def pathEngine (c : ProverConfig ℚ) : Except (Error ℚ) (Engine ℚ) := Engine.make pathProgram [] pathSymbols c .unit

def pathAnswers (c : ProverConfig ℚ) : Option (List (String × ℚ × Nat)) := do
  let e ← (pathEngine c).toOption
  let answers ← (e.solve "path(a,W)").1.toOption
  return answers.map fun a => (a.goal, a.probability, a.state)

/-- The answer about paths has another state where the calls of `edge` are removed. -/
theorem Engine.solve_pruned_path : edgeless.prover.requiresIdGraph = true ∧ edgeless.failOnIllegalWeight = false ∧
    (∃ e e' : Engine ℚ, pathEngine edgeless = .ok e ∧ pathEngine edgeless.unpruned = .ok e' ∧
      AnswersAlike e e' "path(a,W)") ∧
    pathAnswers edgeless = some [("path(a,b)", 1, 1)] ∧ pathAnswers edgeless.unpruned =
      some [("path(a,b)", 1, 3)] := by
  refine ⟨rfl, rfl, ?_, by decide +kernel, by decide +kernel⟩
  rcases Engine.solve_pruned pathProgram [] pathSymbols .unit (c := edgeless) rfl rfl with
    ⟨fault, hfails, -⟩ | ⟨e, he, he', halike⟩
  · have hmade : (pathEngine edgeless).toOption.isSome = true := by decide +kernel
    rw [pathEngine, hfails] at hmade
    cases hmade
  · exact ⟨e, e.unpruned, he, he', halike e.constants e.features e.counts "path(a,W)"⟩

end ProofWalk
