import ProofWalk.Proofs.OrderlyProofs
import ProofWalk.Proofs.PrunedAnswers
/-!
# Proofs.EngineFailures — in which ways a query fails

A valid configuration gives a prover the graph that it needs, and every query gets a fresh graph and a copy of the
prover.  So what `Engine.Failure` lists is all that can go wrong with a query (`Engine.solve_fails`): its text, an
`alpha` too small for pushes, or a weight that a strict weighter refuses.  A query whose start cannot be reached has
no answers.

Other failures that the types allow are excluded on the way: a state that is unknown cannot be asked for on a
regular graph, a prover that needs numbered features has them, a fresh copy is not at work, and no one abandons a
proof.
-/
namespace ProofWalk

variable {K : Type} [Scalar K] [Exponential K]

/-! ## Provers

Pruning weighs rows, and fails only for a weight that is refused; so does a proof, if its settings admit pushes. -/

namespace Prover

variable {p : Prover K} {store : Store (ProofGraph K) K} {fault : ProverError K}

theorem rejects_of_prune {params : Nat → Params K} {w : Weighter K}
    {t t' : Store (IdGraph K) K} {visible : Visibility} {options : PruneOptions K}
    (h : t.graph.Regular params t.features) (hw : w.params = params w.key)
    (hrun : IdGraph.prune w visible options t = (.error fault, t')) : w.Rejects fault := by
  cases hall : (List.range t.graph.states.size).all (t.graph.survives visible) with
  | true =>
    rw [IdGraph.prune_of_all hall] at hrun
    cases hrun
  | false =>
    rcases IdGraph.prune_run h hw options hall with ⟨e, s', herror, -, id, -, hillegal⟩ | ⟨_, _, _, hok, -⟩
    · have hgives :=
        w.linksOf_gives id false (IdGraph.listed (t.features.intern subproofFeature).1 (t.graph.rowAt id))
      rw [hrun] at herror
      cases herror
      rw [IdGraph.linksAt] at hillegal
      rw [hillegal] at hgives
      exact hgives
    · rw [hrun] at hok
      cases hok

theorem rejects_of_pruneResult {params : Nat → Params K} (h : ProofGraph.Regular params store)
    (hw : p.weighter.params = params p.weighter.key) (result : ProofVector K) {halt : Halt K}
    (hhalt : (p.pruneResult result ⟨store, #[], .absent⟩).1 = .error halt) :
    ∃ fault, halt = .failed fault ∧ p.weighter.Rejects fault := by
  cases h with
  | state h => cases hhalt
  | cachingId h =>
    rename_i t
    rw [pruneResult_ofId] at hhalt
    rcases hprune : IdGraph.prune p.weighter (hidingCalls p.hidden) p.options t with ⟨fault | numbers, t'⟩
    · rw [hprune] at hhalt
      cases hhalt
      exact ⟨fault, rfl, rejects_of_prune h hw hprune⟩
    · rw [hprune] at hhalt
      cases hhalt

/-- **A prover that no one abandons fails only for a reason**, on a regular graph of the representation that it
needs. -/
theorem stops_of_prove (hbusy : p.busy = false)
    (hgraph : p.kind.requiresIdGraph = true → store.graph.kind = .cachingId)
    (hregular : ProofGraph.Regular (fun _ => p.weighter.params) store) {halt : Halt K}
    (hhalt : (p.prove .absent store).result = .error halt) : ∃ fault, halt = .failed fault ∧ p.Stops fault := by
  have hroot := (Interned.isSome_get?_iff _ _).1 hregular.root
  have hready : Ready p store.graph.size ⟨store, #[], .absent⟩ := ⟨hregular, Nat.le_refl _, rfl⟩
  rcases orderly_proveUnpruned hroot _ hready with ⟨⟨result, pushes⟩, τ, n, hrun, -, hready', -⟩ |
    ⟨fault, hfault, hstops⟩
  · obtain ⟨hplain, hpruned⟩ := prove_of_ok hbusy hgraph hrun
    cases hprunes : p.prunes with
    | false =>
      rw [(hplain hprunes).1] at hhalt
      cases hhalt
    | true =>
      rw [(hpruned hprunes).1] at hhalt
      obtain ⟨fault, hfault, hrejects⟩ := rejects_of_pruneResult hready'.regular rfl result hhalt
      exact ⟨fault, hfault, .weight hrejects⟩
  · rcases hrun : p.proveUnpruned ⟨store, #[], .absent⟩ with ⟨r, τ⟩
    rw [hrun] at hfault
    obtain rfl : r = .error (.failed fault) := hfault
    rw [prove_of_error hbusy hgraph hrun] at hhalt
    cases hhalt
    exact ⟨fault, rfl, hstops⟩

end Prover

/-! ## Engines

Compiling a query changes nothing but the table of constants, and fails for its text alone. -/

namespace Engine

variable {e : Engine K} {query : String}

/-- **What can go wrong with a query** to an engine of a configuration: its text cannot be read, `alpha` is too
small for a prover that pushes, or an edge has an illegal weight and the weighter is strict. -/
inductive Failure (c : ProverConfig K) (e : Engine K) (query : String) : Error K → Prop
  | read (fault : ReadError) (h : (compile query e).1 = .error (.read fault)) : Failure c e query (.read fault)
  | minAlpha (hpushes : c.prover = .dpr ∨ c.prover = .priorityQueue ∨ c.prover = .idDpr)
    (h : c.apr.alpha < c.apr.epsilon) : Failure c e query (.prover (.minAlpha c.apr.alpha c.apr.epsilon))
  | weight (hstrict : c.failOnIllegalWeight = true) (illegal : IllegalWeight K)
    (h : ¬(Scalar.isFinite illegal.weight = true ∧ 0 ≤ illegal.weight)) :
      Failure c e query (.prover (.weight illegal))

omit [Scalar K] [Exponential K] in
/-- **Compiling a query changes nothing but the table of constants**, and fails for its text alone. -/
theorem compile_cases (query : String) (e : Engine K) :
    (compile query e).2 = { e with constants := (compile query e).2.constants } ∧
    ∀ fault, (compile query e).1 = .error fault → ∃ unread, fault = .read unread := by
  unfold compile ExceptT.mk
  dsimp only
  cases Query.read query with
  | error unread =>
    refine ⟨rfl, fun fault h => ?_⟩
    cases h
    exact ⟨unread, rfl⟩
  | ok q =>
    refine ⟨rfl, fun fault h => ?_⟩
    dsimp only at h
    cases hq : (e.program.compileQuery q e.constants).1 with
    | error unread =>
      rw [hq] at h
      cases h
      exact ⟨unread, rfl⟩
    | ok compiled =>
      rw [hq] at h
      cases h

omit [Exponential K] in
theorem build_of_startState {kind : GraphKind} {m : Machine K} {features : Symbols} {fault : LogicError}
    (h : m.startState = .error fault) : ProofGraph.build kind m features = .error fault := by
  cases kind with
  | state =>
    simp only [ProofGraph.build, StateGraph.build, h]
    rfl
  | cachingId =>
    simp only [ProofGraph.build, IdGraph.build, h]
    rfl

omit [Exponential K] in
theorem failure_of_stops [Written K] {c : ProverConfig K} {w : Weighter K} {fault : ProverError K}
    (hstrict : w.strict = c.failOnIllegalWeight) (h : ((Prover.ofConfig c w).copy).Stops fault) :
    Failure c e query (.prover fault) := by
  cases h with
  | minAlpha hpushes h =>
    refine .minAlpha ?_ h
    unfold Prover.pushes at hpushes
    simpa [Prover.copy, Prover.ofConfig, or_assoc] using hpushes
  | weight h =>
    obtain ⟨hrefuses, illegal, rfl, hillegal⟩ := h
    exact .weight (hstrict.symm.trans hrefuses) illegal hillegal

theorem solve_fails_of_valid [Written K] {c : ProverConfig K} {w : Weighter K} (hconfig : e.config = c)
    (hprover : e.prover = .ofConfig c w) (hvalid : c.prover.requiresIdGraph = true → c.graph = .cachingId)
    (hstrict : w.strict = c.failOnIllegalWeight) :
    (∀ fault, (solve query e).1 = .error fault → Failure c e query fault) ∧
    ∀ q e₁ unreached, compile query e = (.ok q, e₁) → (e₁.machine q).startState = .error unreached →
      (solve query e).1 = .ok [] := by
  obtain ⟨hkept, hunread⟩ := compile_cases query e
  rcases hcompile : compile query e with ⟨fault | q, e₁⟩
  · refine ⟨fun fault' hfault' => ?_, fun _ _ _ hcompile' _ => ?_⟩
    · rw [hcompile] at hunread
      obtain ⟨unread, rfl⟩ := hunread fault rfl
      unfold solve at hfault'
      rw [bind_error (proved_of_error hcompile)] at hfault'
      cases hfault'
      exact .read unread (congrArg Prod.fst hcompile)
    · cases hcompile'
  rw [hcompile] at hkept
  obtain ⟨constants, rfl⟩ : ∃ constants, e₁ = { e with constants } := ⟨_, hkept⟩
  have hgraph := graphOf_eq q { e with constants }
  rcases hbuild : ProofGraph.build e.config.graph (machine { e with constants } q) e.features
    with unreached | ⟨graph, features⟩
  · have hsolved : (solve query e).1 = .ok [] := by
      rw [hbuild] at hgraph
      unfold solve
      rw [bind_ok (proved_of_unreached hcompile hgraph)]
      rfl
    refine ⟨fun fault hfault => ?_, fun _ _ _ _ _ => hsolved⟩
    rw [hsolved] at hfault
    cases hfault
  · rw [hbuild] at hgraph
    obtain ⟨-, -, hsolved⟩ := proved_eq hcompile hgraph
    have hkind : graph.kind = c.graph := (kind_of_build hbuild).trans (by rw [hconfig])
    refine ⟨fun fault hfault => ?_, fun q' e' unreached hcompile' hstart => ?_⟩
    · dsimp only at hsolved
      rw [hprover] at hsolved
      rw [hsolved] at hfault
      unfold concluded at hfault
      split at hfault
      · cases hfault
      · rename_i halted hresult
        obtain ⟨fault', hfault', hstops⟩ := Prover.stops_of_prove (p := (Prover.ofConfig c w).copy) rfl
          (fun hid => hkind.trans (hvalid hid)) (ProofGraph.Regular.build hbuild _) hresult
        cases hfault'
        cases hfault
        exact failure_of_stops hstrict hstops
      · cases hfault
    · cases hcompile'
      rw [build_of_startState hstart] at hbuild
      cases hbuild

/-- **A query fails in no other way than those listed**, and has no answers if its start cannot be reached. -/
theorem solve_fails [Written K] (program : Program) (bases : List (FactBase K))
    (symbols : Symbols) (params : Params K) {c : ProverConfig K} {made : Engine K}
    (hmade : make program bases symbols c params = .ok made)
    (constants features : Symbols) (counts : FeatureCounts) (query : String) :
    let e : Engine K := { made with constants, features, counts }
    (∀ fault, (solve query e).1 = .error fault → Failure c e query fault) ∧
    ∀ q e₁ unreached, compile query e = (.ok q, e₁) → (e₁.machine q).startState = .error unreached →
      (solve query e).1 = .ok [] := by
  unfold make at hmade
  cases hw : c.weighter params 0 with
  | error fault =>
    rw [hw] at hmade
    cases hmade
  | ok w =>
    rw [hw] at hmade
    cases hmade
    obtain ⟨hvalid, hstrict⟩ := ProverConfig.weighter_eq_ok hw
    exact solve_fails_of_valid rfl rfl hvalid hstrict

/-! ## Queries about paths that fail

The three kinds of failure are there: a chance of restarting that is too small for the thresholds, and one
instruction for each expansion, which does not suffice to reach the start of a query. -/

attribute [local instance] flatExponential

attribute [local instance] wordlessNumbers

/-- A chance of restarting that is too small for the thresholds of pushes. -/
def hasty : ProverConfig ℚ := { ProverConfig.usual with apr := { AprOptions.usual with alpha := 1 / 1000000 } }

/-- One instruction for each expansion, which does not suffice to reach the start of a query. -/
def breathless : ProverConfig ℚ := { ProverConfig.usual with maxStepsPerExpansion := 1 }

def refusedAlpha (c : ProverConfig ℚ) : Option (ℚ × ℚ) :=
  match pathEngine c with
  | .ok e => match (e.solve "path(a,W)").1 with
    | .error (.prover (.minAlpha alpha epsilon)) => some (alpha, epsilon)
    | _ => none
  | .error _ => none

def reachesStart (c : ProverConfig ℚ) : Option Bool :=
  match pathEngine c with
  | .ok e => match compile "path(a,W)" e with
    | (.ok q, e₁) => some (e₁.machine q).startState.toOption.isSome
    | _ => none
  | .error _ => none

/-- A query is refused for its `alpha`, and another has no answers. -/
theorem solve_fails_path : refusedAlpha hasty = some (1 / 1000000, 1 / 10000) ∧
    reachesStart breathless = some false ∧
    (∃ e fault, pathEngine hasty = .ok e ∧ (e.solve "path(a,W)").1 = .error fault ∧
      Failure hasty e "path(a,W)" fault) ∧
    ∃ e, pathEngine breathless = .ok e ∧ (e.solve "path(a,W)").1 = .ok [] := by
  have hrefused : refusedAlpha hasty = some (1 / 1000000, 1 / 10000) := by decide +kernel
  have hunreached : reachesStart breathless = some false := by decide +kernel
  refine ⟨hrefused, hunreached, ?_, ?_⟩
  · cases hmade : pathEngine hasty with
    | error fault =>
      rw [refusedAlpha, hmade] at hrefused
      cases hrefused
    | ok e =>
      cases hsolved : (e.solve "path(a,W)").1 with
      | ok answers =>
        rw [refusedAlpha, hmade] at hrefused
        dsimp only at hrefused
        rw [hsolved] at hrefused
        cases hrefused
      | error fault =>
        exact ⟨e, fault, rfl, hsolved,
          (solve_fails pathProgram [] pathSymbols .unit hmade e.constants e.features e.counts _).1 fault hsolved⟩
  · cases hmade : pathEngine breathless with
    | error fault =>
      rw [reachesStart, hmade] at hunreached
      cases hunreached
    | ok e =>
      rw [reachesStart, hmade] at hunreached
      dsimp only at hunreached
      rcases hcompile : compile "path(a,W)" e with ⟨fault | q, e₁⟩
      · rw [hcompile] at hunreached
        cases hunreached
      · rw [hcompile] at hunreached
        cases hstart : (e₁.machine q).startState with
        | ok start =>
          dsimp only at hunreached
          rw [hstart] at hunreached
          cases hunreached
        | error unreached =>
          exact ⟨e, rfl, (solve_fails pathProgram [] pathSymbols .unit hmade e.constants e.features e.counts _).2 q
            e₁ unreached hcompile hstart⟩

end Engine

end ProofWalk
