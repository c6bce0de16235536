import ProofWalk.Graph.ProofGraph
import ProofWalk.Prove.DepthFirst
import ProofWalk.Prove.Power
import ProofWalk.Prove.Priority
/-!
# Prove.Prover — provers on proof graphs

A prover is a strategy with its settings and its weighter.  A strategy for id graphs may prune the graph after the
proof; its result is then given in the new numbers, and mass on removed states is dropped.

A proof can be abandoned at one of its reports.  Graph and counters then stay as they were at that report, and a
prover that pushes counts as still at work: it refuses further proofs, while a copy of it does not.

The strategies are written for any graph that can be walked on; `ProofGraph.walk` makes a proof graph one, with the
weights of a weighter, and the graph grows as states are asked for.  `proveUnpruned` is the choice of the strategy,
in dense vectors for the strategies that run on id graphs only, and `guarded` is what surrounds a proof: settings
that do not admit pushes and provers at work are refused.
-/
namespace ProofWalk

/-! ## Proofs under way

A computation of a proof has the graph, the reports made so far and the audience at hand, and may halt at any point. -/

/-- **Why a proof ended without a result.** -/
inductive Halt (K : Type)
  | failed (e : ProverError K)
  | abandoned

/-- **Who listens to the reports of a proof.** -/
inductive Audience
  | absent
  /-- Someone who hears every report and, with patience, abandons the proof at the report of that number. -/
  | present (patience : Option Nat)
deriving DecidableEq, Inhabited, Repr

/-- **A proof under way.** -/
structure ProofState (K : Type) where
  /-- The graph, with the feature table and the counters. -/
  store : Store (ProofGraph K) K
  reports : Array (Progress K)
  audience : Audience

abbrev ProofM (K : Type) := ExceptT (Halt K) (StateM (ProofState K))

namespace ProofM

variable {K : Type}

@[inline] def onGraph {α : Type} (op : ProofGraph.Op K α) : ProofM K α :=
  ExceptT.mk fun ⟨store, reports, audience⟩ =>
    let (r, store) := op.run store
    (r.mapError .failed, ⟨store, reports, audience⟩)

def report (p : Thunk (Progress K)) : ProofM K Unit := do
  match (← get).audience with
  | .absent => return
  | .present patience =>
    modify fun s => { s with reports := s.reports.push p.get }
    if patience = some (← get).reports.size then throw .abandoned

end ProofM

variable {K : Type} [Scalar K]

/-- **Walking on a proof graph** with the weights of a weighter; the graph grows as states are asked for. -/
def ProofGraph.walk [Exponential K] (w : Weighter K) : Walk (ProofM K) K where
  links id trueLoop := ProofM.onGraph (ProofGraph.weightedOutlinks id w trueLoop)
  degree id := ProofM.onGraph (ProofGraph.degree id true)
  isCompleted id := do return (← get).store.graph.isCompleted id
  callDepth id := do return ((← get).store.graph.state? id).map (·.stack.length)
  report := ProofM.report

/-! ## Provers

A copy of a prover is not at work, whatever the prover is doing. -/

structure Prover (K : Type) where
  kind : ProverKind
  settings : ProverSettings K
  weighter : Weighter K
  /-- The predicates to hide when the graph is pruned after the proof; nothing is pruned if there are none. -/
  hidden : List Label
  busy : Bool
  /-- The pushes of the last proof, for the strategy that counts them. -/
  lastPushes : Nat

namespace Prover

def ofConfig (c : ProverConfig K) (w : Weighter K) : Prover K where
  kind := c.prover
  settings := .ofConfig c
  weighter := w
  hidden := if c.prover.requiresIdGraph then c.pruneHidden.map Label.ofText else []
  busy := false
  lastPushes := 0

omit [Scalar K] in
def copy (p : Prover K) : Prover K := { p with busy := false, lastPushes := 0 }

omit [Scalar K] in
def prunes (p : Prover K) : Bool := !p.hidden.isEmpty

omit [Scalar K] in
def name (p : Prover K) : String := if p.prunes then "pruning" else p.kind.name

omit [Scalar K] in
def pushes (p : Prover K) : Bool := p.kind == .dpr || p.kind == .priorityQueue || p.kind == .idDpr

variable [Exponential K]

/-! ## Proofs

The choice of the strategy, and what comes before and behind it. -/

def pushPasses {V : Type} [MassVector V K] (p : Prover K) : ProofM K (Pushing V) := do
  match p.settings.checkMinAlpha with
  | .error e => throw (.failed e)
  | .ok () => (ProofGraph.walk p.weighter).pushPasses p.settings p.kind.name

/-- **A proof by a strategy for id graphs**, in a dense vector. -/
def proveDense (p : Prover K) : ProofM K (DenseVector K) := do
  ProofM.onGraph (ProofGraph.freeze p.weighter)
  match p.kind with
  | .idDpr => return (← p.pushPasses (V := DenseVector K)).settled
  | _ => (ProofGraph.walk p.weighter).power p.settings p.kind.name

def proveUnpruned (p : Prover K) : ProofM K (ProofVector K × Nat) := do
  match p.kind with
  | .ppr => return (← (ProofGraph.walk p.weighter).power p.settings p.kind.name, 0)
  | .dfs => return (← (ProofGraph.walk p.weighter).depthFirst p.settings, 0)
  | .dpr =>
    let st : Pushing (ProofVector K) ← p.pushPasses
    return (st.settled, st.pushes)
  | .priorityQueue =>
    match p.settings.checkMinAlpha with
    | .error e => throw (.failed e)
    | .ok () =>
      let st : Pushing (ProofVector K) ← (ProofGraph.walk p.weighter).priority p.settings
      return (st.settled, st.pushes)
  | _ => return (MassVector.toProof (← p.proveDense), 0)

def pruneResult (p : Prover K) (result : ProofVector K) : ProofM K (ProofVector K) := do
  let apr := p.settings.apr
  let options : PruneOptions K := ⟨apr.alpha, apr.maxDepth, apr.epsilon⟩
  let numbers ← ProofM.onGraph
    (ProofGraph.either (pure []) (IdGraph.prune p.weighter (hidingCalls p.hidden) options))
  let numbers := numbers.toArray
  return .ofList (result.toList.filterMap fun e => match numbers[e.1]? with
    | some (some id) => some (id, e.2)
    | _ => none)

structure Outcome (K : Type) (α : Type) where
  result : Except (Halt K) α
  reports : List (Progress K)
  prover : Prover K
  /-- The graph, with the feature table and the counters. -/
  store : Store (ProofGraph K) K

omit [Scalar K] [Exponential K] in
/-- **Run a proof**, unless the prover cannot start; it is at work until the proof has ended, well or badly. -/
def guarded {α : Type} (p : Prover K) (proof : ProofM K α) (audience : Audience) (store : Store (ProofGraph K) K) :
    Outcome K α :=
  if p.busy then ⟨.error (.failed (.reentrant p.kind)), [], p, store⟩
  else
    let (result, s) := proof.run ⟨store, #[], audience⟩
    let busy := match result with
      | .error .abandoned => p.pushes
      | _ => false
    ⟨result, s.reports.toList, { p with busy }, s.store⟩

def prove (p : Prover K) (audience : Audience) (store : Store (ProofGraph K) K) : Outcome K (ProofVector K) :=
  if p.kind.requiresIdGraph ∧ store.graph.kind ≠ .cachingId then
    ⟨.error (.failed (.graphMismatch p.name store.graph.kind)), [], p, store⟩
  else
    let out := p.guarded p.proveUnpruned audience store
    match out.result with
    | .error e => ⟨.error e, out.reports, out.prover, out.store⟩
    | .ok (result, pushes) =>
      let prover := if p.kind = .dpr then { out.prover with lastPushes := pushes } else out.prover
      if p.prunes then
        let (result, s) := (p.pruneResult result).run ⟨out.store, #[], .absent⟩
        ⟨result, out.reports, prover, s.store⟩
      else ⟨.ok result, out.reports, prover, out.store⟩

end Prover

end ProofWalk
