import ProofWalk.Clause.Grammar
import ProofWalk.Graph.Dump
import ProofWalk.Prove.Answer
import ProofWalk.Prove.Prover
/-!
# Engine — a program with all that is needed to answer queries

An engine holds a program, its facts and a configuration.  Every query gets a graph and a prover of its own; what
queries share are the tables in which constants and features are numbered, and the counts of feature look-ups.  A
question to an engine (`EngineM`) that fails keeps what it did before it failed.

A query is compiled, which numbers its constants; its graph is built, which numbers the features of implied edges;
then a prover runs on the graph, and the answers are read off.  Where the start of a query cannot be reached there
is no graph: the query has no answers, and its explanation is empty.

A list of queries is answered one query after another, each on its own (`solveAll`).
-/
namespace ProofWalk

structure Engine (K : Type) where
  program : Program
  bases : List (FactBase K)
  config : ProverConfig K
  /-- The prover that each query gets a copy of. -/
  prover : Prover K
  constants : Symbols
  features : Symbols
  counts : FeatureCounts

abbrev EngineM (K : Type) := ExceptT (Error K) (StateM (Engine K))

namespace Engine

variable {K : Type} [Scalar K]

/-- **An engine over a program and its facts**, if the configuration is valid. -/
def make [Written K] (program : Program) (bases : List (FactBase K)) (constants : Symbols)
    (config : ProverConfig K) (params : Params K) : Except (Error K) (Engine K) := do
  let weighter ← (config.weighter params 0).mapError .config
  return ⟨program, bases, config, .ofConfig config weighter, constants, .empty, .zero⟩

def ofSource [Written K] (source : String) (config : ProverConfig K) : Except (Error K) (Engine K) := do
  let rules ← (Rule.readAll source).mapError .read
  let (program, constants) := Program.ofRules rules .empty
  make (← program.mapError .logic) [] constants config .unit

omit [Scalar K] in
/-- **Compile the text of a query**, whose constants are numbered. -/
def compile (query : String) : EngineM K QueryProgram :=
  ExceptT.mk fun e =>
    match Query.read query with
    | .error fault => (.error (.read fault), e)
    | .ok q =>
      let (q, constants) := e.program.compileQuery q e.constants
      (q.mapError .read, { e with constants })

omit [Scalar K] in
def machine (e : Engine K) (q : QueryProgram) : Machine K :=
  ⟨q, e.bases, ⟨e.config.maxStepsPerExpansion, e.config.maxCallStack⟩, e.constants⟩

/-- **The graph of a compiled query**, if its start can be reached; the features of implied edges are numbered. -/
def graphOf (q : QueryProgram) : EngineM K (Except LogicError (ProofGraph K)) := do
  let e ← get
  match ProofGraph.build e.config.graph (e.machine q) e.features with
  | .error fault => return .error fault
  | .ok (graph, features) =>
    set { e with features }
    return .ok graph

def buildGraph (query : String) : EngineM K (ProofGraph K) := do
  match ← graphOf (← compile query) with
  | .ok graph => return graph
  | .error fault => throw (.logic fault)

variable [Exponential K]

/-- **Prove on a graph**, and give the result with the graph as the proof leaves it and with the reports. -/
def prove (graph : ProofGraph K) (audience : Audience) :
    EngineM K (ProofVector K × ProofGraph K × List (Progress K)) := do
  let e ← get
  let store : Store (ProofGraph K) K :=
    ⟨graph, e.features, (∅ : SortedMap Nat FeatureCounts).insert e.prover.weighter.key e.counts⟩
  let out := e.prover.copy.prove audience store
  set { e with
    features := out.store.features
    counts := out.store.counts.getD e.prover.weighter.key .zero }
  match out.result with
  | .ok result => return (result, out.store.graph, out.reports)
  | .error (.failed fault) => throw (.prover fault)
  | .error .abandoned => return (.empty, out.store.graph, out.reports)

def proved (query : String) : EngineM K (Option (ProofVector K × ProofGraph K)) := do
  match ← graphOf (← compile query) with
  | .error _ => return none
  | .ok graph =>
    let (result, graph, _) ← prove graph .absent
    return some (result, graph)

/-- **The answers to a query**, most probable first; none where its start cannot be reached. -/
def solve (query : String) : EngineM K (List (Answer K)) := do
  match ← proved query with
  | some (result, graph) => return Answer.all graph result
  | none => return []

/-- **The answers to some queries**, which are solved one after another in the order given, not side by side.  Each
is on its own: one that fails does not keep the others from being answered, and all that solving one leaves to the
next are more numbers in the shared tables and higher counts of look-ups. -/
def solveAll : List String → StateM (Engine K) (List (Except (Error K) (List (Answer K))))
  | [] => return []
  | query :: rest => do
    let answers ← (solve query).run
    return answers :: (← solveAll rest)

/-- **The tree of the proof of a query**, from the state and as deep as the configuration says; empty where the
start cannot be reached. -/
def explain [Written K] (query : String) : EngineM K String := do
  match ← proved query with
  | none => return ""
  | some (_, graph) =>
    let e ← get
    let (text, store) := (ProofGraph.tree e.config.apr.traceDepth e.config.apr.traceRoot).run
      ⟨graph, e.features, .empty⟩
    set { e with features := store.features }
    match text with
    | .ok text => return text
    | .error fault => throw (.prover fault)

end Engine

end ProofWalk
