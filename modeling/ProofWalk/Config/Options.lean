import ProofWalk.Error
import ProofWalk.Weight.Weighter
/-!
# Config.Options — the options of a proof engine

Every option has a default.  Options are checked in a fixed order, and the first that is out of its range is
reported: `alpha` lies in (0, 1], `epsilon` in (0, 1), and bounds are at least one.  A weighter is made after all
options have been checked, those that name a squashing function among them.
-/
namespace ProofWalk

/-- **Options that every prover reads.** -/
structure AprOptions (K : Type) where
  epsilon : K
  alpha : K
  maxDepth : Nat
  /-- How deep the tree of an explanation goes. -/
  traceDepth : Nat
  /-- The state at which the tree of an explanation starts. -/
  traceRoot : Nat
  stopEarly : Option Nat
deriving BEq, DecidableEq

namespace AprOptions

variable {K : Type} [Scalar K]

def usual : AprOptions K where
  epsilon := 1 / Scalar.ofNat 10000
  alpha := 1 / Scalar.ofNat 10
  maxDepth := 20
  traceDepth := 0
  traceRoot := 0
  stopEarly := none

/-- **The ranges**: `alpha` in (0, 1], `epsilon` in (0, 1), and a bound of at least one. -/
def validate [Written K] (o : AprOptions K) : Except ConfigError Unit :=
  if ¬(0 < o.alpha ∧ o.alpha ≤ 1) then
    .error (.invalidOption "alpha" ("must be in (0, 1], got " ++ Written.text o.alpha))
  else if ¬(0 < o.epsilon ∧ o.epsilon < 1) then
    .error (.invalidOption "epsilon" ("must be in (0, 1), got " ++ Written.text o.epsilon))
  else if o.stopEarly = some 0 then .error (.invalidOption "stop_early" "must be at least 1 when set")
  else .ok ()

end AprOptions

structure ProverConfig (K : Type) where
  apr : AprOptions K
  prover : ProverKind
  graph : GraphKind
  squashing : String
  /-- The share of residual mass that a push keeps in place. -/
  stayProbability : K
  /-- How deep calls may be nested in states that pushes settle. -/
  maxTreeDepth : Option Nat
  failOnIllegalWeight : Bool
  /-- Whether parameters have to be loaded. -/
  countFeatures : Bool
  /-- The predicates that are hidden when a graph is pruned. -/
  pruneHidden : List String
  /-- The bound on the instructions of an expansion. -/
  maxStepsPerExpansion : Nat
  maxCallStack : Nat
  /-- The least time between two reports, in milliseconds. -/
  statusIntervalMs : Nat
deriving BEq, DecidableEq

namespace ProverConfig

variable {K : Type} [Scalar K]

def usual : ProverConfig K where
  apr := .usual
  prover := .dpr
  graph := .state
  squashing := "linear"
  stayProbability := 0
  maxTreeDepth := none
  failOnIllegalWeight := false
  countFeatures := false
  pruneHidden := []
  maxStepsPerExpansion := 100000
  maxCallStack := 1000
  statusIntervalMs := 2000

def squash (c : ProverConfig K) : Except ConfigError Squash :=
  match Squash.ofName? c.squashing with
  | some s => .ok s
  | none => .error (.unknownSquash c.squashing)

variable [Written K]

def validateRest (c : ProverConfig K) : Except ConfigError Unit :=
  if ¬(0 ≤ c.stayProbability ∧ c.stayProbability < 1) then
    .error (.invalidOption "stay_probability" ("must be in [0, 1), got " ++ Written.text c.stayProbability))
  else if c.prover.requiresIdGraph ∧ c.graph ≠ .cachingId then
    .error (.invalidOption "graph"
      ("prover " ++ c.prover.name ++ " needs graph = \"caching-id\", got \"" ++ c.graph.name ++ "\""))
  else if c.pruneHidden ≠ [] ∧ ¬c.prover.requiresIdGraph then
    .error (.invalidOption "prune_hidden" ("pruning needs an id prover, got " ++ c.prover.name))
  else if c.maxStepsPerExpansion = 0 then .error (.invalidOption "max_steps_per_expansion" "must be positive")
  else if c.maxCallStack = 0 then .error (.invalidOption "max_call_stack" "must be positive")
  else if c.maxTreeDepth = some 0 then .error (.invalidOption "max_tree_depth" "must be at least 1 when set")
  else .ok ()

/-- **Check every option that can be checked without parameters.** -/
def validate (c : ProverConfig K) : Except ConfigError Unit := do
  c.apr.validate
  discard c.squash
  c.validateRest

/-- **Check the configuration and make its weighter** over some parameters. -/
def weighter (c : ProverConfig K) (params : Params K) (key : Nat) : Except ConfigError (Weighter K) := do
  c.validate
  if c.countFeatures && params.size == 0 then throw .missingFeatureWeights
  else return ⟨← c.squash, params, c.failOnIllegalWeight, key⟩

end ProverConfig

end ProofWalk
