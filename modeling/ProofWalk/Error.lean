import ProofWalk.Clause.Token
import ProofWalk.Code.LogicError
import ProofWalk.Config.Kind
import ProofWalk.Scalar
/-!
# Error — everything that can be reported to a user

Each part of the library has its causes of failure; `Error` is one of them.  A cause holds what its wording needs,
and the wording, the diagnostic code and the advice are functions of the cause.  The wording of a text that does not
have the right form is left to whoever knows the text.  An edge weight is illegal if it is negative, infinite or no
number, and is reported with the features that it comes from, as in `{f=1, g=2}`.
-/
namespace ProofWalk

inductive GraphError
  /-- A state that the graph does not have. -/
  | unknownState (id size : Nat)
  /-- A result that does not belong to a graph of this size. -/
  | resultMismatch (length size : Nat)
deriving DecidableEq, Inhabited, Repr

namespace GraphError

def message : GraphError → String
  | unknownState id size => s!"state {id} is not in the proof graph (size {size})"
  | resultMismatch length size => s!"result vector has {length} entries but the graph has {size} states"

def code : GraphError → String
  | unknownState .. => "proppr::graph::unknown_state"
  | resultMismatch .. => "proppr::graph::result_mismatch"

def help : GraphError → String
  | unknownState .. => "State ids are only valid for the graph that issued them, and are renumbered by pruning."
  | resultMismatch .. => "Pass the result vector produced for this graph, before any other prune."

end GraphError

def describeFeatures {K : Type} [Written K] (features : List (String × K)) : String :=
  "\x7b" ++ Text.join ", " (features.map fun f => f.1 ++ "=" ++ Written.text f.2) ++ "\x7d"

/-- An edge weight that is negative, infinite or no number. -/
structure IllegalWeight (K : Type) where
  weight : K
  features : List (String × K)

namespace IllegalWeight

def message {K : Type} [Written K] (e : IllegalWeight K) : String :=
  "illegal edge weight " ++ Written.text e.weight ++ " for features " ++ describeFeatures e.features

def code : String := "proppr::weight::illegal"

def help : String :=
  "Edge weights must be finite and nonnegative. Check the parameter vector for NaN or huge values, or pick a " ++
    "squashing function that cannot go negative."

end IllegalWeight

inductive ProverError (K : Type)
  /-- A prover that is asked for a proof while another one is under way. -/
  | reentrant (prover : ProverKind)
  /-- A restart probability below the threshold of the pushes. -/
  | minAlpha (alpha epsilon : K)
  /-- A prover on a graph of the wrong representation. -/
  | graphMismatch (prover : String) (graph : GraphKind)
  | weight (e : IllegalWeight K)
  | graph (e : GraphError)

namespace ProverError

variable {K : Type}

def message [Written K] : ProverError K → String
  | reentrant prover => prover.name ++ " prover is already mid-proof"
  | minAlpha alpha epsilon =>
    "alpha " ++ Written.text alpha ++ " is below the minimum " ++ Written.text epsilon ++ " for epsilon " ++
      Written.text epsilon
  | graphMismatch prover kind => prover ++ " prover cannot run on a " ++ kind.name ++ " proof graph"
  | weight e => e.message
  | graph e => e.message

def code : ProverError K → String
  | reentrant .. => "proppr::prover::reentrant"
  | minAlpha .. => "proppr::prover::min_alpha"
  | graphMismatch .. => "proppr::prover::graph_mismatch"
  | weight _ => IllegalWeight.code
  | graph e => e.code

def help : ProverError K → String
  | reentrant .. =>
    "Provers keep per-proof state and are not reentrant. A previous proof on this instance was abandoned before it " ++
      "finished; use `copy()` to get a fresh prover, one per thread."
  | minAlpha .. => "Push-based provers need alpha >= epsilon. Raise alpha or lower epsilon."
  | graphMismatch .. =>
    "Id-indexed and pruning provers need the caching-id proof graph. Set `graph = \"caching-id\"`."
  | weight _ => IllegalWeight.help
  | graph e => e.help

end ProverError

/-- What is wrong with a configuration or a parameter file. -/
inductive ConfigError
  | unknownSquash (name : String)
  | unknownProver (name : String)
  /-- An option with a value that it does not admit. -/
  | invalidOption (option message : String)
  /-- Counting of features without parameters. -/
  | missingFeatureWeights
  | unreadable (path : String)
  /-- A text that is not of the expected form. -/
  | unparsable
  | unwritable (path : String)
deriving DecidableEq, Inhabited, Repr

namespace ConfigError

def message : ConfigError → Option String
  | unknownSquash name => some ("unknown squashing function: " ++ name)
  | unknownProver name => some ("unknown prover: " ++ name)
  | invalidOption option message => some ("invalid option " ++ option ++ ": " ++ message)
  | missingFeatureWeights => some "feature counting is enabled but no feature weights were loaded"
  | unreadable path => some ("failed to read config: " ++ path)
  | unparsable => none
  | unwritable path => some ("failed to write config: " ++ path)

def code : ConfigError → String
  | unknownSquash _ => "proppr::config::unknown_squashing_function"
  | unknownProver _ => "proppr::config::unknown_prover"
  | invalidOption .. => "proppr::config::invalid_option"
  | missingFeatureWeights => "proppr::config::missing_feature_weights"
  | unreadable _ => "proppr::config::read"
  | unparsable => "proppr::config::parse"
  | unwritable _ => "proppr::config::write"

def help : ConfigError → String
  | unknownSquash _ => "Valid squashing functions are: linear, exp, clipped-exp, sigmoid, relu, tanh1."
  | unknownProver _ => "Valid provers are: ppr, dfs, dpr, priority-queue, id-ppr, id-dpr."
  | invalidOption _ message => "Check the prover configuration. " ++ message
  | missingFeatureWeights => "Load a parameter vector before proving, or disable `count_features`."
  | unreadable _ => "Ensure the config file exists and is valid TOML."
  | unparsable => "Check the TOML syntax and the option names in the config file."
  | unwritable _ => "Ensure you have write permissions to the config directory."

end ConfigError

/-- **Any cause of failure.** -/
inductive Error (K : Type)
  /-- A fault of rules or of the machine. -/
  | logic (e : LogicError)
  | read (e : ReadError)
  | prover (e : ProverError K)
  | config (e : ConfigError)

namespace Error

variable {K : Type}

def message [Written K] : Error K → Option String
  | logic e => some e.message
  | read e => some e.message
  | prover e => some e.message
  | config e => e.message

def code : Error K → String
  | logic e => e.code
  | read e => e.code
  | prover e => e.code
  | config e => e.code

def help : Error K → String
  | logic e => e.help
  | read e => e.help
  | prover e => e.help
  | config e => e.help

end Error

end ProofWalk
