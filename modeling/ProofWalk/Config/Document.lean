import ProofWalk.Config.Options
import ProofWalk.Toml.Reader
/-!
# Config.Document — configurations as documents

An option that a document leaves out has its usual value, and what is not an option is passed over.  A configuration
is written with every option that has a value: first the options of the engine, then the table of those that every
prover reads.

Options are read by name from a record or in order from a list, and a date names no option.  A list may be shorter
than the options; one that is longer is refused in JSON objects only.  In TOML documents numbers have the fewest
digits that read back, with a point and never an exponent, integers have 63 bits, and a list of texts stands on one
line unless there are two or more.  A configuration with a number that is too large has no such document
(`toToml?`).
-/
namespace ProofWalk

namespace AprOptions

def names : List String := ["epsilon", "alpha", "max_depth", "trace_depth", "trace_root", "stop_early"]

def ofFields (fields : List (String × Setting)) : Option (AprOptions Float) := do
  let usual : AprOptions Float := .usual
  return {
    epsilon := ← Setting.field fields "epsilon" Setting.number? usual.epsilon
    alpha := ← Setting.field fields "alpha" Setting.number? usual.alpha
    maxDepth := ← Setting.field fields "max_depth" Setting.natural? usual.maxDepth
    traceDepth := ← Setting.field fields "trace_depth" Setting.natural? usual.traceDepth
    traceRoot := ← Setting.field fields "trace_root" Setting.natural? usual.traceRoot
    stopEarly := ← Setting.field fields "stop_early" (Setting.optional? Setting.natural?) usual.stopEarly }

/-- **Read the options**, by name or in order.  A list may be shorter than the options; one that is longer is
refused in JSON objects only.  A date names no option. -/
def ofSetting? (source : SettingSource) : Setting → Option (AprOptions Float)
  | .record fields => ofFields fields
  | .list items => if source = .json ∧ names.length < items.length then none else ofFields (names.zip items)
  | .date => some .usual
  | _ => none

end AprOptions

namespace ProverConfig

def names : List String :=
  ["apr", "prover", "graph", "squashing", "stay_probability", "max_tree_depth", "fail_on_illegal_weight",
    "count_features", "prune_hidden", "max_steps_per_expansion", "max_call_stack", "status_interval_ms"]

def ofFields? (source : SettingSource) (fields : List (String × Setting)) : Option (ProverConfig Float) := do
  let usual : ProverConfig Float := .usual
  return {
    apr := ← Setting.field fields "apr" (AprOptions.ofSetting? source) usual.apr
    prover := ← Setting.field fields "prover" (Setting.choice? source ProverKind.all ProverKind.name) usual.prover
    graph := ← Setting.field fields "graph" (Setting.choice? source GraphKind.all GraphKind.name) usual.graph
    squashing := ← Setting.field fields "squashing" Setting.text? usual.squashing
    stayProbability := ← Setting.field fields "stay_probability" Setting.number? usual.stayProbability
    maxTreeDepth := ← Setting.field fields "max_tree_depth" (Setting.optional? Setting.natural?) usual.maxTreeDepth
    failOnIllegalWeight := ← Setting.field fields "fail_on_illegal_weight" Setting.bool? usual.failOnIllegalWeight
    countFeatures := ← Setting.field fields "count_features" Setting.bool? usual.countFeatures
    pruneHidden := ← Setting.field fields "prune_hidden" Setting.texts? usual.pruneHidden
    maxStepsPerExpansion :=
      ← Setting.field fields "max_steps_per_expansion" Setting.natural? usual.maxStepsPerExpansion
    maxCallStack := ← Setting.field fields "max_call_stack" Setting.natural? usual.maxCallStack
    statusIntervalMs := ← Setting.field fields "status_interval_ms" Setting.natural? usual.statusIntervalMs }

def ofToml (text : String) : Except ConfigError (ProverConfig Float) :=
  match (Toml.read text).bind (ofFields? .toml) with
  | some c => .ok c
  | none => .error .unparsable

/-- **Read a JSON document**, which gives the options by name or in order. -/
def ofJson? (j : Json) : Option (ProverConfig Float) :=
  match Setting.ofJson j with
  | .record fields => ofFields? .json fields
  | .list items => if names.length < items.length then none else ofFields? .json (names.zip items)
  | _ => none

def tomlNumber : Decimal.Layout := { Decimal.plainText with pointZero := true, nan := "nan" }

def tomlNatural? (n : Nat) : Option String := if n < Word.half then some (toString n) else none

def tomlOptional? : Option Nat → Option (Option String)
  | none => some none
  | some n => (tomlNatural? n).map some

def tomlBool (b : Bool) : String := if b then "true" else "false"

def tomlTexts : List String → String
  | [] => "[]"
  | [t] => "[" ++ Toml.quote t ++ "]"
  | ts => "[\n" ++ String.join (ts.map fun t => "    " ++ Toml.quote t ++ ",\n") ++ "]"

def tomlLines (options : List (String × Option String)) : String :=
  String.join (options.filterMap fun o => o.2.map fun v => o.1 ++ " = " ++ v ++ "\n")

/-- **Write a TOML document**, unless a number is too large for one. -/
def toToml? (c : ProverConfig Float) : Option String := do
  let number (x : Float) : Option String := some (tomlNumber.render x)
  let engine := tomlLines [
    ("prover", Toml.quote c.prover.name), ("graph", Toml.quote c.graph.name),
      ("squashing", Toml.quote c.squashing),
    ("stay_probability", number c.stayProbability), ("max_tree_depth", ← tomlOptional? c.maxTreeDepth),
    ("fail_on_illegal_weight", tomlBool c.failOnIllegalWeight), ("count_features", tomlBool c.countFeatures),
    ("prune_hidden", tomlTexts c.pruneHidden), ("max_steps_per_expansion", ← tomlNatural? c.maxStepsPerExpansion),
    ("max_call_stack", ← tomlNatural? c.maxCallStack), ("status_interval_ms", ← tomlNatural? c.statusIntervalMs)]
  let apr := tomlLines [
    ("epsilon", number c.apr.epsilon), ("alpha", number c.apr.alpha), ("max_depth", ← tomlNatural? c.apr.maxDepth),
    ("trace_depth", ← tomlNatural? c.apr.traceDepth), ("trace_root", ← tomlNatural? c.apr.traceRoot),
    ("stop_early", ← tomlOptional? c.apr.stopEarly)]
  return engine ++ "\n[apr]\n" ++ apr

end ProverConfig

end ProofWalk
