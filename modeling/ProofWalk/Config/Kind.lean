import ProofWalk.Text.Keyword
/-!
# Config.Kind — the strategies and the graphs to choose from

A configuration names a proof strategy and a representation of proof graphs.  A strategy is looked up by its name as
a keyword, in either case and with underscores for hyphens.  Some strategies run on id graphs only.
-/
namespace ProofWalk

inductive ProverKind
  /-- Power iteration. -/
  | ppr
  /-- Propagation along paths. -/
  | dfs
  /-- Pushes in depth-first passes. -/
  | dpr
  /-- Pushes of the largest residual first. -/
  | priorityQueue
  | idPpr
  /-- Pushes in depth-first passes over an id graph. -/
  | idDpr
deriving DecidableEq, Inhabited, Repr

namespace ProverKind

def all : List ProverKind := [ppr, dfs, dpr, priorityQueue, idPpr, idDpr]

def name : ProverKind → String
  | ppr => "ppr"
  | dfs => "dfs"
  | dpr => "dpr"
  | priorityQueue => "priority-queue"
  | idPpr => "id-ppr"
  | idDpr => "id-dpr"

def ofName? (name : String) : Option ProverKind := all.find? fun k => k.name == Text.keyword name

def requiresIdGraph : ProverKind → Bool
  | idPpr => true
  | idDpr => true
  | _ => false

end ProverKind

/-- **The representations of a proof graph.** -/
inductive GraphKind
  /-- Edges with feature dictionaries. -/
  | state
  /-- Edges with sparse vectors over numbered features; can be pruned. -/
  | cachingId
deriving DecidableEq, Inhabited, Repr

namespace GraphKind

def all : List GraphKind := [state, cachingId]

def name : GraphKind → String
  | state => "state"
  | cachingId => "caching-id"

end GraphKind

end ProofWalk
