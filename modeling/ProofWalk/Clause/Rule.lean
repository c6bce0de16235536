import ProofWalk.Clause.Label
/-!
# Clause.Rule — rules and queries

A rule `head :- body {features}.` has a head, a body and the features that it reports when its head matches; an
empty body and an empty list of features are left out of its written form.  A query is a list of goals to be proved
together, and its written form has no final period.  Its variables are listed in order of first occurrence, without
`_`, which stands for no variable in particular.
-/
namespace ProofWalk

/-- **A rule**, `head :- body {features}.` -/
structure Rule where
  head : Goal
  body : List Goal
  features : List Goal
deriving DecidableEq, Inhabited, Repr

namespace Rule

def fact (head : Goal) : Rule := ⟨head, [], []⟩

def text (r : Rule) : String :=
  let body := if r.body.isEmpty then "" else " :- " ++ Text.join ", " (r.body.map Goal.text)
  let features := if r.features.isEmpty then "" else " \x7b" ++ Text.join ", " (r.features.map Goal.text) ++ "\x7d"
  r.head.text ++ body ++ features ++ "."

end Rule

/-- **A query**: goals to be proved together. -/
structure Query where
  goals : List Goal
deriving DecidableEq, Inhabited, Repr

namespace Query

def text (q : Query) : String := Text.join ", " (q.goals.map Goal.text)

/-- The names of the variables in order of first occurrence; `_` stands for no variable in particular. -/
def variableNames (q : Query) : List String :=
  (q.goals.flatMap fun g => g.args.filterMap Argument.varName?).foldl
    (fun seen name => if name = "_" ∨ name ∈ seen then seen else seen ++ [name]) []

end Query

end ProofWalk
