import ProofWalk.Clause.Rule
import ProofWalk.Clause.Token
import ProofWalk.Code.Instruction
import ProofWalk.Code.LogicError
import ProofWalk.Interned
/-!
# Code.Program — compiled rules and queries

A rule becomes a run of instructions: match the arguments of the head, report the features, push the arguments of
each goal of the body and call it, return.  Variables live in registers, numbered in order of first occurrence.  A
query is compiled as if it stood at the end of the program.  Constants are numbered in a symbol table that all
rules, facts and queries share, so compiling threads that table; what was numbered before a fault stays numbered.

A program keeps with its code the addresses of the rules of each predicate, in program order, which is the order in
which a call tries them.
-/
namespace ProofWalk

/-! ## Registers

A scope holds the variables of one clause so far.  `register` gives the register of a variable and tells whether it
was met before; each `_` is named by its rank among the anonymous variables of the clause. -/

/-- **The variables of one clause so far.** -/
structure Scope where
  names : List String
  /-- How many anonymous variables have been met. -/
  anonymous : Nat
  symbols : Symbols

namespace Scope

def find? (s : Scope) (name : String) : Option Nat := s.names.findIdx? (· == name)

/-- **The register of a variable, and whether it was met before.**  Each `_` is named by its rank among the anonymous
variables. -/
def register (name : String) : StateM Scope (Nat × Bool) := fun s =>
  let s := if name = "_" then { s with anonymous := s.anonymous + 1 } else s
  let name := if name = "_" then s!"_{s.anonymous}" else name
  match s.find? name with
  | some i => ((i, true), s)
  | none => ((s.names.length, false), { s with names := s.names ++ [name] })

def constant (name : String) : StateM Scope Nat := fun ⟨names, anonymous, symbols⟩ =>
  let (symbols, i) := symbols.intern name
  (i, ⟨names, anonymous, symbols⟩)

end Scope

/-! ## Clauses

Each part of a rule has a function that gives its instructions, one for an argument of a head, of a feature and of a
call.  Arguments of a head are addressed from the top of the heap, so `matchArguments` takes the offset of the first
one.  Features come after the head, and their variables have to occur there; a rule that names none reports
`id(defaultRule)` (`featureList`).  In front of all stands a
comment with the rule and an instruction that makes room for its registers (`frameCode`). -/

abbrev CompileM := ExceptT LogicError (StateM Scope)

namespace Rule

def defaultFeature : String := "defaultRule"

def matchArgument (offset : Int) : Argument → StateM Scope Instruction
  | .const c => do return .unifyConst (← Scope.constant c) offset
  | .var v => do
    let (register, seen) ← Scope.register v
    return if seen then .unifyBoundVar register offset else .initFreeVar register offset

def matchArguments (offset : Int) : List Argument → StateM Scope (List Instruction)
  | [] => return []
  | a :: as => do
    let i ← matchArgument offset a
    return i :: (← matchArguments (offset + 1) as)

def headCode (head : Goal) : StateM Scope (List Instruction) := matchArguments (-head.arity) head.args

def featureArgument (label : Label) : Argument → CompileM Instruction
  | .const c => do return .featureConst (← Scope.constant c)
  | .var v => do
    match (← get).find? v with
    | some register => return .featureVar register
    | none => throw (.unboundFeatureVariable v label)

def featureCode (label : Label) (feature : Goal) : CompileM (List Instruction) := do
  let arguments ← feature.args.mapM (featureArgument label)
  return .startFeature feature.functor feature.arity :: arguments

def featureList (label : Label) (features : List Goal) : CompileM (List Instruction) :=
  if features.isEmpty then do return [.startFeature "id" 1, .featureConst (← Scope.constant defaultFeature)]
  else do return (← features.mapM (featureCode label)).flatten

def featuresCode (label : Label) (features : List Goal) : CompileM (List Instruction) := do
  let built ← featureList label features
  return .clearFeatures :: built ++ [.reportFeatures]

def pushArgument : Argument → StateM Scope Instruction
  | .const c => do return .pushConst (← Scope.constant c)
  | .var v => do
    let (register, seen) ← Scope.register v
    return if seen then .pushBoundVar register else .pushFreeVar register

def callCode (g : Goal) : StateM Scope (List Instruction) := do
  return (← g.args.mapM pushArgument) ++ [.call g.label]

def bodyCode (goals : List Goal) : StateM Scope (List Instruction) := do
  return (← goals.mapM callCode).flatten ++ [.proceed]

end Rule

/-- A clause's instructions with its comment and its register file in front. -/
def frameCode (comment : String) (names : List String) (code : List Instruction) : List Instruction :=
  .comment comment :: .allocate names.length names :: code

/-! ## Programs

`addRule` adds the code of a rule at the end and its address, the size of the program before, to those of its
predicate.  A `QueryProgram` is the code of a query behind that of a program, with the address at which it begins
and the names of its registers. -/

structure Program where
  code : Array Instruction
  /-- The addresses of the rules of each predicate, the last rule first. -/
  rules : SortedMap Label (List Nat)
deriving DecidableEq, Inhabited, Repr

namespace Program

def empty : Program := ⟨#[], ∅⟩

def size (p : Program) : Nat := p.code.size

def clauses (p : Program) (label : Label) : List Nat := (p.rules.getD label []).reverse

def defines (p : Program) (label : Label) : Bool := p.rules.contains label

def labels (p : Program) : List Label := p.rules.keys

def append : Program → Label → List Instruction → Program
  | ⟨before, rules⟩, label, code =>
    let address := before.size
    ⟨before ++ code.toArray, rules.upsert label fun old => address :: old.getD []⟩

/-- **Add a rule at the end**; its address is the size of the program before.  The symbol table grows even where the
rule is refused. -/
def addRule (p : Program) (r : Rule) (symbols : Symbols) : Except LogicError Program × Symbols :=
  let compile : CompileM (List Instruction) := do
    let head ← Rule.headCode r.head
    let features ← Rule.featuresCode r.head.label r.features
    let body ← Rule.bodyCode r.body
    return head ++ features ++ body
  match compile.run ⟨[], 0, symbols⟩ with
  | (.ok code, scope) =>
    (.ok (p.append r.head.label (frameCode r.text scope.names code)), scope.symbols)
  | (.error e, scope) => (.error e, scope.symbols)

def addRules (p : Program) : List Rule → Symbols → Except LogicError Program × Symbols
  | [], symbols => (.ok p, symbols)
  | r :: rs, symbols =>
    match p.addRule r symbols with
    | (.ok p, symbols) => p.addRules rs symbols
    | (.error e, symbols) => (.error e, symbols)

def ofRules (rules : List Rule) (symbols : Symbols) : Except LogicError Program × Symbols :=
  empty.addRules rules symbols

def addressColumn (pc : Nat) : String :=
  let digits := toString pc
  String.ofList (List.replicate (5 - digits.length) ' ') ++ digits

def listing (p : Program) : String :=
  String.join (p.code.toList.zipIdx.map fun (i, pc) => addressColumn pc ++ "  " ++ i.text ++ "\n")

end Program

/-- **A query compiled behind a program.** -/
structure QueryProgram where
  program : Program
  /-- The query's own instructions, the first of which lies behind the program. -/
  code : Array Instruction
  /-- The names of the query's variables, by register. -/
  names : List String
  query : Query
deriving DecidableEq, Inhabited, Repr

namespace QueryProgram

def entry (q : QueryProgram) : Nat := q.program.size

def fetch (q : QueryProgram) (pc : Nat) : Option Instruction :=
  if pc < q.entry then q.program.code[pc]? else q.code[pc - q.entry]?

def size (q : QueryProgram) : Nat := q.entry + q.code.size

/-- **The address that follows another**, in the code simply the next one.  An address behind the code is a number
of 64 bits, so 0 follows the greatest. -/
def next (q : QueryProgram) (pc : Nat) : Nat := if pc + 1 < q.size then pc + 1 else Word.wrap (pc + 1)

def clauses (q : QueryProgram) (label : Label) : List Nat := q.program.clauses label

end QueryProgram

def Program.compileQuery (p : Program) (q : Query) (symbols : Symbols) : Except ReadError QueryProgram × Symbols :=
  if q.goals.isEmpty then (.error .emptyQuery, symbols)
  else
    let (code, scope) := (Rule.bodyCode q.goals).run ⟨[], 0, symbols⟩
    (.ok ⟨p, (frameCode ("query " ++ q.text) scope.names code).toArray, scope.names, q⟩, scope.symbols)

end ProofWalk
