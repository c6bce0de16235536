import ProofWalk.Clause.Label
/-!
# Code.LogicError — what can go wrong in compiling and running rules

Rules can be refused when they are compiled, and the machine can come to a fault when it runs them.  A fault while a
state is expanded does not stop a proof: the state becomes a dead end of the proof graph.  Each fault has a message,
a code, and a help that says what a user can do about it.
-/
namespace ProofWalk

/-- **Faults of rules and of the machine that runs them.** -/
inductive LogicError
  /-- A call that no rule, fact or builtin resolves. -/
  | unknownPredicate (label : Label)
  /-- A register that was read before it was set, or that is not in the register file. -/
  | unboundRegister (register pc : Nat)
  | invalidAddress (pc : Nat)
  /-- A heap index outside a heap of some size. -/
  | invalidHeapReference (index : Int) (size : Nat)
  /-- A builtin called with an argument that it does not accept. -/
  | builtinPrecondition (builtin : Label) (message : String)
  /-- An expansion that ran for too many steps. -/
  | stepLimitExceeded (limit : Nat)
  | callStackOverflow (limit : Nat) (label : Label)
  /-- A variable in a feature that does not occur in the head of its rule. -/
  | unboundFeatureVariable (name : String) (label : Label)
  /-- A state that the machine cannot continue from, or a fact with a variable. -/
  | malformedState (message : String)
deriving DecidableEq, Inhabited, Repr

namespace LogicError

def message : LogicError → String
  | unknownPredicate label => "unknown predicate " ++ label.text
  | unboundRegister register pc => s!"register {register} read before it was bound (pc {pc})"
  | invalidAddress pc => s!"instruction address {pc} is outside the program"
  | invalidHeapReference index size => s!"heap reference {index} is outside the heap (size {size})"
  | builtinPrecondition builtin message => "builtin " ++ builtin.text ++ " precondition violated: " ++ message
  | stepLimitExceeded limit => s!"expansion exceeded {limit} interpreter steps"
  | callStackOverflow limit label => s!"call stack overflow: depth {limit} reached calling " ++ label.text
  | unboundFeatureVariable name label =>
    "feature variable " ++ name ++ " in rule for " ++ label.text ++ " is not bound by the head"
  | malformedState message => "malformed state: " ++ message

def code : LogicError → String
  | unknownPredicate .. => "proppr::logic::unknown_predicate"
  | unboundRegister .. => "proppr::logic::unbound_register"
  | invalidAddress .. => "proppr::logic::invalid_address"
  | invalidHeapReference .. => "proppr::logic::invalid_heap_reference"
  | builtinPrecondition .. => "proppr::logic::builtin_precondition"
  | stepLimitExceeded .. => "proppr::logic::step_limit"
  | callStackOverflow .. => "proppr::logic::stack_overflow"
  | unboundFeatureVariable .. => "proppr::logic::unbound_feature_variable"
  | malformedState .. => "proppr::logic::malformed_state"

def help : LogicError → String
  | unknownPredicate .. =>
    "No clause, plugin, or builtin defines this predicate. Check the functor spelling and arity, or load the plugin " ++
      "that provides it."
  | unboundRegister .. =>
    "The compiled program reads a variable that was never initialized. This is a compiler bug or a hand-built " ++
      "program error."
  | invalidAddress .. => "Execution ran off the end of the program. Every clause must end with a return."
  | invalidHeapReference .. =>
    "An argument offset points below the bottom of the heap. The caller pushed fewer arguments than the callee expects."
  | builtinPrecondition .. =>
    "Builtins compare ground values. Make sure every argument is bound before the builtin is called."
  | stepLimitExceeded .. =>
    "A deterministic chain of builtins or returns did not reach a branching point. Raise " ++
      "`max_steps_per_expansion` or check for a runaway rule."
  | callStackOverflow .. =>
    "The proof recursed deeper than `max_call_stack` frames. Check for left recursion or raise the limit."
  | unboundFeatureVariable .. =>
    "Features are reported right after head unification, so every variable in a feature must appear in the rule head."
  | malformedState .. =>
    "Outlinks can only be computed for states produced by the interpreter at a branching point."

end LogicError

end ProofWalk
