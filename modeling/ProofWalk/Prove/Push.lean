import ProofWalk.Prove.Settings
import ProofWalk.Prove.Walk
/-!
# Prove.Push — approximate PageRank by pushes

Mass is either settled or residual; at first all of it is residual at the start state.  A push settles a share
`alpha` of a state's residual, keeps a share of the rest where it is, and moves what is left along the edges of the
state.  A state is pushed while its residual exceeds a threshold times its degree.  Thresholds fall from one to
`epsilon` by factors of ten, so that mass spreads before states of little mass are visited.

A push is followed, depth first, by pushes of the states that received mass (`pushFrom`), over at most so many
edges.  A pass does so from every state that holds residual mass at its beginning, and passes at one threshold go on
until one makes no push, or their number reaches its bound.  A state whose calls are nested too deep is never
settled.

Two functions take a number of steps that is never used up.  `levels` exceeds the number of digits of `1 /
epsilon`.  As to `passBound`, each push settles more than `alpha · epsilon` of the mass, where those make sense;
where they do not, passes end by their own bound, which lies below 2^64.
-/
namespace ProofWalk

/-- **Mass that is settled and mass that is not.** -/
structure Pushing (V : Type) where
  settled : V
  residual : V
  pushes : Nat

namespace Walk

variable {K : Type} [Scalar K]

/-! ## Thresholds

The last threshold is `epsilon` itself; one that is greater by no more than a billionth of it is left out. -/

def levelsFrom (epsilon : K) : Nat → K → List K
  | 0, _ => []
  | fuel + 1, level =>
    if epsilon * (1 + 1 / Scalar.ofNat 1000000000) < level then
      level :: levelsFrom epsilon fuel (level / Scalar.ofNat 10)
    else []

def levels (epsilon : K) : List K :=
  levelsFrom epsilon (Decimal.digitCount (Scalar.ceil (1 / epsilon)) + 400) 1 ++ [epsilon]

variable {m : Type → Type} [Monad m] {V : Type} [MassVector V K]

def seed : Pushing V := ⟨MassVector.none, MassVector.add MassVector.none 0 1, 0⟩

/-! ## Pushes

A state is pushed only if it may be settled, for which the depth of its calls counts. -/

/-- **The residual of a state over its degree**; zero where there is no residual. -/
def ratio (w : Walk m K) (st : Pushing V) (u : Nat) : m K := do
  let residual := MassVector.mass st.residual u
  if residual ≤ 0 then return 0
  return residual / Scalar.ofNat (← w.degree u)

def settleable (w : Walk m K) (settings : ProverSettings K) (u : Nat) : m Bool := do
  match settings.maxTreeDepth with
  | none => return true
  | some limit => return (← w.callDepth u).all (· ≤ limit)

/-- **What a push does**, given the normalized edges of the state. -/
def pushed (settings : ProverSettings K) (st : Pushing V) (u : Nat) (links : List (Link K)) : Pushing V :=
  let alpha := settings.apr.alpha
  let residual := MassVector.mass st.residual u
  let kept := MassVector.set st.residual u ((1 - alpha) * settings.stay * residual)
  let moved := (1 - alpha) * settings.move * residual
  { settled := MassVector.add st.settled u (alpha * residual)
    residual := links.foldl (fun r l => MassVector.add r l.child (moved * l.weight)) kept
    pushes := st.pushes + 1 }

def push (w : Walk m K) (settings : ProverSettings K) (st : Pushing V) (u : Nat) : m (Pushing V × List Nat) := do
  let links ← w.normalized u true
  return (pushed settings st u links, links.map (·.child))

def tryPush (w : Walk m K) (settings : ProverSettings K) (epsilon : K) (st : Pushing V) (u : Nat) :
    m (Pushing V × List Nat) := do
  if !(← w.settleable settings u) then return (st, [])
  if (← w.ratio st u) ≤ epsilon then return (st, [])
  w.push settings st u

/-- **Push a state and then, depth first, the states that received mass**, over at most so many edges. -/
def pushFrom (w : Walk m K) (settings : ProverSettings K) (epsilon : K) : Nat → Nat → Pushing V → m (Pushing V)
  | 0, u, st => return (← w.tryPush settings epsilon st u).1
  | hops + 1, u, st => do
    let (st, children) ← w.tryPush settings epsilon st u
    children.foldlM (fun st c => pushFrom w settings epsilon hops c st) st

/-! ## Passes

Passes are counted over all thresholds, and it is this number that `stopEarly` bounds. -/

/-- **One pass**: pushes from every state that holds residual mass at its beginning. -/
def pass (w : Walk m K) (settings : ProverSettings K) (epsilon : K) (st : Pushing V) : m (Pushing V) :=
  (MassVector.entries st.residual).foldlM (fun st e => w.pushFrom settings epsilon settings.apr.maxDepth e.1 st) st

/-- Passes at one threshold until one makes no push, or their number reaches its bound. -/
def passesAt (w : Walk m K) (settings : ProverSettings K) (name : String) (epsilon : K) :
    Nat → Pushing V × Nat → m (Pushing V × Nat)
  | 0, st => return st
  | fuel + 1, (st, passes) => do
    if settings.apr.stopEarly.any (· ≤ passes) then return (st, passes)
    let next ← w.pass settings epsilon st
    if next.pushes == st.pushes then return (next, passes)
    w.progress name (passes + 1) next.pushes next.settled next.residual
    passesAt w settings name epsilon fuel (next, passes + 1)

def passBound (settings : ProverSettings K) : Nat :=
  Scalar.ceil (1 / (settings.apr.alpha * settings.apr.epsilon)) + Word.bound

def pushPasses (w : Walk m K) (settings : ProverSettings K) (name : String) : m (Pushing V) := do
  let (st, _) ← (levels settings.apr.epsilon).foldlM
    (fun st epsilon => w.passesAt settings name epsilon (passBound settings) st) (seed, 0)
  return st

end Walk

end ProofWalk
