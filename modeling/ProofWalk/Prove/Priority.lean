import ProofWalk.Prove.PriorityQueue
import ProofWalk.Prove.Push
/-!
# Prove.Priority — pushing the largest ratio first

The states to be pushed wait in a queue, the largest ratio first and of equal ratios the lowest state.  A queued
ratio is not changed when the state's residual changes; the state is queued once more instead, and an entry whose
ratio is no longer the state's own is passed over.  The depth of a state is the least number of pushes that led to
it from the start.

An entry is to be pushed if it is up to date, not too small, and its state may be settled (`isDue`).  After a push
the states that received mass are queued in ascending order, each once, as far as they are not too deep and their
ratio exceeds the threshold.  The queue is given up after a number of pushes (`priorityBound`).
-/
namespace ProofWalk

structure Queued (K : Type) where
  ratio : K
  id : Nat

namespace Queued

variable {K : Type} [Scalar K]

def before (a b : Queued K) : Bool :=
  match Scalar.order a.ratio b.ratio with
  | .gt => true
  | .lt => false
  | .eq => decide (a.id < b.id)

end Queued

namespace Walk

variable {m : Type → Type} [Monad m] {K : Type} [Scalar K] {V : Type} [MassVector V K]

/-- **A run of the queue.** -/
structure Queue (V K : Type) where
  pushing : Pushing V
  waiting : PriorityQueue (Queued K)
  /-- The depths of the states that pushes have reached. -/
  depths : SortedMap Nat Nat

/-- Whether an entry is to be pushed: it is up to date, not too small, and its state may be settled. -/
def isDue (w : Walk m K) (settings : ProverSettings K) (st : Pushing V) (q : Queued K) : m Bool := do
  let current ← w.ratio st q.id
  if !(current == q.ratio) || decide (current ≤ settings.apr.epsilon) then return false
  w.settleable settings q.id

def nextAmong (w : Walk m K) (settings : ProverSettings K) (st : Pushing V) :
    Nat → PriorityQueue (Queued K) → m (Option (Nat × PriorityQueue (Queued K)))
  | 0, _ => return none
  | count + 1, waiting => do
    match waiting.pop? Queued.before with
    | none => return none
    | some (q, rest) =>
      if ← w.isDue settings st q then return some (q.id, rest) else nextAmong w settings st count rest

/-- **The next entry to be pushed**, and the queue behind it; other entries are passed over. -/
def nextQueued (w : Walk m K) (settings : ProverSettings K) (st : Pushing V) (waiting : PriorityQueue (Queued K)) :
    m (Option (Nat × PriorityQueue (Queued K))) :=
  w.nextAmong settings st waiting.size waiting

def deepen (depth : Nat) (touched : List Nat) (depths : SortedMap Nat Nat) : SortedMap Nat Nat :=
  touched.foldl (fun d v => d.upsert v fun old => min (old.getD (depth + 1)) (depth + 1)) depths

def enqueue (w : Walk m K) (settings : ProverSettings K) (st : Pushing V) (depths : SortedMap Nat Nat) :
    List Nat → PriorityQueue (Queued K) → m (PriorityQueue (Queued K))
  | [], waiting => return waiting
  | v :: rest, waiting => do
    if depths[v]?.any (settings.apr.maxDepth < ·) then enqueue w settings st depths rest waiting
    else
      let ratio ← w.ratio st v
      let waiting := if settings.apr.epsilon < ratio then waiting.insert Queued.before ⟨ratio, v⟩ else waiting
      enqueue w settings st depths rest waiting

def ascending (ids : List Nat) : List Nat :=
  (ids.foldl (fun m i => m.insert i ()) (∅ : SortedMap Nat Unit)).keys

/-- At most so many pushes from the queue, the first of which has a given number. -/
def prioritySteps (w : Walk m K) (settings : ProverSettings K) : Nat → Nat → Queue V K → m (Pushing V)
  | 0, _, q => return q.pushing
  | steps + 1, number, q => do
    match ← w.nextQueued settings q.pushing q.waiting with
    | none => return q.pushing
    | some (id, waiting) =>
      let depth := q.depths.getD id 0
      let (st, touched) ← w.push settings q.pushing id
      let depths := deepen depth touched q.depths
      let waiting ← w.enqueue settings st depths (ascending (touched ++ [id])) waiting
      w.progress "priority-queue" number st.pushes st.settled st.residual
      prioritySteps w settings steps (number + 1) ⟨st, waiting, depths⟩

def priorityBound (settings : ProverSettings K) : Nat := Scalar.round (1 / settings.apr.epsilon)

/-- **Pushes by priority**, from the start state on. -/
def priority (w : Walk m K) (settings : ProverSettings K) : m (Pushing V) := do
  let st : Pushing V := seed
  let ratio ← w.ratio st 0
  w.prioritySteps settings (priorityBound settings) 1 ⟨st, .single ⟨ratio, 0⟩, (∅ : SortedMap Nat Nat).insert 0 0⟩

end Walk

end ProofWalk
