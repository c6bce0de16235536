import Mathlib.Data.Rat.Floor
import ProofWalk.Proofs.ExactNumbers
import ProofWalk.Proofs.RegularGraphs
import ProofWalk.Proofs.Safety
/-!
# Proofs.GraphAgreement — graphs of both representations agree

The graph with feature dictionaries and the graph with numbered features of one query are asked the same.  What
relates them (`Agreeing`) is that they have the same states, that each row stands for the edges of its state, and
that the snapshot of parameters is honest.  Expanding a state keeps this (`Agreeing.expand`), weighing changes the
snapshot alone, and others who share the feature table only add to it; so the two give like replies at any time.

Features of an edge are listed by name in one graph and by number in the other, which is no difference for sums that
do not depend on the order.  The one reply that shows the order is the refusal of a weight, which lists the
features.
-/
namespace ProofWalk

/-! ## Like outcomes

`LikeOutcomes` is equality but for that order.  It goes through sequences, and a weight computed from features in
another order is a like outcome. -/

/-- **Outcomes that tell the same**; an illegal weight is reported with its features in the order of the graph. -/
inductive LikeOutcomes {K α : Type} : Except (ProverError K) α → Except (ProverError K) α → Prop
  | same (r : Except (ProverError K) α) : LikeOutcomes r r
  | illegal (x : K) {l l' : List (String × K)} (h : l.Perm l') :
    LikeOutcomes (.error (.weight ⟨x, l⟩)) (.error (.weight ⟨x, l'⟩))

theorem LikeOutcomes.bind {K α β : Type} {x y : Except (ProverError K) α} {f g : α → Except (ProverError K) β}
    (h : LikeOutcomes x y) (hf : ∀ a, LikeOutcomes (f a) (g a)) : LikeOutcomes (x >>= f) (y >>= g) := by
  cases h with
  | illegal x h => exact .illegal x h
  | same =>
    cases x with
    | error e => exact .same _
    | ok a => exact hf a

theorem LikeOutcomes.symm {K α : Type} {x y : Except (ProverError K) α} (h : LikeOutcomes x y) :
    LikeOutcomes y x := by
  cases h with
  | illegal x h => exact .illegal x h.symm
  | same => exact .same _

theorem LikeOutcomes.trans {K α : Type} {x y z : Except (ProverError K) α} (h : LikeOutcomes x y)
    (h' : LikeOutcomes y z) : LikeOutcomes x z := by
  cases h with
  | same => exact h'
  | illegal x h =>
    cases h' with
    | same => exact .illegal x h
    | illegal _ h' => exact .illegal x (h.trans h')

theorem LikeOutcomes.eq_ok {K α : Type} {x : Except (ProverError K) α} {a : α} (h : LikeOutcomes x (.ok a)) :
    x = .ok a := by
  cases h
  rfl

theorem LikeOutcomes.map {K α β : Type} {x y : Except (ProverError K) α} (h : LikeOutcomes x y) (f : α → β) :
    LikeOutcomes (x.map f) (y.map f) := by
  cases h with
  | illegal x h => exact .illegal x h
  | same => exact .same _

def Reordered {K : Type} : List (Nat × List (String × K)) → List (Nat × List (String × K)) → Prop :=
  List.Forall₂ fun e e' => e.1 = e'.1 ∧ e.2.Perm e'.2

variable {K : Type}

theorem RowFor.reordered {table : Symbols} {edges : List (Edge K)} {here : SparseRow K}
    (h : RowFor table edges here) : Reordered (StateGraph.listed edges) (IdGraph.listed table here) := by
  refine List.forall₂_map_left_iff.2 (List.forall₂_map_right_iff.2 (h.imp fun _ _ he => ⟨he.1, ?_⟩))
  exact (IdGraph.featureNames_perm he.2).symm

section

variable [Scalar K]

namespace Weighter

variable [Exponential K] (w : Weighter K) (hsums : Scalar.OrderFree K)

include hsums

theorem weighNamed_like {l l' : List (String × K)} (h : l.Perm l') :
    LikeOutcomes (w.weighNamed l) (w.weighNamed l') := by
  have hsum : Scalar.sum (l.map fun e => e.2 * w.param e.1) = Scalar.sum (l'.map fun e => e.2 * w.param e.1) :=
    hsums _ _ (h.map _)
  unfold weighNamed check
  rw [hsum]
  split
  · exact .same _
  · split
    · exact .illegal _ h
    · exact .same _

theorem weighAll_like {edges edges' : List (Nat × List (String × K))} (h : Reordered edges edges') :
    LikeOutcomes (w.weighAll edges) (w.weighAll edges') := by
  induction h with
  | nil => exact .same _
  | @cons e e' _ _ he _ ih =>
    unfold weighAll
    rw [he.1]
    exact (w.weighNamed_like hsums he.2).bind fun weight => ih.bind fun weights => .same _

theorem linksOf_like (id : Nat) (looped : Bool) {edges edges' : List (Nat × List (String × K))}
    (h : Reordered edges edges') : LikeOutcomes (w.linksOf id looped edges) (w.linksOf id looped edges') :=
  (w.weighAll_like hsums h).bind fun _ => .same _

end Weighter

/-! ## Graphs that agree

A graph that has just been built agrees with its counterpart, and every operation is answered alike by graphs that
agree. -/

/-- **The graphs of one query in both representations**, asked the same so far. -/
structure Agreeing (params : Nat → Params K) (s : Store (StateGraph K) K) (t : Store (IdGraph K) K) : Prop where
  machine : s.graph.machine = t.graph.machine
  states : s.graph.states = t.graph.states
  rows : ∀ id, Option.Rel (RowFor t.features) (s.graph.edges.get? id) (t.graph.rows.get? id)
  restart : t.features.find? restartFeature = some t.graph.restart
  trueLoop : t.features.find? trueLoopFeature = some t.graph.trueLoop
  honest : ∀ f, t.graph.frozen = some f → f.Honest params t.features

namespace Agreeing

variable {params : Nat → Params K} {s : Store (StateGraph K) K} {t : Store (IdGraph K) K}

theorem fresh (params : Nat → Params K) (m : Machine K) (start : Frozen) (features table : Symbols)
    (counts counts' : SortedMap Nat FeatureCounts) : Agreeing params ⟨⟨m, .single start, .empty⟩, features, counts⟩
      ⟨⟨m, .single start, .empty, (table.intern restartFeature).2,
        ((table.intern restartFeature).1.intern trueLoopFeature).2, none⟩,
        ((table.intern restartFeature).1.intern trueLoopFeature).1, counts'⟩ where
  machine := rfl
  states := rfl
  rows id := by
    rw [Slots.get?_empty, Slots.get?_empty]
    exact .none
  restart := Interned.keeps_intern _ trueLoopFeature _ _ (Interned.find?_intern table restartFeature)
  trueLoop := Interned.find?_intern _ trueLoopFeature
  honest _ hf := by cases hf

theorem keeps (h : Agreeing params s t) {table : Symbols} (hkeeps : t.features.Keeps table) :
    Agreeing params s { t with features := table } where
  machine := h.machine
  states := h.states
  rows id := by
    have hrow := h.rows id
    generalize s.graph.edges.get? id = edges, t.graph.rows.get? id = here at hrow
    cases hrow with
    | none => exact .none
    | some hrow => exact .some (hrow.keeps hkeeps)
  restart := hkeeps _ _ h.restart
  trueLoop := hkeeps _ _ h.trueLoop
  honest f hf := (h.honest f hf).keeps hkeeps

theorem expand (h : Agreeing params s t) (id : Nat) :
    (∃ e, StateGraph.outlinks id s = (.error e, s) ∧ IdGraph.row id t = (.error e, t)) ∨
      ∃ edges here s' t', StateGraph.outlinks id s = (.ok edges, s') ∧ IdGraph.row id t = (.ok here, t') ∧
        RowFor t'.features edges here ∧ s'.graph.isCompleted id = s.graph.isCompleted id ∧
          Agreeing params s' t' := by
  have hrow := h.rows id
  rcases hedges : s.graph.edges.get? id with _ | edges
  · have hrows : t.graph.rows.get? id = none := by
      rw [hedges] at hrow
      generalize t.graph.rows.get? id = here at hrow
      cases hrow
      rfl
    rcases hstate : s.graph.states.get? id with _ | f
    · left
      have hrun := IdGraph.row_of_none hrows (by rw [← h.states, hstate])
      rw [← h.states] at hrun
      exact ⟨_, StateGraph.outlinks_of_none hedges hstate, hrun⟩
    · right
      have hout := StateGraph.outlinks_of_state hedges hstate
      have hrun := IdGraph.row_of_state hrows (h.states ▸ hstate)
      rw [← h.machine, ← h.states] at hrun
      have hstates := numberOutlinks_extends (s.graph.machine.waysOn f) s.graph.states
      -- both graphs number the same outlinks from the same table, and differ in how they keep the features
      rcases hnumber : numberOutlinks (s.graph.machine.waysOn f) s.graph.states with ⟨edges, states⟩
      rw [hnumber] at hout hrun hstates
      obtain ⟨hkeeps, hstands⟩ := IdGraph.rowOf_stands edges t.features
      have hcompleted : (states.get? id).any (·.state.completed) = s.graph.isCompleted id := by
        rw [hstates id f hstate, StateGraph.isCompleted, hstate]
      refine ⟨edges, _, _, _, hout, hrun, hstands, hcompleted, h.machine, rfl, fun i => ?_,
        hkeeps _ _ h.restart, hkeeps _ _ h.trueLoop, fun f hf => (h.honest f hf).keeps hkeeps⟩
      by_cases hi : id = i
      · subst hi
        rw [Slots.get?_insert_self, Slots.get?_insert_self]
        exact .some hstands
      · rw [Slots.get?_insert_ne _ hi, Slots.get?_insert_ne _ hi]
        exact (h.keeps hkeeps).rows i
  · right
    rw [hedges] at hrow
    rcases hrows : t.graph.rows.get? id with _ | here
    · rw [hrows] at hrow
      cases hrow
    · rw [hrows] at hrow
      obtain hstands | _ := hrow
      exact ⟨edges, here, s, t, StateGraph.outlinks_of_edges hedges, IdGraph.row_of_rows hrows, hstands, rfl, h⟩

theorem isCompleted_eq (h : Agreeing params s t) (id : Nat) : s.graph.isCompleted id = t.graph.isCompleted id := by
  unfold StateGraph.isCompleted IdGraph.isCompleted
  rw [h.states]

theorem outlinks (h : Agreeing params s t) (id : Nat) :
    LikeOutcomes (StateGraph.outlinks id s).1 (IdGraph.outlinks id t).1 ∧
      Agreeing params (StateGraph.outlinks id s).2 (IdGraph.outlinks id t).2 := by
  rcases h.expand id with ⟨e, hout, hrow⟩ | ⟨edges, here, s', t', hout, hrow, hstands, -, h'⟩
  · rw [hout, IdGraph.outlinks_error hrow]
    exact ⟨.same _, h⟩
  · rw [hout, IdGraph.outlinks_eq hrow hstands]
    exact ⟨.same _, h'⟩

theorem degree (h : Agreeing params s t) (id : Nat) (trueLoop : Bool) :
    LikeOutcomes (StateGraph.degree id trueLoop s).1 (IdGraph.degree id trueLoop t).1 ∧
      Agreeing params (StateGraph.degree id trueLoop s).2 (IdGraph.degree id trueLoop t).2 := by
  rcases h.expand id with ⟨e, hout, hrow⟩ | ⟨edges, here, s', t', hout, hrow, hstands, -, h'⟩
  · rw [StateGraph.degree_error hout, IdGraph.degree_error hrow]
    exact ⟨.same _, h⟩
  · rw [StateGraph.degree_eq hout, IdGraph.degree_eq hrow, hstands.length_eq, h'.isCompleted_eq]
    exact ⟨.same _, h'⟩

theorem weighed (h : Agreeing params s t) {s' : Store (StateGraph K) K} {t' : Store (IdGraph K) K}
    (hs : s'.graph = s.graph) (ht : IdGraph.Weighed params t.graph t.features t') : Agreeing params s' t' := by
  have hfeatures := ht.features
  have hframe := ht.graph
  constructor
  · rw [hs, hframe]
    exact h.machine
  · rw [hs, hframe]
    exact h.states
  · rw [hs, hfeatures, hframe]
    exact h.rows
  · rw [hfeatures, hframe]
    exact h.restart
  · rw [hfeatures, hframe]
    exact h.trueLoop
  · rw [hfeatures]
    exact ht.honest

theorem weightedOutlinks [Exponential K] (hsums : Scalar.OrderFree K) (h : Agreeing params s t) {w : Weighter K}
    (hw : w.params = params w.key) (id : Nat) (trueLoop : Bool) :
    LikeOutcomes (StateGraph.weightedOutlinks id w trueLoop s).1 (IdGraph.weightedOutlinks id w trueLoop t).1 ∧
      Agreeing params (StateGraph.weightedOutlinks id w trueLoop s).2
        (IdGraph.weightedOutlinks id w trueLoop t).2 := by
  rcases h.expand id with ⟨e, hout, hrow⟩ | ⟨edges, here, s', t', hout, hrow, hstands, -, h'⟩
  · rw [StateGraph.weightedOutlinks_error hout, IdGraph.weightedOutlinks_error hrow]
    exact ⟨.same _, h⟩
  · obtain ⟨hlinks, hgraph⟩ := StateGraph.weightedOutlinks_eq w trueLoop hout
    obtain ⟨hlinks', hweighed⟩ := IdGraph.weightedOutlinks_eq hw trueLoop hrow hstands.all_named
      (Symbols.get?_of_find? h'.restart) (Symbols.get?_of_find? h'.trueLoop) h'.honest
    refine ⟨?_, h'.weighed hgraph hweighed⟩
    rw [hlinks, hlinks', h'.isCompleted_eq]
    exact w.linksOf_like hsums id _ hstands.reordered

end Agreeing

end

variable [Field K] [LinearOrder K] [FloorSemiring K]

/-! ## Requests

Between two requests others may number features in the table, or another weighter may ask.  A history is a list of
such turns, and weighters of one key share their parameters throughout. -/

/-- What may happen to a graph: someone asks it, or others number features in the table that they share with it. -/
inductive Turn (K : Type)
  | asked (r : Request K)
  | shared (names : GraphKind → List String)

def Turn.Fits (params : Nat → Params K) : Turn K → Prop
  | .asked r => r.Fits params
  | .shared _ => True

variable [Exponential K]

def Turn.after (kind : GraphKind) (s : Store (ProofGraph K) K) : Turn K → Store (ProofGraph K) K
  | .asked r => (r.run s).2
  | .shared names => { s with features := (names kind).foldl (fun t name => (t.intern name).1) s.features }

def history (kind : GraphKind) (turns : List (Turn K)) (s : Store (ProofGraph K) K) : Store (ProofGraph K) K :=
  turns.foldl (Turn.after kind) s

def opened (kind : GraphKind) (m : Machine K) (features : Symbols) (counts : SortedMap Nat FeatureCounts) :
    Except LogicError (Store (ProofGraph K) K) :=
  (ProofGraph.build kind m features).map fun built => ⟨built.1, built.2, counts⟩

/-- **What two graphs agree on.** -/
structure Agreement (params : Nat → Params K) (s t : Store (ProofGraph K) K) : Prop where
  /-- They have as many states, and each number has the same state. -/
  states : s.graph.states = t.graph.states
  replies : ∀ r : Request K, r.Fits params → LikeOutcomes (r.run s).1 (r.run t).1

/-- **Whether a graph answers for itself**: a degree is the number of weighted edges, and these have the weights
that the weighter of the request gives to the edges. -/
structure Faithful (params : Nat → Params K) (s : Store (ProofGraph K) K) : Prop where
  degree : ∀ id w trueLoop links, w.params = params w.key →
    (ProofGraph.weightedOutlinks id w trueLoop s).1 = .ok links →
      (ProofGraph.degree id trueLoop s).1 = .ok links.length
  weights : ∀ id w trueLoop edges, w.params = params w.key → (ProofGraph.outlinks id s).1 = .ok edges →
    LikeOutcomes (ProofGraph.weightedOutlinks id w trueLoop s).1
      (w.linksOf id (trueLoop && s.graph.isCompleted id) (StateGraph.listed edges))

/-! ## Requests to graphs that agree

One turn keeps graphs related and gets like replies; a history is an induction over its turns.  That each weight is
the request's own weighter's (`Faithful`) is said of either graph for itself. -/

variable {params : Nat → Params K} {s : Store (StateGraph K) K} {t : Store (IdGraph K) K}

namespace Agreeing

theorem faithful_state (h : Agreeing params s t) : Faithful params (ofState s) where
  degree id w trueLoop links _ hlinks := by
    replace hlinks : (StateGraph.weightedOutlinks id w trueLoop s).1 = .ok links := hlinks
    show (StateGraph.degree id trueLoop s).1 = .ok links.length
    rcases h.expand id with ⟨e, hout, -⟩ | ⟨edges, -, s', -, hout, -⟩
    · rw [StateGraph.weightedOutlinks_error hout] at hlinks
      cases hlinks
    · rw [(StateGraph.weightedOutlinks_eq w trueLoop hout).1] at hlinks
      rw [StateGraph.degree_eq hout, Weighter.length_linksOf hlinks, StateGraph.listed, List.length_map]
  weights id w trueLoop edges _ hedges := by
    replace hedges : (StateGraph.outlinks id s).1 = .ok edges := hedges
    show LikeOutcomes (StateGraph.weightedOutlinks id w trueLoop s).1 _
    rcases h.expand id with ⟨e, hout, -⟩ | ⟨edges', -, s', -, hout, -, -, hcompleted, -⟩
    · rw [hout] at hedges
      cases hedges
    · rw [hout] at hedges
      cases hedges
      rw [(StateGraph.weightedOutlinks_eq w trueLoop hout).1, hcompleted, isCompleted_ofState]
      exact .same _

theorem faithful_id (h : Agreeing params s t) : Faithful params (ofId t) where
  degree id w trueLoop links hw hlinks := by
    replace hlinks : (IdGraph.weightedOutlinks id w trueLoop t).1 = .ok links := hlinks
    have hlike := (h.weightedOutlinks Scalar.orderFree hw id trueLoop).1
    rw [hlinks] at hlike
    have hcount := (h.degree id trueLoop).1.symm
    rw [show (StateGraph.degree id trueLoop s).1 = .ok links.length from
      h.faithful_state.degree id w trueLoop links hw hlike.eq_ok] at hcount
    exact hcount.eq_ok
  weights id w trueLoop edges hw hedges := by
    replace hedges : (IdGraph.outlinks id t).1 = .ok edges := hedges
    have hout := (h.outlinks id).1
    rw [hedges] at hout
    have hown := h.faithful_state.weights id w trueLoop edges hw hout.eq_ok
    rw [isCompleted_ofState, h.isCompleted_eq] at hown
    rw [isCompleted_ofId]
    exact (h.weightedOutlinks Scalar.orderFree hw id trueLoop).1.symm.trans hown

end Agreeing

inductive Related (params : Nat → Params K) : Store (ProofGraph K) K → Store (ProofGraph K) K → Prop
  | mk {s : Store (StateGraph K) K} {t : Store (IdGraph K) K} (h : Agreeing params s t) :
    Related params (ofState s) (ofId t)

/-- **A request gets like replies, and the graphs agree after it.** -/
theorem Related.request {s t : Store (ProofGraph K) K} (h : Related params s t)
    (r : Request K) (hr : r.Fits params) :
    LikeOutcomes (r.run s).1 (r.run t).1 ∧ Related params (r.run s).2 (r.run t).2 := by
  obtain ⟨h⟩ := h
  cases r with
  | outlinks id =>
    obtain ⟨hlike, h'⟩ := h.outlinks id
    rw [Request.run_outlinks, Request.run_outlinks]
    exact ⟨hlike.map _, .mk h'⟩
  | degree id trueLoop =>
    obtain ⟨hlike, h'⟩ := h.degree id trueLoop
    rw [Request.run_degree, Request.run_degree]
    exact ⟨hlike.map _, .mk h'⟩
  | weightedOutlinks id w trueLoop =>
    obtain ⟨hlike, h'⟩ := h.weightedOutlinks Scalar.orderFree hr id trueLoop
    rw [Request.run_weightedOutlinks, Request.run_weightedOutlinks]
    exact ⟨hlike.map _, .mk h'⟩

theorem Interned.keeps_interns {α κ : Type} [Ord κ] [Std.TransOrd κ] [Std.LawfulEqOrd κ] {key : α → κ} (l : List α)
    (table : Interned key) : table.Keeps (l.foldl (fun t a => (t.intern a).1) table) := by
  induction l generalizing table with
  | nil => exact .refl _
  | cons a rest ih => exact (table.keeps_intern a).trans (ih _)

theorem Related.turn {s t : Store (ProofGraph K) K} (h : Related params s t) (turn : Turn K)
    (hturn : turn.Fits params) : Related params (turn.after .state s) (turn.after .cachingId t) := by
  cases turn with
  | asked r => exact (h.request r hturn).2
  | shared names =>
    obtain @⟨s, t, h⟩ := h
    have hkept := h.keeps (Interned.keeps_interns (names .cachingId) t.features)
    exact .mk (s := { s with features := (names .state).foldl (fun t name => (t.intern name).1) s.features })
      ⟨hkept.machine, hkept.states, hkept.rows, hkept.restart, hkept.trueLoop, hkept.honest⟩

theorem Related.history {turns : List (Turn K)} (hturns : ∀ turn ∈ turns, turn.Fits params)
    {s t : Store (ProofGraph K) K} (h : Related params s t) :
    Related params (history .state turns s) (history .cachingId turns t) := by
  induction turns generalizing s t with
  | nil => exact h
  | cons turn rest ih =>
    obtain ⟨hfirst, hrest⟩ := List.forall_mem_cons.1 hturns
    exact ih hrest (h.turn turn hfirst)

theorem Related.agreement {s t : Store (ProofGraph K) K} (h : Related params s t) : Agreement params s t := by
  have hreplies := h.request
  obtain ⟨hagree⟩ := h
  exact ⟨hagree.states, fun r hr => (hreplies r hr).1⟩

theorem Related.faithful {s t : Store (ProofGraph K) K} (h : Related params s t) :
    Faithful params s ∧ Faithful params t := by
  obtain ⟨hagree⟩ := h
  exact ⟨hagree.faithful_state, hagree.faithful_id⟩

omit [Exponential K] in
theorem opened_related (params : Nat → Params K) (m : Machine K) (features : GraphKind → Symbols)
    (counts : GraphKind → SortedMap Nat FeatureCounts) :
    (∃ e, opened .state m (features .state) (counts .state) = .error e ∧
      opened .cachingId m (features .cachingId) (counts .cachingId) = .error e) ∨
    ∃ s t : Store (ProofGraph K) K, opened .state m (features .state) (counts .state) = .ok s ∧
      opened .cachingId m (features .cachingId) (counts .cachingId) = .ok t ∧ Related params s t := by
  rcases hstart : m.startState with e | start
  · left
    refine ⟨e, ?_, ?_⟩
    · simp [opened, ProofGraph.build, StateGraph.build, hstart, bind, Except.bind, Except.map]
    · simp [opened, ProofGraph.build, IdGraph.build, hstart, bind, Except.bind, Except.map]
  · right
    refine ⟨_, _, ?_, ?_,
      .mk (.fresh params m start (features .state) (features .cachingId) (counts .state) (counts .cachingId))⟩
    · simp only [opened, ProofGraph.build, StateGraph.build, hstart]
      rfl
    · simp only [opened, ProofGraph.build, IdGraph.build, hstart]
      rfl

/-- **The graphs of a query in both representations agree for ever**, whatever they are asked and whoever else numbers
features: they have the same states and give like replies, a degree is the number of weighted edges, and each weight is
what the weighter of that very request gives to the features of the edge. -/
theorem graphs_agree (m : Machine K) (features : GraphKind → Symbols)
    (counts : GraphKind → SortedMap Nat FeatureCounts) {turns : List (Turn K)}
    (hturns : ∀ turn ∈ turns, turn.Fits params) :
    (∃ e, opened .state m (features .state) (counts .state) = .error e ∧
      opened .cachingId m (features .cachingId) (counts .cachingId) = .error e) ∨
    ∃ s t : Store (ProofGraph K) K, opened .state m (features .state) (counts .state) = .ok s ∧
      opened .cachingId m (features .cachingId) (counts .cachingId) = .ok t ∧
      Agreement params (history .state turns s) (history .cachingId turns t) ∧
      Faithful params (history .state turns s) ∧ Faithful params (history .cachingId turns t) := by
  rcases opened_related params m features counts with hfails | ⟨s, t, hs, ht, hrelated⟩
  · exact .inl hfails
  · right
    have hafter := hrelated.history hturns
    exact ⟨s, t, hs, ht, hafter.agreement, hafter.faithful⟩

/-! ## Paths -/

attribute [local instance] flatExponential

def exactPath : Machine ℚ := ⟨pathCode, [], ⟨100, 10⟩, pathTable⟩

/-- The parameters of weighters 0 and 1; the latter makes restarts likelier. -/
def pathParams : Nat → Params ℚ
  | 1 => .table ((∅ : SortedMap String ℚ).insert restartFeature 3)
  | _ => .unit

def restarting : Weighter ℚ := ⟨.linear, pathParams 1, true, 1⟩

def pathTurns : List (Turn ℚ) :=
  [.asked (.weightedOutlinks 0 (.uniform 0) true), .shared fun _ => [subproofFeature],
    .asked (.weightedOutlinks 0 restarting true), .asked (.outlinks 1)]

def pathWeights (kind : GraphKind) (w : Weighter ℚ) : Option (List ℚ) := do
  let s ← (opened kind exactPath ∅ ∅).toOption
  let links ← (ProofGraph.weightedOutlinks 0 w true (history kind pathTurns s)).1.toOption
  return links.map (·.weight)

/-- Two weighters take turns, and each of them is answered for itself. -/
theorem graphs_agree_path : (∀ turn ∈ pathTurns, turn.Fits pathParams) ∧
    (∃ s t : Store (ProofGraph ℚ) ℚ, opened .state exactPath ∅ ∅ = .ok s ∧
      opened .cachingId exactPath ∅ ∅ = .ok t ∧
      Agreement pathParams (history .state pathTurns s) (history .cachingId pathTurns t) ∧
      Faithful pathParams (history .state pathTurns s) ∧ Faithful pathParams (history .cachingId pathTurns t)) ∧
    ∀ kind, pathWeights kind (.uniform 0) = some [1, 1, 1] ∧ pathWeights kind restarting = some [1, 1, 3] := by
  have hfits : ∀ turn ∈ pathTurns, turn.Fits pathParams := by
    simp [pathTurns, Turn.Fits, Request.Fits, Weighter.uniform, restarting, pathParams]
  refine ⟨hfits, ?_, fun kind => ?_⟩
  · rcases graphs_agree exactPath (fun _ => ∅) (fun _ => ∅) hfits with ⟨e, hfails, -⟩ | hagree
    · have hopens : (opened .state exactPath ∅ ∅).toOption.isSome = true := by decide +kernel
      rw [hfails] at hopens
      cases hopens
    · exact hagree
  · cases kind with
    | state => exact ⟨by decide +kernel, by decide +kernel⟩
    | cachingId => exact ⟨by decide +kernel, by decide +kernel⟩

end ProofWalk
