import ProofWalk.Proofs.GraphAgreement
import ProofWalk.Proofs.RenamedRuns
import ProofWalk.Prove.Answer
/-!
# Proofs.RenamedGraphs — graphs of one query under two tables

Under two tables of symbols the states of a query get the same numbers and the same edges.  Two graphs with feature
dictionaries thus stay counterparts whatever they are asked (`StateGraph.Renamed.expand`).  Graphs with numbered
features agree with graphs with dictionaries, and through these with each other, even where they number the features
differently (`Counterparts`).  Of graphs whose states are counterparts a result has the same answers
(`ProofGraph.Renamed.answers_eq`).
-/
namespace ProofWalk

variable {K : Type}

/-! ## Like faults

A fault may list the features of an edge, and two graphs may list them in different orders. -/

/-- **Faults of one kind**: the same, or one illegal weight with its features in another order. -/
inductive ProverError.Like : ProverError K → ProverError K → Prop
  | same (e : ProverError K) : Like e e
  | illegal (x : K) {l l' : List (String × K)} (h : l.Perm l') : Like (.weight ⟨x, l⟩) (.weight ⟨x, l'⟩)

theorem LikeOutcomes.corresponds {α : Type} {x y : Except (ProverError K) α} (h : LikeOutcomes x y) :
    Corresponds ProverError.Like Eq x y := by
  cases h with
  | illegal x h => exact .error (.illegal x h)
  | same =>
    cases x with
    | error e => exact .error (.same e)
    | ok a => exact .ok rfl

/-! ## Tables of states

States are found by their canonical forms.  Two states share a form just if their counterparts do, so a state has a
number in one table just if its counterpart has that number in the other. -/

section

variable {σ τ : Symbols}

/-- **Tables in which each number has a state and its counterpart.** -/
def StateTable.Renamed (σ τ : Symbols) (T U : StateTable) :
    Prop := ∀ id, Option.Rel (Frozen.Renamed σ τ) (T.get? id) (U.get? id)

namespace StateTable.Renamed

variable {T U : StateTable} {f g : Frozen}

theorem size_eq (h : StateTable.Renamed σ τ T U) : T.size = U.size := size_eq_of_rel h

theorem find?_eq (h : StateTable.Renamed σ τ T U) (hf : f.Renamed σ τ g) : T.find? f.form = U.find? g.form := by
  refine Option.ext fun i => ?_
  rw [Interned.find?_eq_some_iff, Interned.find?_eq_some_iff]
  have hi := h i
  generalize T.get? i = x, U.get? i = y at hi
  cases hi with
  | none => exact ⟨nofun, nofun⟩
  | some hab =>
    simp only [Option.some.injEq, exists_eq_left']
    exact Frozen.form_eq_iff hab hf

theorem intern (h : StateTable.Renamed σ τ T U) (hf : f.Renamed σ τ g) :
    StateTable.Renamed σ τ (T.intern f).1 (U.intern g).1 ∧ (T.intern f).2 = (U.intern g).2 := by
  have hfind := h.find?_eq hf
  rcases hT : T.find? f.form with _ | i
  · obtain ⟨hitems, hnumber⟩ := Interned.intern_of_none hT
    obtain ⟨hitems', hnumber'⟩ := Interned.intern_of_none (hfind.symm.trans hT)
    have hsize : T.items.size = U.items.size := h.size_eq
    refine ⟨fun id => ?_, by rw [hnumber, hnumber', h.size_eq]⟩
    rw [Interned.get?, Interned.get?, hitems, hitems', Array.getElem?_push, Array.getElem?_push, hsize]
    split
    · exact .some hf
    · exact h id
  · rw [Interned.intern_of_some hT, Interned.intern_of_some (hfind.symm.trans hT)]
    exact ⟨h, rfl⟩

theorem single (hf : f.Renamed σ τ g) : StateTable.Renamed σ τ (StateTable.single f) (StateTable.single g) :=
  (intern (fun _ => .none) hf).1

theorem isCompleted_eq (h : StateTable.Renamed σ τ T U) (id : Nat) :
    (T.get? id).any (·.state.completed) = (U.get? id).any (·.state.completed) := by
  have hid := h id
  generalize T.get? id = x, U.get? id = y at hid
  cases hid with
  | none => rfl
  | some hfg =>
    obtain ⟨heap, -, hstate⟩ := hfg
    rw [Option.any_some, Option.any_some, hstate]

end StateTable.Renamed

theorem numberOutlinks_renamed {os os' : List (Outlink K)} (hos : List.Forall₂ (Outlink.Renamed σ τ) os os')
    {T U : StateTable} (h : StateTable.Renamed σ τ T U) : (numberOutlinks os T).1 = (numberOutlinks os' U).1 ∧
      StateTable.Renamed σ τ (numberOutlinks os T).2 (numberOutlinks os' U).2 := by
  induction hos generalizing T U with
  | nil => exact ⟨rfl, h⟩
  | cons ho _ ih =>
    obtain ⟨hstates, hnumber⟩ := h.intern ho.target
    obtain ⟨hedges, hstates'⟩ := ih hstates
    simp only [numberOutlinks]
    exact ⟨by rw [hnumber, ho.features, hedges], hstates'⟩

end

variable [Scalar K]

/-! ## Graphs with feature dictionaries

Edges have features by name, so they can be the same in both graphs, and not merely related. -/

/-- **Graphs of one query under two tables**: their states are counterparts, and their edges are the same. -/
structure StateGraph.Renamed (g g' : StateGraph K) : Prop where
  machine : g.machine.Renamed g'.machine
  states : StateTable.Renamed g.machine.symbols g'.machine.symbols g.states g'.states
  edges : g.edges = g'.edges

namespace StateGraph.Renamed

variable {s t : Store (StateGraph K) K}

omit [Scalar K] in
theorem isCompleted_eq {g g' : StateGraph K} (h : g.Renamed g') (id : Nat) :
    g.isCompleted id = g'.isCompleted id :=
  h.states.isCompleted_eq id

/-- **A state is expanded in both graphs alike**, or it exists in neither. -/
theorem expand (h : s.graph.Renamed t.graph) (id : Nat) :
    (∃ e, StateGraph.outlinks id s = (.error e, s) ∧ StateGraph.outlinks id t = (.error e, t)) ∨
      ∃ edges s' t', StateGraph.outlinks id s = (.ok edges, s') ∧ StateGraph.outlinks id t = (.ok edges, t') ∧
        s'.graph.Renamed t'.graph := by
  rcases hedges : s.graph.edges.get? id with _ | edges
  · have hedges' : t.graph.edges.get? id = none := h.edges ▸ hedges
    have hid := h.states id
    generalize hstate : s.graph.states.get? id = x, hstate' : t.graph.states.get? id = y at hid
    cases hid with
    | none =>
      refine .inl ⟨_, outlinks_of_none hedges hstate, ?_⟩
      rw [h.states.size_eq]
      exact outlinks_of_none hedges' hstate'
    | @some f g hfg =>
      have hout := outlinks_of_state hedges hstate
      have hout' := outlinks_of_state hedges' hstate'
      obtain ⟨hsame, hstates⟩ := numberOutlinks_renamed (h.machine.waysOn hfg) h.states
      rcases hnumber : numberOutlinks (s.graph.machine.waysOn f) s.graph.states with ⟨edges, states⟩
      rcases hnumber' : numberOutlinks (t.graph.machine.waysOn g) t.graph.states with ⟨edges', states'⟩
      rw [hnumber, hnumber'] at hsame hstates
      rw [hnumber] at hout
      rw [hnumber'] at hout'
      obtain rfl : edges = edges' := hsame
      exact .inr ⟨edges, _, _, hout, hout', h.machine, hstates, by rw [h.edges]⟩
  · exact .inr ⟨edges, s, t, outlinks_of_edges hedges, outlinks_of_edges (h.edges ▸ hedges), h⟩

theorem degree (h : s.graph.Renamed t.graph) (id : Nat) (trueLoop : Bool) :
    (StateGraph.degree id trueLoop s).1 = (StateGraph.degree id trueLoop t).1 ∧
      (StateGraph.degree id trueLoop s).2.graph.Renamed (StateGraph.degree id trueLoop t).2.graph := by
  rcases h.expand id with ⟨e, hout, hout'⟩ | ⟨edges, s', t', hout, hout', h'⟩
  · rw [degree_error hout, degree_error hout']
    exact ⟨rfl, h⟩
  · rw [degree_eq hout, degree_eq hout', h'.isCompleted_eq]
    exact ⟨rfl, h'⟩

theorem weightedOutlinks [Exponential K] (h : s.graph.Renamed t.graph) (id : Nat)
    (w : Weighter K) (trueLoop : Bool) :
    (StateGraph.weightedOutlinks id w trueLoop s).1 = (StateGraph.weightedOutlinks id w trueLoop t).1 ∧
      (StateGraph.weightedOutlinks id w trueLoop s).2.graph.Renamed
        (StateGraph.weightedOutlinks id w trueLoop t).2.graph := by
  rcases h.expand id with ⟨e, hout, hout'⟩ | ⟨edges, s', t', hout, hout', h'⟩
  · rw [weightedOutlinks_error hout, weightedOutlinks_error hout']
    exact ⟨rfl, h⟩
  · obtain ⟨hlinks, hgraph⟩ := weightedOutlinks_eq w trueLoop hout
    obtain ⟨hlinks', hgraph'⟩ := weightedOutlinks_eq w trueLoop hout'
    rw [hlinks, hlinks', hgraph, hgraph', h'.isCompleted_eq]
    exact ⟨rfl, h'⟩

end StateGraph.Renamed

/-! ## Graphs of either representation

A graph with numbered features is compared by way of a graph with dictionaries that it agrees with.  This needs that
sums do not depend on the order of features, which the two list differently. -/

/-- **Graphs whose states are counterparts**, whatever their edges. -/
structure ProofGraph.Renamed (g g' : ProofGraph K) : Prop where
  machine : g.machine.Renamed g'.machine
  states : StateTable.Renamed g.machine.symbols g'.machine.symbols g.states g'.states

/-- **Stores with the graphs of one query under two tables.**  Graphs with numbered features stand beside graphs with
dictionaries that they agree with; there sums must not depend on the order of features. -/
inductive Counterparts (params : Nat → Params K) : Store (ProofGraph K) K → Store (ProofGraph K) K → Prop
  | state {s t : Store (StateGraph K) K} (h : s.graph.Renamed t.graph) :
    Counterparts params (ofState s) (ofState t)
  | cachingId (hsums : Scalar.OrderFree K) {s t : Store (StateGraph K) K} {a b : Store (IdGraph K) K}
    (ha : Agreeing params s a)
    (hb : Agreeing params t b) (h : s.graph.Renamed t.graph) : Counterparts params (ofId a) (ofId b)

namespace Counterparts

variable {params : Nat → Params K} {s t : Store (ProofGraph K) K}

theorem renamed (h : Counterparts params s t) : s.graph.Renamed t.graph := by
  cases h with
  | state h => exact ⟨h.machine, h.states⟩
  | cachingId _ ha hb h =>
    obtain ⟨hmachine, hstates, -⟩ := h
    rw [ha.machine, hb.machine] at hmachine hstates
    rw [ha.states, hb.states] at hstates
    exact ⟨hmachine, hstates⟩

theorem kind_eq (h : Counterparts params s t) : s.graph.kind = t.graph.kind := by
  cases h with
  | state _ => rfl
  | cachingId _ _ _ _ => rfl

/-- **The graphs of one query that have just been built**, if its start is reached. -/
theorem build {m m' : Machine K} (h : m.Renamed m') {kind : GraphKind}
    (hsums : kind = .cachingId → Scalar.OrderFree K) (params : Nat → Params K) (features features' : Symbols)
    (counts counts' : SortedMap Nat FeatureCounts) :
    Corresponds (fun _ _ => True) (fun g g' => Counterparts params ⟨g.1, g.2, counts⟩ ⟨g'.1, g'.2, counts'⟩)
      (ProofGraph.build kind m features) (ProofGraph.build kind m' features') := by
  have hstart := h.startState
  generalize hrun : m.startState = x, hrun' : m'.startState = y at hstart
  cases hstart with
  | error _ =>
    cases kind with
    | state =>
      simp only [ProofGraph.build, StateGraph.build, hrun, hrun']
      exact .error trivial
    | cachingId =>
      simp only [ProofGraph.build, IdGraph.build, hrun, hrun']
      exact .error trivial
  | @ok f f' hf =>
    have hgraphs : StateGraph.Renamed (⟨m, .single f, .empty⟩ : StateGraph K) ⟨m', .single f', .empty⟩ :=
      ⟨h, .single hf, rfl⟩
    cases kind with
    | state =>
      simp only [ProofGraph.build, StateGraph.build, hrun, hrun']
      exact .ok (.state (s := ⟨_, features, counts⟩) (t := ⟨_, features', counts'⟩) hgraphs)
    | cachingId =>
      simp only [ProofGraph.build, IdGraph.build, hrun, hrun']
      exact .ok (.cachingId (hsums rfl) (.fresh params m f features features counts counts)
        (.fresh params m' f' features' features' counts' counts') hgraphs)

theorem degree (h : Counterparts params s t) (id : Nat) (trueLoop : Bool) :
    Corresponds ProverError.Like Eq (ProofGraph.degree id trueLoop s).1 (ProofGraph.degree id trueLoop t).1 ∧
      Counterparts params (ProofGraph.degree id trueLoop s).2 (ProofGraph.degree id trueLoop t).2 := by
  cases h with
  | @state s t h =>
    obtain ⟨hdegree, h'⟩ := h.degree id trueLoop
    refine ⟨LikeOutcomes.corresponds ?_, .state h'⟩
    show LikeOutcomes (StateGraph.degree id trueLoop s).1 (StateGraph.degree id trueLoop t).1
    rw [hdegree]
    exact .same _
  | @cachingId hsums s t a b ha hb h =>
    obtain ⟨hdegree, h'⟩ := h.degree id trueLoop
    obtain ⟨hlike, ha'⟩ := ha.degree id trueLoop
    obtain ⟨hlike', hb'⟩ := hb.degree id trueLoop
    rw [hdegree] at hlike
    exact ⟨(hlike.symm.trans hlike').corresponds, .cachingId hsums ha' hb' h'⟩

/-- **Both answer alike**, and remain counterparts. -/
theorem weightedOutlinks [Exponential K] (h : Counterparts params s t) {w : Weighter K}
    (hw : w.params = params w.key) (id : Nat) (trueLoop : Bool) :
    Corresponds ProverError.Like Eq (ProofGraph.weightedOutlinks id w trueLoop s).1
      (ProofGraph.weightedOutlinks id w trueLoop t).1 ∧
      Counterparts params (ProofGraph.weightedOutlinks id w trueLoop s).2
        (ProofGraph.weightedOutlinks id w trueLoop t).2 := by
  cases h with
  | @state s t h =>
    obtain ⟨hlinks, h'⟩ := h.weightedOutlinks id w trueLoop
    refine ⟨LikeOutcomes.corresponds ?_, .state h'⟩
    show LikeOutcomes (StateGraph.weightedOutlinks id w trueLoop s).1
      (StateGraph.weightedOutlinks id w trueLoop t).1
    rw [hlinks]
    exact .same _
  | @cachingId hsums s t a b ha hb h =>
    obtain ⟨hlinks, h'⟩ := h.weightedOutlinks id w trueLoop
    obtain ⟨hlike, ha'⟩ := ha.weightedOutlinks hsums hw id trueLoop
    obtain ⟨hlike', hb'⟩ := hb.weightedOutlinks hsums hw id trueLoop
    rw [hlinks] at hlike
    exact ⟨(hlike.symm.trans hlike').corresponds, .cachingId hsums ha' hb' h'⟩

theorem freeze (h : Counterparts params s t) {w : Weighter K} (hw : w.params = params w.key) :
    Corresponds ProverError.Like Eq (ProofGraph.freeze w s).1 (ProofGraph.freeze w t).1 ∧
      Counterparts params (ProofGraph.freeze w s).2 (ProofGraph.freeze w t).2 := by
  cases h with
  | state h => exact ⟨.ok rfl, .state h⟩
  | @cachingId hsums s t a b ha hb h =>
    obtain ⟨hdone, hweighed⟩ := IdGraph.meets_freeze hw a ⟨rfl, rfl, ha.honest⟩
    obtain ⟨hdone', hweighed'⟩ := IdGraph.meets_freeze hw b ⟨rfl, rfl, hb.honest⟩
    refine ⟨LikeOutcomes.corresponds ?_, .cachingId hsums (ha.weighed rfl hweighed) (hb.weighed rfl hweighed') h⟩
    show LikeOutcomes (IdGraph.freeze w a).1 (IdGraph.freeze w b).1
    rw [hdone, hdone']
    exact .same _

end Counterparts

/-! ## Answers

An answer is the text of a goal, with constants by name. -/

namespace ProofGraph.Renamed

variable {g g' : ProofGraph K} (h : g.Renamed g')

include h

omit [Scalar K] in
theorem state?_renamed (id : Nat) :
    Option.Rel (State.Renamed g.machine.symbols g'.machine.symbols) (g.state? id) (g'.state? id) := by
  have hid := h.states id
  unfold ProofGraph.state?
  generalize g.states.get? id = x, g'.states.get? id = y at hid
  cases hid with
  | none => exact .none
  | some hfg => exact .some hfg

omit [Scalar K] in
theorem ofState_eq {s t : State} (hs : s.Renamed g.machine.symbols g'.machine.symbols t) (id : Nat) (mass : K) :
    Answer.ofState g.machine.query g.machine.symbols s id mass =
      Answer.ofState g'.machine.query g'.machine.symbols t id mass := by
  have hshown : ∀ i, Answer.showBinding g.machine.symbols (s.register i) =
      Answer.showBinding g'.machine.symbols (t.register i) := by
    intro i
    have hi := hs.register i
    generalize s.register i = x, t.register i = y at hi
    cases hi with
    | const hc => exact hc.name_eq
    | free root => rfl
    | unset => rfl
  unfold Answer.ofState Answer.bindingsOf
  rw [h.machine.names, h.machine.query]
  simp only [hshown]

/-- **A result has the same answers on both graphs.** -/
theorem answers_eq (result : ProofVector K) : Answer.all g result = Answer.all g' result := by
  have hanswering : Answer.answering g result = Answer.answering g' result := by
    unfold Answer.answering
    refine List.filterMap_congr fun e _ => ?_
    have hstate := h.state?_renamed e.1
    generalize g.state? e.1 = x, g'.state? e.1 = y at hstate
    cases hstate with
    | none => rfl
    | some hs =>
      dsimp only
      rw [h.ofState_eq hs]
      obtain ⟨heap, -, rfl⟩ := hs
      rfl
  unfold Answer.all
  rw [hanswering]

end ProofGraph.Renamed

end ProofWalk
