import ProofWalk.Proofs.Weighing
/-!
# Proofs.RegularGraphs — graphs that have the states and features which their edges name

The graph of a query is regular when it is built, and requests keep it so.  In a regular graph no request fails for
a state that a prover may come upon: only an illegal weight stops it.

Each representation has its own notion, since one keeps features by name and the other by number;
`ProofGraph.Regular` is the one that the provers are concerned with.
-/
namespace ProofWalk

variable {K : Type}

theorem numberOutlinks_children (outlinks : List (Outlink K)) (states : StateTable) :
    ∀ e ∈ (numberOutlinks outlinks states).1, ((numberOutlinks outlinks states).2.get? e.child).isSome := by
  induction outlinks generalizing states with
  | nil => nofun
  | cons o rest ih =>
    obtain ⟨f, hf, -⟩ := Interned.find?_eq_some_iff.1 (Interned.find?_intern states o.target)
    have hfirst := (numberOutlinks_extends rest (states.intern o.target).1).isSome (Option.isSome_of_eq_some hf)
    exact List.forall_mem_cons.2 ⟨hfirst, ih _⟩

theorem Symbols.get?_keeps {table table' : Symbols} (hkeeps : table.Keeps table') {i : Nat} {name : String}
    (h : table.get? i = some name) : table'.get? i = some name :=
  Symbols.get?_of_find? (hkeeps name i (Interned.find?_eq_some_iff.2 ⟨name, h, rfl⟩))

theorem IdGraph.Named.keeps {table table' : Symbols} {v : SparseVector K} (h : Named table v)
    (hkeeps : table.Keeps table') : Named table' v := by
  intro i x hx
  obtain ⟨name, hname⟩ := Option.isSome_iff_exists.1 (h i x hx)
  rw [Symbols.get?_keeps hkeeps hname]
  rfl

/-! ## Graphs with feature dictionaries

The start has a number, and every edge on record leads to a state that has one. -/

/-- **Whether a graph has its start and every state that an edge leads to.** -/
structure StateGraph.Regular (g : StateGraph K) : Prop where
  root : (g.states.get? 0).isSome
  sound : (StateGraph.growth K).sound g
  closed : ∀ id edges, g.edges.get? id = some edges → ∀ e ∈ edges, (g.states.get? e.child).isSome

namespace StateGraph.Regular

variable [Scalar K] {s : Store (StateGraph K) K} {id : Nat}

theorem outlinks (h : s.graph.Regular) (hid : (s.graph.states.get? id).isSome) :
    ∃ edges s', StateGraph.outlinks id s = (.ok edges, s') ∧ s'.graph.Regular ∧
      ∀ e ∈ edges, (s'.graph.states.get? e.child).isSome := by
  rcases hedges : s.graph.edges.get? id with _ | edges
  · obtain ⟨f, hf⟩ := Option.isSome_iff_exists.1 hid
    have hrun := outlinks_of_state hedges hf
    have hsound := (steady_outlinks id s h.sound).1
    have hstates := numberOutlinks_extends (s.graph.machine.waysOn f) s.graph.states
    have hchildren := numberOutlinks_children (s.graph.machine.waysOn f) s.graph.states
    rcases hnumber : numberOutlinks (s.graph.machine.waysOn f) s.graph.states with ⟨edges, states⟩
    rw [hnumber] at hrun hstates hchildren
    rw [hrun] at hsound
    refine ⟨edges, _, hrun, ⟨hstates.isSome h.root, hsound, fun i edges' hi e he => ?_⟩, hchildren⟩
    by_cases hne : id = i
    · subst hne
      rw [Slots.get?_insert_self] at hi
      cases hi
      exact hchildren e he
    · rw [Slots.get?_insert_ne _ hne] at hi
      exact hstates.isSome (h.closed i edges' hi e he)
  · exact ⟨edges, s, outlinks_of_edges hedges, h, h.closed id edges hedges⟩

theorem degree (h : s.graph.Regular) (hid : (s.graph.states.get? id).isSome) (trueLoop : Bool) :
    ∃ n, (StateGraph.degree id trueLoop s).1 = .ok (n + 1) ∧
      (StateGraph.degree id trueLoop s).2.graph.Regular := by
  obtain ⟨edges, s', hout, h', -⟩ := h.outlinks hid
  rw [degree_eq hout]
  exact ⟨_, congrArg Except.ok (Nat.add_right_comm ..), h'⟩

/-- **The weighted edges of a state lead to states**, unless a weight is illegal. -/
theorem weightedOutlinks [Exponential K] (h : s.graph.Regular)
    (hid : (s.graph.states.get? id).isSome) (w : Weighter K) (trueLoop : Bool) :
      ∃ looped edges, (StateGraph.weightedOutlinks id w trueLoop s).1 = w.linksOf id looped edges ∧
      (StateGraph.weightedOutlinks id w trueLoop s).2.graph.Regular ∧
      ∀ e ∈ edges, ((StateGraph.weightedOutlinks id w trueLoop s).2.graph.states.get? e.1).isSome := by
  obtain ⟨edges, s', hout, h', hchildren⟩ := h.outlinks hid
  obtain ⟨hlinks, hgraph⟩ := weightedOutlinks_eq w trueLoop hout
  rw [hgraph]
  refine ⟨_, _, hlinks, h', fun e he => ?_⟩
  obtain ⟨edge, hedge, rfl⟩ := List.mem_map.1 he
  exact hchildren edge hedge

theorem expand (h : s.graph.Regular) (id : Nat) : (∃ e, StateGraph.outlinks id s = (.error e, s)) ∨
    ∃ edges s', StateGraph.outlinks id s = (.ok edges, s') ∧ s'.graph.Regular := by
  rcases hid : s.graph.states.get? id with _ | f
  · have hedges : s.graph.edges.get? id = none := by
      by_contra hsome
      have hstate := h.sound id (Option.isSome_iff_ne_none.2 hsome)
      rw [hid] at hstate
      cases hstate
    exact .inl ⟨_, outlinks_of_none hedges hid⟩
  · obtain ⟨edges, s', hout, h', -⟩ := h.outlinks (Option.isSome_of_eq_some hid)
    exact .inr ⟨edges, s', hout, h'⟩

end StateGraph.Regular

/-! ## Graphs with numbered features

Features must have names besides, and the snapshot of parameters must be honest, since a request for weights reads
both. -/

/-- **Whether a graph has its start, every state that an edge leads to and a name for every feature**, and an honest
snapshot. -/
structure IdGraph.Regular [Scalar K] (params : Nat → Params K) (table : Symbols) (g : IdGraph K) : Prop where
  root : (g.states.get? 0).isSome
  sound : ∀ id, (g.rows.get? id).isSome → (g.states.get? id).isSome
  closed : ∀ id row, g.rows.get? id = some row → ∀ e ∈ row, (g.states.get? e.child).isSome ∧ Named table e.features
  restart : table.get? g.restart = some restartFeature
  trueLoop : table.get? g.trueLoop = some trueLoopFeature
  honest : ∀ f, g.frozen = some f → f.Honest params table

namespace IdGraph.Regular

variable [Scalar K] {params : Nat → Params K} {s : Store (IdGraph K) K} {id : Nat}

theorem keeps {table table' : Symbols} {g : IdGraph K} (h : Regular params table g) (hkeeps : table.Keeps table') :
    Regular params table' g where
  root := h.root
  sound := h.sound
  closed i row hi e he := ⟨(h.closed i row hi e he).1, (h.closed i row hi e he).2.keeps hkeeps⟩
  restart := Symbols.get?_keeps hkeeps h.restart
  trueLoop := Symbols.get?_keeps hkeeps h.trueLoop
  honest f hf := (h.honest f hf).keeps hkeeps

theorem weighed {g : IdGraph K} {table : Symbols} (h : Regular params table g) (hs : Weighed params g table s) :
    Regular params s.features s.graph := by
  have hfeatures := hs.features
  have hgraph := hs.graph
  subst hfeatures
  constructor
  · rw [hgraph]
    exact h.root
  · rw [hgraph]
    exact h.sound
  · rw [hgraph]
    exact h.closed
  · rw [hgraph]
    exact h.restart
  · rw [hgraph]
    exact h.trueLoop
  · exact hs.honest

theorem row (h : Regular params s.features s.graph) (hid : (s.graph.states.get? id).isSome) :
    ∃ here s', IdGraph.row id s = (.ok here, s') ∧ Regular params s'.features s'.graph ∧
      s'.graph.rows.get? id = some here := by
  rcases hrows : s.graph.rows.get? id with _ | here
  · obtain ⟨f, hf⟩ := Option.isSome_iff_exists.1 hid
    have hrun := row_of_state hrows hf
    have hstates := numberOutlinks_extends (s.graph.machine.waysOn f) s.graph.states
    have hchildren := numberOutlinks_children (s.graph.machine.waysOn f) s.graph.states
    rcases hnumber : numberOutlinks (s.graph.machine.waysOn f) s.graph.states with ⟨edges, states⟩
    rw [hnumber] at hrun hstates hchildren
    obtain ⟨hkeeps, hstands⟩ := rowOf_stands edges s.features
    refine ⟨_, _, hrun, ⟨hstates.isSome h.root, fun i hi => ?_, fun i here hi e he => ?_, ?_, ?_, ?_⟩,
      Slots.get?_insert_self ..⟩
    · by_cases hne : id = i
      · subst hne
        exact hstates.isSome hid
      · rw [Slots.get?_insert_ne _ hne] at hi
        exact hstates.isSome (h.sound i hi)
    · by_cases hne : id = i
      · subst hne
        rw [Slots.get?_insert_self] at hi
        cases hi
        refine ⟨?_, hstands.all_named e he⟩
        obtain ⟨edge, hedge, hchild⟩ := hstands.child_mem e he
        rw [← hchild]
        exact hchildren edge hedge
      · rw [Slots.get?_insert_ne _ hne] at hi
        obtain ⟨hchild, hnamed⟩ := h.closed i here hi e he
        exact ⟨hstates.isSome hchild, hnamed.keeps hkeeps⟩
    · exact Symbols.get?_keeps hkeeps h.restart
    · exact Symbols.get?_keeps hkeeps h.trueLoop
    · exact fun f hf => (h.honest f hf).keeps hkeeps
  · exact ⟨here, s, row_of_rows hrows, h, hrows⟩

theorem degree (h : Regular params s.features s.graph) (hid : (s.graph.states.get? id).isSome) (trueLoop : Bool) :
    ∃ n, (IdGraph.degree id trueLoop s).1 = .ok (n + 1) ∧
      Regular params (IdGraph.degree id trueLoop s).2.features (IdGraph.degree id trueLoop s).2.graph := by
  obtain ⟨here, s', hrow, h', -⟩ := h.row hid
  rw [degree_eq hrow]
  exact ⟨_, congrArg Except.ok (Nat.add_right_comm ..), h'⟩

/-- **The weighted edges of a state lead to states**, unless a weight is illegal. -/
theorem weightedOutlinks [Exponential K] (h : Regular params s.features s.graph)
    (hid : (s.graph.states.get? id).isSome) {w : Weighter K} (hw : w.params = params w.key) (trueLoop : Bool) :
    ∃ looped edges, (IdGraph.weightedOutlinks id w trueLoop s).1 = w.linksOf id looped edges ∧
      Regular params (IdGraph.weightedOutlinks id w trueLoop s).2.features
        (IdGraph.weightedOutlinks id w trueLoop s).2.graph ∧
      ∀ e ∈ edges, ((IdGraph.weightedOutlinks id w trueLoop s).2.graph.states.get? e.1).isSome := by
  obtain ⟨here, s', hrow, h', hhere⟩ := h.row hid
  obtain ⟨hlinks, hweighed⟩ := weightedOutlinks_eq hw trueLoop hrow (fun e he => (h'.closed id here hhere e he).2)
    h'.restart h'.trueLoop h'.honest
  refine ⟨_, _, hlinks, h'.weighed hweighed, fun e he => ?_⟩
  obtain ⟨edge, hedge, rfl⟩ := List.mem_map.1 he
  rw [hweighed.graph]
  exact (h'.closed id here hhere edge hedge).1

theorem expand (h : Regular params s.features s.graph) (id : Nat) : (∃ e, IdGraph.row id s = (.error e, s)) ∨
    ∃ here s', IdGraph.row id s = (.ok here, s') ∧ Regular params s'.features s'.graph ∧
      s'.graph.rows.get? id = some here := by
  rcases hid : s.graph.states.get? id with _ | f
  · have hrows : s.graph.rows.get? id = none := by
      by_contra hsome
      have hstate := h.sound id (Option.isSome_iff_ne_none.2 hsome)
      rw [hid] at hstate
      cases hstate
    exact .inl ⟨_, row_of_none hrows hid⟩
  · exact .inr (h.row (Option.isSome_of_eq_some hid))

end IdGraph.Regular

/-! ## Graphs of either representation

A snapshot of parameters is made for a key, so weighters of one key are to share the parameters. -/

def ofState (s : Store (StateGraph K) K) : Store (ProofGraph K) K := ⟨.state s.graph, s.features, s.counts⟩

def ofId (s : Store (IdGraph K) K) : Store (ProofGraph K) K := ⟨.cachingId s.graph, s.features, s.counts⟩

theorem isCompleted_ofState (s : Store (StateGraph K) K) (id : Nat) :
    (ofState s).graph.isCompleted id = s.graph.isCompleted id := Option.any_map

theorem isCompleted_ofId (s : Store (IdGraph K) K) (id : Nat) :
    (ofId s).graph.isCompleted id = s.graph.isCompleted id :=
  Option.any_map

namespace ProofGraph

variable [Scalar K]

/-- **Whether a graph has what its edges name**, where weighters of one key share the parameters of that key. -/
inductive Regular (params : Nat → Params K) : Store (ProofGraph K) K → Prop
  | state {s : Store (StateGraph K) K} (h : s.graph.Regular) : Regular params (ofState s)
  | cachingId {s : Store (IdGraph K) K} (h : s.graph.Regular params s.features) : Regular params (ofId s)

namespace Regular

variable {params : Nat → Params K} {s : Store (ProofGraph K) K} {id : Nat}

theorem root (h : Regular params s) : (s.graph.states.get? 0).isSome := by
  cases h with
  | state h => exact h.root
  | cachingId h => exact h.root

theorem sound (h : Regular params s) (w : Weighter K) : (growth w).sound s.graph := by
  cases h with
  | state h => exact h.sound
  | cachingId h => exact h.sound

theorem degree (h : Regular params s) (hid : (s.graph.states.get? id).isSome) (trueLoop : Bool) :
    ∃ n, (ProofGraph.degree id trueLoop s).1 = .ok (n + 1) ∧
      Regular params (ProofGraph.degree id trueLoop s).2 := by
  cases h with
  | state h =>
    obtain ⟨n, hn, h'⟩ := h.degree hid trueLoop
    exact ⟨n, hn, .state h'⟩
  | cachingId h =>
    obtain ⟨n, hn, h'⟩ := h.degree hid trueLoop
    exact ⟨n, hn, .cachingId h'⟩

/-- **What a regular graph answers to a prover**: weighted edges to its states, or that a weight is illegal. -/
theorem weightedOutlinks [Exponential K] (h : Regular params s)
    (hid : (s.graph.states.get? id).isSome) {w : Weighter K} (hw : w.params = params w.key) (trueLoop : Bool) :
    ∃ looped edges, (ProofGraph.weightedOutlinks id w trueLoop s).1 = w.linksOf id looped edges ∧
      Regular params (ProofGraph.weightedOutlinks id w trueLoop s).2 ∧
      ∀ e ∈ edges, ((ProofGraph.weightedOutlinks id w trueLoop s).2.graph.states.get? e.1).isSome := by
  cases h with
  | state h =>
    obtain ⟨looped, edges, hlinks, h', hchildren⟩ := h.weightedOutlinks hid w trueLoop
    exact ⟨looped, edges, hlinks, .state h', hchildren⟩
  | cachingId h =>
    obtain ⟨looped, edges, hlinks, h', hchildren⟩ := h.weightedOutlinks hid hw trueLoop
    exact ⟨looped, edges, hlinks, .cachingId h', hchildren⟩

omit [Scalar K] in
theorem isSome_single (f : Frozen) : ((StateTable.single f).get? 0).isSome := by
  have hnone : (Interned.empty : StateTable).find? f.form = none := Interned.find?_eq_none_iff.2 nofun
  have hitems := (Interned.intern_of_none hnone).1
  unfold StateTable.single Interned.get?
  rw [hitems]
  rfl

theorem build {kind : GraphKind} {m : Machine K} {features features' : Symbols} {g : ProofGraph K}
    (h : ProofGraph.build kind m features = .ok (g, features')) (counts : SortedMap Nat FeatureCounts) :
    Regular params ⟨g, features', counts⟩ := by
  cases kind with
  | state =>
    rcases hstart : m.startState with e | start
    · simp [ProofGraph.build, StateGraph.build, hstart, bind, Except.bind] at h
    · simp only [ProofGraph.build, StateGraph.build, hstart, bind, Except.bind, pure, Except.pure,
        Except.ok.injEq, Prod.mk.injEq] at h
      obtain ⟨rfl, rfl⟩ := h
      exact .state (s := ⟨_, features, counts⟩)
        ⟨isSome_single start, fun id hid => by simp at hid, fun id edges hid => by simp at hid⟩
  | cachingId =>
    rcases hstart : m.startState with e | start
    · simp [ProofGraph.build, IdGraph.build, hstart, bind, Except.bind] at h
    · have hrestart := Interned.find?_intern features restartFeature
      have htrueLoop := Interned.find?_intern (features.intern restartFeature).1 trueLoopFeature
      have hkept := Interned.keeps_intern (features.intern restartFeature).1 trueLoopFeature
      simp only [ProofGraph.build, IdGraph.build, hstart, bind, Except.bind, pure, Except.pure,
        Except.ok.injEq, Prod.mk.injEq] at h
      obtain ⟨rfl, rfl⟩ := h
      refine .cachingId (s := ⟨_, _, counts⟩)
        ⟨isSome_single start,
          fun id hid => by simp at hid, fun id row hid => by simp at hid, ?_, ?_, fun f hf => by cases hf⟩
      · exact Symbols.get?_of_find? (hkept _ _ hrestart)
      · exact Symbols.get?_of_find? htrueLoop

end Regular

end ProofGraph

/-! ## Requests

`Request` has one constructor for each thing that a graph can be asked, so that a history of requests is a list. -/

inductive Request (K : Type)
  | outlinks (id : Nat)
  | degree (id : Nat) (trueLoop : Bool)
  | weightedOutlinks (id : Nat) (w : Weighter K) (trueLoop : Bool)

def Request.id : Request K → Nat
  | .outlinks id => id
  | .degree id _ => id
  | .weightedOutlinks id _ _ => id

inductive Reply (K : Type)
  | edges (edges : List (Edge K))
  | count (n : Nat)
  | links (links : List (Link K))

def Request.Fits (params : Nat → Params K) : Request K → Prop
  | .weightedOutlinks _ w _ => w.params = params w.key
  | _ => True

variable [Scalar K] [Exponential K]

def Request.run : Request K → ProofGraph.Op K (Reply K)
  | .outlinks id => ProofGraph.outlinks id >>= fun edges => pure (.edges edges)
  | .degree id trueLoop => ProofGraph.degree id trueLoop >>= fun n => pure (.count n)
  | .weightedOutlinks id w trueLoop => ProofGraph.weightedOutlinks id w trueLoop >>=
      fun links => pure (.links links)

theorem Request.run_outlinks (id : Nat) (s : Store (ProofGraph K) K) : (Request.outlinks id).run s =
    ((ProofGraph.outlinks id s).1.map .edges, (ProofGraph.outlinks id s).2) := bind_pure_eq _ _ s

theorem Request.run_degree (id : Nat) (trueLoop : Bool) (s : Store (ProofGraph K) K) :
    (Request.degree id trueLoop).run s =
    ((ProofGraph.degree id trueLoop s).1.map .count, (ProofGraph.degree id trueLoop s).2) := bind_pure_eq _ _ s

theorem Request.run_weightedOutlinks (id : Nat) (w : Weighter K) (trueLoop : Bool) (s : Store (ProofGraph K) K) :
    (Request.weightedOutlinks id w trueLoop).run s =
      ((ProofGraph.weightedOutlinks id w trueLoop s).1.map .links,
        (ProofGraph.weightedOutlinks id w trueLoop s).2) :=
  bind_pure_eq _ _ s

namespace ProofGraph.Regular

variable {params : Nat → Params K} {s : Store (ProofGraph K) K}

theorem request_state {s : Store (StateGraph K) K} (h : s.graph.Regular) (r : Request K) :
    Regular params (r.run (ofState s)).2 := by
  cases r with
  | outlinks id =>
    rw [Request.run_outlinks]
    refine .state (s := (StateGraph.outlinks id s).2) ?_
    rcases h.expand id with ⟨e, hout⟩ | ⟨edges, s', hout, h'⟩
    · rw [hout]
      exact h
    · rw [hout]
      exact h'
  | degree id trueLoop =>
    rw [Request.run_degree]
    refine .state (s := (StateGraph.degree id trueLoop s).2) ?_
    rcases h.expand id with ⟨e, hout⟩ | ⟨edges, s', hout, h'⟩
    · rw [StateGraph.degree_error hout]
      exact h
    · rw [StateGraph.degree_eq hout]
      exact h'
  | weightedOutlinks id w trueLoop =>
    rw [Request.run_weightedOutlinks]
    refine .state (s := (StateGraph.weightedOutlinks id w trueLoop s).2) ?_
    rcases h.expand id with ⟨e, hout⟩ | ⟨edges, s', hout, h'⟩
    · rw [StateGraph.weightedOutlinks_error hout]
      exact h
    · rw [(StateGraph.weightedOutlinks_eq w trueLoop hout).2]
      exact h'

theorem request_cachingId {s : Store (IdGraph K) K} (h : s.graph.Regular params s.features)
    (r : Request K) (hr : r.Fits params) : Regular params (r.run (ofId s)).2 := by
  cases r with
  | outlinks id =>
    rw [Request.run_outlinks]
    refine .cachingId (s := (IdGraph.outlinks id s).2) ?_
    rcases h.expand id with ⟨e, hrow⟩ | ⟨here, s', hrow, h', -⟩
    · rw [IdGraph.outlinks_error hrow]
      exact h
    · unfold IdGraph.outlinks
      rw [bind_ok hrow]
      exact h'
  | degree id trueLoop =>
    rw [Request.run_degree]
    refine .cachingId (s := (IdGraph.degree id trueLoop s).2) ?_
    rcases h.expand id with ⟨e, hrow⟩ | ⟨here, s', hrow, h', -⟩
    · rw [IdGraph.degree_error hrow]
      exact h
    · rw [IdGraph.degree_eq hrow]
      exact h'
  | weightedOutlinks id w trueLoop =>
    rw [Request.run_weightedOutlinks]
    refine .cachingId (s := (IdGraph.weightedOutlinks id w trueLoop s).2) ?_
    rcases h.expand id with ⟨e, hrow⟩ | ⟨here, s', hrow, h', hhere⟩
    · rw [IdGraph.weightedOutlinks_error hrow]
      exact h
    · obtain ⟨-, hweighed⟩ :=
        IdGraph.weightedOutlinks_eq hr trueLoop hrow (fun e he => (h'.closed id here hhere e he).2)
        h'.restart h'.trueLoop h'.honest
      exact h'.weighed hweighed

/-- **Requests keep a graph regular**, whatever they are. -/
theorem request (h : Regular params s) (r : Request K) (hr : r.Fits params) : Regular params (r.run s).2 := by
  cases h with
  | state h => exact request_state h r
  | cachingId h => exact request_cachingId h r hr

omit [Exponential K] in
theorem freeze (h : Regular params s) {w : Weighter K} (hw : w.params = params w.key) :
    Regular params (ProofGraph.freeze w s).2 := by
  cases h with
  | state h => exact .state h
  | cachingId h =>
    obtain ⟨-, hweighed⟩ := IdGraph.meets_freeze hw _ ⟨rfl, rfl, h.honest⟩
    exact .cachingId (h.weighed hweighed)

end ProofGraph.Regular

end ProofWalk
