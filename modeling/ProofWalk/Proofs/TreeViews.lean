import Mathlib.Data.Rat.Floor
import ProofWalk.Graph.Dump
import ProofWalk.Proofs.ExactNumbers
import ProofWalk.Proofs.Explorations
import ProofWalk.Proofs.SeparatedTexts
import ProofWalk.Proofs.TreeWalks
/-!
# Proofs.TreeViews — the tree of a graph

A tree is made while the graph grows: each state on it is asked for its edges when its line has been written.  What
has been told stays so (`Later`), so the lines can be read in the graph that is there at the end, and the walks by
the edges that it tells (`derivedEdges`).  The lines are those of the walks that the tree shows, in order
(`tree_lists_walks`).
-/
namespace ProofWalk

variable {K : Type}

/-! ## Rows as edges

A graph with numbered features writes an edge with the names of its features. -/

namespace IdGraph

theorem vectorFor_of_named {table : Symbols} {v : SparseVector K} (h : Named table v) :
    VectorFor table (.ofList (featureNames table v) compare) v := by
  have hname : ∀ e ∈ v.toList, table.find? (table.name e.1) = some e.1 := fun e he => by
    have hvalue := Std.ExtTreeMap.mem_toList_iff_getElem?_eq_some.1 he
    obtain ⟨name, hget⟩ := Option.isSome_iff_exists.1 (h e.1 e.2 hvalue)
    have hfind : table.find? name = some e.1 := Interned.find?_eq_some_iff.2 ⟨name, hget, rfl⟩
    rwa [Symbols.name_of_find? hfind]
  have hnodup : ((featureNames table v).map (·.1)).Nodup := by
    rw [featureNames, List.map_map]
    refine List.Nodup.map_on (fun e he e' he' heq => ?_) v.nodup_toList
    have hsame : some e.1 = some e'.1 := by
      rw [← hname e he, ← hname e' he']
      exact congrArg table.find? heq
    have hvalue := Std.ExtTreeMap.mem_toList_iff_getElem?_eq_some.1 he
    rw [Option.some.inj hsame, Std.ExtTreeMap.mem_toList_iff_getElem?_eq_some.1 he'] at hvalue
    exact Prod.ext (Option.some.inj hsame) (Option.some.inj hvalue).symm
  constructor
  · intro name x hx
    obtain ⟨e, he, heq⟩ := List.mem_map.1 ((SortedMap.getElem?_ofList hnodup name x).1 hx)
    obtain ⟨rfl, rfl⟩ := Prod.mk.inj heq
    exact ⟨e.1, hname e he, Std.ExtTreeMap.mem_toList_iff_getElem?_eq_some.1 he⟩
  · intro i x hx
    have he := Std.ExtTreeMap.mem_toList_iff_getElem?_eq_some.2 hx
    exact ⟨table.name i, hname (i, x) he, (SortedMap.getElem?_ofList hnodup _ x).2
      (List.mem_map.2 ⟨(i, x), he, rfl⟩)⟩

def edgesOf (table : Symbols) (row : SparseRow K) : List (Edge K) :=
  row.map fun e => ⟨e.child, .ofList (featureNames table e.features) compare⟩

theorem rowFor_edgesOf {table : Symbols} {row : SparseRow K} (h : ∀ e ∈ row, Named table e.features) :
    RowFor table (edgesOf table row) row :=
  List.forall₂_map_left_iff.2 (List.forall₂_same.2 fun e he => ⟨rfl, vectorFor_of_named (h e he)⟩)

end IdGraph

/-! ## What a regular graph tells

A request may expand states and thereby number new ones; it changes neither the states that have numbers nor their
edges. -/

variable [Scalar K]

/-- **A graph later on**: of the same machine, with all its states and all edges on record. -/
structure Later (s t : Store (ProofGraph K) K) : Prop where
  machine : t.graph.machine = s.graph.machine
  states : Extends s.graph.states.get? t.graph.states.get?
  recorded : ∀ id edges, Recorded s id edges → Recorded t id edges

namespace Later

variable {s t t' : Store (ProofGraph K) K}

omit [Scalar K] in
theorem refl (s : Store (ProofGraph K) K) : Later s s := ⟨rfl, .refl _, fun _ _ h => h⟩

omit [Scalar K] in
theorem trans (h : Later s t) (h' : Later t t') : Later s t' :=
  ⟨h'.machine.trans h.machine, h.states.trans h'.states,
    fun id edges hid => h'.recorded id edges (h.recorded id edges hid)⟩

end Later

theorem Moves.later {s t : Store (ProofGraph K) K} (h : Moves s t) : Later s t where
  machine := by
    cases h with
    | still h => exact h.machine
    | expands _ _ h => exact h.machine
  states := h.extends
  recorded _ _ := h.recorded

namespace ProofGraph

/-- **The edges that a graph tells of a state** when it is asked; none if it refuses. -/
def derivedEdges (s : Store (ProofGraph K) K) (id : Nat) : List (Edge K) := (outlinks id s).1.toOption.getD []

theorem derivedEdges_of_recorded {s : Store (ProofGraph K) K} {id : Nat} {edges : List (Edge K)}
    (h : Recorded s id edges) : derivedEdges s id = edges := by
  rw [derivedEdges, (outlinks_of_recorded h).2]
  rfl

theorem outlinks_moves (id : Nat) (s : Store (ProofGraph K) K) : Moves s (outlinks id s).2 := by
  obtain ⟨g | g, features, counts⟩ := s
  · exact StateGraph.outlinks_moves id ⟨g, features, counts⟩
  · exact IdGraph.outlinks_moves id ⟨g, features, counts⟩

variable {params : Nat → Params K} {s : Store (ProofGraph K) K} {id : Nat}

theorem Regular.recorded (h : Regular params s) (hid : s.graph.isExpanded id) :
    ∃ edges, Recorded s id edges ∧ ∀ e ∈ edges, (s.graph.states.get? e.child).isSome := by
  cases h with
  | @state s h =>
    obtain ⟨edges, hedges⟩ := Option.isSome_iff_exists.1 hid
    exact ⟨edges, hedges, h.closed id edges hedges⟩
  | @cachingId s h =>
    obtain ⟨row, hrow⟩ := Option.isSome_iff_exists.1 hid
    refine ⟨IdGraph.edgesOf s.features row,
      ⟨row, hrow, IdGraph.rowFor_edgesOf fun e he => (h.closed id row hrow e he).2⟩, ?_⟩
    exact List.forall_mem_map.2 fun e he => (h.closed id row hrow e he).1

theorem Regular.outlinks (h : Regular params s) (hid : (s.graph.states.get? id).isSome) :
    ∃ edges s', ProofGraph.outlinks id s = (.ok edges, s') ∧ Regular params s' ∧
      Later s s' ∧ Recorded s' id edges ∧ ∀ e ∈ edges, (s'.graph.states.get? e.child).isSome := by
  have hlater := (outlinks_moves id s).later
  cases h with
  | @state s h =>
    obtain ⟨edges, s', hrun, h', hchildren⟩ := h.outlinks hid
    have hout : ProofGraph.outlinks id (ofState s) = (.ok edges, ofState s') := by
      show ((StateGraph.outlinks id s).1, ofState (StateGraph.outlinks id s).2) = _
      rw [hrun]
    have hedges := StateGraph.edges_of_outlinks (congrArg Prod.fst hrun)
    rw [hrun] at hedges
    rw [hout] at hlater
    exact ⟨edges, ofState s', hout, .state h', hlater, recorded_ofState.2 hedges, hchildren⟩
  | @cachingId s h =>
    obtain ⟨row, s', hrow, h', hhere⟩ := h.row hid
    have hfor := IdGraph.rowFor_edgesOf fun e he => (h'.closed id row hhere e he).2
    have hout : ProofGraph.outlinks id (ofId s) = (.ok (IdGraph.edgesOf s'.features row), ofId s') := by
      show ((IdGraph.outlinks id s).1, ofId (IdGraph.outlinks id s).2) = _
      rw [IdGraph.outlinks_eq hrow hfor]
    rw [hout] at hlater
    exact ⟨_, ofId s', hout, .cachingId h', hlater, ⟨row, hhere, hfor⟩,
      List.forall_mem_map.2 fun e he => (h'.closed id row hhere e he).1⟩

/-- **What a regular graph has told it tells later on.** -/
theorem Regular.stands {t : Store (ProofGraph K) K} (h : Regular params s) (ht : Later s t) : Stands s t where
  states := ht.states
  edges id edges hid hedges := by
    obtain ⟨edges', hrecorded, -⟩ := h.recorded hid
    rw [(outlinks_of_recorded hrecorded).2] at hedges
    cases hedges
    obtain ⟨hid', hrun⟩ := outlinks_of_recorded (ht.recorded id edges hrecorded)
    exact ⟨hid', by rw [hrun]⟩

/-! ## Lines

A line is the same in every later graph, since the text of a state is, and so it is told by its walk alone. -/

variable [Written K]

def lastFeatures (walk : Route K) : String :=
  match walk.getLast? with
  | some e => "  " ++ describeFeatures e.2.features.toList
  | none => ""

/-- **The line of a walk**: it is indented by the length of the walk, and has the state at its end, the features of
its last edge, and a mark if the walk passed that state before. -/
def walkLine (g : ProofGraph K) (root : Nat) (walk : Route K) : String :=
  let id := walk.endpoint root
  let description := (g.state? id).elim "" fun s => s.describe g.machine.symbols
  String.join (List.replicate walk.length "  ") ++ s!"{id}: " ++ description ++ lastFeatures walk ++
    if id ∈ walk.passed root then "  (cycle)" else ""

def walkLines (g : ProofGraph K) (root : Nat) (walks : List (Route K)) : String :=
  String.join (walks.map fun walk => walkLine g root walk ++ "\n")

omit [Scalar K] in
theorem lastFeatures_snoc (walk : Route K) (e : Nat × Edge K) :
    lastFeatures (walk ++ [e]) = "  " ++ describeFeatures e.2.features.toList := by
    rw [lastFeatures, List.getLast?_concat]

omit [Scalar K] in
theorem treeLine_eq {t : Store (ProofGraph K) K} (ht : Later s t) {root : Nat} {walk : Route K}
    (hend : (s.graph.states.get? (walk.endpoint root)).isSome) :
    treeLine s.graph (walk.endpoint root) walk.length (lastFeatures walk) (walk.endpoint root ∈ walk.passed root) =
      walkLine t.graph root walk ++ "\n" := by
  obtain ⟨f, hf⟩ := Option.isSome_iff_exists.1 hend
  unfold treeLine walkLine
  simp only [decide_eq_true_eq, state?, hf, ht.states _ f hf, ht.machine, Option.map_some, Option.elim_some]

omit [Scalar K] in
theorem walkLines_cons (g : ProofGraph K) (root : Nat) (walk : Route K) (walks : List (Route K)) :
    walkLines g root (walk :: walks) = walkLine g root walk ++ "\n" ++ walkLines g root walks := by
  rw [walkLines, List.map_cons, String.join_cons, walkLines]

omit [Scalar K] in
theorem walkLines_singleton (g : ProofGraph K) (root : Nat) (walk : Route K) :
    walkLines g root [walk] = walkLine g root walk ++ "\n" := by
  rw [walkLines_cons]
  exact String.append_empty

omit [Scalar K] in
theorem walkLines_append (g : ProofGraph K) (root : Nat) (walks walks' : List (Route K)) :
    walkLines g root (walks ++ walks') = walkLines g root walks ++ walkLines g root walks' := by
  rw [walkLines, List.map_append, String.join_append, walkLines, walkLines]

omit [Scalar K] in
theorem walkLines_eq_join (g : ProofGraph K) (root : Nat) (walks : List (Route K)) :
    walkLines g root walks = Text.join "\n" (walks.map (walkLine g root) ++ [""]) := by
  induction walks with
  | nil => rfl
  | cons walk rest ih =>
    rw [walkLines_cons, ih, List.map_cons, List.cons_append, Text.join_cons_of_ne_nil _ _ (by simp)]

omit [Scalar K] in
/-- **The lines can be told from their text**, if no line is broken. -/
theorem splitOn_walkLines {g : ProofGraph K} {root : Nat} {walks : List (Route K)}
    (h : ∀ walk ∈ walks, Lacks '\n' (walkLine g root walk)) :
    (walkLines g root walks).toList.splitOn '\n' =
      walks.map (fun walk => (walkLine g root walk).toList) ++ [[]] := by
  have hbreak : "\n".toList = ['\n'] := rfl
  have hlines : ∀ l ∈ (walks.map (walkLine g root) ++ [""]).map String.toList, '\n' ∉ l := by
    refine List.forall_mem_map.2 (List.forall_mem_append.2 ⟨List.forall_mem_map.2 h, ?_⟩)
    exact List.forall_mem_singleton.2 List.not_mem_nil
  rw [walkLines_eq_join, Text.toList_join, hbreak, List.splitOn_intercalate _ hlines (by simp)]
  simp [Function.comp_def]

/-! ## Making a tree

The induction is on the depth that is left, and inside it on the edges of a state, which are followed one after
another in a graph that grows on the way. -/

/-- **What comes of a part of a tree**: the graph goes on, and the text has the lines of some walks from the root,
by the edges that the graph tells from then on. -/
structure Made (params : Nat → Params K) (root : Nat) (walks : (Nat → List (Edge K)) → List (Route K))
    (s s' : Store (ProofGraph K) K) (text : String) : Prop where
  regular : Regular params s'
  later : Later s s'
  lines : ∀ t, Later s' t → text = walkLines t.graph root (walks (derivedEdges t))

/-- The parts behind the edges of a state are made one after another. -/
theorem mapM_made {root : Nat} {f : Edge K → Op K String}
    {walks : (Nat → List (Edge K)) → Edge K → Nat → List (Route K)}
      (hf : ∀ e k (s : Store (ProofGraph K) K), Regular params s → (s.graph.states.get? e.child).isSome →
      ∃ text s', f e s = (.ok text, s') ∧ Made params root (fun edges => walks edges e k) s s' text)
    (es : List (Edge K)) (k : Nat) (h : Regular params s) (hes : ∀ e ∈ es, (s.graph.states.get? e.child).isSome) :
    ∃ texts s', es.mapM f s = (.ok texts, s') ∧
      Made params root (fun edges => (es.zipIdx k).flatMap fun e => walks edges e.1 e.2) s s'
        (String.join texts) := by
  induction es generalizing k s with
  | nil => exact ⟨[], s, rfl, h, .refl s, fun t _ => rfl⟩
  | cons e rest ih =>
    obtain ⟨hfirst, hrest⟩ := List.forall_mem_cons.1 hes
    obtain ⟨text, s₁, hrun, hmade⟩ := hf e k s h hfirst
    obtain ⟨texts, s', hruns, hmades⟩ := ih (k + 1) hmade.regular fun e' he' =>
      hmade.later.states.isSome (hrest e' he')
    refine ⟨text :: texts, s', ?_, hmades.regular, hmade.later.trans hmades.later, fun t ht => ?_⟩
    · rw [List.mapM_cons, bind_ok hrun, bind_ok hruns]
      rfl
    · rw [String.join_cons, hmade.lines t (hmades.later.trans ht), hmades.lines t ht,
        List.zipIdx_cons, List.flatMap_cons, walkLines_append]

open Route in
/-- **The part of a tree below a walk** has the lines of that walk and of those that go on from it. -/
theorem treeBelow_made {root : Nat} (depth : Nat) (before : Route K) (h : Regular params s)
    (hend : (s.graph.states.get? (before.endpoint root)).isSome) :
    ∃ text s', treeBelow (before.passed root) before.length depth (before.endpoint root) (lastFeatures before) s =
      (.ok text, s') ∧ Made params root
        (fun edges => (walksBelow edges (before.passed root) depth (before.endpoint root)).map (before ++ ·))
        s s' text := by
  -- the walk from the root stands for all that is handed down: the path, the level, the features of the last edge
  induction depth generalizing before s with
  | zero =>
    refine ⟨_, s, rfl, h, .refl s, fun t ht => ?_⟩
    rw [treeLine_eq ht hend, walksBelow, List.map_singleton, List.append_nil, walkLines_singleton]
  | succ depth ih =>
    unfold treeBelow
    rw [bind_ok (GraphM.graph_eq s)]
    by_cases hcycle : before.endpoint root ∈ before.passed root
    · refine ⟨_, s, by rw [if_pos hcycle]; rfl, h, .refl s, fun t ht => ?_⟩
      rw [treeLine_eq ht hend, walksBelow, if_pos hcycle, List.map_singleton, List.append_nil, walkLines_singleton]
    · obtain ⟨edges, s₁, hrun, h₁, hlater₁, hrecorded, hchildren⟩ := h.outlinks hend
      have hbehind (e : Edge K) (k : Nat) (s : Store (ProofGraph K) K) (h : Regular params s)
          (he : (s.graph.states.get? e.child).isSome) := ih (before ++ [(k, e)]) h (by rwa [endpoint_snoc])
      simp only [endpoint_snoc, passed_snoc, lastFeatures_snoc, List.length_append,
        List.length_singleton, List.append_assoc, List.singleton_append] at hbehind
      obtain ⟨texts, s', hruns, hmade⟩ := mapM_made hbehind edges 0 h₁ hchildren
      refine ⟨_,
        s', by rw [if_neg hcycle, bind_ok hrun, bind_ok hruns]; rfl, hmade.regular, hlater₁.trans hmade.later,
        fun t ht => ?_⟩
      -- the parts behind the edges are made in graphs that have these edges on record
      have hedges : derivedEdges t (before.endpoint root) = edges :=
        derivedEdges_of_recorded (ht.recorded _ _ (hmade.later.recorded _ _ hrecorded))
      rw [treeLine_eq ((hlater₁.trans hmade.later).trans ht) hend, hmade.lines t ht,
        walksBelow, if_neg hcycle, hedges, List.map_cons, List.append_nil, walkLines_cons, List.map_flatMap]
      simp only [List.map_map, Function.comp_def]

/-- **A tree lists the walks from its root.**  Let a graph be regular, as that of a query is from when it is built
through all that it is asked.  Then a tree can be made to every depth and from every state.  What the graph has told
stands, and by the edges that it tells in the end, the lines are those of the walks which are not followed beyond a
state that they have passed before: each walk has one line, and they stand in the order of the edges, a walk before
those that go on from it. -/
theorem tree_lists_walks (h : Regular params s) {root : Nat} (hroot : (s.graph.state? root).isSome) (depth : Nat) :
    ∃ text s' walks, tree depth root s = (.ok text, s') ∧ Regular params s' ∧ Stands s s' ∧
      text = walkLines s'.graph root walks ∧ (∀ walk, walk ∈ walks ↔ walk.Shown (derivedEdges s') depth root) ∧
      walks.Pairwise (fun walk later => walk.places < later.places) ∧
      ((∀ walk ∈ walks, Lacks '\n' (walkLine s'.graph root walk)) →
        text.toList.splitOn '\n' = walks.map (fun walk => (walkLine s'.graph root walk).toList) ++ [[]]) := by
  have hstate : (s.graph.states.get? root).isSome := by rwa [state?, Option.isSome_map] at hroot
  obtain ⟨text, s', hrun, hmade⟩ := treeBelow_made depth [] h hstate
  have htext := hmade.lines s' (.refl s')
  simp only [List.nil_append, List.map_id'] at htext
  refine ⟨text, s', _, ?_, hmade.regular, h.stands hmade.later, htext, fun walk => Route.mem_walksBelow_iff,
    Route.walksBelow_ascending _ _ _ _, fun hlacks => ?_⟩
  · unfold tree
    obtain ⟨f, hf⟩ := Option.isSome_iff_exists.1 hroot
    rw [bind_ok (GraphM.graph_eq s), hf]
    exact hrun
  · rw [htext, splitOn_walkLines hlacks]

/-! ## Ways that meet, and a circle

A graph in which two walks end in one state, and others come back to where they began. -/

@[reducible] def wholeNumbers : Written ℚ := ⟨fun x => toString x.num, fun _ x => toString x.num⟩

attribute [local instance] wholeNumbers

/-- A graph of four states: two ways from state 0 to state 2, a way back, and a state that has not been expanded. -/
def crossing : Store (StateGraph ℚ) ℚ where
  graph :=
    { machine := ⟨default, [], ⟨100, 10⟩, ∅⟩
      states := .ofList ((List.range 4).map fun pc => .of (.start pc))
      edges := ((Slots.empty.insert 0 [⟨1, impliedFeatures "left"⟩, ⟨2, impliedFeatures "right"⟩]).insert 1
        [⟨2, ∅⟩, ⟨3, ∅⟩]).insert 2 [⟨0, ∅⟩] }
  features := ∅
  counts := ∅

theorem regular_crossing : crossing.graph.Regular := by
  have hstates : ∀ id < 4, (crossing.graph.states.get? id).isSome := by decide +kernel
  have hedges {id : Nat} {edges : List (Edge ℚ)} (h : crossing.graph.edges.get? id = some edges) :
      id < 4 ∧ ∀ e ∈ edges, e.child < 4 := by
    simp only [crossing, Slots.get?_insert, Slots.get?_empty] at h
    split_ifs at h with hid hid hid <;> cases h <;> subst hid <;> simp
  exact ⟨hstates 0 (by decide), fun id hid => by
    obtain ⟨edges, h⟩ := Option.isSome_iff_exists.1 hid
    exact hstates id (hedges h).1, fun id edges h e he => hstates _ ((hedges h).2 e he)⟩

/-- The tree of that graph; state 3 is expanded while it is made. -/
def crossingTree : String :=
  "0: pc 0\n  1: pc 1  \x7bleft=1\x7d\n    2: pc 2  \x7b\x7d\n      0: pc 0  \x7b\x7d  (cycle)\n    3: pc 3  \x7b\x7d\n" ++
    "  2: pc 2  \x7bright=1\x7d\n    0: pc 0  \x7b\x7d  (cycle)\n"

/-- State 2 is shown on both ways to it, and state 0 is marked where a way comes back to it. -/
theorem tree_lists_walks_crossing : Regular (fun _ => .unit) (ofState crossing) ∧
    ((ofState crossing).graph.state? 0).isSome ∧
    ∃ s' walks, tree 3 0 (ofState crossing) = (.ok crossingTree, s') ∧ crossingTree = walkLines s'.graph 0 walks ∧
      (∀ walk, walk ∈ walks ↔ walk.Shown (derivedEdges s') 3 0) ∧
      walks.Pairwise fun walk later => walk.places < later.places := by
  have hregular : Regular (fun _ => .unit) (ofState crossing) := .state regular_crossing
  have hroot : ((ofState crossing).graph.state? 0).isSome := by decide +kernel
  have htree : (tree 3 0 (ofState crossing)).1.toOption = some crossingTree := by decide +kernel
  obtain ⟨text, s', walks, hrun, -, -, hlines, hwalks, hascending, -⟩ := tree_lists_walks hregular hroot 3
  rw [hrun] at htree
  obtain rfl : text = crossingTree := Option.some.inj htree
  exact ⟨hregular, hroot, s', walks, hrun, hlines, hwalks, hascending⟩

end ProofGraph

end ProofWalk
