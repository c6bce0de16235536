import ProofWalk.Proofs.GraphGrowth
import ProofWalk.Proofs.NumberedFeatures
/-!
# Proofs.Weighing — weights are the weighter's own

What a graph answers to a request for weighted edges depends on the features of the edges and on the weighter alone
(`Weighter.linksOf`).  For a graph with numbered features this needs that its snapshot is honest: each parameter in
it is the one that the weighter of the snapshot's key gives to the feature of that number.  Every request keeps it
so, since a weighter of another key or squashing function gets a snapshot of its own.
-/
namespace ProofWalk

variable {K : Type} [Scalar K]

/-! ## Weights of listed features

The list is that of a dictionary, or the row of a graph with numbers put back into names; the sum is taken in its
order. -/

namespace Weighter

variable [Exponential K]

def weighNamed (w : Weighter K) (features : List (String × K)) : Except (ProverError K) K :=
  (w.check (w.squash.apply (Scalar.sum (features.map fun e => e.2 * w.param e.1))) features).mapError .weight

def weighAll (w : Weighter K) : List (Nat × List (String × K)) → Except (ProverError K) (List (Nat × K))
  | [] => pure []
  | e :: rest => w.weighNamed e.2 >>= fun weight => w.weighAll rest >>= fun weights =>
    pure ((e.1, weight) :: weights)

def weighLoop (w : Weighter K) (id : Nat) (asked : Bool) : Except (ProverError K) (List (Link K)) :=
  if asked then w.weighNamed [(trueLoopFeature, 1)] >>= fun weight => pure [⟨id, weight, .trueLoop⟩] else pure []

/-- **The weighted edges of a state**, given where its derived edges lead and their features. -/
def linksOf (w : Weighter K) (id : Nat) (looped : Bool) (edges : List (Nat × List (String × K))) :
    Except (ProverError K) (List (Link K)) :=
  w.weighAll edges >>= fun derived => w.weighLoop id looped >>= fun loops =>
    w.weighNamed [(restartFeature, 1)] >>= fun restart =>
      pure (derived.map (fun l => ⟨l.1, l.2, .derived⟩) ++ loops ++ [⟨0, restart, .restart⟩])

theorem length_weighAll {w : Weighter K} {edges : List (Nat × List (String × K))} {weights : List (Nat × K)}
    (h : w.weighAll edges = .ok weights) :
    weights.length = edges.length := by
  induction edges generalizing weights with
  | nil =>
    cases h
    rfl
  | cons e rest ih =>
    obtain ⟨weight, -, h⟩ := except_bind_eq_ok h
    obtain ⟨others, hrest, h⟩ := except_bind_eq_ok h
    cases h
    rw [List.length_cons, List.length_cons, ih hrest]

theorem length_linksOf {w : Weighter K} {id : Nat} {looped : Bool}
    {edges : List (Nat × List (String × K))} {links : List (Link K)} (h : w.linksOf id looped edges = .ok links) :
    links.length = edges.length + 1 + if looped then 1 else 0 := by
  obtain ⟨derived, hderived, h⟩ := except_bind_eq_ok h
  obtain ⟨loops, hloops, h⟩ := except_bind_eq_ok h
  obtain ⟨restart, -, h⟩ := except_bind_eq_ok h
  have hlength : loops.length = if looped then 1 else 0 := by
    cases looped with
    | false =>
      cases hloops
      rfl
    | true =>
      obtain ⟨weight, -, hloops⟩ := except_bind_eq_ok hloops
      cases hloops
      rfl
  cases h
  simp only [List.length_append, List.length_map, List.length_singleton, hlength, length_weighAll hderived]
  omega

end Weighter

theorem SparseVector.ofPairs_singleton (i : Nat) (x : K) :
    (ofPairs [(i, x)] : SparseVector K) = (∅ : SortedMap Nat K).insert i x := by
  refine Std.ExtTreeMap.ext_getElem? fun j => Option.ext fun y => ?_
  rw [getElem?_ofPairs (by simp), Std.ExtTreeMap.getElem?_insert]
  by_cases h : i = j
  · subst h
    simp [eq_comm]
  · simp [h, Ne.symm h]

theorem meets_graph {G K α : Type} {good : Store G K → Prop} {k : G → GraphM G K α}
    {outcome : Except (ProverError K) α → Prop} (h : ∀ s, good s → Meets good (k s.graph) outcome) :
    Meets good (GraphM.graph >>= k) outcome :=
  fun s hs => h s hs s hs

omit [Scalar K] in
theorem toList_insert_empty {κ : Type} [DecidableEq κ] [Ord κ] [Std.TransOrd κ]
    [Std.LawfulEqOrd κ] (k : κ) (x : K) : ((∅ : SortedMap κ K).insert k x).toList = [(k, x)] := by
  have hnodup := SortedMap.nodup_toList ((∅ : SortedMap κ K).insert k x)
  have hmem : ∀ e, e ∈ ((∅ : SortedMap κ K).insert k x).toList ↔ e = (k, x) := by
    rintro ⟨k', y⟩
    rw [Std.ExtTreeMap.mem_toList_iff_getElem?_eq_some, Std.ExtTreeMap.getElem?_insert]
    by_cases h : k = k'
    · subst h
      simp [eq_comm]
    · have hne : compare k k' ≠ .eq := fun he => h (Std.LawfulEqCmp.eq_of_compare he)
      simp [hne, Ne.symm h]
  refine List.perm_singleton.1 ((List.perm_ext_iff_of_nodup hnodup (List.nodup_singleton _)).2 fun e => ?_)
  rw [hmem, List.mem_singleton]

/-! ## Graphs with feature dictionaries

Weighing counts what it looks up, and changes nothing else. -/

namespace StateGraph

theorem degree_eq {id : Nat} {trueLoop : Bool} {s s' : Store (StateGraph K) K} {edges : List (Edge K)}
    (h : outlinks id s = (.ok edges, s')) :
    degree id trueLoop s =
      (.ok (edges.length + 1 + if trueLoop && s'.graph.isCompleted id then 1 else 0), s') := by
  unfold degree
  rw [bind_ok h]
  rfl

theorem degree_error {id : Nat} {trueLoop : Bool} {s s' : Store (StateGraph K) K} {e : ProverError K}
    (h : outlinks id s = (.error e, s')) : degree id trueLoop s = (.error e, s') := by
  unfold degree
  rw [bind_error h]

variable [Exponential K]

theorem weightedOutlinks_error {id : Nat} {w : Weighter K} {trueLoop : Bool}
    {s s' : Store (StateGraph K) K} {e : ProverError K} (h : outlinks id s = (.error e, s')) :
    weightedOutlinks id w trueLoop s = (.error e, s') := by
  unfold weightedOutlinks
  rw [bind_error h]

def listed (edges : List (Edge K)) : List (Nat × List (String × K)) :=
  edges.map fun e => (e.child, e.features.toList)

/-- The stores with a given graph, whatever has been counted. -/
def Counting (g : StateGraph K) (s : Store (StateGraph K) K) : Prop := s.graph = g

variable {g : StateGraph K}

theorem meets_weigh (w : Weighter K) (features : Features K) :
    Meets (Counting g) (GraphM.weigh w features) (· = w.weighNamed features.toList) := by
  rintro s rfl
  have hweigh : w.weighNamed features.toList = (w.weigh features).mapError .weight := rfl
  rw [hweigh]
  unfold GraphM.weigh
  rw [bind_ok (show GraphM.count w (w.lookups features.keys) s = (.ok (), _) from rfl)]
  cases w.weigh features with
  | ok x => exact ⟨rfl, rfl⟩
  | error e => exact ⟨rfl, rfl⟩

theorem meets_weighEdges (w : Weighter K) (edges : List (Edge K)) :
    Meets (Counting g) (weighEdges w edges)
      (· = w.weighAll (listed edges) >>= fun l => pure (l.map fun l => ⟨l.1, l.2, .derived⟩)) := by
  induction edges with
  | nil => exact meets_pure rfl
  | cons e rest ih =>
    have hall : w.weighAll (listed (e :: rest)) >>=
        (fun l => pure (l.map fun l => (⟨l.1, l.2, .derived⟩ : Link K))) =
        w.weighNamed e.features.toList >>= fun weight =>
          (w.weighAll (listed rest) >>= fun l => pure (l.map fun l =>
          ⟨l.1, l.2, .derived⟩)) >>= fun links => pure (⟨e.child, weight, .derived⟩ :: links) := by
      simp [listed, Weighter.weighAll]
    rw [hall]
    exact (meets_weigh w e.features).bind_eq fun weight => ih.bind_eq fun links => meets_pure rfl

theorem meets_loops (w : Weighter K) (id : Nat) (asked : Bool) :
    Meets (Counting g) (loops w id asked) (· = w.weighLoop id asked) := by
  have himplied := meets_weigh (g := g) w (impliedFeatures trueLoopFeature)
  rw [impliedFeatures, toList_insert_empty] at himplied
  unfold loops Weighter.weighLoop
  split
  · exact himplied.bind_eq fun weight => meets_pure rfl
  · exact meets_pure rfl

/-- **The weights of a state's edges are those of their features**, and weighing leaves the graph alone. -/
theorem weightedOutlinks_eq (w : Weighter K) (trueLoop : Bool) {id : Nat}
    {s s' : Store (StateGraph K) K} {edges : List (Edge K)} (h : outlinks id s = (.ok edges, s')) :
    (weightedOutlinks id w trueLoop s).1 = w.linksOf id (trueLoop && s'.graph.isCompleted id) (listed edges) ∧
      (weightedOutlinks id w trueLoop s).2.graph = s'.graph := by
  have hrestart := meets_weigh (g := s'.graph) w (impliedFeatures restartFeature)
  rw [impliedFeatures, toList_insert_empty] at hrestart
  have hrest : Meets (Counting s'.graph) (weighEdges w edges >>= fun links => GraphM.graph >>= fun g =>
      loops w id (trueLoop && g.isCompleted id) >>= fun looped =>
        GraphM.weigh w (impliedFeatures restartFeature) >>=
        fun restart => pure (links ++ looped ++ [⟨0, restart, .restart⟩]))
      (· = (w.weighAll (listed edges) >>= fun l => pure (l.map fun l => ⟨l.1, l.2, .derived⟩)) >>= fun links =>
        w.weighLoop id (trueLoop && s'.graph.isCompleted id) >>= fun looped =>
          w.weighNamed [(restartFeature, 1)] >>=
          fun restart => pure (links ++ looped ++ [⟨0, restart, .restart⟩])) := by
    refine (meets_weighEdges w edges).bind_eq fun links => meets_graph fun t ht => ?_
    rw [show t.graph = s'.graph from ht]
    exact (meets_loops w id _).bind_eq fun looped => hrestart.bind_eq fun restart => meets_pure rfl
  unfold weightedOutlinks
  rw [bind_ok h]
  obtain ⟨hanswer, hgraph⟩ := hrest s' rfl
  refine ⟨hanswer.trans ?_, hgraph⟩
  simp [Weighter.linksOf]

end StateGraph

/-! ## Graphs with numbered features

A parameter is read from the snapshot if that goes so far, and looked up by the name of the feature if not.  Both
give the same, as the snapshot is honest (`meets_parameter`). -/

/-- **Whether a snapshot holds what weighters of its key give**, feature by feature. -/
def FrozenParams.Honest (params : Nat → Params K) (table : Symbols) (f : FrozenParams K) : Prop :=
  ∀ i x, f.values[i]? = some x →
    ∃ name, table.get? i = some name ∧ x = ((params f.key).get? name).getD f.squash.defaultParameter

theorem FrozenParams.Honest.keeps {params : Nat → Params K} {f : FrozenParams K} {table table' : Symbols}
    (h : f.Honest params table) (hkeeps : table.Keeps table') : f.Honest params table' := by
  intro i x hx
  obtain ⟨name, hname, hown⟩ := h i x hx
  obtain ⟨_, hname', rfl⟩ :=
    Interned.find?_eq_some_iff.1 (hkeeps name i (Interned.find?_eq_some_iff.2 ⟨name, hname, rfl⟩))
  exact ⟨_, hname', hown⟩

namespace IdGraph

/-- The stores with a given graph and table, whatever has been counted, whose snapshot is honest. -/
structure Weighed (params : Nat → Params K) (g : IdGraph K) (table : Symbols)
    (s : Store (IdGraph K) K) : Prop where
  graph : s.graph = { g with frozen := s.graph.frozen }
  features : s.features = table
  honest : ∀ f, s.graph.frozen = some f → f.Honest params table

variable {params : Nat → Params K} {g : IdGraph K} {table : Symbols} {w : Weighter K}

theorem degree_eq {id : Nat} {trueLoop : Bool} {s s' : Store (IdGraph K) K} {here : SparseRow K}
    (h : row id s = (.ok here, s')) :
    degree id trueLoop s = (.ok (here.length + 1 + if trueLoop && s'.graph.isCompleted id then 1 else 0), s') := by
  unfold degree
  rw [bind_ok h]
  rfl

theorem degree_error {id : Nat} {trueLoop : Bool} {s s' : Store (IdGraph K) K} {e : ProverError K}
    (h : row id s = (.error e, s')) : degree id trueLoop s = (.error e, s') := by
  unfold degree
  rw [bind_error h]

theorem outlinks_error {id : Nat} {s s' : Store (IdGraph K) K} {e : ProverError K}
    (h : row id s = (.error e, s')) : outlinks id s = (.error e, s') := by
  unfold outlinks
  rw [bind_error h]

theorem weightedOutlinks_error [Exponential K] {id : Nat} {trueLoop : Bool}
    {s s' : Store (IdGraph K) K} {e : ProverError K} (h : row id s = (.error e, s')) :
    weightedOutlinks id w trueLoop s = (.error e, s') := by
  unfold weightedOutlinks weightedRow
  rw [bind_assoc, bind_error h]

theorem outlinks_eq {id : Nat} {s s' : Store (IdGraph K) K} {edges : List (Edge K)} {here : SparseRow K}
    (h : row id s = (.ok here, s')) (hstands : RowFor s'.features edges here) :
    outlinks id s = (.ok edges, s') := by
  unfold outlinks
  rw [bind_ok h, ← edges_of_row hstands]
  rfl

theorem meets_frozenFor (w : Weighter K) : Meets (Weighed params g table) (frozenFor w) fun
    | .ok f => f.Honest params table ∧ f.isOf w
    | .error _ => False := by
  intro s hs
  have hhonest : (snapshot w s.graph).Honest params table := by
    unfold snapshot
    cases hf : s.graph.frozen.filter (·.isOf w) with
    | none => exact fun i x hx => by simp [FrozenParams.start] at hx
    | some f => exact hs.honest f (Option.filter_eq_some_iff.1 hf).1
  rw [frozenFor_eq]
  refine ⟨⟨hhonest, isOf_snapshot w s.graph⟩, by rw [hs.graph], hs.features, ?_⟩
  rintro f ⟨⟩
  exact hhonest

theorem meets_snapshot (w : Weighter K) : Meets (Weighed params g table) (discard (frozenFor w)) (· = .ok ()) := by
  have hdiscard : (discard (frozenFor w) : Op K Unit) = frozenFor w >>= fun _ => pure () := by
    rw [bind_pure_comp]
    rfl
  rw [hdiscard]
  exact (meets_frozenFor w).bind (fun _ _ => meets_pure rfl) fun _ hfails => hfails.elim

theorem meets_setFrozen {f : FrozenParams K} (hf : f.Honest params table) (x : K) :
    Meets (Weighed params g table) (GraphM.graph >>= fun g : IdGraph K =>
      GraphM.setGraph { g with frozen := some f } >>= fun _ => pure x) (· = .ok x) := by
  intro s hs
  refine ⟨rfl, ?_, hs.features, ?_⟩
  · show { s.graph with frozen := some f } = { g with frozen := some f }
    rw [hs.graph]
  · rintro _ ⟨⟩
    exact hf

theorem meets_lookUp (w : Weighter K) {i : Nat} {name : String} (hi : table.get? i = some name) :
    Meets (Weighed params g table) (lookUp w i) (· = .ok (w.param name)) := by
  intro s hs
  have hrun : lookUp w i s = (GraphM.count w (w.lookup name) >>= fun _ => pure (w.param name) : Op K K) s := by
    unfold lookUp
    rw [bind_ok (GraphM.get_eq s), hs.features, hi]
  rw [hrun]
  exact ⟨rfl, hs.graph, hs.features, hs.honest⟩

/-- **A parameter is the weighter's own**, whether it comes from the snapshot or not. -/
theorem meets_parameter (hw : w.params = params w.key) {i : Nat} {name : String} (hi : table.get? i = some name) :
    Meets (Weighed params g table) (parameter w i) (· = .ok (w.param name)) := by
  unfold parameter
  refine (meets_frozenFor w).bind (fun f hf => ?_) fun _ hfails => hfails.elim
  obtain ⟨hhonest, hof⟩ := hf
  obtain ⟨hkey, hsquash⟩ : f.key = w.key ∧ f.squash = w.squash := by simpa [FrozenParams.isOf] using hof
  have hown : ((params f.key).get? name).getD f.squash.defaultParameter = w.param name := by
    rw [hkey, hsquash, ← hw]
    rfl
  cases hx : f.values[i]? with
  | some x =>
    -- the snapshot is for this key, so what it holds is this weighter's
    obtain ⟨name', hname', rfl⟩ := hhonest i x hx
    rw [hi] at hname'
    cases hname'
    exact meets_pure (congrArg Except.ok hown)
  | none =>
    refine (meets_lookUp w hi).bind_ok ?_
    refine meets_setFrozen (fun j y hj => ?_) _
    simp only [Std.ExtTreeMap.getElem?_insert] at hj
    split at hj
    · rename_i hij
      cases hj
      exact ⟨name, Nat.compare_eq_eq.1 hij ▸ hi, hown.symm⟩
    · exact hhonest j y hj

/-- **A new snapshot is honest.** -/
theorem meets_freeze (hw : w.params = params w.key) : Meets (Weighed params g table) (freeze w) (· = .ok ()) := by
  have hparameters : ∀ l : List Nat, (∀ i ∈ l, (table.get? i).isSome) →
      Meets (Weighed params g table) (l.forM fun i => discard (parameter w i)) (· = .ok ()) := by
    intro l hl
    induction l with
    | nil => exact meets_pure rfl
    | cons i rest ih =>
      obtain ⟨hfirst, hrest⟩ := List.forall_mem_cons.1 hl
      obtain ⟨name, hname⟩ := Option.isSome_iff_exists.1 hfirst
      have hdiscard : (discard (parameter w i) : Op K Unit) = parameter w i >>= fun _ => pure () := by
        rw [bind_pure_comp]
        rfl
      have hnext : Meets (Weighed params g table) (discard (parameter w i)) (· = .ok ()) := by
        rw [hdiscard]
        exact (meets_parameter hw hname).bind_eq fun x => meets_pure rfl
      exact hnext.bind_eq fun _ => ih hrest
  intro s hs
  have hall : ∀ i ∈ List.range s.features.size, (table.get? i).isSome := by
    intro i hi
    rw [hs.features] at hi
    unfold Interned.get?
    rw [Array.getElem?_eq_getElem (List.mem_range.1 hi)]
    rfl
  refine hparameters _ hall { s with graph := { s.graph with frozen := some (.start w) } } ⟨?_, hs.features, ?_⟩
  · show { s.graph with frozen := some (.start w) } = { g with frozen := some (.start w) }
    rw [hs.graph]
  · rintro _ ⟨⟩
    exact fun i x hx => by simp [FrozenParams.start] at hx

theorem meets_products (hw : w.params = params w.key) {entries : List (Nat × K)}
    (hentries : ∀ e ∈ entries, (table.get? e.1).isSome) :
    Meets (Weighed params g table) (products w entries)
      (· = .ok (entries.map fun e => e.2 * w.param (table.name e.1))) := by
  induction entries with
  | nil => exact meets_pure rfl
  | cons e rest ih =>
    obtain ⟨hfirst, hrest⟩ := List.forall_mem_cons.1 hentries
    obtain ⟨name, hname⟩ := Option.isSome_iff_exists.1 hfirst
    have hparam := meets_parameter (g := g) hw hname
    have hown : table.name e.1 = name := by simp [Symbols.name, hname]
    rw [List.map_cons, hown]
    exact hparam.bind_eq fun x => (ih hrest).bind_eq fun xs => meets_pure rfl

variable [Exponential K]

theorem meets_weighVector (hw : w.params = params w.key) {v : SparseVector K} (hv : Named table v) :
    Meets (Weighed params g table) (weighVector w v) (· = w.weighNamed (featureNames table v)) := by
  have hentries : ∀ e ∈ v.toList, (table.get? e.1).isSome := fun e he =>
    hv e.1 e.2 (Std.ExtTreeMap.mem_toList_iff_getElem?_eq_some.1 he)
  have hterms : (v.toList.map fun e => e.2 * w.param (table.name e.1)) =
      (featureNames table v).map fun e => e.2 * w.param e.1 := by
    simp [featureNames]
  have hproducts := meets_products (g := g) hw hentries
  rw [hterms] at hproducts
  unfold weighVector
  refine hproducts.bind_ok ?_
  intro s hs
  have hnamed : w.weighNamed (featureNames table v) =
      (w.check (w.squash.apply (Scalar.sum ((featureNames table v).map fun e => e.2 * w.param e.1)))
        (featureNames s.features v)).mapError .weight := by
    rw [hs.features]
    rfl
  rw [hnamed, bind_ok (GraphM.get_eq s)]
  cases w.check _ (featureNames s.features v) with
  | ok x => exact ⟨rfl, hs⟩
  | error e => exact ⟨rfl, hs⟩

def listed (table : Symbols) (row : SparseRow K) : List (Nat × List (String × K)) :=
  row.map fun e => (e.child, featureNames table e.features)

theorem meets_weighEdges (hw : w.params = params w.key) {row : SparseRow K}
    (hrow : ∀ e ∈ row, Named table e.features) :
    Meets (Weighed params g table) (weighEdges w row) (· = w.weighAll (listed table row)) := by
  induction row with
  | nil => exact meets_pure rfl
  | cons e rest ih =>
    obtain ⟨hfirst, hrest⟩ := List.forall_mem_cons.1 hrow
    exact (meets_weighVector hw hfirst).bind_eq fun weight => (ih hrest).bind_eq fun weights => meets_pure rfl

theorem meets_impliedWeight (hw : w.params = params w.key) {i : Nat} {name : String}
    (hi : table.get? i = some name) :
    Meets (Weighed params g table) (impliedWeight i w) (· = w.weighNamed [(name, 1)]) := by
  have hlist : (SparseVector.ofPairs [(i, (1 : K))]).toList = [(i, 1)] := by
    rw [SparseVector.ofPairs_singleton, toList_insert_empty]
  have hnames : featureNames table (SparseVector.ofPairs [(i, (1 : K))]) = [(name, 1)] := by
    simp [featureNames, hlist, Symbols.name, hi]
  have hnamed : Named table (SparseVector.ofPairs [(i, (1 : K))]) := by
    intro j x hj
    rw [SparseVector.ofPairs_singleton, Std.ExtTreeMap.getElem?_insert] at hj
    split at hj
    · rename_i hij
      rw [← Nat.compare_eq_eq.1 hij, hi]
      rfl
    · simp at hj
  rw [← hnames]
  exact meets_weighVector hw hnamed

theorem meets_loops (hw : w.params = params w.key) (htrueLoop : table.get? g.trueLoop = some trueLoopFeature)
    (id : Nat) (asked : Bool) : Meets (Weighed params g table) (loops w id asked) (· = w.weighLoop id asked) := by
  unfold loops Weighter.weighLoop
  split
  · refine meets_graph fun s hs => ?_
    have htrue : s.graph.trueLoop = g.trueLoop := by rw [hs.graph]
    rw [htrue]
    exact (meets_impliedWeight hw htrueLoop).bind_eq fun weight => meets_pure rfl
  · exact meets_pure rfl

/-- **The weights of a state's edges are those of their features**, and weighing leaves all but the snapshot alone. -/
theorem weightedOutlinks_eq (hw : w.params = params w.key) (trueLoop : Bool) {id : Nat}
    {s s' : Store (IdGraph K) K} {here : SparseRow K} (h : row id s = (.ok here, s'))
    (hhere : ∀ e ∈ here, Named s'.features e.features)
    (hrestart : s'.features.get? s'.graph.restart = some restartFeature)
    (htrueLoop : s'.features.get? s'.graph.trueLoop = some trueLoopFeature)
    (hhonest : ∀ f, s'.graph.frozen = some f → f.Honest params s'.features) :
    (weightedOutlinks id w trueLoop s).1 = w.linksOf id (trueLoop && s'.graph.isCompleted id)
      (listed s'.features here) ∧ Weighed params s'.graph s'.features (weightedOutlinks id w trueLoop s).2 := by
  have hrest : Meets (Weighed params s'.graph s'.features)
      (discard (frozenFor w) >>= fun _ => weighEdges w here >>= fun links =>
      GraphM.graph >>= fun g => loops w id (trueLoop && g.isCompleted id) >>= fun looped =>
        impliedWeight g.restart w >>=
        fun restart => pure (links.map (fun l => ⟨l.1, l.2, .derived⟩) ++ looped ++ [⟨0, restart, .restart⟩]))
      (· = w.linksOf id (trueLoop && s'.graph.isCompleted id) (listed s'.features here)) := by
    refine (meets_snapshot w).bind_ok ?_
    refine (meets_weighEdges hw hhere).bind_eq fun links => meets_graph fun t ht => ?_
    have hcompleted : t.graph.isCompleted id = s'.graph.isCompleted id := by rw [ht.graph]; rfl
    have hnumber : t.graph.restart = s'.graph.restart := by rw [ht.graph]
    rw [hcompleted, hnumber]
    exact (meets_loops hw htrueLoop id _).bind_eq fun looped =>
      (meets_impliedWeight hw hrestart).bind_eq fun restart => meets_pure rfl
  unfold weightedOutlinks weightedRow
  rw [bind_assoc, bind_ok h]
  simp only [bind_assoc]
  exact hrest s' ⟨rfl, rfl, hhonest⟩

end IdGraph

end ProofWalk
