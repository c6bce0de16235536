import ProofWalk.Proofs.HiddenPaths
import ProofWalk.Proofs.NumberedFeatures
/-!
# Proofs.BridgedRows — the edges of a survivor after pruning

Pruning goes through the masses that arrive at survivors one by one; each strengthens an edge or adds one.  Taken
together they leave every edge where it is, and the new edges follow in order of their targets (`foldl_bridge`,
`toList_eq`).

`bridgedRow` says what this comes to, without any order of work: the edges that were there, of which the first one
to a state with mass is `reinforced`, and then an edge for each candidate that has mass and no edge to it.  A mass
for an edge that is there strengthens this edge and no other, and a mass for one that is not there leaves the edges
alone; these are the two cases of the induction over the masses.
-/
namespace ProofWalk

namespace IdGraph

variable {K : Type} [Scalar K]

/-- An edge of a row, with the mass of its target added if it is the first edge there. -/
def reinforced (subproof : Nat) (row : SparseRow K) (mass : Nat → Option K) (i : Nat) (e : SparseEdge K) :
    SparseEdge K :=
  if SparseRow.position? row e.child = some i then
    match mass e.child with
    | some x => { e with features := e.features.add subproof x }
    | none => e
  else e

def bridgeTo (subproof v : Nat) (x : K) : SparseEdge K := ⟨v, SparseVector.ofPairs [(subproof, x)]⟩

/-- **A row with masses added**: to the first edge to each state that has mass, and on new edges to those of the
candidates to which no edge leads. -/
def bridgedRow (subproof : Nat) (row : SparseRow K) (candidates : List Nat) (mass : Nat → Option K) :
    SparseRow K :=
  row.mapIdx (reinforced subproof row mass) ++
    (candidates.filter fun v => (SparseRow.position? row v).isNone).filterMap fun v =>
      (mass v).map (bridgeTo subproof v)

variable {subproof : Nat} {row : SparseRow K} {mass : Nat → Option K}

theorem reinforced_of_none {i : Nat} {e : SparseEdge K} (h : mass e.child = none) :
    reinforced subproof row mass i e = e := by
  simp [reinforced, h]

theorem child_reinforced (i : Nat) (e : SparseEdge K) : (reinforced subproof row mass i e).child = e.child := by
  unfold reinforced
  split
  · split <;> rfl
  · rfl

omit [Scalar K] in
theorem position?_eq (row : SparseRow K) (v : Nat) :
    SparseRow.position? row v = (row.map (·.child)).findIdx? (· == v) := by
  rw [List.findIdx?_map]
  rfl

theorem bridge_of_some {e : Nat × K} {i : Nat} (h : SparseRow.position? row e.1 = some i) :
    bridge subproof row e = row.modify i fun edge => { edge with features := edge.features.add subproof e.2 } := by
  simp [bridge, h]

theorem bridge_of_none {e : Nat × K} (h : SparseRow.position? row e.1 = none) :
    bridge subproof row e = row ++ [bridgeTo subproof e.1 e.2] := by
  simp [bridge, h, SparseRow.push, bridgeTo]

theorem mapIdx_modify {e : Nat × K} {rest : List (Nat × K)} (hfresh : rest.lookup e.1 = none) {i : Nat}
    (hi : SparseRow.position? row e.1 = some i) :
    (row.modify i fun edge => { edge with features := edge.features.add subproof e.2 }).mapIdx
        (reinforced subproof row (rest.lookup ·)) =
          row.mapIdx (reinforced subproof row ((e :: rest).lookup ·)) := by
  refine List.ext_getElem (by simp) fun j h h' => ?_
  simp only [List.getElem_mapIdx, List.getElem_modify]
  obtain ⟨hlt, hchild, -⟩ := List.findIdx?_eq_some_iff_getElem.1 hi
  have hchild : row[i].child = e.1 := by simpa using hchild
  have hj' : j < row.length := by simpa using h
  by_cases hj : i = j
  · subst hj
    have hself : (e :: rest).lookup e.1 = some e.2 := List.lookup_cons_self
    rw [if_pos rfl, reinforced_of_none (by simpa [hchild] using hfresh)]
    simp [reinforced, hchild, hi, hself]
  · rw [if_neg hj]
    unfold reinforced
    by_cases hsame : row[j].child = e.1
    · simp [hsame, hi, hj]
    · have hlookup : (e :: rest).lookup row[j].child = rest.lookup row[j].child := by
        rw [List.lookup_cons, beq_false_of_ne hsame]
      simp only [hlookup]

theorem mapIdx_skip {e : Nat × K} {rest : List (Nat × K)} (hnone : SparseRow.position? row e.1 = none) :
    row.mapIdx (reinforced subproof (row ++ [bridgeTo subproof e.1 e.2]) (rest.lookup ·)) =
      row.mapIdx (reinforced subproof row ((e :: rest).lookup ·)) := by
  refine List.ext_getElem (by simp) fun j h h' => ?_
  have hj : j < row.length := by simpa using h
  simp only [List.getElem_mapIdx]
  have hne : row[j].child ≠ e.1 := by simpa using List.findIdx?_eq_none_iff.1 hnone _ (List.getElem_mem hj)
  have hposition : SparseRow.position? (row ++ [bridgeTo subproof e.1 e.2]) row[j].child =
      SparseRow.position? row row[j].child := by
    have hsome : (SparseRow.position? row row[j].child).isSome :=
      List.findIdx?_isSome.trans (List.any_eq_true.2 ⟨_, List.getElem_mem hj, beq_self_eq_true _⟩)
    obtain ⟨i, hi⟩ := Option.isSome_iff_exists.1 hsome
    have happend : SparseRow.position? (row ++ [bridgeTo subproof e.1 e.2]) row[j].child =
        (SparseRow.position? row row[j].child).or _ := List.findIdx?_append
    rw [happend, hi, Option.some_or]
  have hlookup : (e :: rest).lookup row[j].child = rest.lookup row[j].child := by
    rw [List.lookup_cons, beq_false_of_ne hne]
  unfold reinforced
  simp only [hposition, hlookup]

theorem isNone_position?_append {e : Nat × K} {v : Nat} (hne : v ≠ e.1) :
    (SparseRow.position? (row ++ [bridgeTo subproof e.1 e.2]) v).isNone = (SparseRow.position? row v).isNone := by
  have happend : SparseRow.position? (row ++ [bridgeTo subproof e.1 e.2]) v = (SparseRow.position? row v).or
      (Option.map (fun i => i + row.length) ([bridgeTo subproof e.1 e.2].findIdx? (·.child == v))) :=
        List.findIdx?_append
  have hnot : (e.1 == v) = false := beq_false_of_ne (Ne.symm hne)
  rw [happend]
  simp [bridgeTo, hnot]

/-- **All masses together**: edges stay in place, and new ones follow in the order of the masses. -/
theorem foldl_bridge {l : List (Nat × K)} (hnodup : (l.map (·.1)).Nodup) (row : SparseRow K) :
    l.foldl (bridge subproof) row = row.mapIdx (reinforced subproof row (l.lookup ·)) ++
      (l.filter fun e => (SparseRow.position? row e.1).isNone).map fun e => bridgeTo subproof e.1 e.2 := by
  induction l generalizing row with
  | nil =>
    refine (List.ext_getElem (by simp) fun j h h' => ?_).trans (List.append_nil _).symm
    rw [List.getElem_mapIdx, reinforced_of_none rfl]
    rfl
  | cons e rest ih =>
    rw [List.map_cons, List.nodup_cons] at hnodup
    obtain ⟨hfresh, hnodup⟩ := hnodup
    have hlookup : rest.lookup e.1 = none := by
      refine List.lookup_eq_none_iff.2 fun p hp => ?_
      have hne : e.1 ≠ p.1 := fun h => hfresh (List.mem_map.2 ⟨p, hp, h.symm⟩)
      simpa using hne
    rw [List.foldl_cons, ih hnodup]
    rcases hposition : SparseRow.position? row e.1 with _ | i
    · -- a new edge comes last, and as masses are for different states, no later one strengthens it
      have hothers : ∀ p ∈ rest, (SparseRow.position? (row ++ [bridgeTo subproof e.1 e.2]) p.1).isNone =
          (SparseRow.position? row p.1).isNone := fun p hp =>
        isNone_position?_append fun h => hfresh (List.mem_map.2 ⟨p, hp, h⟩)
      have hnew : ∀ i, reinforced subproof (row ++ [bridgeTo subproof e.1 e.2]) (rest.lookup ·) i
          (bridgeTo subproof e.1 e.2) = bridgeTo subproof e.1 e.2 := fun i => reinforced_of_none hlookup
      rw [bridge_of_none hposition, List.mapIdx_append, mapIdx_skip hposition, List.filter_congr hothers,
        List.filter_cons_of_pos (by simp [hposition])]
      simp [hnew]
    · -- the edge keeps its place and target, so later masses find the edges that they would have found
      have hsame : ∀ v, SparseRow.position? (bridge subproof row e) v = SparseRow.position? row v := by
        intro v
        rw [position?_eq, position?_eq, bridge_of_some hposition]
        refine congrArg _ (List.ext_getElem (by simp) fun j h h' => ?_)
        simp only [List.getElem_map, List.getElem_modify]
        split <;> rfl
      have hreinforced : reinforced subproof (bridge subproof row e) (rest.lookup ·) =
          reinforced subproof row (rest.lookup ·) := by
        funext i e'
        simp only [reinforced, hsame]
      simp only [hreinforced, hsame]
      rw [bridge_of_some hposition, mapIdx_modify hlookup hposition, List.filter_cons_of_neg (by simp [hposition])]

omit [Scalar K] in
theorem lookup_toList (m : SortedMap Nat K) (v : Nat) : m.toList.lookup v = m[v]? := by
  rcases hlookup : m.toList.lookup v with _ | x
  · rcases hvalue : m[v]? with _ | x
    · rfl
    · have hne := List.lookup_eq_none_iff.1 hlookup _ (Std.ExtTreeMap.mem_toList_iff_getElem?_eq_some.2 hvalue)
      simp at hne
  · obtain ⟨l, l', heq, -⟩ := List.lookup_eq_some_iff.1 hlookup
    have hmem : (v, x) ∈ m.toList := heq ▸ List.mem_append_right _ List.mem_cons_self
    exact (Std.ExtTreeMap.mem_toList_iff_getElem?_eq_some.1 hmem).symm

omit [Scalar K] in
theorem toList_eq {m : SortedMap Nat K} {keys : List Nat} (hsorted : keys.Pairwise (· < ·))
    (hkeys : ∀ v, (m[v]?).isSome → v ∈ keys) : m.toList = keys.filterMap fun v => m[v]?.map (v, ·) := by
  have hentry : ∀ {v : Nat} {b : Nat × K}, m[v]?.map (v, ·) = some b ↔ b.1 = v ∧ m[v]? = some b.2 := by
    rintro v ⟨u, x⟩
    simp [and_comm, eq_comm]
  have hleft := SortedMap.ascending_toList m
  have hright : (keys.filterMap fun v => m[v]?.map (v, ·)).Pairwise fun a b => a.1 < b.1 := by
    refine List.pairwise_filterMap.2 (hsorted.imp fun {u v} hlt b hb b' hb' => ?_)
    rw [(hentry.1 hb).1, (hentry.1 hb').1]
    exact hlt
  refine eq_of_ascending hleft hright fun e => ?_
  rw [Std.ExtTreeMap.mem_toList_iff_getElem?_eq_some, List.mem_filterMap]
  constructor
  · intro h
    exact ⟨e.1, hkeys e.1 (Option.isSome_of_eq_some h), hentry.2 ⟨rfl, h⟩⟩
  · rintro ⟨v, -, h⟩
    obtain ⟨rfl, hx⟩ := hentry.1 h
    exact hx

theorem foldl_bridge_toList {m : SortedMap Nat K} {candidates : List Nat} (hsorted : candidates.Pairwise (· < ·))
    (hkeys : ∀ v, (m[v]?).isSome → v ∈ candidates) (row : SparseRow K) :
    m.toList.foldl (bridge subproof) row = bridgedRow subproof row candidates (m[·]?) := by
  rw [foldl_bridge m.nodup_keys, bridgedRow]
  simp only [lookup_toList]
  refine congrArg _ ?_
  rw [toList_eq hsorted hkeys, List.filter_filterMap, List.map_filterMap, List.filterMap_filter]
  refine List.filterMap_congr fun v _ => ?_
  cases hmass : m[v]? with
  | none => simp
  | some x => cases hposition : SparseRow.position? row v <;> simp [Option.filter, hposition]

/-! ## The masses of a row

The masses of a row are those that the paths over removed states deliver (`bridging`), collected by survivor.  Mass
arrives at survivors only, and at no survivor without an edge of a removed state that leads to it. -/

variable {survives : Nat → Bool} {next : Nat → List (Nat × K)} {attenuation epsilon : K}

def bridging (survives : Nat → Bool) (next : Nat → List (Nat × K)) (attenuation epsilon : K) (hops : Nat)
    (weighted : List (Nat × K)) : List (Nat × K) :=
  (weighted.filter fun e => !survives e.1).flatMap fun e =>
    delivered survives next attenuation epsilon hops e.1 e.2

theorem prunedRow_eq {transitions : Slots (List (Nat × K))} {options : PruneOptions K} {weighted : List (Nat × K)}
    (hnext : ∀ x, (transitions.get? x).getD [] = next x) (hweighted : weighted.map (·.1) = row.map (·.child)) :
    prunedRow survives transitions options subproof row weighted =
      (Virtual.addAll .empty (bridging survives next ((1 - options.alpha) * (1 - options.alpha)) options.epsilon
        options.maxDepth weighted)).toList.foldl (bridge subproof) (row.filter fun e => survives e.child) := by
  obtain rfl : (fun x => (transitions.get? x).getD []) = next := funext hnext
  have hmass : ∀ v : Virtual K, (row.zip weighted).foldl (fun v e => if survives e.1.child then v else
        follow survives transitions ((1 - options.alpha) * (1 - options.alpha)) options.epsilon
          options.maxDepth e.1.child e.2.2 v) v =
      v.addAll (bridging survives (fun x => (transitions.get? x).getD [])
        ((1 - options.alpha) * (1 - options.alpha)) options.epsilon options.maxDepth weighted) := by
    induction row generalizing weighted with
    | nil =>
      rw [List.map_nil, List.map_eq_nil_iff] at hweighted
      subst hweighted
      exact fun _ => rfl
    | cons e rest ih =>
      cases weighted with
      | nil => exact nomatch hweighted
      | cons p weighted =>
        obtain ⟨hchild, hrest⟩ := List.cons.inj hweighted
        intro v
        rw [List.zip_cons_cons, List.foldl_cons, ih hrest]
        cases hs : survives e.child with
        | true => simp [bridging, hchild, hs]
        | false => simp [bridging, hchild, hs, follow_eq, Virtual.addAll, List.foldl_append]
  unfold prunedRow
  simp only [hmass]

theorem delivered_mem {hops x : Nat} {m : K} {e : Nat × K}
    (h : e ∈ delivered survives next attenuation epsilon hops x m) :
    survives e.1 = true ∧ ∃ y, e.1 ∈ (next y).map (·.1) := by
  induction hops generalizing x m with
  | zero => exact absurd h List.not_mem_nil
  | succ hops ih =>
    rw [delivered] at h
    split at h
    · exact absurd h List.not_mem_nil
    · rcases List.mem_append.1 h with here | further
      · obtain ⟨edge, hedge, rfl⟩ := List.mem_map.1 here
        obtain ⟨hedge, hs⟩ := List.mem_filter.1 hedge
        exact ⟨hs, x, List.mem_map.2 ⟨edge, hedge, rfl⟩⟩
      · obtain ⟨_, _, hfurther⟩ := List.mem_flatMap.1 further
        exact ih hfurther

theorem isSome_addAll {v : Virtual K} {l : List (Nat × K)} {id : Nat} (h : ((v.addAll l)[id]?).isSome) :
    (v[id]?).isSome ∨ ∃ e ∈ l, e.1 = id := by
  induction l generalizing v with
  | nil => exact .inl h
  | cons e rest ih =>
    have hstep : v.addAll (e :: rest) = (v.add e.1 e.2).addAll rest := rfl
    rw [hstep] at h
    by_cases hid : e.1 = id
    · exact .inr ⟨e, List.mem_cons_self, hid⟩
    · have hsame : (v.add e.1 e.2)[id]? = v[id]? := SortedMap.getElem?_upsert_of_ne _ _ (Ne.symm hid)
      rcases ih h with hv | ⟨e', he', hid'⟩
      · exact .inl (hsame ▸ hv)
      · exact .inr ⟨e', List.mem_cons_of_mem _ he', hid'⟩

/-- **Mass arrives at survivors only**, to which edges lead. -/
theorem arrives {hops : Nat} {weighted : List (Nat × K)} {v : Nat}
    (h : ((Virtual.addAll .empty (bridging survives next attenuation epsilon hops weighted))[v]?).isSome) :
    survives v = true ∧ ∃ y, v ∈ (next y).map (·.1) := by
  rcases isSome_addAll h with hnone | ⟨e, he, rfl⟩
  · exact nomatch hnone
  · obtain ⟨_, _, hdelivered⟩ := List.mem_flatMap.1 he
    exact delivered_mem hdelivered

end IdGraph

/-! ## Exact masses

For exact numbers the order in which paths deliver does not matter: the mass that arrives at a survivor is the sum
of what the sequences of edges to it carry, over all removed states that the edges of the row lead to. -/

namespace IdGraph

variable {K : Type} [Field K] [LinearOrder K] [FloorSemiring K] {survives : Nat → Bool}
  {next : Nat → List (Nat × K)} {attenuation epsilon : K}

theorem getElem?_bridging (hops : Nat) (weighted : List (Nat × K)) (v : Nat) :
    (Virtual.addAll .empty (bridging survives next attenuation epsilon hops weighted))[v]? =
      if survives v then
        collected ((weighted.filter fun e => !survives e.1).flatMap fun e =>
          carried survives next attenuation epsilon v hops e.1 e.2)
      else none := by
  cases hv : survives v with
  | false =>
    refine Option.not_isSome_iff_eq_none.1 fun h => ?_
    rw [(arrives h).1] at hv
    cases hv
  | true =>
    rw [getElem?_addAll, bridging, List.filter_flatMap, List.map_flatMap]
    exact collected_perm (List.Perm.flatMap_left _ fun e _ => delivered_perm hv hops e.1 e.2)

end IdGraph

end ProofWalk
