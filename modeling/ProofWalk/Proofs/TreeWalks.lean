import ProofWalk.Graph.Link
import Mathlib.Data.List.Nodup
/-!
# Proofs.TreeWalks — the walks that a tree shows

A tree shows the walks from its root, up to a number of edges, that are not followed beyond a state which they have
come through before: all states of such a walk but the last differ (`Shown`).  They are listed as the tree is made,
with the edges of each state in order (`walksBelow`).  The list has just these walks (`mem_walksBelow_iff`), each
once and a walk before those that go on from it (`walksBelow_ascending`).

A walk is told by the places of its edges and not by the states that it comes through, since two edges may lead from
one state to another.
-/
namespace ProofWalk

/-- **A walk from a state**: its edges, each with its place among the edges of the state that it leaves. -/
abbrev Route (K : Type) := List (Nat × Edge K)

namespace Route

variable {K : Type}

def endpoint (u : Nat) : Route K → Nat
  | [] => u
  | e :: rest => endpoint e.2.child rest

/-- **The states that a walk comes through**, from its start to its end. -/
def visited (u : Nat) (walk : Route K) : List Nat := u :: walk.map (·.2.child)

def passed (u : Nat) (walk : Route K) : List Nat := (visited u walk).dropLast

def places (walk : Route K) : List Nat := walk.map (·.1)

/-- **Whether a walk follows the edges of a graph.** -/
def Follows (edges : Nat → List (Edge K)) : Nat → Route K → Prop
  | _, [] => True
  | u, e :: rest => (edges u)[e.1]? = some e.2 ∧ Follows edges e.2.child rest

structure Shown (edges : Nat → List (Edge K)) (depth root : Nat) (walk : Route K) : Prop where
  follows : Follows edges root walk
  length_le : walk.length ≤ depth
  simple : (passed root walk).Nodup

/-- **The walks from a state**, over at most so many edges, in the order of a tree.  Those that lead to it from the
root come through the states of a path. -/
def walksBelow (edges : Nat → List (Edge K)) (path : List Nat) : Nat → Nat → List (Route K)
  | 0, _ => [[]]
  | depth + 1, u => [] :: if u ∈ path then [] else
      (edges u).zipIdx.flatMap fun e => (walksBelow edges (path ++ [u]) depth e.1.child).map ((e.2, e.1) :: ·)

variable {edges : Nat → List (Edge K)} {path : List Nat} {u : Nat} {walk : Route K}

theorem passed_nil (u : Nat) : passed u ([] : Route K) = [] := rfl

theorem passed_cons (u : Nat) (e : Nat × Edge K) (walk : Route K) :
    passed u (e :: walk) = u :: passed e.2.child walk := rfl

theorem endpoint_append (u : Nat) (walk walk' : Route K) :
    endpoint u (walk ++ walk') = endpoint (endpoint u walk) walk' := by
  induction walk generalizing u with
  | nil => rfl
  | cons e rest ih => exact ih e.2.child

theorem passed_append (u : Nat) (walk walk' : Route K) :
    passed u (walk ++ walk') = passed u walk ++ passed (endpoint u walk) walk' := by
  induction walk generalizing u with
  | nil => rfl
  | cons e rest ih =>
    rw [List.cons_append, passed_cons, passed_cons, ih, List.cons_append]
    rfl

theorem endpoint_snoc (u : Nat) (walk : Route K) (e : Nat × Edge K) : endpoint u (walk ++ [e]) = e.2.child :=
  endpoint_append u walk [e]

theorem passed_snoc (u : Nat) (walk : Route K) (e : Nat × Edge K) :
    passed u (walk ++ [e]) = passed u walk ++ [endpoint u walk] := passed_append u walk [e]

/-! ## Which walks there are

By induction on the edges that are left, for the walks below any path. -/

theorem mem_walksBelow_iff_nodup (hpath : path.Nodup) {depth : Nat} : walk ∈ walksBelow edges path depth u ↔
    Follows edges u walk ∧ walk.length ≤ depth ∧ (path ++ passed u walk).Nodup := by
  induction depth generalizing path u walk with
  | zero =>
    rw [walksBelow, List.mem_singleton, Nat.le_zero, List.length_eq_zero_iff]
    refine ⟨fun h => ?_, fun h => h.2.1⟩
    subst h
    exact ⟨trivial, rfl, by rwa [passed_nil, List.append_nil]⟩
  | succ depth ih =>
    rw [walksBelow, List.mem_cons]
    cases walk with
    | nil => exact iff_of_true (.inl rfl) ⟨trivial, Nat.zero_le _, by rwa [passed_nil, List.append_nil]⟩
    | cons e rest =>
      have hmiddle : path ++ passed u (e :: rest) = path ++ [u] ++ passed e.2.child rest := by
        rw [passed_cons, List.append_assoc, List.singleton_append]
      rw [hmiddle, List.length_cons, Nat.succ_le_succ_iff]
      by_cases hu : u ∈ path
      · -- nothing goes on from here, and a walk that did would pass the state twice
        rw [if_pos hu]
        refine iff_of_false (by simp) fun ⟨_, _, hnodup⟩ => ?_
        exact (List.nodup_append.1 (List.nodup_append.1 hnodup).1).2.2 u hu u (List.mem_singleton_self u) rfl
      · have hpath' : (path ++ [u]).Nodup := List.nodup_append.2
          ⟨hpath, List.nodup_singleton u, fun a ha b hb heq => hu (List.mem_singleton.1 hb ▸ heq ▸ ha)⟩
        rw [if_neg hu]
        constructor
        · rintro (h | h)
          · cases h
          · obtain ⟨e', he', hmem⟩ := List.mem_flatMap.1 h
            obtain ⟨rest', hrest, heq⟩ := List.mem_map.1 hmem
            cases heq
            obtain ⟨hfollows, hlength, hnodup⟩ := (ih hpath').1 hrest
            exact ⟨⟨List.mem_zipIdx_iff_getElem?.1 he', hfollows⟩, hlength, hnodup⟩
        · rintro ⟨⟨hedge, hfollows⟩, hlength, hnodup⟩
          refine .inr (List.mem_flatMap.2 ⟨(e.2, e.1), List.mem_zipIdx_iff_getElem?.2 hedge,
            List.mem_map.2 ⟨rest, ?_, rfl⟩⟩)
          exact (ih hpath').2 ⟨hfollows, hlength, hnodup⟩

/-- **A tree shows just the walks that it should.** -/
theorem mem_walksBelow_iff {depth root : Nat} : walk ∈ walksBelow edges [] depth root ↔
      Shown edges depth root walk := by
  rw [mem_walksBelow_iff_nodup List.nodup_nil, List.nil_append]
  exact ⟨fun ⟨hfollows, hlength, hsimple⟩ => ⟨hfollows, hlength, hsimple⟩,
    fun h => ⟨h.follows, h.length_le, h.simple⟩⟩

/-! ## In which order

Walks are compared by the places of their edges, from the first on; a walk comes before those that go on from it. -/

/-- **A tree shows its walks in the order of their places**, and a walk before those that go on from it. -/
theorem walksBelow_ascending (edges : Nat → List (Edge K)) (path : List Nat) (depth u : Nat) :
    (walksBelow edges path depth u).Pairwise fun walk later => walk.places < later.places := by
  induction depth generalizing path u with
  | zero => exact List.pairwise_singleton _ _
  | succ depth ih =>
    rw [walksBelow]
    refine List.pairwise_cons.2 ⟨fun walk hwalk => ?_, ?_⟩
    · split at hwalk
      · cases hwalk
      · obtain ⟨e, -, hmem⟩ := List.mem_flatMap.1 hwalk
        obtain ⟨rest, -, rfl⟩ := List.mem_map.1 hmem
        exact List.nil_lt_cons _ _
    · split
      · exact List.Pairwise.nil
      · refine List.pairwise_flatMap.2 ⟨fun e _ => ?_, ?_⟩
        · -- behind one edge
          refine List.pairwise_map.2 ((ih (path ++ [u]) e.1.child).imp fun hless => ?_)
          exact List.cons_lt_cons_iff.2 (.inr ⟨rfl, hless⟩)
        · -- behind different edges
          have hplaces : (edges u).zipIdx.Pairwise fun e e' => e.2 < e'.2 := by
            rw [← List.pairwise_map, List.zipIdx_map_snd]
            exact List.pairwise_lt_range'
          refine hplaces.imp fun hless walk hwalk later hlater => ?_
          obtain ⟨rest, -, rfl⟩ := List.mem_map.1 hwalk
          obtain ⟨rest', -, rfl⟩ := List.mem_map.1 hlater
          exact List.cons_lt_cons_iff.2 (.inl hless)

end Route

end ProofWalk
