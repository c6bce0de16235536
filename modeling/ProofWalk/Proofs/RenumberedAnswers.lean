import ProofWalk.Prove.Answer
import ProofWalk.Proofs.Pruning
/-!
# Proofs.RenumberedAnswers — answers in the numbers of a pruned graph

Answers are tallied by goal and sorted by mass and goal, so another numbering of states that keeps their order
changes nothing else in them (`Answer.all_renumbered`).  Completed states survive pruning, in order; a result in the
new numbers therefore lists the same masses for them, and its answers are those of the graph before
(`IdGraph.all_moved`).
-/
namespace ProofWalk

variable {K : Type}

/-! ## Answers with their states renumbered

The order matters for one thing only: of several states with one goal, the first leads the answer. -/

open Std.DTreeMap.Internal in
theorem SortedMap.values_eq {κ ν : Type} [Ord κ] [Std.TransOrd κ] (m : SortedMap κ ν) :
    m.values = m.toList.map (·.2) := by
  obtain ⟨⟨q⟩⟩ := m
  induction q using Quotient.ind with
  | _ t =>
    show t.inner.values = (Impl.Const.toList t.inner).map (·.2)
    rw [Impl.values_eq_map_snd, Impl.Const.toList_eq_toListModel_map, List.map_map]
    rfl

namespace Answer

def renumbered (number : Nat → Nat) (a : Answer K) : Answer K := { a with state := number a.state }

def Tally.renumbered (number : Nat → Nat) (t : Tally K) : Tally K :=
  ⟨t.byGoal.map fun _ v => (v.1.renumbered number, v.2), t.total⟩

theorem Tally.eq_of_byGoal {t t' : Tally K} (h : t.byGoal = t'.byGoal) (htotal : t.total = t'.total) : t = t' := by
  obtain ⟨_, _⟩ := t
  cases h
  cases htotal
  rfl

variable [Scalar K] {number : Nat → Nat}

/-- **Answers are tallied by goal and mass**, whatever their states are called. -/
theorem add_renumbered (t : Tally K) (a : Answer K) :
    (t.renumbered number).add (a.renumbered number) = (t.add a).renumbered number := by
  refine Tally.eq_of_byGoal (Std.ExtTreeMap.ext_getElem? fun goal => ?_) rfl
  simp only [Tally.add, Tally.renumbered, renumbered, Std.ExtTreeMap.getElem?_map]
  by_cases hgoal : goal = a.goal
  · subst hgoal
    rw [SortedMap.getElem?_upsert_self, SortedMap.getElem?_upsert_self, Std.ExtTreeMap.getElem?_map]
    cases t.byGoal[a.goal]? with
    | none => rfl
    | some v =>
      obtain ⟨b, best⟩ := v
      by_cases hbest : best < a.probability
      · simp [hbest]
      · simp [hbest]
  · rw [SortedMap.getElem?_upsert_of_ne _ _ hgoal, SortedMap.getElem?_upsert_of_ne _ _ hgoal,
      Std.ExtTreeMap.getElem?_map]

theorem foldl_add_renumbered (number : Nat → Nat) (as : List (Answer K)) (t : Tally K) :
    (as.map (renumbered number)).foldl Tally.add (t.renumbered number) =
      (as.foldl Tally.add t).renumbered number := by
  rw [List.foldl_map]
  exact List.foldl_hom (Tally.renumbered number) fun t a => add_renumbered t a

theorem mem_foldl_add {as : List (Answer K)} {t : Tally K} {goal : String} {v : Answer K × K}
    (h : (as.foldl Tally.add t).byGoal[goal]? = some v) :
    (∃ a ∈ as, a.state = v.1.state) ∨
      ∃ (goal' : String) (v' : Answer K × K), t.byGoal[goal']? = some v' ∧ v'.1.state = v.1.state := by
  induction as generalizing t with
  | nil => exact .inr ⟨goal, v, h, rfl⟩
  | cons a rest ih =>
    rcases ih h with ⟨a', ha', hstate⟩ | ⟨goal', v', hv', hstate⟩
    · exact .inl ⟨a', List.mem_cons_of_mem _ ha', hstate⟩
    · by_cases hgoal : goal' = a.goal
      · subst hgoal
        simp only [Tally.add, SortedMap.getElem?_upsert_self, Option.some.injEq] at hv'
        cases hold : t.byGoal[a.goal]? with
        | none =>
          rw [hold] at hv'
          cases hv'
          exact .inl ⟨a, List.mem_cons_self, hstate⟩
        | some old =>
          rw [hold] at hv'
          by_cases hbest : old.2 < a.probability
          · simp only [hbest, if_true] at hv'
            cases hv'
            exact .inl ⟨a, List.mem_cons_self, hstate⟩
          · simp only [hbest, if_false] at hv'
            cases hv'
            exact .inr ⟨a.goal, old, hold, hstate⟩
      · rw [Tally.add, SortedMap.getElem?_upsert_of_ne _ _ hgoal] at hv'
        exact .inr ⟨goal', v', hv', hstate⟩

variable {g g' : ProofGraph K} {result result' : ProofVector K}

theorem completed_of_mem {a : Answer K} (h : a ∈ all g result) :
    ∃ s, g.state? a.state = some s ∧ s.completed = true := by
  unfold all at h
  dsimp only at h
  split at h
  · exact nomatch h
  · rw [List.mem_mergeSort, SortedMap.values_eq, List.map_map] at h
    obtain ⟨e, he, rfl⟩ := List.mem_map.1 h
    rcases mem_foldl_add (Std.ExtTreeMap.mem_toList_iff_getElem?_eq_some.1 he)
      with ⟨a, ha, hstate⟩ | ⟨_, _, hnone, -⟩
    · obtain ⟨e', -, hgives⟩ := List.mem_filterMap.1 ha
      split at hgives
      · rename_i s hs
        split at hgives
        · rename_i hcompleted
          cases hgives
          rw [Bool.and_eq_true] at hcompleted
          refine ⟨s, ?_, hcompleted.1⟩
          exact (congrArg g.state? hstate).symm.trans hs
        · cases hgives
      · cases hgives
    · cases hnone

theorem all_empty (g : ProofGraph K) : all g (.empty : ProofVector K) = [] := by
  have hanswering : answering g (.empty : ProofVector K) = [] :=
    congrArg (List.filterMap _) (SortedMap.toList_ofList List.Pairwise.nil)
  have hvalues : (Std.ExtTreeMap.empty : SortedMap String (Answer K × K)).values = [] := rfl
  unfold all
  rw [hanswering]
  dsimp only [List.foldl_nil]
  rw [hvalues]
  split
  · rfl
  · exact List.mergeSort_nil

/-- **Where the states that give answers are renumbered, so are the answers**, in the same order. -/
theorem all_renumbered (h : answering g' result' = (answering g result).map (renumbered number)) :
    all g' result' = (all g result).map (renumbered number) := by
  have htally := foldl_add_renumbered number (answering g result) ⟨.empty, 0⟩
  have hstart : (⟨.empty, 0⟩ : Tally K).renumbered number = ⟨.empty, 0⟩ :=
    Tally.eq_of_byGoal (Std.ExtTreeMap.ext_getElem? fun goal => Std.ExtTreeMap.getElem?_map) rfl
  rw [hstart] at htally
  unfold all
  dsimp only
  rw [h, htally]
  generalize (answering g result).foldl Tally.add ⟨.empty, 0⟩ = t
  by_cases htotal : t.total ≤ 0
  · rw [if_pos htotal, if_pos (show (t.renumbered number).total ≤ 0 from htotal), List.map_nil]
  · have hstands : ∀ a b : Answer K, stands a b = stands (a.renumbered number) (b.renumbered number) :=
      fun _ _ => rfl
    rw [if_neg htotal, if_neg (show ¬(t.renumbered number).total ≤ 0 from htotal),
      List.map_mergeSort fun a _ b _ => hstands a b, SortedMap.values_eq, SortedMap.values_eq, Tally.renumbered,
      Std.ExtTreeMap.toList_map]
    simp only [List.map_map]
    rfl

end Answer

/-! ## Results in new numbers

Survivors are numbered in ascending order, so the completed ones among them are met in the order in which they were
met before. -/

namespace IdGraph

variable [Scalar K] {g : IdGraph K} {visible : Visibility}

/-- A result in the numbers of survivors, without the mass of removed states. -/
def moved (number : Nat → Option Nat) (result : ProofVector K) : List (Nat × K) :=
  result.toList.filterMap fun e => (number e.1).map (·, e.2)

omit [Scalar K] in
theorem newNumber_lt {id id' j j' : Nat} (h : g.newNumber visible id = some j)
    (h' : g.newNumber visible id' = some j') (hlt : id < id') : j < j' := by
  obtain ⟨hj, hid⟩ := List.getElem?_eq_some_iff.1 (newNumber_eq_some.1 h)
  obtain ⟨hj', hid'⟩ := List.getElem?_eq_some_iff.1 (newNumber_eq_some.1 h')
  rw [← hid, ← hid'] at hlt
  rcases Nat.lt_trichotomy j j' with hbefore | rfl | hafter
  · exact hbefore
  · exact absurd hlt (Nat.lt_irrefl _)
  · exact absurd (List.pairwise_iff_getElem.1 (survivors_pairwise g visible) j' j hj' hj hafter) (Nat.lt_asymm hlt)

omit [Scalar K] in
theorem newNumber_lt_iff {id id' j j' : Nat} (h : g.newNumber visible id = some j)
    (h' : g.newNumber visible id' = some j') : id < id' ↔ j < j' := by
  refine ⟨newNumber_lt h h', fun hlt => ?_⟩
  rcases Nat.lt_trichotomy id id' with hbefore | rfl | hafter
  · exact hbefore
  · rw [h] at h'
    cases h'
    exact absurd hlt (Nat.lt_irrefl _)
  · exact absurd (newNumber_lt h' h hafter) (Nat.lt_asymm hlt)

omit [Scalar K] in
theorem ascending_moved (result : ProofVector K) :
    (moved (g.newNumber visible) result).Pairwise fun a b => a.1 < b.1 := by
  refine List.pairwise_filterMap.2 ((SortedMap.ascending_toList result).imp fun {a b} hlt c hc d hd => ?_)
  obtain ⟨j, hj, rfl⟩ := Option.map_eq_some_iff.1 hc
  obtain ⟨j', hj', rfl⟩ := Option.map_eq_some_iff.1 hd
  exact newNumber_lt hj hj' hlt

omit [Scalar K] in
/-- **Completed states survive.** -/
theorem completed_survives (visible : Visibility) {id : Nat} {f : Frozen} (h : g.states.get? id = some f)
    (hcompleted : f.state.completed = true) : id ∈ g.survivors visible :=
  mem_survivors.2 ⟨(Interned.isSome_get?_iff _ _).1 (Option.isSome_of_eq_some h),
    survives_iff.2 (.inr ⟨f, h, .inl hcompleted⟩)⟩

theorem exists_newNumber_of_mem (visible : Visibility) {result : ProofVector K} {a : Answer K}
    (h : a ∈ Answer.all (.cachingId g) result) : ∃ j, g.newNumber visible a.state = some j := by
  obtain ⟨s, hs, hcompleted⟩ := Answer.completed_of_mem h
  obtain ⟨f, hf, rfl⟩ := Option.map_eq_some_iff.1 hs
  exact exists_newNumber (completed_survives visible hf hcompleted)

/-- **Pruning keeps the states that give answers**, in order. -/
theorem answering_moved {g' : IdGraph K} (hmachine : g'.machine = g.machine)
    (hstates : ∀ j, g'.states.get? j = (g.survivors visible)[j]?.bind g.states.get?) (result : ProofVector K) :
    Answer.answering (.cachingId g') (.ofList (moved (g.newNumber visible) result)) =
      (Answer.answering (.cachingId g) result).map
        (Answer.renumbered fun id => (g.newNumber visible id).getD id) := by
  unfold Answer.answering
  rw [SortedMap.toList_ofList (ascending_moved result), moved, List.filterMap_filterMap, List.map_filterMap]
  refine List.filterMap_congr fun e _ => ?_
  cases hnumber : g.newNumber visible e.1 with
  | some j =>
    have hstate : (ProofGraph.cachingId g').state? j = (ProofGraph.cachingId g).state? e.1 := by
      show (g'.states.get? j).map _ = (g.states.get? e.1).map _
      rw [hstates, newNumber_eq_some.1 hnumber, Option.bind_some]
    have hquery : (ProofGraph.cachingId g').machine = (ProofGraph.cachingId g).machine := hmachine
    rw [Option.map_some, Option.bind_some]
    dsimp only
    rw [hstate, hquery]
    cases (ProofGraph.cachingId g).state? e.1 with
    | none => rfl
    | some s =>
      dsimp only
      split
      · simp [Answer.renumbered, Answer.ofState, hnumber]
      · rfl
  | none =>
    -- a removed state is not completed, and so it gives no answer
    rcases hstate : g.states.get? e.1 with _ | f
    · have hnone : (ProofGraph.cachingId g).state? e.1 = none := congrArg (Option.map _) hstate
      rw [hnone]
      rfl
    · have hsome : (ProofGraph.cachingId g).state? e.1 = some f.state := congrArg (Option.map _) hstate
      have hcompleted : f.state.completed = false := by
        by_contra hcompleted
        obtain ⟨j, hj⟩ :=
          exists_newNumber (completed_survives visible hstate (Bool.eq_true_of_not_eq_false hcompleted))
        rw [hnumber] at hj
        cases hj
      rw [hsome]
      simp [hcompleted]

omit [Scalar K] in
theorem filterMap_numbers (result : ProofVector K) :
    (result.toList.filterMap fun e =>
      match ((List.range g.states.size).map (g.newNumber visible)).toArray[e.1]? with
      | some (some id) => some (id, e.2)
      | _ => none) = moved (g.newNumber visible) result := by
  refine List.filterMap_congr fun e _ => ?_
  rw [List.getElem?_toArray, List.getElem?_map]
  rcases Nat.lt_or_ge e.1 g.states.size with hlt | hge
  · rw [List.getElem?_range hlt, Option.map_some]
    cases g.newNumber visible e.1 with
    | none => rfl
    | some j => rfl
  · have hnone : g.newNumber visible e.1 = none := by
      rcases hnumber : g.newNumber visible e.1 with _ | j
      · rfl
      · have hmem := List.mem_of_getElem? (newNumber_eq_some.1 hnumber)
        exact absurd (mem_survivors.1 hmem).1 (Nat.not_lt_of_ge hge)
    rw [List.getElem?_eq_none (by simpa using hge), hnone]
    rfl

/-- **The answers of a pruned graph** are those of the graph, with their states renumbered. -/
theorem all_moved {g' : IdGraph K} (hmachine : g'.machine = g.machine)
    (hstates : ∀ j, g'.states.get? j = (g.survivors visible)[j]?.bind g.states.get?) (result : ProofVector K) :
    Answer.all (.cachingId g') (.ofList (moved (g.newNumber visible) result)) =
      (Answer.all (.cachingId g) result).map (Answer.renumbered fun id => (g.newNumber visible id).getD id) :=
  Answer.all_renumbered (answering_moved hmachine hstates result)

omit [Scalar K] in
theorem survivors_nothing (g : IdGraph K) : g.survivors (hidingCalls []) = List.range g.states.size := by
  refine List.filter_eq_self.2 fun id hid => ?_
  obtain ⟨f, hf⟩ := Option.isSome_iff_exists.1 ((Interned.isSome_get?_iff _ _).2 (List.mem_range.1 hid))
  exact survives_iff.2 (.inr ⟨f, hf, .inr (by simp [hidingCalls, State.inCall])⟩)

theorem all_renumbered_nothing {hidden : List Label} (h : hidden = []) (result : ProofVector K) :
    (Answer.all (.cachingId g) result).map (Answer.renumbered fun id =>
      (g.newNumber (hidingCalls hidden) id).getD id) = Answer.all (.cachingId g) result := by
  refine (List.map_congr_left fun a ha => ?_).trans (List.map_id _)
  obtain ⟨s, hs, -⟩ := Answer.completed_of_mem ha
  obtain ⟨f, hf, -⟩ := Option.map_eq_some_iff.1 hs
  have hsize : a.state < g.states.size := (Interned.isSome_get?_iff _ _).1 (Option.isSome_of_eq_some hf)
  have hnumber : g.newNumber (hidingCalls hidden) a.state = some a.state := by
    rw [h, newNumber_eq_some, survivors_nothing, List.getElem?_range hsize]
  rw [Answer.renumbered, hnumber]
  rfl

end IdGraph

end ProofWalk
