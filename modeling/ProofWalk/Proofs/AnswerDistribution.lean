import Mathlib.Algebra.BigOperators.Ring.List
import ProofWalk.Proofs.MergedAnswers
/-!
# Proofs.AnswerDistribution — answers as a distribution

A result spreads mass over the states of a graph.  Its answers are the goals that completed states with mass are
rendered to, each once, with the share of its states in the mass of all completed ones (`all_distribution`).  What a
tally keeps for a goal is the mass of the goal's states and the least state of greatest mass (`Tallied`, `Leading`);
that the shares sum to one is a sum over goals taken apart into sums over states (`sum_groups`).

The proof goes through the list of single answers that the entries of a result give (`answering`), from which the
tally is made.  It says what this list has to do with the result, what the tally makes of a list, and then puts the
two together.
-/
namespace ProofWalk

namespace Answer

variable {K : Type} [Field K] [LinearOrder K] [FloorSemiring K]

/-! ## What states are rendered to

`rendered` is the goal of a completed state and `massOn` the mass that a result has on the states with some
property.  An entry gives an answer just if its state is rendered and has mass, and sums over answers are sums over
the states that are rendered to their goals. -/

/-- **The goal that a state of a graph answers with**, if it is completed. -/
def rendered (g : ProofGraph K) (id : Nat) : Option String :=
  match g.state? id with
  | some s => if s.completed then some (goalText g.machine.query g.machine.symbols s) else none
  | none => none

/-- **The mass that a result has on the states with a property.** -/
def massOn (result : ProofVector K) (p : Nat → Bool) : K := ((result.toList.filter fun e => p e.1).map (·.2)).sum

variable {g : ProofGraph K} {result : ProofVector K}

omit [Field K] [LinearOrder K] [FloorSemiring K] in
theorem rendered_eq_some {id : Nat} {goal : String} : rendered g id = some goal ↔
    ∃ s, g.state? id = some s ∧ s.completed = true ∧ goalText g.machine.query g.machine.symbols s = goal := by
  rw [rendered]
  split
  · rename_i s hs
    simp [hs]
  · rename_i hnone
    simp [hnone]

theorem rendered_of_mem {a : Answer K} (h : a ∈ answering g result) :
    rendered g a.state = some a.goal ∧ result[a.state]? = some a.probability ∧ 0 < a.probability := by
  obtain ⟨s, hs, hcompleted, hmass, hpos, ha⟩ := mem_answering.1 h
  exact ⟨rendered_eq_some.2 ⟨s, hs, hcompleted, (congrArg Answer.goal ha).symm⟩, hmass, hpos⟩

theorem mem_of_rendered {id : Nat} {goal : String} {mass : K} (h : rendered g id = some goal)
    (hmass : result[id]? = some mass) (hpos : 0 < mass) :
    ∃ a ∈ answering g result, a.goal = goal ∧ a.state = id ∧ a.probability = mass := by
  obtain ⟨s, hs, hcompleted, hgoal⟩ := rendered_eq_some.1 h
  exact ⟨ofState g.machine.query g.machine.symbols s id mass,
    mem_answering.2 ⟨s, hs, hcompleted, hmass, hpos, rfl⟩, hgoal, rfl, rfl⟩

def answerOf (g : ProofGraph K) (e : Nat × K) : Option (Answer K) :=
  match g.state? e.1 with
  | some s =>
    if s.completed && !decide (e.2 ≤ (0 : K))
      then some (ofState g.machine.query g.machine.symbols s e.1 e.2) else none
  | none => none

theorem answering_eq (g : ProofGraph K) (result : ProofVector K) :
    answering g result = result.toList.filterMap (answerOf g) := rfl

theorem answerOf_eq_some {e : Nat × K} {a : Answer K} (h : answerOf g e = some a) :
    rendered g e.1 = some a.goal ∧ a.state = e.1 ∧ a.probability = e.2 := by
  rw [answerOf] at h
  split at h
  · rename_i s hs
    split at h
    · rename_i hbears
      cases h
      exact ⟨rendered_eq_some.2 ⟨s, hs, (Bool.and_eq_true _ _ ▸ hbears).1, rfl⟩, rfl, rfl⟩
    · cases h
  · cases h

theorem answerOf_eq_none {e : Nat × K} {goal : String} (h : answerOf g e = none)
    (hrendered : rendered g e.1 = some goal) : e.2 ≤ 0 := by
  obtain ⟨s, hs, hcompleted, -⟩ := rendered_eq_some.1 hrendered
  rw [answerOf, hs] at h
  dsimp only at h
  split at h
  · cases h
  · rename_i hbears
    rw [hcompleted, Bool.true_and, Bool.not_eq_true', Bool.not_eq_false, decide_eq_true_eq] at hbears
    exact hbears

theorem ascending_answering (g : ProofGraph K) (result : ProofVector K) :
    (answering g result).Pairwise fun a b => a.state < b.state := by
  rw [answering_eq]
  refine List.pairwise_filterMap.2 ((SortedMap.ascending_toList result).imp fun {e f} hlt a ha b hb => ?_)
  rw [(answerOf_eq_some ha).2.1, (answerOf_eq_some hb).2.1]
  exact hlt

theorem sum_filterMap_answerOf (p : String → Bool) : ∀ {l : List (Nat × K)}, (∀ e ∈ l, 0 ≤ e.2) →
    (((l.filterMap (answerOf g)).filter fun a => p a.goal).map Answer.probability).sum =
      ((l.filter fun e => (rendered g e.1).any p).map (·.2)).sum
  | [], _ => rfl
  | e :: l, h => by
    obtain ⟨hpos, hrest⟩ := List.forall_mem_cons.1 h
    have ih := sum_filterMap_answerOf p hrest
    cases hgives : answerOf g e with
    | none =>
      rw [List.filterMap_cons_none hgives, ih]
      by_cases hp : (rendered g e.1).any p = true
      · obtain ⟨goal, hgoal, -⟩ := (Option.any_eq_true ..).1 hp
        have hzero : e.2 = 0 := le_antisymm (answerOf_eq_none hgives hgoal) hpos
        rw [List.filter_cons_of_pos (by exact hp), List.map_cons, List.sum_cons, hzero, zero_add]
      · rw [List.filter_cons_of_neg (by exact hp)]
    | some a =>
      obtain ⟨hgoal, -, hmass⟩ := answerOf_eq_some hgives
      have hany : (rendered g e.1).any p = p a.goal := by rw [hgoal, Option.any_some]
      rw [List.filterMap_cons_some hgives]
      by_cases hp : p a.goal = true
      · rw [List.filter_cons_of_pos (by exact hp), List.filter_cons_of_pos (by exact hany.trans hp),
          List.map_cons, List.sum_cons, List.map_cons, List.sum_cons, ih, hmass]
      · rw [List.filter_cons_of_neg (by exact hp), List.filter_cons_of_neg (by rw [hany]; exact hp), ih]

theorem any_eq_decide (o : Option String) (goal : String) :
    (o.any fun text => decide (text = goal)) = decide (o = some goal) := by
  cases o with
  | none => rfl
  | some text => simp

theorem sum_answering (hnonneg : ∀ (id : Nat) (mass : K), result[id]? = some mass → 0 ≤ mass) (p : String → Bool) :
    (((answering g result).filter fun a => p a.goal).map Answer.probability).sum =
      massOn result fun id => (rendered g id).any p :=
  sum_filterMap_answerOf p fun e he => hnonneg e.1 e.2 (Std.ExtTreeMap.mem_toList_iff_getElem?_eq_some.1 he)

/-! ## Who leads a goal

Answers come by ascending state, so that a later state takes the lead only with more mass.  That makes the leader of
a goal the least of its states with the greatest mass. -/

/-- **What a tally holds of the states of a goal**: the least of those with the greatest mass. -/
structure Leading (as : List (Answer K)) (goal : String) (v : Answer K × K) : Prop where
  holds : ∃ a ∈ as, a.goal = goal ∧ a.state = v.1.state ∧ a.probability = v.2
  greatest : ∀ b ∈ as, b.goal = goal → b.probability ≤ v.2
  least : ∀ b ∈ as, b.goal = goal → b.probability = v.2 → v.1.state ≤ b.state

/-- **Where answers come by ascending state**, the entry of a goal is led by the least state of greatest mass: a
later one takes its place only with more. -/
theorem leading_of_getElem? {as : List (Answer K)} (hascending : as.Pairwise fun a b => a.state < b.state)
    {goal : String} {v : Answer K × K} (h : (tally as).byGoal[goal]? = some v) : Leading as goal v := by
  induction as using List.reverseRecOn generalizing v with
  | nil => cases h
  | append_singleton as a ih =>
    obtain ⟨hbefore, -, hlast⟩ := List.pairwise_append.1 hascending
    have hlast : ∀ b ∈ as, b.state < a.state := fun b hb => hlast b hb a List.mem_cons_self
    have hmem : ∀ {P : Answer K → Prop}, (∀ b ∈ as, P b) → P a → ∀ b ∈ as ++ [a], P b := fun hall ha b hb =>
      (List.mem_append.1 hb).elim (hall b) fun hb => List.mem_singleton.1 hb ▸ ha
    rw [tally_append, Tally.add] at h
    dsimp only at h
    by_cases hgoal : goal = a.goal
    · subst hgoal
      rw [SortedMap.getElem?_upsert_self, Option.some.injEq] at h
      rcases tally_spec as a.goal with ⟨hnone, hother⟩ | ⟨⟨b, best⟩, hold, -⟩
      · -- the first state of its goal
        rw [hnone] at h
        cases h
        exact ⟨⟨a, List.mem_append_right _ List.mem_cons_self, rfl, rfl, rfl⟩,
          hmem (fun b hb he => absurd he (hother b hb)) fun _ => le_rfl,
          hmem (fun b hb he => absurd he (hother b hb)) fun _ _ => le_rfl⟩
      · have hleading := ih hbefore hold
        rw [hold] at h
        dsimp only at h
        split at h
        · rename_i hmore
          cases h
          exact ⟨⟨a, List.mem_append_right _ List.mem_cons_self, rfl, rfl, rfl⟩,
            hmem (fun c hc he => (hleading.greatest c hc he).trans hmore.le) fun _ => le_rfl,
            hmem (fun c hc he heq => absurd heq ((hleading.greatest c hc he).trans_lt hmore).ne) fun _ _ => le_rfl⟩
        · rename_i hless
          cases h
          obtain ⟨c, hc, hcgoal, hcstate, hcmass⟩ := hleading.holds
          refine ⟨⟨c, List.mem_append_left _ hc, hcgoal, hcstate, hcmass⟩,
            hmem hleading.greatest fun _ => le_of_not_gt hless, hmem hleading.least fun _ _ => ?_⟩
          exact hcstate ▸ (hlast c hc).le
    · rw [SortedMap.getElem?_upsert_of_ne _ _ hgoal] at h
      have hleading := ih hbefore h
      exact ⟨hleading.holds.imp fun b hb => ⟨List.mem_append_left _ hb.1, hb.2⟩,
        hmem hleading.greatest fun he => absurd he.symm hgoal, hmem hleading.least fun he => absurd he.symm hgoal⟩

/-! ## Shares

The sum of the masses of all answers is taken goal by goal; the goals are the keys of the tally and each occurs
once.  Dividing by the total mass, where there is any, gives shares that sum to one. -/

def shares (t : Tally K) : List (Answer K) :=
  t.byGoal.toList.map fun e => { e.2.1 with probability := e.2.1.probability / t.total }

theorem all_of_total_pos (h : 0 < (tally (answering g result)).total) :
    all g result = (shares (tally (answering g result))).mergeSort stands := by
  have hall : all g result = if (tally (answering g result)).total ≤ 0 then [] else
      ((tally (answering g result)).byGoal.values.map fun v =>
        { v.1 with probability := v.1.probability / (tally (answering g result)).total }).mergeSort stands := rfl
  rw [hall, if_neg (not_le_of_gt h), SortedMap.values_eq, List.map_map]
  rfl

theorem tallied_of_mem {as : List (Answer K)} {e : String × (Answer K × K)} (h : e ∈ (tally as).byGoal.toList) :
    Tallied as e.1 e.2 :=
  tallied_of_getElem? (Std.ExtTreeMap.mem_toList_iff_getElem?_eq_some.1 h)

theorem mem_keys_tally {as : List (Answer K)} {a : Answer K} (h : a ∈ as) :
    a.goal ∈ (tally as).byGoal.toList.map (·.1) := by
  rcases tally_spec as a.goal with ⟨-, hother⟩ | ⟨v, hv, -⟩
  · exact absurd rfl (hother a h)
  · exact List.mem_map.2 ⟨(a.goal, v), Std.ExtTreeMap.mem_toList_iff_getElem?_eq_some.2 hv, rfl⟩

/-- **A sum over different goals of the mass of each** is the mass of all answers, if their goals are among these. -/
theorem sum_groups {keys : List String} (hnodup : keys.Nodup) :
    ∀ {as : List (Answer K)}, (∀ a ∈ as, a.goal ∈ keys) →
    (keys.map fun k => ((as.filter fun a => a.goal = k).map Answer.probability).sum).sum =
      (as.map Answer.probability).sum
  | [], _ => by simp
  | a :: as, h => by
    obtain ⟨hkey, hrest⟩ := List.forall_mem_cons.1 h
    have hsplit : ∀ k, (((a :: as).filter fun a => a.goal = k).map Answer.probability).sum =
        (if k = a.goal then a.probability else 0) + ((as.filter fun a => a.goal = k).map Answer.probability).sum :=
          fun k => by
      by_cases hk : k = a.goal
      · simp [hk]
      · rw [List.filter_cons_of_neg (by simpa using fun he => hk he.symm), if_neg hk, zero_add]
    have hone : (keys.map fun k => if k = a.goal then a.probability else 0).sum = a.probability := by
      simpa [List.count_eq_one_of_mem hnodup hkey] using List.sum_map_ite_eq keys
        (fun _ => a.probability) (fun _ => 0) a.goal
    rw [List.map_congr_left fun k _ => hsplit k, List.sum_map_add, hone, sum_groups hnodup hrest,
      List.map_cons, List.sum_cons]

omit [Field K] [LinearOrder K] [FloorSemiring K] in
theorem keys_nodup (t : Tally K) : (t.byGoal.toList.map (·.1)).Nodup :=
  List.pairwise_map.2 (Std.ExtTreeMap.distinct_keys_toList.imp fun {e f} h he =>
    h (by rw [he]; exact Std.ReflCmp.compare_self))

/-- **The shares of a tally sum to one**, if there is any mass. -/
theorem sum_shares {as : List (Answer K)} (h : 0 < (tally as).total) :
    ((shares (tally as)).map Answer.probability).sum = 1 := by
  have hgroups : (tally as).byGoal.toList.map (fun e => e.2.1.probability) =
      ((tally as).byGoal.toList.map (·.1)).map fun k =>
        ((as.filter fun a => a.goal = k).map Answer.probability).sum := by
    rw [List.map_map]
    exact List.map_congr_left fun e he => (tallied_of_mem he).probability
  have hsum : ((tally as).byGoal.toList.map fun e => e.2.1.probability).sum = (tally as).total := by
    rw [hgroups, sum_groups (keys_nodup _) fun a ha => mem_keys_tally ha, total_tally]
  rw [shares, List.map_map]
  calc ((tally as).byGoal.toList.map fun e => e.2.1.probability / (tally as).total).sum
      = ((tally as).byGoal.toList.map fun e => e.2.1.probability).sum / (tally as).total := by
        simp only [div_eq_mul_inv]
        exact List.sum_map_mul_right ..
    _ = 1 := by rw [hsum, div_self h.ne']

theorem shares_goals_ne (as : List (Answer K)) : (shares (tally as)).Pairwise fun a b => a.goal ≠ b.goal := by
  refine List.pairwise_map.2 ((List.pairwise_map.1 (keys_nodup (tally as))).imp_of_mem fun {e f} he hf hne => ?_)
  rw [(tallied_of_mem he).goal_eq, (tallied_of_mem hf).goal_eq]
  exact hne

/-! ## The order of answers

Answers are sorted by an order that is total and transitive, and the sorted list is a permutation of the shares. -/

theorem stands_eq_true {a b : Answer K} :
    stands a b = true ↔ b.probability < a.probability ∨ a.probability = b.probability ∧ a.goal ≤ b.goal := by
  have horder : Scalar.order b.probability a.probability = compare b.probability a.probability := rfl
  rcases lt_trichotomy b.probability a.probability with hlt | heq | hgt
  · have hfirst : stands a b = true := by rw [stands, horder, compare_lt_iff_lt.2 hlt]
    exact iff_of_true hfirst (.inl hlt)
  · have htie : stands a b = decide (a.goal ≤ b.goal) := by rw [stands, horder, compare_eq_iff_eq.2 heq]
    simp [htie, heq]
  · have hlast : stands a b = false := by rw [stands, horder, compare_gt_iff_gt.2 hgt]
    exact iff_of_false (by simp [hlast]) fun h => h.elim (lt_asymm hgt) fun h => hgt.ne h.1

theorem stands_trans (a b c : Answer K) (hab : stands a b = true) (hbc : stands b c = true) :
    stands a c = true := by
  rw [stands_eq_true] at *
  rcases hab with hab | ⟨hab, hgoal⟩ <;> rcases hbc with hbc | ⟨hbc, hgoal'⟩
  · exact .inl (hbc.trans hab)
  · exact .inl (hbc ▸ hab)
  · exact .inl (hab ▸ hbc)
  · exact .inr ⟨hab.trans hbc, String.le_trans hgoal hgoal'⟩

theorem stands_total (a b : Answer K) : (stands a b || stands b a) = true := by
  rw [Bool.or_eq_true, stands_eq_true, stands_eq_true]
  rcases lt_trichotomy b.probability a.probability with hlt | heq | hgt
  · exact .inl (.inl hlt)
  · exact (String.le_total a.goal b.goal).imp (fun h => .inr ⟨heq.symm, h⟩) fun h => .inr ⟨heq, h⟩
  · exact .inr (.inl hgt)

/-! ## The distribution

The result is put back in the place of the list: the masses of answers are the masses of states, and mass on states
that are not completed counts nowhere (`all_congr`). -/

theorem answering_eq_nil
    (h : ∀ (id : Nat) (goal : String) (mass : K), rendered g id = some goal → result[id]? = some mass → mass ≤ 0) :
    answering g result = [] :=
  List.eq_nil_iff_forall_not_mem.2 fun a ha => by
    obtain ⟨hrendered, hmass, hpos⟩ := rendered_of_mem ha
    exact absurd hpos (not_lt_of_ge (h _ _ _ hrendered hmass))

theorem all_congr {result' : ProofVector K}
    (h : ∀ (id : Nat) (goal : String), rendered g id = some goal → ∀ mass : K, 0 < mass →
    (result'[id]? = some mass ↔ result[id]? = some mass)) : all g result' = all g result := by
  have hnodup : ∀ result : ProofVector K, (answering g result).Nodup := fun result =>
    (ascending_answering g result).imp fun hlt heq => by rw [heq] at hlt; exact lt_irrefl _ hlt
  have hmem : ∀ a, a ∈ answering g result' ↔ a ∈ answering g result := fun a => by
    rw [mem_answering, mem_answering]
    refine exists_congr fun s => and_congr_right fun hs => and_congr_right fun hcompleted => ?_
    rw [and_left_comm, and_left_comm (a := result[a.state]? = _)]
    exact and_congr_right fun hpos => and_congr_left fun _ =>
      h a.state _ (rendered_eq_some.2 ⟨s, hs, hcompleted, rfl⟩) _ hpos
  have hsame : answering g result' = answering g result :=
    List.Perm.eq_of_pairwise (fun a b _ _ hab hba => absurd hab (lt_asymm hba)) (ascending_answering g result')
      (ascending_answering g result) ((List.perm_ext_iff_of_nodup (hnodup _) (hnodup _)).2 hmem)
  rw [all, hsame]
  rfl

theorem Leading.leads {goal : String} {v : Answer K × K} (h : Leading (answering g result) goal v) :
    ∃ mass : K, rendered g v.1.state = some goal ∧ result[v.1.state]? = some mass ∧
      ∀ (id : Nat) (mass' : K), rendered g id = some goal → result[id]? = some mass' →
        mass' ≤ mass ∧ (mass' = mass → v.1.state ≤ id) := by
  obtain ⟨c, hc, hgoal, hstate, hbest⟩ := h.holds
  obtain ⟨hrendered, hmass, hpos⟩ := rendered_of_mem hc
  refine ⟨c.probability, by rw [← hstate, hrendered, hgoal], by rw [← hstate, hmass], fun id mass' hrendered' hmass' => ?_⟩
  rcases le_or_gt mass' 0 with hnone | hsome
  · exact ⟨hnone.trans hpos.le, fun heq => absurd (heq ▸ hnone) (not_le_of_gt hpos)⟩
  · obtain ⟨d, hd, hdgoal, rfl, rfl⟩ := mem_of_rendered hrendered' hmass' hsome
    exact ⟨hbest ▸ h.greatest d hd hdgoal, fun heq => h.least d hd hdgoal (heq.trans hbest)⟩

theorem Tallied.eq_massOn (hnonneg : ∀ (id : Nat) (mass : K), result[id]? = some mass → 0 ≤ mass)
    {goal : String} {v : Answer K × K} (h : Tallied (answering g result) goal v) :
    v.1.probability = massOn result fun id => rendered g id = some goal := by
  rw [h.probability, sum_answering hnonneg fun text => text = goal]
  exact congrArg (massOn result) (funext fun id => any_eq_decide _ _)

theorem total_eq_massOn (hnonneg : ∀ (id : Nat) (mass : K), result[id]? = some mass → 0 ≤ mass) :
    (tally (answering g result)).total = massOn result fun id => (rendered g id).isSome := by
  have hall := sum_answering (g := g) hnonneg fun _ => true
  rw [List.filter_eq_self.2 fun _ _ => rfl] at hall
  rw [total_tally, hall]
  exact congrArg (massOn result) (funext fun id => by cases rendered g id <;> rfl)

variable [IsStrictOrderedRing K]

theorem Tallied.probability_pos {goal : String} {v : Answer K × K} (h : Tallied (answering g result) goal v)
    (hleading : Leading (answering g result) goal v) : 0 < v.1.probability := by
  obtain ⟨c, hc, hgoal, -⟩ := hleading.holds
  rw [h.probability]
  refine List.sum_pos _ (List.forall_mem_map.2 fun b hb => ?_)
    (List.ne_nil_of_mem (List.mem_map_of_mem (a := c) ?_))
  · exact (rendered_of_mem (List.mem_of_mem_filter hb)).2.2
  · exact List.mem_filter.2 ⟨hc, decide_eq_true hgoal⟩

theorem exists_mem_all_iff {goal : String} : (∃ b ∈ all g result, b.goal = goal) ↔
    ∃ (id : Nat) (mass : K), rendered g id = some goal ∧ result[id]? = some mass ∧ 0 < mass := by
  constructor
  · rintro ⟨b, hb, rfl⟩
    obtain ⟨-, goal, v, hv, rfl⟩ := mem_all.1 hb
    obtain ⟨c, hc, hgoal, -⟩ := (leading_of_getElem? (ascending_answering g result) hv).holds
    obtain ⟨hrendered, hmass, hpos⟩ := rendered_of_mem hc
    exact ⟨c.state, c.probability,
      hrendered.trans (congrArg some (hgoal.trans (tallied_of_getElem? hv).goal_eq.symm)), hmass, hpos⟩
  · rintro ⟨id, mass, hrendered, hmass, hpos⟩
    obtain ⟨c, hc, rfl, -⟩ := mem_of_rendered hrendered hmass hpos
    obtain ⟨⟨_, v⟩, hv, rfl⟩ := List.mem_map.1 (mem_keys_tally hc)
    exact ⟨_, mem_all.2 ⟨total_pos hc, _, v, Std.ExtTreeMap.mem_toList_iff_getElem?_eq_some.1 hv, rfl⟩,
      (tallied_of_mem hv).goal_eq⟩

/-- **Answers are a distribution over goals.**  For a result without negative masses: if no completed state has
mass, there are no answers.  Otherwise the answers have different goals, the more probable come first and equally
probable ones by goal, and their probabilities sum to one; the goals are those that completed states with mass are
rendered to, and each has its states' share in the mass of all completed states, which is positive, and for its
state the least of those with the greatest mass.  Only the mass of completed states counts. -/
theorem all_distribution (hnonneg : ∀ (id : Nat) (mass : K), result[id]? = some mass → 0 ≤ mass) :
    ((∀ (id : Nat) (goal : String) (mass : K), rendered g id = some goal → result[id]? = some mass → mass ≤ 0) →
      all g result = []) ∧
    ((∃ (id : Nat) (goal : String) (mass : K), rendered g id = some goal ∧ result[id]? = some mass ∧ 0 < mass) →
      ((all g result).Pairwise fun a b => a.goal ≠ b.goal) ∧
      ((all g result).Pairwise fun a b => b.probability < a.probability ∨
        a.probability = b.probability ∧ a.goal < b.goal) ∧
      ((all g result).map Answer.probability).sum = 1 ∧
      (∀ goal, (∃ b ∈ all g result, b.goal = goal) ↔
        ∃ (id : Nat) (mass : K), rendered g id = some goal ∧ result[id]? = some mass ∧ 0 < mass) ∧
      ∀ b ∈ all g result, 0 < b.probability ∧
        b.probability = massOn result (fun id => rendered g id = some b.goal) /
          massOn result (fun id => (rendered g id).isSome) ∧
        ∃ mass : K, rendered g b.state = some b.goal ∧ result[b.state]? = some mass ∧
          ∀ (id : Nat) (mass' : K), rendered g id = some b.goal → result[id]? = some mass' →
            mass' ≤ mass ∧ (mass' = mass → b.state ≤ id)) ∧
    ∀ result' : ProofVector K, (∀ (id : Nat) (goal : String), rendered g id = some goal → ∀ mass : K, 0 < mass →
      (result'[id]? = some mass ↔ result[id]? = some mass)) → all g result' = all g result := by
  refine ⟨fun hnone => ?_, fun ⟨id, goal, mass, hrendered, hmass, hpos⟩ => ?_, fun _ => all_congr⟩
  · rw [all, answering_eq_nil hnone]
    exact if_pos le_rfl
  obtain ⟨a, ha, -⟩ := mem_of_rendered hrendered hmass hpos
  have htotal := total_pos ha
  have hperm : (all g result).Perm (shares (tally (answering g result))) :=
    all_of_total_pos htotal ▸ List.mergeSort_perm ..
  have hne : (all g result).Pairwise fun a b => a.goal ≠ b.goal :=
    (hperm.pairwise_iff fun h => Ne.symm h).2 (shares_goals_ne _)
  have hsorted : (all g result).Pairwise fun a b => stands a b = true :=
    all_of_total_pos htotal ▸ List.pairwise_mergeSort stands_trans stands_total _
  refine ⟨hne, ?_, by rw [(hperm.map _).sum_eq, sum_shares htotal], fun goal => exists_mem_all_iff, fun b hb => ?_⟩
  · refine (hsorted.and hne).imp fun {a b} h => (stands_eq_true.1 h.1).imp_right fun heq => ⟨heq.1, ?_⟩
    exact Decidable.byContradiction fun hnot => h.2 (String.le_antisymm heq.2 (String.not_lt.1 hnot))
  · obtain ⟨-, goal, v, hv, rfl⟩ := mem_all.1 hb
    have htallied := tallied_of_getElem? hv
    have hleading := leading_of_getElem? (ascending_answering g result) hv
    obtain rfl := htallied.goal_eq
    refine ⟨div_pos (htallied.probability_pos hleading) htotal, ?_, hleading.leads⟩
    rw [← htallied.eq_massOn hnonneg, ← total_eq_massOn hnonneg]

/-- Mass on a state that is not completed and three that are, two of which are one answer. -/
theorem all_distribution_pairs : (∀ (id : Nat) (mass : ℚ), spread[id]? = some mass → 0 ≤ mass) ∧
    ∃ d, asked pairRules pairQuery [0] = some d ∧ spread[1]? = some (1 / 2 : ℚ) ∧ (0 : ℚ) < 1 / 2 ∧
      [0, 1, 2, 3].map (rendered d.graph) = [none, some "pair(a,_)", some "pair(a,_)", some "pair(d,_)"] ∧
      ((all d.graph spread).map Answer.probability).sum = 1 ∧
      ∃ b ∈ all d.graph spread, b.goal = "pair(a,_)" ∧ b.probability = 3 / 4 := by
  have hmasses : ∀ e ∈ spread.toList, (0 : ℚ) ≤ e.2 := by decide +kernel
  have hnonneg : ∀ (id : Nat) (mass : ℚ), spread[id]? = some mass → 0 ≤ mass := fun id mass h =>
    hmasses (id, mass) (Std.ExtTreeMap.mem_toList_iff_getElem?_eq_some.2 h)
  have hmass : spread[1]? = some (1 / 2 : ℚ) := by decide +kernel
  have hpos : (0 : ℚ) < 1 / 2 := by norm_num
  have hgraph : (asked pairRules pairQuery [0]).map (fun d => ([0, 1, 2, 3].map (rendered d.graph),
      massOn spread (fun id => rendered d.graph id = some "pair(a,_)"),
        massOn spread fun id => (rendered d.graph id).isSome)) =
      some ([none, some "pair(a,_)", some "pair(a,_)", some "pair(d,_)"], 3 / 4, 1) := by decide +kernel
  obtain ⟨d, hd, heq⟩ := Option.map_eq_some_iff.1 hgraph
  obtain ⟨hrendered, hmasses⟩ := Prod.mk.inj heq
  obtain ⟨hgoal, htotal⟩ := Prod.mk.inj hmasses
  have hone : rendered d.graph 1 = some "pair(a,_)" := (List.cons.inj (List.cons.inj hrendered).2).1
  obtain ⟨-, -, hsum, hgoals, hanswers⟩ :=
    (all_distribution hnonneg).2.1 ⟨1, "pair(a,_)", 1 / 2, hone, hmass, hpos⟩
  obtain ⟨b, hb, hbgoal⟩ := (hgoals "pair(a,_)").2 ⟨1, 1 / 2, hone, hmass, hpos⟩
  refine ⟨hnonneg, d, hd, hmass, hpos, hrendered, hsum, b, hb, hbgoal, ?_⟩
  rw [(hanswers b hb).2.1, hbgoal, hgoal, htotal, div_one]

end Answer

end ProofWalk
