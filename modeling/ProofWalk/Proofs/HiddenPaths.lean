import Mathlib.Data.List.Perm.Basic
import ProofWalk.Graph.Prune
import ProofWalk.Proofs.ExactNumbers
import ProofWalk.Proofs.Lists
/-!
# Proofs.HiddenPaths — what paths through removed states carry

Following paths depth first delivers mass to survivors in some order (`follow_eq`).  What it delivers to one
survivor is what the sequences of edges carry that lead to it through removed states only (`delivered_perm`), so the
masses that are collected are their sums.
-/
namespace ProofWalk

namespace IdGraph

variable {K : Type}

/-! ## Sequences of edges

`trails` lists the sequences of one up to so many edges that begin at a state.  An edge is told by where it leads
and by its share, so that two edges to one state are two edges and make different sequences.  `Bridging` singles out
those that lead to the target with removed states in between, at none of which the mass has fallen below the
threshold. -/

/-- **The sequences of edges that begin at a state**, of one up to so many edges.  An edge is told by where it leads
and by its share; two edges to one state are two edges. -/
def trails (next : Nat → List (Nat × K)) : Nat → Nat → List (List (Nat × K))
  | 0, _ => []
  | n + 1, x => (next x).flatMap fun e => [e] :: (trails next n e.1).map (e :: ·)

def IsTrail (next : Nat → List (Nat × K)) : Nat → List (Nat × K) → Prop
  | _, [] => True
  | x, e :: rest => e ∈ next x ∧ IsTrail next e.1 rest

theorem mem_trails {next : Nat → List (Nat × K)} {n x : Nat} {trail : List (Nat × K)} :
    trail ∈ trails next n x ↔ trail ≠ [] ∧ trail.length ≤ n ∧ IsTrail next x trail := by
  induction n generalizing x trail with
  | zero =>
    simp only [trails, List.not_mem_nil, false_iff]
    rintro ⟨hne, hlength, -⟩
    exact hne (List.length_eq_zero_iff.1 (Nat.le_zero.1 hlength))
  | succ n ih =>
    simp only [trails, List.mem_flatMap, List.mem_cons, List.mem_map]
    constructor
    · rintro ⟨e, he, rfl | ⟨rest, hrest, rfl⟩⟩
      · exact ⟨List.cons_ne_nil _ _, Nat.succ_le_succ n.zero_le, he, trivial⟩
      · obtain ⟨-, hlength, htrail⟩ := ih.1 hrest
        exact ⟨List.cons_ne_nil _ _, Nat.succ_le_succ hlength, he, htrail⟩
    · rintro ⟨hne, hlength, htrail⟩
      cases trail with
      | nil => exact absurd rfl hne
      | cons e rest =>
        refine ⟨e, htrail.1, ?_⟩
        cases rest with
        | nil => exact .inl rfl
        | cons e' rest =>
          exact .inr ⟨e' :: rest, ih.2 ⟨List.cons_ne_nil _ _, Nat.le_of_succ_le_succ hlength, htrail.2⟩, rfl⟩

variable [Scalar K]

def masses (attenuation mass : K) (trail : List (Nat × K)) :
    List K := trail.scanl (fun m e => m * e.2 * attenuation) mass

/-- **Whether a sequence of edges bridges removed states**: it leads to the target, all states in between are
removed, and at none of them has the mass fallen below the threshold. -/
structure Bridging (survives : Nat → Bool) (attenuation epsilon : K) (target : Nat) (mass : K)
    (trail : List (Nat × K)) : Prop where
  target : trail.getLast?.map (·.1) = some target
  hidden : ∀ e ∈ trail.dropLast, survives e.1 = false
  heavy : ∀ m ∈ (masses attenuation mass trail).dropLast, ¬m < epsilon

variable {survives : Nat → Bool} {attenuation epsilon mass : K} {target : Nat}

theorem bridging_iff {trail : List (Nat × K)} : Bridging survives attenuation epsilon target mass trail ↔
    trail.getLast?.map (·.1) = some target ∧ (∀ e ∈ trail.dropLast, survives e.1 = false) ∧
      ∀ m ∈ (masses attenuation mass trail).dropLast, ¬m < epsilon :=
  ⟨fun h => ⟨h.target, h.hidden, h.heavy⟩, fun h => ⟨h.1, h.2.1, h.2.2⟩⟩

instance (trail : List (Nat × K)) : Decidable (Bridging survives attenuation epsilon target mass trail) :=
  decidable_of_iff _ bridging_iff.symm

theorem masses_cons (e : Nat × K) (rest : List (Nat × K)) :
    masses attenuation mass (e :: rest) = mass :: masses attenuation (mass * e.2 * attenuation) rest :=
  List.scanl_cons

theorem masses_ne_nil (trail : List (Nat × K)) : masses attenuation mass trail ≠ [] := List.scanl_ne_nil

theorem bridging_single (survives : Nat → Bool) (attenuation : K) (e : Nat × K) :
    Bridging survives attenuation epsilon target mass [e] ↔ e.1 = target ∧ ¬mass < epsilon := by
  simp [bridging_iff, masses]

theorem bridging_cons (e e' : Nat × K) (rest : List (Nat × K)) :
    Bridging survives attenuation epsilon target mass (e :: e' :: rest) ↔ survives e.1 = false ∧ ¬mass < epsilon ∧
      Bridging survives attenuation epsilon target (mass * e.2 * attenuation) (e' :: rest) := by
  rw [bridging_iff, bridging_iff, masses_cons, List.dropLast_cons_of_ne_nil (masses_ne_nil _)]
  simp only [List.getLast?_cons_cons, List.dropLast_cons_cons, List.forall_mem_cons]
  tauto

/-- **What the sequences of edges carry to a target**, from a state that is reached with some mass, over at most so
many removed states; one number for each sequence. -/
def carried (survives : Nat → Bool) (next : Nat → List (Nat × K)) (attenuation epsilon : K)
    (target hops x : Nat) (mass : K) : List K :=
  ((trails next hops x).filter fun trail => Bridging survives attenuation epsilon target mass trail).map
    fun trail => (masses attenuation mass trail).getLast (masses_ne_nil trail)

variable {next : Nat → List (Nat × K)}

theorem carried_succ (hops x : Nat) : carried survives next attenuation epsilon target (hops + 1) x mass =
    (next x).flatMap fun e => (if e.1 = target ∧ ¬mass < epsilon then [mass * e.2 * attenuation] else []) ++
      if survives e.1 = false ∧ ¬mass < epsilon then
        carried survives next attenuation epsilon target hops e.1 (mass * e.2 * attenuation) else [] := by
  rw [carried, trails, List.filter_flatMap, List.map_flatMap]
  refine List.flatMap_congr fun e _ => ?_
  -- the longer sequences by `e` go on from where it leads, with the mass that is left
  have hsplit : ∀ trail ∈ trails next hops e.1, Bridging survives attenuation epsilon target mass (e :: trail) ↔
      (survives e.1 = false ∧ ¬mass < epsilon) ∧
        Bridging survives attenuation epsilon target (mass * e.2 * attenuation) trail := by
    intro trail htrail
    obtain ⟨hne, -⟩ := mem_trails.1 htrail
    cases trail with
    | nil => exact absurd rfl hne
    | cons e' rest => rw [bridging_cons, and_assoc]
  have hlast : ∀ trail, (masses attenuation mass (e :: trail)).getLast (masses_ne_nil _) =
      (masses attenuation (mass * e.2 * attenuation) trail).getLast (masses_ne_nil _) := by
    intro trail
    simp only [masses_cons, List.getLast_cons (masses_ne_nil trail)]
  have hrest : (((trails next hops e.1).map (e :: ·)).filter fun trail =>
        Bridging survives attenuation epsilon target mass trail).map
        (fun trail => (masses attenuation mass trail).getLast (masses_ne_nil trail)) =
      if survives e.1 = false ∧ ¬mass < epsilon then
        carried survives next attenuation epsilon target hops e.1 (mass * e.2 * attenuation) else [] := by
    rw [List.filter_map, List.map_map]
    simp only [Function.comp_def]
    split
    · rename_i hopen
      unfold carried
      rw [List.filter_congr fun trail htrail =>
        decide_eq_decide.2 ((hsplit trail htrail).trans (and_iff_right hopen))]
      exact List.map_congr_left fun trail _ => hlast trail
    · rename_i hclosed
      rw [List.filter_eq_nil_iff.2 fun trail htrail h => hclosed ((hsplit trail htrail).1 (of_decide_eq_true h)).1]
      rfl
  rw [← hrest, List.filter_cons]
  by_cases hsingle : e.1 = target ∧ ¬mass < epsilon
  · have hbridging := decide_eq_true ((bridging_single survives attenuation e).2 hsingle)
    rw [if_pos hbridging, if_pos hsingle]
    rfl
  · rw [if_neg (fun h => hsingle ((bridging_single survives attenuation e).1 (of_decide_eq_true h))),
      if_neg hsingle]
    rfl

/-! ## Depth first

The program adds the mass of edges to survivors first and then goes on from each removed state.  The list of what it
delivers is therefore in another order than the sequences, and the induction shows that it is a permutation of them. -/

def delivered (survives : Nat → Bool) (next : Nat → List (Nat × K)) (attenuation epsilon : K) :
    Nat → Nat → K → List (Nat × K)
  | 0, _, _ => []
  | hops + 1, x, mass =>
    if mass < epsilon then []
    else ((next x).filter fun e => survives e.1).map (fun e => (e.1, mass * e.2 * attenuation)) ++
      (onward survives attenuation mass (next x)).flatMap fun e =>
        delivered survives next attenuation epsilon hops e.1 e.2

def Virtual.addAll (v : Virtual K) (l : List (Nat × K)) : Virtual K := l.foldl (fun v e => v.add e.1 e.2) v

theorem passOn_eq (edges : List (Nat × K)) (v : Virtual K) : passOn survives attenuation mass edges v =
    v.addAll ((edges.filter fun e => survives e.1).map fun e => (e.1, mass * e.2 * attenuation)) := by
  induction edges generalizing v with
  | nil => rfl
  | cons e rest ih =>
    rw [passOn, ih]
    cases h : survives e.1 with
    | false => simp [h]
    | true => simp [h, Virtual.addAll]

theorem follow_eq (transitions : Slots (List (Nat × K))) (hops x : Nat) (mass : K) (v : Virtual K) :
    follow survives transitions attenuation epsilon hops x mass v =
      v.addAll (delivered survives (fun x => (transitions.get? x).getD []) attenuation epsilon hops x mass) := by
  induction hops generalizing x mass v with
  | zero => rfl
  | succ hops ih =>
    rw [follow, delivered]
    split
    · rfl
    · simp only [passOn_eq, ih, Virtual.addAll, List.foldl_append, List.foldl_flatMap]

/-- **What is delivered to a survivor is what the sequences of edges to it carry**, in another order. -/
theorem delivered_perm (htarget : survives target = true) (hops x : Nat) (mass : K) :
    (((delivered survives next attenuation epsilon hops x mass).filter (·.1 == target)).map (·.2)).Perm
      (carried survives next attenuation epsilon target hops x mass) := by
  induction hops generalizing x mass with
  | zero => exact .refl _
  | succ hops ih =>
    rw [delivered, carried_succ]
    by_cases hlight : mass < epsilon
    · simp [hlight]
    · simp only [hlight, if_false, not_false_eq_true, and_true, List.filter_append, List.map_append]
      have hhere : ((((next x).filter fun e => survives e.1).map fun e => (e.1, mass * e.2 * attenuation)).filter
            (·.1 == target)).map (·.2) =
          (next x).flatMap fun e => if e.1 = target then [mass * e.2 * attenuation] else [] := by
        induction next x with
        | nil => rfl
        | cons e rest ih =>
          by_cases h : e.1 = target
          · simp [h, htarget, ih]
          · cases hs : survives e.1 with
            | false => simp [h, hs, ih]
            | true => simp [h, hs, ih]
      have hfurther : (((onward survives attenuation mass (next x)).flatMap fun e =>
            delivered survives next attenuation epsilon hops e.1 e.2).filter (·.1 == target)).map (·.2) |>.Perm
          ((next x).flatMap fun e => if survives e.1 = false then
            carried survives next attenuation epsilon target hops e.1 (mass * e.2 * attenuation) else []) := by
        rw [List.filter_flatMap, List.map_flatMap, onward]
        -- what is put on a stack is taken from it in reverse
        refine ((List.reverse_perm _).flatMap_right _).trans ?_
        rw [List.flatMap_map, filter_flatMap_eq]
        refine List.Perm.flatMap_left _ fun e _ => ?_
        cases survives e.1 with
        | true => exact .refl _
        | false => exact ih e.1 _
      rw [hhere]
      exact (hfurther.append_left _).trans (List.flatMap_append_perm ..)

/-! ## Collected masses

Where nothing is delivered to a survivor it has no mass at all, which is not the same as the mass zero. -/

def collected : List K → Option K
  | [] => none
  | xs => some (Scalar.sum xs)

end IdGraph

/-! ## Exact sums

For exact numbers permuted deliveries have the same sum. -/

namespace IdGraph

variable {K : Type} [Field K] [LinearOrder K] [FloorSemiring K] {survives : Nat → Bool}
  {next next' : Nat → List (Nat × K)} {attenuation epsilon : K}

theorem collected_perm {xs ys : List K} (h : xs.Perm ys) : collected xs = collected ys := by
  have hsum : Scalar.sum xs = Scalar.sum ys := by rw [Scalar.sum_eq, Scalar.sum_eq, h.sum_eq]
  cases xs with
  | nil => rw [h.nil_eq]
  | cons x xs =>
    cases ys with
    | nil => exact absurd h.symm.nil_eq nofun
    | cons y ys => exact congrArg some hsum

theorem getElem?_addAll (v : Virtual K) (l : List (Nat × K)) (id : Nat) :
    (v.addAll l)[id]? = collected (v[id]?.toList ++ (l.filter (·.1 == id)).map (·.2)) := by
  induction l generalizing v with
  | nil =>
    cases hold : v[id]? with
    | none => simp [Virtual.addAll, hold, collected]
    | some x => simp [Virtual.addAll, hold, collected, Scalar.sum_eq]
  | cons e rest ih =>
    have hstep : v.addAll (e :: rest) = (v.add e.1 e.2).addAll rest := rfl
    rw [hstep, ih]
    by_cases hid : e.1 = id
    · subst hid
      have hnew : (v.add e.1 e.2)[e.1]? = some (v[e.1]?.getD 0 + e.2) := SortedMap.getElem?_upsert_self ..
      cases hold : v[e.1]? with
      | none => simp [hnew, hold, collected, Scalar.sum_eq]
      | some x => simp [hnew, hold, collected, Scalar.sum_eq, add_assoc]
    · have hsame : (v.add e.1 e.2)[id]? = v[id]? := SortedMap.getElem?_upsert_of_ne _ _ (Ne.symm hid)
      have hskip : ((e :: rest).filter (·.1 == id)) = rest.filter (·.1 == id) :=
        List.filter_cons_of_neg (by simpa using hid)
      rw [hsame, hskip]

end IdGraph

end ProofWalk
