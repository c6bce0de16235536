import Mathlib.Algebra.Order.BigOperators.Group.List
import Mathlib.Data.Rat.Floor
import ProofWalk.Proofs.AnswerTexts
import ProofWalk.Proofs.ExactNumbers
import ProofWalk.Proofs.RenumberedAnswers
/-!
# Proofs.MergedAnswers — which states are one answer

The tally of a result holds for each text of a goal the states that give it (`Tallied`).  Where texts tell what the
shown variables stand for, the answers are the classes of states that agree on these variables, each with the share
of its class in the mass (`answers_classify`).

Grouping by text is what the program does, and agreeing on the shown variables is what it is for.  The two are the
same on readable values, and a constant with a comma in its name or an unbound variable sets them apart
(`texts_misclassify`).
-/
namespace ProofWalk

namespace Answer

variable {K : Type} [Field K] [LinearOrder K] [FloorSemiring K]

/-! ## The tally

Answers come one by one, and each either begins the entry of its text or adds to it; so an entry has the mass of all
answers with its text, and the bindings and the state of one of them. -/

def tally (as : List (Answer K)) : Tally K := as.foldl Tally.add ⟨.empty, 0⟩

theorem tally_append (as : List (Answer K)) (a : Answer K) : tally (as ++ [a]) = (tally as).add a := by
  rw [tally, List.foldl_append]
  rfl

/-- **What a tally holds for the text of a goal**: an answer with the mass of all that have this text, whose
bindings and whose state are those of such answers. -/
structure Tallied (as : List (Answer K)) (goal : String) (v : Answer K × K) : Prop where
  goal_eq : v.1.goal = goal
  bindings : ∃ a ∈ as, a.goal = goal ∧ a.bindings = v.1.bindings
  state : ∃ a ∈ as, a.goal = goal ∧ a.state = v.1.state
  probability : v.1.probability = ((as.filter fun a => a.goal = goal).map Answer.probability).sum

theorem Tallied.append_of_ne {as : List (Answer K)} {goal : String} {v : Answer K × K}
    (h : Tallied as goal v) {a : Answer K} (ha : a.goal ≠ goal) : Tallied (as ++ [a]) goal v where
  goal_eq := h.goal_eq
  bindings := h.bindings.imp fun _ hb => ⟨List.mem_append_left _ hb.1, hb.2⟩
  state := h.state.imp fun _ hb => ⟨List.mem_append_left _ hb.1, hb.2⟩
  probability := by rw [h.probability, List.filter_append, List.filter_cons_of_neg (by simpa using ha),
    List.filter_nil, List.append_nil]

theorem total_tally (as : List (Answer K)) : (tally as).total = (as.map Answer.probability).sum := by
  induction as using List.reverseRecOn with
  | nil => rfl
  | append_singleton as a ih =>
    rw [tally_append, List.map_append, List.sum_append, ← ih, List.map_singleton, List.sum_singleton]
    rfl

/-- **Answers are tallied by the texts of their goals.** -/
theorem tally_spec (as : List (Answer K)) (goal : String) :
    (tally as).byGoal[goal]? = none ∧ (∀ a ∈ as, a.goal ≠ goal) ∨ ∃ v, (tally as).byGoal[goal]? =
      some v ∧ Tallied as goal v := by
  induction as using List.reverseRecOn with
  | nil => exact .inl ⟨rfl, nofun⟩
  | append_singleton as a ih =>
    rw [tally_append, Tally.add]
    by_cases hgoal : goal = a.goal
    · subst hgoal
      right
      have hlast : a ∈ as ++ [a] := List.mem_append_right _ List.mem_cons_self
      have hsum : (((as ++ [a]).filter fun b => b.goal = a.goal).map Answer.probability).sum =
          ((as.filter fun b => b.goal = a.goal).map Answer.probability).sum + a.probability := by
        rw [List.filter_append, List.map_append, List.sum_append,
          List.filter_cons_of_pos (by simp), List.filter_nil, List.map_singleton, List.sum_singleton]
      dsimp only
      rw [SortedMap.getElem?_upsert_self]
      refine ⟨_, rfl, ?_⟩
      rcases ih with ⟨hnone, hother⟩ | ⟨v, hv, h⟩
      · rw [hnone]
        refine ⟨rfl, ⟨a, hlast, rfl, rfl⟩, ⟨a, hlast, rfl, rfl⟩, ?_⟩
        rw [hsum, List.filter_eq_nil_iff.2 fun b hb => by simpa using hother b hb]
        exact (zero_add _).symm
      · obtain ⟨b, best⟩ := v
        rw [hv]
        dsimp only
        have hbindings := h.bindings.imp fun _ hc => (⟨List.mem_append_left [a] hc.1, hc.2⟩ : _ ∧ _)
        have hstate := h.state.imp fun _ hc => (⟨List.mem_append_left [a] hc.1, hc.2⟩ : _ ∧ _)
        have hprobability := (congrArg (· + a.probability) h.probability).trans hsum.symm
        split
        · exact ⟨h.goal_eq, hbindings, ⟨a, hlast, rfl, rfl⟩, hprobability⟩
        · exact ⟨h.goal_eq, hbindings, hstate, hprobability⟩
    · dsimp only
      rw [SortedMap.getElem?_upsert_of_ne _ _ hgoal]
      rcases ih with ⟨hnone, hother⟩ | ⟨v, hv, h⟩
      · refine .inl ⟨hnone, fun b hb => ?_⟩
        rcases List.mem_append.1 hb with hb | hb
        · exact hother b hb
        · exact fun he => hgoal (he ▸ (List.mem_singleton.1 hb) ▸ rfl)
      · exact .inr ⟨v, hv, h.append_of_ne (Ne.symm hgoal)⟩

theorem tallied_of_getElem? {as : List (Answer K)} {goal : String} {v : Answer K × K}
    (h : (tally as).byGoal[goal]? = some v) : Tallied as goal v := by
  rcases tally_spec as goal with ⟨hnone, -⟩ | ⟨w, hw, htallied⟩
  · rw [h] at hnone
    cases hnone
  · rw [h] at hw
    cases hw
    exact htallied

variable {g : ProofGraph K} {result : ProofVector K}

/-- **The answers of a result are the entries of its tally**, with their shares for probabilities. -/
theorem mem_all {b : Answer K} : b ∈ all g result ↔ 0 < (tally (answering g result)).total ∧
    ∃ goal : String, ∃ v : Answer K × K, (tally (answering g result)).byGoal[goal]? = some v ∧
      b = { v.1 with probability := v.1.probability / (tally (answering g result)).total } := by
  have hall : all g result = if (tally (answering g result)).total ≤ 0 then [] else
      ((tally (answering g result)).byGoal.values.map fun v =>
        { v.1 with probability := v.1.probability / (tally (answering g result)).total }).mergeSort stands := rfl
  rw [hall]
  split
  · rename_i hle
    exact iff_of_false List.not_mem_nil fun h => absurd h.1 (not_lt_of_ge hle)
  · rename_i hlt
    rw [List.mem_mergeSort, SortedMap.values_eq, List.map_map, List.mem_map]
    constructor
    · rintro ⟨e, he, rfl⟩
      exact ⟨lt_of_not_ge hlt, e.1, e.2, Std.ExtTreeMap.mem_toList_iff_getElem?_eq_some.1 he, rfl⟩
    · rintro ⟨-, goal, v, hv, rfl⟩
      exact ⟨(goal, v), Std.ExtTreeMap.mem_toList_iff_getElem?_eq_some.2 hv, rfl⟩

/-! ## Completed states with mass

Completed states with positive mass give answers, with the same text just if the shown variables stand for the same. -/

theorem mem_answering {a : Answer K} : a ∈ answering g result ↔
    ∃ s, g.state? a.state = some s ∧ s.completed = true ∧
    result[a.state]? = some a.probability ∧ 0 < a.probability ∧
      a = ofState g.machine.query g.machine.symbols s a.state a.probability := by
  rw [answering, List.mem_filterMap]
  constructor
  · rintro ⟨⟨id, mass⟩, he, h⟩
    dsimp only at h
    split at h
    · rename_i s hs
      split at h
      · rename_i hbears
        cases h
        rw [Bool.and_eq_true] at hbears
        have hpos : 0 < mass := by simpa using hbears.2
        exact ⟨s, hs, hbears.1, Std.ExtTreeMap.mem_toList_iff_getElem?_eq_some.1 he, hpos, rfl⟩
      · cases h
    · cases h
  · rintro ⟨s, hs, hcompleted, hmass, hpos, ha⟩
    refine ⟨(a.state, a.probability), Std.ExtTreeMap.mem_toList_iff_getElem?_eq_some.2 hmass, ?_⟩
    dsimp only
    rw [hs]
    dsimp only
    have hbears : (s.completed && !decide (a.probability ≤ 0)) = true := by
      rw [hcompleted, decide_eq_false (not_le_of_gt hpos)]
      rfl
    exact (if_pos hbears).trans (congrArg some ha.symm)

def valuesIn (g : ProofGraph K) (id : Nat) : List Binding :=
  ((g.state? id).map (shownValues g.machine.query)).getD []

omit [Field K] [LinearOrder K] [FloorSemiring K] in
theorem valuesIn_of_state? {id : Nat} {s : State} (h : g.state? id = some s) :
    valuesIn g id = shownValues g.machine.query s := by
  rw [valuesIn, h]
  rfl

section Classes

variable {p : Program} {query : Query} {table table' : Symbols}

/-- **Answers have the same text just if the shown variables stand for the same in their states.** -/
theorem goal_eq_iff (hquery : p.compileQuery query table = (.ok g.machine.query, table'))
    (hread : ∀ a ∈ answering g result, ∀ v ∈ valuesIn g a.state, Readable g.machine.symbols v) {a b : Answer K}
    (ha : a ∈ answering g result) (hb : b ∈ answering g result) :
    a.goal = b.goal ↔ valuesIn g a.state = valuesIn g b.state := by
  have hreada := hread a ha
  have hreadb := hread b hb
  obtain ⟨s, hs, -, -, -, ha⟩ := mem_answering.1 ha
  obtain ⟨t, ht, -, -, -, hb⟩ := mem_answering.1 hb
  rw [valuesIn_of_state? hs] at hreada ⊢
  rw [valuesIn_of_state? ht] at hreadb ⊢
  rw [congrArg Answer.goal ha, congrArg Answer.goal hb]
  exact goalText_eq_iff hquery hreada hreadb

theorem Tallied.eq_ofState (hquery : p.compileQuery query table = (.ok g.machine.query, table'))
    (hread : ∀ a ∈ answering g result, ∀ v ∈ valuesIn g a.state, Readable g.machine.symbols v) {goal : String}
    {v : Answer K × K} (h : Tallied (answering g result) goal v) :
      ∃ s, g.state? v.1.state = some s ∧ s.completed = true ∧
      v.1 = ofState g.machine.query g.machine.symbols s v.1.state
        (((answering g result).filter fun a => valuesIn g a.state = valuesIn g v.1.state).map
          Answer.probability).sum := by
  obtain ⟨c, hc, rfl, hstate⟩ := h.state
  obtain ⟨d, hd, hgoal, hbindings⟩ := h.bindings
  have hfilter : ((answering g result).filter fun a => a.goal = c.goal) =
      (answering g result).filter fun a => valuesIn g a.state = valuesIn g v.1.state :=
    List.filter_congr fun a ha => by
      rw [← hstate, decide_eq_decide]
      exact goal_eq_iff hquery hread ha hc
  have hvalues := (goal_eq_iff hquery hread hd hc).1 hgoal
  obtain ⟨s, hs, hcompleted, -, -, hgives⟩ := mem_answering.1 hc
  obtain ⟨t, ht, -, -, -, hgives'⟩ := mem_answering.1 hd
  rw [valuesIn_of_state? hs, valuesIn_of_state? ht] at hvalues
  refine ⟨s, hstate ▸ hs, hcompleted, ?_⟩
  have hbindings' : v.1.bindings = bindingsOf s g.machine.query.names g.machine.symbols := by
    rw [← hbindings, ← bindingsOf_congr hvalues]
    exact congrArg Answer.bindings hgives'
  have hgoal' : v.1.goal = goalText g.machine.query g.machine.symbols s :=
    h.goal_eq.trans (congrArg Answer.goal hgives)
  rw [ofState, ← hfilter, ← h.probability, ← hbindings']
  refine congrArg (fun goal => (⟨goal, v.1.bindings, v.1.probability, v.1.state⟩ : Answer K)) ?_
  rw [hgoal', goalText, ← hbindings']

variable [IsStrictOrderedRing K]

theorem total_pos {a : Answer K} (h : a ∈ answering g result) : 0 < (tally (answering g result)).total := by
  have hpos : ∀ b ∈ answering g result, 0 < b.probability := fun b hb => by
    obtain ⟨_, -, -, -, hpos, -⟩ := mem_answering.1 hb
    exact hpos
  rw [total_tally]
  exact List.sum_pos _ (List.forall_mem_map.2 hpos) (List.ne_nil_of_mem (List.mem_map_of_mem h))

/-- **Answers are the classes of completed states with mass that agree on the shown variables**, if no constant that
a shown variable is bound to has a comma or a parenthesis in its name or is spelled like a hidden variable.  Each
such state belongs to just one answer; an answer is the one that its state gives, with the share of its class in the
mass of all.  A completed state in which all shown variables are bound to constants gives the same answer as any
other state of the same form. -/
theorem answers_classify (hquery : p.compileQuery query table = (.ok g.machine.query, table'))
    (hread : ∀ a ∈ answering g result, ∀ v ∈ valuesIn g a.state, Readable g.machine.symbols v) :
    (∀ a ∈ answering g result, ∃! b, b ∈ all g result ∧ valuesIn g b.state = valuesIn g a.state) ∧
    (∀ b ∈ all g result, ∃ s, g.state? b.state = some s ∧ s.completed = true ∧
      b = ofState g.machine.query g.machine.symbols s b.state
        ((((answering g result).filter fun a => valuesIn g a.state = valuesIn g b.state).map
          Answer.probability).sum / ((answering g result).map Answer.probability).sum)) ∧
    ∀ s t : State, s.completed = true → s.canonical = t.canonical →
      (∀ v ∈ shownValues g.machine.query s, isConst v = true) → ∀ (id : Nat) (mass : K),
        ofState g.machine.query g.machine.symbols t id mass =
          ofState g.machine.query g.machine.symbols s id mass := by
  refine ⟨fun a ha => ?_, fun b hb => ?_, fun s t hcompleted hform hconst id mass => ?_⟩
  · rcases tally_spec (answering g result) a.goal with ⟨-, hother⟩ | ⟨v, hv, htallied⟩
    · exact absurd rfl (hother a ha)
    · obtain ⟨c, hc, hgoal, hstate⟩ := htallied.state
      refine ⟨{ v.1 with probability := v.1.probability / (tally (answering g result)).total },
        ⟨mem_all.2 ⟨total_pos ha, _, v, hv, rfl⟩, hstate ▸ (goal_eq_iff hquery hread hc ha).1 hgoal⟩, ?_⟩
      -- another answer with these values has the same text, and so it is the same entry
      rintro b ⟨hb, hvalues⟩
      obtain ⟨-, goal, w, hw, rfl⟩ := mem_all.1 hb
      obtain ⟨d, hd, rfl, hstate'⟩ := (tallied_of_getElem? hw).state
      have hsame : d.goal = a.goal := (goal_eq_iff hquery hread hd ha).2 (hstate' ▸ hvalues)
      rw [hsame, hv] at hw
      cases hw
      rfl
  · obtain ⟨-, goal, v, hv, rfl⟩ := mem_all.1 hb
    obtain ⟨s, hs, hcompleted, heq⟩ := (tallied_of_getElem? hv).eq_ofState hquery hread
    rw [total_tally]
    exact ⟨s, hs, hcompleted, congrArg (fun b : Answer K =>
      { b with probability := b.probability / ((answering g result).map Answer.probability).sum }) heq⟩
  · rw [ofState, ofState, bindingsOf_congr (shownValues_of_canonical hcompleted hform hconst)]

end Classes

end Answer

/-! ## Pairs of names -/

structure Asked where
  program : Program
  symbols : Symbols
  graph : ProofGraph ℚ

def asked (rules : List Rule) (query : Query) (ids : List Nat) : Option Asked := do
  let (program, symbols) := Program.ofRules rules ∅
  let program ← program.toOption
  let (q, table) := program.compileQuery query symbols
  let (graph, features) ← (ProofGraph.build .state (⟨← q.toOption, [], ⟨100, 10⟩, table⟩ : Machine ℚ) ∅).toOption
  let expand : ProofGraph.Op ℚ PUnit := ids.forM fun id => do let _ ← ProofGraph.outlinks id
  return ⟨program, symbols, (expand ⟨graph, features, ∅⟩).2.graph⟩

def spread : ProofVector ℚ := .ofList [(0, (1 / 2 : ℚ)), (1, 1 / 2), (2, 1 / 4), (3, 1 / 4)]

def pairRules : List Rule :=
  [.fact (.ofNames "pair" ["a", "b"]), .fact (.ofNames "pair" ["a", "c"]), .fact (.ofNames "pair" ["d", "b"])]

def pairQuery : Query := ⟨[.ofNames "pair" ["X", "_"]]⟩

/-- The first two of three states are one answer, since they differ in the hidden variable only. -/
theorem answers_classify_pairs : ∃ d, asked pairRules pairQuery [0] = some d ∧
    (∃ table, d.program.compileQuery pairQuery d.symbols = (.ok d.graph.machine.query, table)) ∧
    (Answer.answering d.graph spread).map (fun a => Answer.valuesIn d.graph a.state) =
      [[.const 0], [.const 0], [.const 4]] ∧
    ∀ a ∈ Answer.answering d.graph spread, ∃! b, b ∈ Answer.all d.graph spread ∧
      Answer.valuesIn d.graph b.state = Answer.valuesIn d.graph a.state := by
  obtain ⟨d, hd⟩ : ∃ d, asked pairRules pairQuery [0] = some d := Option.isSome_iff_exists.1 (by decide +kernel)
  have hcode : (asked pairRules pairQuery [0]).map
      (fun d => (d.program.compileQuery pairQuery d.symbols).1.toOption) =
      (asked pairRules pairQuery [0]).map fun d => some d.graph.machine.query := by decide +kernel
  have hvalues : (asked pairRules pairQuery [0]).map (fun d =>
      (Answer.answering d.graph spread).map fun a => Answer.valuesIn d.graph a.state) =
      some [[.const 0], [.const 0], [.const 4]] := by decide +kernel
  have hread : (asked pairRules pairQuery [0]).all (fun d : Asked =>
      decide (∀ a ∈ Answer.answering d.graph spread, ∀ v ∈ Answer.valuesIn d.graph a.state,
        Readable d.graph.machine.symbols v)) = true := by decide +kernel
  rw [hd] at hcode hvalues hread
  have hcode : (d.program.compileQuery pairQuery d.symbols).1.toOption = some d.graph.machine.query :=
    Option.some.inj hcode
  have hquery : d.program.compileQuery pairQuery d.symbols =
      (.ok d.graph.machine.query, (d.program.compileQuery pairQuery d.symbols).2) := by
    rcases hrun : d.program.compileQuery pairQuery d.symbols with ⟨fault | q, table⟩
    · rw [hrun] at hcode
      cases hcode
    · rw [hrun] at hcode
      cases hcode
      rfl
  exact ⟨d, hd, ⟨_, hquery⟩, Option.some.inj hvalues, (Answer.answers_classify hquery (of_decide_eq_true hread)).1⟩

def commaRules : List Rule := [.fact ⟨"p", [.const "a,b", .const "c"]⟩, .fact ⟨"p", [.const "a", .const "b,c"]⟩]

def swapRules : List Rule :=
  [⟨.ofNames "p" ["W", "Z"], [.ofNames "q" ["Z", "W"]], []⟩, .fact (.ofNames "p" ["a", "W"]),
    .fact (.ofNames "q" ["Z", "Z"])]

/-- Two states in which `X` and `Y` are bound to other constants are one answer, as a comma in a name looks like one
between names.  Two states that leave `X` unbound are two answers, as it lies in another cell. -/
theorem texts_misclassify :
    (asked commaRules ⟨[.ofNames "p" ["X", "Y"]]⟩ [0]).map (fun d =>
      ((Answer.answering d.graph spread).map fun a => Answer.valuesIn d.graph a.state,
        (Answer.all d.graph spread).map fun b => (b.goal, b.probability))) =
      some ([[.const 0, .const 1], [.const 3, .const 4]], [("p(a,b,c)", 1)]) ∧
    (asked swapRules ⟨[.ofNames "p" ["_", "X"]]⟩ [0, 1]).map (fun d =>
      (Answer.answering d.graph spread).map fun a => (Answer.valuesIn d.graph a.state, a.goal)) =
      some [([.free 1], "p(_,_1)"), ([.free 0], "p(_,_0)")] :=
  ⟨by decide +kernel, by decide +kernel⟩

end ProofWalk
