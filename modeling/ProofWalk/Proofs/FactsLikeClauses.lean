import Mathlib.Data.List.Zip
import Mathlib.Data.Rat.Floor
import ProofWalk.Proofs.ExactNumbers
import ProofWalk.Proofs.GroundClauses
/-!
# Proofs.FactsLikeClauses — facts of a base behave like compiled facts

A call that a base answers with a fact goes on where a ground clause for the same fact returns: the arguments have
been unified with the constants in the same order, and from the return on a run depends on its state alone
(`body_runs`).  Hence a predicate that is given twice, by ground clauses and by a base of facts, has every child
twice (`facts_like_clauses`).

The two ways differ before the return.  A clause allocates registers, of which it has none, and reports its
features; a fact is compared with the arguments as far as they are bound before it is unified with them.  Neither
leaves anything in the state.
-/
namespace ProofWalk

open Machine

variable {K : Type} [Scalar K] {m : Machine K}

/-! ## Running on from a return

From a return on there are only instructions of bodies, which neither read nor change features, and the bound on the
number of instructions is not reached by one of the ways alone.  What stands for a constant stands for it still when
the run ends. -/

theorem body_step {size met hand : Nat} {s : State} (hs : Standing m.query size met hand .body s) {i : Instruction}
    {code : List Instruction} (hcode : m.query.codeFrom s.pc = i :: code) :
    ∃ outcome s', (∀ r : Run K, r.state = s → m.execute i r = (outcome, r.withState s')) ∧ s.heap.Keeps s'.heap ∧
      (outcome = .ok .next → ∃ size met hand, Standing m.query size met hand .body s') := by
  have hfits := hs.code
  rw [hcode] at hfits
  cases hfits with
  | @pushConst _ _ c _ h =>
    refine ⟨.ok .next, _, fun r hr => ?_, hs.heap.keeps_push (.const c),
      fun _ => ⟨_, _, _, hs.pushedConst hcode h c⟩⟩
    subst hr
    exact execute_pushConst m r c
  | pushFreeVar hmet h =>
    refine ⟨.ok .next, _, fun r hr => ?_, hs.heap.keeps_push _, fun _ => ⟨_, _, _, hs.pushedFree hcode h hmet⟩⟩
    subst hr
    exact execute_pushFreeVar m r ((hs.registers rfl).length.symm ▸ hmet)
  | pushBoundVar hregister h =>
    obtain ⟨cell, hlt, hget⟩ := (hs.registers rfl).isSet _ hregister
    refine ⟨.ok .next, _, fun r hr => ?_, hs.heap.keeps_push _, fun _ => ⟨_, _, _, hs.pushedBound hcode h hlt⟩⟩
    subst hr
    exact execute_pushBoundVar m r hget
  | @call _ label _ h =>
    cases hb : Builtin.ofLabel? label with
    | some b =>
      have hsize : 2 ≤ s.heap.size := arity_of_builtin hb ▸ hs.hand_le
      have hrun := b.run_fits hs.heap (s.heap.size - 2) (s.heap.size - 1) (by omega)
      have hexec : ∀ r : Run K, r.state = s → _ := fun r hr => execute_builtin m r hb (hr ▸ hsize)
      rcases hb : b.run s.heap (s.heap.size - 2) (s.heap.size - 1) with e | (_ | change)
      · refine ⟨.error e, s, fun r hr => ?_, .refl _, nofun⟩
        rw [hexec r hr, hr, hb]
        subst hr
        rfl
      · refine ⟨.ok .halt, { s with failed := true }, fun r hr => ?_, .refl _, nofun⟩
        rw [hexec r hr, hr, hb]
        subst hr
        rfl
      · rw [hb] at hrun
        refine ⟨.ok .next, { s with heap := s.heap.apply change, pc := m.query.next s.pc }, fun r hr => ?_,
          hs.heap.keeps_apply hrun,
          fun _ => ⟨_, _, _, hs.changed hcode h rfl hrun (Nat.zero_le _) fun hne => absurd rfl hne⟩⟩
        rw [hexec r hr, hr, hb]
        subst hr
        rfl
    | none =>
      by_cases hfull : m.limits.stack ≤ s.stack.length
      · refine ⟨.error (.callStackOverflow m.limits.stack label), s, fun r hr => ?_, .refl _, nofun⟩
        subst hr
        rw [execute_call m r hb hs.hand_le, if_pos hfull]
        rfl
      · refine ⟨.ok .branch, { s with
          stack := ⟨m.query.next s.pc, s.registers, s.jumpTo⟩ :: s.stack, jumpTo := some label },
            fun r hr => ?_, .refl _, nofun⟩
        subst hr
        rw [execute_call m r hb hs.hand_le, if_neg hfull]
  | proceed =>
    cases hstack : s.stack with
    | nil =>
      refine ⟨.ok .halt, { s with completed := true, jumpTo := none }, fun r hr => ?_, .refl _, nofun⟩
      subst hr
      exact (execute_proceed m r).trans (returnToCaller_nil r hstack)
    | cons f rest =>
      obtain ⟨size', met', hs'⟩ := hs.returned hstack
      refine ⟨.ok .next, returned s f rest, fun r hr => ?_, .refl _, fun _ => ⟨size', met', 0, hs'⟩⟩
      subst hr
      exact (execute_proceed m r).trans (returnToCaller_cons r hstack)

/-- **What a run through bodies comes to depends on the state alone**, not on its bound or on what was done before.
No features are reported on the way, and what stands for a constant stands for it still. -/
theorem body_runs : ∀ {fuel fuel' : Nat} {size met hand : Nat} {r t r₁ t₁ : Run K},
    Standing m.query size met hand .body r.state → t.state = r.state → m.runFor fuel r = (.ok (), r₁) →
    m.runFor fuel' t = (.ok (), t₁) →
    t₁.state = r₁.state ∧ t₁.reported = t.reported ∧ r.state.heap.Keeps r₁.state.heap
  | 0, _, _, _, _, _, _, _, _, _, _, hrun, _ => nomatch hrun
  | _ + 1, 0, _, _, _, _, _, _, _, _, _, _, hrun' => nomatch hrun'
  | fuel + 1, fuel' + 1, _, _, _, r, t, r₁, t₁, hs, hstate, hrun, hrun' => by
    obtain ⟨i, code, hcode⟩ := List.exists_cons_of_ne_nil hs.code.ne_nil
    obtain ⟨outcome, s', hexec, hkeeps, hnext⟩ := body_step hs hcode
    have hfetch := QueryProgram.fetch_of_codeFrom hcode
    rw [runFor_succ m r fuel hfetch, hexec (counted r) rfl] at hrun
    rw [runFor_succ m t fuel' (hstate ▸ hfetch), hexec (counted t) hstate] at hrun'
    rcases outcome with e | c
    · cases hrun
    · cases c with
      | next =>
        obtain ⟨_, _, _, hs'⟩ := hnext rfl
        obtain ⟨hstate', hreported, hkeeps'⟩ :=
          body_runs (r := (counted r).withState s') (t := (counted t).withState s') hs' rfl hrun hrun'
        exact ⟨hstate', hreported, hkeeps.trans hkeeps'⟩
      | branch | halt =>
        cases hrun
        cases hrun'
        exact ⟨rfl, rfl, hkeeps⟩

/-! ## One fact and its clause

Where a fact can be unified with the arguments of a call it agrees with them, so that the comparison in front loses
nothing. -/

variable {s : State} {label : Label}

omit [Scalar K] in
theorem Waiting.matched (hw : Waiting m.query label s) {args : List Nat} {h : Heap}
    (hmatch : matchAll s.heap ((List.range' (s.heap.size - label.arity) label.arity).zip args) = some h) :
    s.heap.Keeps h ∧ ∀ cell c, (cell, c) ∈ (List.range' (s.heap.size - label.arity) label.arity).zip args →
      cell < s.heap.size ∧ h.resolve cell = .const c := by
  have hsize := hw.arity_le
  have hlt : ∀ p ∈ (List.range' (s.heap.size - label.arity) label.arity).zip args, p.1 < s.heap.size :=
      fun p hp => by
    have := (List.mem_range'_1.1 (List.of_mem_zip hp).1).2
    omega
  obtain ⟨hkeeps, hmatched⟩ := matchAll_keeps hw.sane.heap hlt hmatch
  exact ⟨hkeeps, fun cell c hmem => ⟨hlt _ hmem, hmatched _ hmem⟩⟩

omit [Scalar K] in
theorem Waiting.agrees (hw : Waiting m.query label s) {fact : Fact K} {h : Heap}
    (hmatch : matchAll s.heap ((List.range' (s.heap.size - label.arity) label.arity).zip fact.args) = some h) :
    fact.agrees (boundCells s label.arity) = true := by
  obtain ⟨hkeeps, hmatched⟩ := hw.matched hmatch
  rw [Fact.agrees, boundCells, List.zip_map_right, List.all_map, List.all_eq_true]
  rintro ⟨c, cell⟩ hmem
  have hmem' : (cell, c) ∈ (List.range' (s.heap.size - label.arity) label.arity).zip fact.args := by
    rw [← List.zip_swap]
    exact List.mem_map_of_mem hmem
  obtain ⟨hlt, hc⟩ := hmatched cell c hmem'
  simp only [Function.comp_apply, Prod.map_apply, id]
  split
  · rename_i d hd
    rw [hkeeps.const hlt hd] at hc
    cases hc
    exact beq_self_eq_true _
  · rfl

omit [Scalar K] in
theorem Waiting.arguments (hw : Waiting m.query label s) {args : List Nat}
    (hlength : args.length = label.arity) {h h' : Heap}
    (hmatch : matchAll s.heap ((List.range' (s.heap.size - label.arity) label.arity).zip args) = some h)
    (hkeeps : h.Keeps h') : s.argumentCells.map h'.resolve = args.map .const := by
  obtain ⟨hgrown, hmatched⟩ := hw.matched hmatch
  have hcells : s.argumentCells = List.range' (s.heap.size - label.arity) label.arity := by
    rw [State.argumentCells, State.arity, hw.pending, Nat.min_eq_left hw.arity_le]
  rw [hcells, ← List.forall₂_eq_eq_eq, List.forall₂_map_left_iff, List.forall₂_map_right_iff, List.forall₂_iff_zip]
  refine ⟨List.length_range'.trans hlength.symm, fun {cell c} hmem => ?_⟩
  obtain ⟨hlt, hc⟩ := hmatched cell c hmem
  exact hkeeps.const (Nat.lt_of_lt_of_le hlt hgrown.size_le) hc

/-- **A fact and its clause lead to the same child**, or to none. -/
theorem fact_like_clause (hw : Waiting m.query label s) {fact : Fact K} {address : Nat}
    (hlength : fact.args.length = label.arity) (hcode : GroundCode m.symbols fact.args (m.query.codeFrom address))
    {o o' : Option (Outlink K)}
    (hfact : m.factWay s label fact = .ok o) (hclause : m.clauseWay s address = .ok o') :
    ∃ target : Option Frozen, o = target.map (⟨(∅ : Features K).insert (FactBase.feature label) fact.weight, ·⟩) ∧
      o' = target.map (⟨defaultFeatures, ·⟩) ∧
      ∀ t ∈ target, s.argumentCells.map t.state.heap.resolve = fact.args.map .const := by
  obtain ⟨f, frames, hstack, -⟩ := hw.exists_caller
  rw [m.factWay_eq hw.arity_le hstack] at hfact
  rw [clauseWay_eq, wayFrom] at hclause
  have hground := ground_runs hw hlength hcode hstack
  rcases hrun : m.runFor m.limits.steps (.resume { s with pc := address } : Run K) with ⟨e | _, r⟩
  · rw [hrun] at hclause
    cases hclause
  · rw [hrun] at hclause
    have hway : o' = if r.state.failed then none else some ⟨r.reported.getD .empty, .of r.state⟩ :=
      (Except.ok.inj hclause).symm
    cases hmatch : matchAll s.heap ((List.range' (s.heap.size - label.arity) label.arity).zip fact.args) with
    | none =>
      rw [hmatch] at hground hfact
      have hnone : o = none := by
        split at hfact <;> exact (Except.ok.inj hfact).symm
      rw [hground _ _ hrun] at hway
      exact ⟨none, hnone, hway, fun _ hsome => by cases hsome⟩
    | some h =>
      rw [hmatch] at hground hfact
      rw [if_pos (hw.agrees hmatch)] at hfact
      dsimp only at hfact
      rw [wayFrom] at hfact
      obtain ⟨r₁, hgoes, hstate, hreported⟩ := hground
      obtain ⟨fuel, hrun₁⟩ := hgoes _ _ hrun
      obtain ⟨size, met, hs⟩ := hw.answered hstack hmatch
      rcases hrun' : m.runFor m.limits.steps (.resume (returned { s with heap := h } f frames) : Run K)
        with ⟨e | _, r'⟩
      · rw [hrun'] at hfact
        cases hfact
      · rw [hrun'] at hfact
        obtain ⟨hsame, hreported', hkeeps⟩ := body_runs hs hstate hrun' hrun₁
        refine ⟨if r'.state.failed then none else some (.of r'.state), ?_, ?_, fun t ht => ?_⟩
        · rw [← Except.ok.inj hfact]
          split <;> rfl
        · rw [hway, hsame, hreported', hreported]
          split <;> rfl
        · split at ht
          · cases ht
          · cases ht
            exact hw.arguments hlength hmatch hkeeps

/-! ## All facts and their clauses

The lists of ways are compared fact by fact, in the order of the base and of the clauses, which is the same. -/

theorem facts_collected (hw : Waiting m.query label s) {facts : List (Fact K)} {addresses : List Nat}
    (h : List.Forall₂ (fun (fact : Fact K) address => fact.args.length = label.arity ∧
      GroundCode m.symbols fact.args (m.query.codeFrom address)) facts addresses) {first second : List (Outlink K)}
    (hfirst : collect (facts.map (m.factWay s label)) = .ok first)
    (hsecond : collect (addresses.map (m.clauseWay s)) = .ok second) :
    ∃ kept : List (Fact K × Frozen), (kept.map Prod.fst).Sublist facts ∧
      first = kept.map (fun (fact, target) =>
        ⟨(∅ : Features K).insert (FactBase.feature label) fact.weight, target⟩) ∧
      second = kept.map (fun (_, target) => ⟨defaultFeatures, target⟩) ∧
      ∀ k ∈ kept, s.argumentCells.map k.2.state.heap.resolve = k.1.args.map .const := by
  induction h generalizing first second with
  | nil =>
    cases hfirst
    cases hsecond
    exact ⟨[], .slnil, rfl, rfl, nofun⟩
  | @cons fact address facts addresses hpair _ ih =>
    obtain ⟨o, first, hfact, hfacts, rfl⟩ := collect_cons_eq_ok hfirst
    obtain ⟨o', second, hclause, hclauses, rfl⟩ := collect_cons_eq_ok hsecond
    obtain ⟨kept, hsublist, rfl, rfl, harguments⟩ := ih hfacts hclauses
    obtain ⟨target, rfl, rfl, htarget⟩ := fact_like_clause hw hpair.1 hpair.2 hfact hclause
    cases target with
    | none => exact ⟨kept, hsublist.cons _, rfl, rfl, harguments⟩
    | some t =>
      exact ⟨(fact, t) :: kept, hsublist.cons_cons _, rfl, rfl, List.forall_mem_cons.2 ⟨htarget t rfl, harguments⟩⟩

/-- **Facts in a base behave like compiled facts.**  Let the rules of a predicate be facts, and let one base alone
claim the predicate, with the same facts in the same order, whatever their weights.  If the expansion of a reachable
state that calls the predicate succeeds, each fact that leads on leads on twice, to the same child: first by the
base, with the fact's weight, and then by its clause, with the default feature counted once.  In that child the
arguments of the call stand for the constants of the fact. -/
theorem facts_like_clauses {rules : List Rule} {query : Query} {symbols : Symbols}
    (h : m.query.CompiledFrom rules query symbols) (htable : symbols.Keeps m.symbols) {b : FactBase K}
    (hbases : m.bases.filter (·.claims label) = [b])
    (hasserts : List.Forall₂ (fun r (fact : Fact K) => r.Asserts m.symbols fact.args)
      (rules.filter (·.head.label = label)) (b.factsOf label))
    (hs : m.Reachable s) (hlabel : s.jumpTo = some label) {r : Run K} {outlinks : List (Outlink K)}
    (hok : (m.outlinks s r).1 = .ok outlinks) :
    ∃ kept : List (Fact K × Frozen), (kept.map Prod.fst).Sublist (b.factsOf label) ∧
      outlinks = kept.map (fun (fact, target) =>
        ⟨(∅ : Features K).insert ("db(" ++ label.text ++ ")") fact.weight, target⟩) ++
        kept.map (fun (_, target) => ⟨(∅ : Features K).insert "id(defaultRule)" (0 + 1), target⟩) ∧
      ∀ k ∈ kept, s.argumentCells.map k.2.state.heap.resolve = k.1.args.map .const := by
  have hsettled := hs.settled h.fitting
  have hstopped : s.completed = true ∨ s.failed = true → outlinks = [] := fun hstop => by
    rw [m.outlinks_of_stopped hstop] at hok
    exact (Except.ok.inj hok).symm
  cases hsettled with
  | finished hf => exact ⟨[], List.nil_sublist _, hstopped (.inl hf.completed), nofun⟩
  | refuted hr => exact ⟨[], List.nil_sublist _, hstopped (.inr hr.failed.2), nofun⟩
  | @waiting label' hw =>
    obtain rfl : label' = label := Option.some.inj (hw.pending.symm.trans hlabel)
    rw [m.fst_outlinks_eq_collect hw.running hw.pending hw.arity_le r, hbases, List.isEmpty_cons, Bool.and_false,
      if_neg Bool.false_ne_true, ways, hbases, List.flatMap_singleton] at hok
    obtain ⟨first, second, hfirst, hsecond, rfl⟩ := collect_append_eq_ok hok
    have hcode := h.stand_at (P := fun table r code => ∀ args, r.Asserts table args →
      GroundCode table args code) addRule_ground htable label'
    have hrules := (List.forall₂_and_left _ _).2 ⟨fun r hr => (List.mem_filter.1 hr).2, hcode⟩
    have hpairs : List.Forall₂ (fun (fact : Fact K) address => fact.args.length = label'.arity ∧
        GroundCode m.symbols fact.args (m.query.codeFrom address)) (b.factsOf label')
          (m.query.clauses label') := by
      refine (forall₂_through hasserts hrules).imp fun fact address hpair => ?_
      obtain ⟨rule, hasserts, hmem, hcode⟩ := hpair
      have hl : rule.head.label = label' := by simpa using hmem
      exact ⟨hasserts.args.length_eq.symm.trans (congrArg Label.arity hl), hcode fact.args hasserts⟩
    obtain ⟨kept, hsublist, rfl, rfl, harguments⟩ := facts_collected hw hpairs hfirst hsecond
    exact ⟨kept, hsublist, rfl, harguments⟩

/-! ## Bases to which facts have been added

A base of facts that have been added one after another asserts what the rules do, by the numbers of the constants. -/

namespace FactBase

omit [Scalar K]

theorem numberArguments_asserts : ∀ {args : List Argument} {numbers : List Nat} {t t' : Symbols},
    numberArguments args t = (.ok numbers, t') → t.Keeps t' ∧
      ∀ table, t'.Keeps table → List.Forall₂ (fun a i => ∃ c, a = .const c ∧ table.get? i = some c) args numbers
  | [], _, t, _, h => by
    cases h
    exact ⟨.refl t, fun _ _ => .nil⟩
  | .var _ :: _, _, _, _, h => by cases h
  | .const c :: rest, numbers, t, t', h => by
    rw [numberArguments] at h
    rcases hrest : numberArguments rest (t.intern c).1 with ⟨v | is, t₁⟩
    · simp [hrest] at h
    · simp only [hrest] at h
      cases h
      obtain ⟨hkeeps, hasserts⟩ := numberArguments_asserts hrest
      refine ⟨(t.keeps_intern c).trans hkeeps, fun table htable => .cons ⟨c, rfl, ?_⟩ (hasserts table htable)⟩
      obtain ⟨_, hget, rfl⟩ := Interned.find?_eq_some_iff.1 (htable _ _ (hkeeps _ _ (Interned.find?_intern t c)))
      exact hget

theorem add_asserts {b b' : FactBase K} {goal : Goal} {weight : K} {t t' : Symbols}
    (h : b.add goal weight t = (.ok b', t')) :
    t.Keeps t' ∧ ∃ fact : Fact K, fact.weight = weight ∧
      (∀ table, t'.Keeps table → (Rule.fact goal).Asserts table fact.args) ∧
      ∀ label, b'.factsOf label = b.factsOf label ++ if goal.label = label then [fact] else [] := by
  unfold add at h
  rcases hargs : numberArguments goal.args t with ⟨v | args, t₁⟩
  · rw [hargs] at h
    cases h
  · rw [hargs] at h
    cases h
    obtain ⟨hkeeps, hasserts⟩ := numberArguments_asserts hargs
    refine ⟨hkeeps, ⟨args, weight⟩, rfl, fun table htable => ⟨hasserts table htable, rfl, rfl⟩, fun label => ?_⟩
    exact SortedMap.reverse_getD_upsert b.facts goal.label label ⟨args, weight⟩

def addAll (b : FactBase K) : List (Goal × K) → Symbols → Except LogicError (FactBase K) × Symbols
  | [], t => (.ok b, t)
  | (goal, weight) :: rest, t =>
    match b.add goal weight t with
    | (.ok b, t) => b.addAll rest t
    | (.error e, t) => (.error e, t)

/-- **A base to which facts are added holds them in order**, after those that it had. -/
theorem addAll_asserts : ∀ {facts : List (Goal × K)} {b b' : FactBase K} {t t' : Symbols},
    b.addAll facts t = (.ok b', t') → t.Keeps t' ∧ ∀ table, t'.Keeps table → ∀ label,
      ∃ added : List (Fact K), b'.factsOf label = b.factsOf label ++ added ∧
      List.Forall₂ (fun (entry : Goal × K) (fact : Fact K) => fact.weight = entry.2 ∧
        (Rule.fact entry.1).Asserts table fact.args) (facts.filter (·.1.label = label)) added
  | [], b, _, t, _, h => by
    cases h
    exact ⟨.refl t, fun _ _ _ => ⟨[], (List.append_nil _).symm, .nil⟩⟩
  | (goal, weight) :: facts, b, b', t, t', h => by
    rw [addAll] at h
    rcases hadd : b.add goal weight t with ⟨e | b₁, t₁⟩
    · rw [hadd] at h
      cases h
    · rw [hadd] at h
      obtain ⟨hkeeps, fact, hweight, hasserts, hfacts⟩ := add_asserts hadd
      obtain ⟨hkeeps', hadded⟩ := addAll_asserts h
      refine ⟨hkeeps.trans hkeeps', fun table htable label => ?_⟩
      obtain ⟨added, heq, hrest⟩ := hadded table htable label
      rw [hfacts, List.append_assoc] at heq
      refine ⟨_, heq, ?_⟩
      by_cases hl : goal.label = label
      · rw [if_pos hl, List.filter_cons_of_pos (a := (goal, weight)) (decide_eq_true hl)]
        exact .cons ⟨hweight, hasserts table (hkeeps'.trans htable)⟩ hrest
      · rw [if_neg hl, List.filter_cons_of_neg (a := (goal, weight)) fun hd => hl (of_decide_eq_true hd)]
        exact hrest

end FactBase

/-! ## Edges that are given twice -/

def edgeFacts : List (Goal × ℚ) :=
  [(⟨"edge", [.const "a", .const "b"]⟩, 2), (⟨"edge", [.const "a", .const "c"]⟩, 3),
    (⟨"edge", [.const "b", .const "c"]⟩, 5), (⟨"edge", [.const "a", .const "c"]⟩, 7)]

def edgeRules : List Rule := edgeFacts.map fun entry => .fact entry.1

def edgeQuery : Query := ⟨[⟨"edge", [.const "a", .var "W"]⟩, ⟨"neq", [.var "W", .const "b"]⟩]⟩

@[irreducible] def edgeProgram : Program := (Program.ofRules edgeRules ∅).1.toOption.getD .empty

@[irreducible] def edgeSymbols : Symbols := (Program.ofRules edgeRules ∅).2

@[irreducible] def edgeBase : FactBase ℚ :=
  ((FactBase.empty "edges").addAll edgeFacts edgeSymbols).1.toOption.getD (.empty "edges")

@[irreducible] def edgeConstants : Symbols := ((FactBase.empty "edges").addAll edgeFacts edgeSymbols).2

@[irreducible] def edgeCode : QueryProgram :=
  (edgeProgram.compileQuery edgeQuery edgeConstants).1.toOption.getD default

@[irreducible] def edgeTable : Symbols := (edgeProgram.compileQuery edgeQuery edgeConstants).2

def edgeMachine : Machine ℚ := ⟨edgeCode, [edgeBase], ⟨100, 10⟩, edgeTable⟩

theorem edgeProgram_eq : Program.ofRules edgeRules ∅ = (.ok edgeProgram, edgeSymbols) := by
  have hok : (Program.ofRules edgeRules ∅).1.isOk = true := by decide +kernel
  rw [edgeProgram, edgeSymbols, ← eq_ok_of_isOk Program.empty hok]

theorem edgeBase_eq : (FactBase.empty "edges").addAll edgeFacts edgeSymbols = (.ok edgeBase, edgeConstants) := by
  have hok : ((FactBase.empty "edges").addAll edgeFacts edgeSymbols).1.isOk = true := by decide +kernel
  rw [edgeBase, edgeConstants, ← eq_ok_of_isOk (.empty "edges") hok]

theorem edgeCode_eq : edgeProgram.compileQuery edgeQuery edgeConstants = (.ok edgeCode, edgeTable) := by
  have hok : (edgeProgram.compileQuery edgeQuery edgeConstants).1.isOk = true := by decide +kernel
  rw [edgeCode, edgeTable, ← eq_ok_of_isOk default hok]

/-- The two edges from `a` to `c` lead on, by the base with their weights and then by their clauses. -/
theorem facts_like_clauses_edges : edgeMachine.query.CompiledFrom edgeRules edgeQuery edgeTable ∧
    edgeMachine.bases.filter (·.claims ⟨"edge", 2⟩) = [edgeBase] ∧
    List.Forall₂ (fun r (fact : Fact ℚ) => r.Asserts edgeMachine.symbols fact.args)
      (edgeRules.filter (·.head.label = ⟨"edge", 2⟩)) (edgeBase.factsOf ⟨"edge", 2⟩) ∧
    ∃ s outlinks, edgeMachine.Reachable s ∧ s.jumpTo = some ⟨"edge", 2⟩ ∧ edgeMachine.expand s = .ok outlinks ∧
      (outlinks.map fun o => o.features.toList) =
        [[("db(edge/2)", 3)], [("db(edge/2)", 7)], [("id(defaultRule)", 1)], [("id(defaultRule)", 1)]] ∧
      ∃ kept : List (Fact ℚ × Frozen), (kept.map Prod.fst).Sublist (edgeBase.factsOf ⟨"edge", 2⟩) ∧
        outlinks = kept.map (fun (fact, target) =>
            ⟨(∅ : Features ℚ).insert ("db(" ++ Label.text ⟨"edge", 2⟩ ++ ")") fact.weight,
            target⟩) ++ kept.map (fun (_, target) => ⟨(∅ : Features ℚ).insert "id(defaultRule)" (0 + 1), target⟩) ∧
        ∀ k ∈ kept, s.argumentCells.map k.2.state.heap.resolve = k.1.args.map .const := by
  obtain ⟨hkeeps, hadded⟩ := FactBase.addAll_asserts edgeBase_eq
  have hcompiled : edgeMachine.query.CompiledFrom edgeRules edgeQuery edgeTable :=
    ⟨∅, edgeProgram, edgeSymbols, edgeConstants, edgeProgram_eq, hkeeps, edgeCode_eq⟩
  have hclaims : edgeMachine.bases.filter (·.claims ⟨"edge", 2⟩) = [edgeBase] :=
    List.filter_cons_of_pos (by decide +kernel)
  have hasserts : List.Forall₂ (fun r (fact : Fact ℚ) => r.Asserts edgeMachine.symbols fact.args)
      (edgeRules.filter (·.head.label = ⟨"edge", 2⟩)) (edgeBase.factsOf ⟨"edge", 2⟩) := by
    obtain ⟨added, hfacts, hall⟩ := hadded edgeTable (compileQuery_compiled edgeCode_eq).1 ⟨"edge", 2⟩
    have hempty : (FactBase.empty "edges" : FactBase ℚ).factsOf ⟨"edge", 2⟩ = [] := by decide +kernel
    rw [hfacts, hempty, List.nil_append, edgeRules, List.filter_map, List.forall₂_map_left_iff]
    exact hall.imp fun _ _ h => h.2
  have hstate : edgeMachine.descend [] = some ((edgeMachine.descend []).getD default) := by
    rw [← Option.some_get (show (edgeMachine.descend []).isSome = true by decide +kernel), Option.getD_some]
  have hs := reachable_of_descend hstate
  have hlabel : ((edgeMachine.descend []).getD default).jumpTo = some ⟨"edge", 2⟩ := by decide +kernel
  have hok := congrArg Prod.fst (eq_ok_of_isOk
    (x := edgeMachine.outlinks ((edgeMachine.descend []).getD default) edgeMachine.initial) [] (by decide +kernel))
  exact ⟨hcompiled, hclaims, hasserts, _, _, hs, hlabel, hok, by decide +kernel,
    facts_like_clauses hcompiled (.refl _) hclaims hasserts hs hlabel hok⟩

end ProofWalk
