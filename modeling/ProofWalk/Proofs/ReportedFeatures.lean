import ProofWalk.Proofs.FactsLikeClauses
import ProofWalk.Proofs.LeftmostResolution
import ProofWalk.Proofs.VariableRanks
/-!
# Proofs.ReportedFeatures — a child reports the features of its clause

A clause gathers its features when its head has been matched, and reports them before its body is run.  So the
features of a child are told by the clause and by the call that it is resolved with (`Rule.Reports`): each feature
counts once under the name as which it is written when the call has been unified with the head (`clause_reports`).
-/
namespace ProofWalk

open Machine

/-! ## What a rule reports

This is said of rules and atoms alone.  A variable in a feature is written by the place of what it stands for among
the variables of the unified call, from left to right, and a constant by its name. -/

def Term.written {V : Type} [DecidableEq V] (table : Symbols) (order : List V) : Term V → String
  | const c => table.name c
  | var v => s!"_{order.idxOf v}"

/-- **A feature of a rule as it is written under a unifier** of a call and the head of the rule.  Unbound variables
are written by their place among those of the unified call, from left to right. -/
def Goal.writtenUnder (table : Symbols) (call : Atom Unknown)
    (σ : Unknown ⊕ String → Term Unknown) (g : Goal) : String :=
  g.written fun v => (σ (.inr v)).written table (variablesOf (call.args.map (Term.subst fun u => σ (.inl u))))

/-- **The features that a rule reports for a call**: the default feature if it has none, and else each name as
often as a feature of the rule is written so.  The variables of the rule go by their texts, as those of its
features do. -/
def Rule.Reports {K : Type} [Scalar K] (table : Symbols) (r : Rule) (call : Atom Unknown)
    (features : Features K) : Prop :=
  ∃ σ : Unknown ⊕ String → Term Unknown, MostGeneral
    (headEquations call ((r.clause table).map RuleVar.text).head) σ ∧
    (r.features = [] → features = (∅ : Features K).insert "id(defaultRule)" (0 + 1)) ∧
    (r.features ≠ [] → ∀ name, features[name]? =
      if name ∈ r.features.map (Goal.writtenUnder table call σ) then
        some (ones ((r.features.map (Goal.writtenUnder table call σ)).count name))
      else none)

theorem ones_eq {K : Type} [Field K] [LinearOrder K] [FloorSemiring K] (n : Nat) : (ones n : K) = n := by
  induction n with
  | zero => exact Nat.cast_zero.symm
  | succ n ih =>
    rw [ones, ih, Nat.cast_succ]

variable {K : Type} [Scalar K] {m : Machine K}

/-- **Features that are counted one after another are those that the rule reports.** -/
theorem Rule.reports_foldl {table : Symbols} {r : Rule} {call : Atom Unknown} {σ : Unknown ⊕ String → Term Unknown}
    (hσ : MostGeneral (headEquations call ((r.clause table).map RuleVar.text).head) σ) :
    r.Reports table call ((r.reported.map (Goal.writtenUnder table call σ)).foldl
      Features.count (∅ : Features K)) := by
  refine ⟨σ, hσ, fun hnone => ?_, fun hsome name => ?_⟩
  · rw [reported, hnone]
    exact count_default
  · rw [reported, if_neg (by rwa [List.isEmpty_iff])]
    exact getElem?_foldl_count _ name

/-! ## Registers as they are written

The machine writes a variable by its rank in the canonical form of the state at hand.  The pending call is still
there when features are gathered, and its arguments have the first ranks (`State.variableRank_eq_idxOf`). -/

omit [Scalar K] in
/-- **A cell whose term occurs in the pending call** is written by the place of its variable there. -/
theorem writtenArgument_eq_written {s : State} (hrunning : s.completed = false ∧ s.failed = false)
    (hheap : s.heap.Sound) (hsize : s.arity ≤ s.heap.size) {cell : Nat} (hcell : cell < s.heap.size)
    (hmem : s.heap.term cell ∈ s.heap.top s.arity) :
    m.writtenArgument s (s.heap.resolve cell) =
      (s.heap.term cell).written m.symbols (variablesOf (s.heap.top s.arity)) := by
  rcases Heap.term_cases hheap hcell with ⟨c, hc, hterm⟩ | ⟨root, -, hroot, hterm, -⟩
  · rw [hc, hterm]
    rfl
  · rw [hterm] at hmem
    rw [hroot, hterm, writtenArgument, Term.written, State.variableRank_eq_idxOf hrunning hheap hsize hmem]

/-- The arguments of a call behind the head of a clause. -/
theorem Matched.unified {before h : Heap} {equations : List (Term (Unknown ⊕ Nat) × Term (Unknown ⊕ Nat))}
    {σ : Unknown ⊕ Nat → Term (Unknown ⊕ Nat)} {registers : Registers}
    (hm : Matched before equations σ h registers)
    (hs : h.Sound) (depth : Nat) {hand : Nat} (hle : hand ≤ before.size) :
    (before.top hand).map (Term.subst fun u => (σ (.inl u)).map (merge depth)) = h.top hand := by
  rw [Heap.top, Heap.top, hm.size, List.map_map]
  refine List.map_congr_left fun i hi => hm.merged_cell hs depth ?_
  have := (List.mem_range'_1.1 hi).2
  omega

/-- **What has been unified with a head is most general**, also under other names for the variables of the head. -/
theorem Matched.mostGeneral_named {before h : Heap} {registers : Registers}
    {goal : Atom Unknown} {head : Atom String} {f : String → Nat} (hf : Function.Injective f)
    {σ : Unknown ⊕ Nat → Term (Unknown ⊕ Nat)}
    (hm : Matched before (headEquations goal (head.map f)) σ h registers) (depth : Nat) :
    MostGeneral (headEquations goal head) fun v => (σ (Sum.map id f v)).map (merge depth) := by
  have hσ := hm.solves.mostGeneral.map (merge_injective depth)
  rw [headEquations_map] at hσ
  exact hσ.of_renamed (Sum.map_injective.2 ⟨Function.injective_id, hf⟩)

/-! ## One clause

Matching the head has unified it with the call (`Matched.unified`); the registers of the head stand for its
variables from then on, and no instruction of the features changes them. -/

omit [Scalar K] in
/-- **Behind the head, registers are written as the terms of their variables** in the unified call. -/
theorem Matched.writes {s t : State} {label : Label} {size met : Nat} {head : Atom Nat}
    {names : List String} {f : String → Nat} {code : List Instruction} {σ : Unknown ⊕ Nat → Term (Unknown ⊕ Nat)}
    {depth : Nat} {τ : Unknown ⊕ String → Term Unknown}
    (hτ : ∀ v, τ v = (σ (Sum.map id f v)).map (merge depth)) (hs : Standing m.query size met label.arity .head t)
    (hm : Matched s.heap (headEquations ⟨label, s.heap.top label.arity⟩ head) σ t.heap t.registers)
    (hsize : label.arity ≤ s.heap.size) (harity : head.args.length = label.arity)
    (hhead : HeadCode 0 (-(label.arity : Int)) head.args met code)
    (hregister : ∀ v, names.idxOf v < met → names.idxOf v = f v) :
    Writes m t names met fun v => (τ (.inr v)).written m.symbols
      (variablesOf ((s.heap.top label.arity).map (Term.subst fun u => τ (.inl u)))) := by
  intro v hmet
  obtain ⟨cell, hcell, hget⟩ := (hs.registers rfl).isSet _ hmet
  refine ⟨hs.register_ne_unset rfl hmet, fun pc => ?_⟩
  have hterm : τ (.inr v) = t.heap.term cell := by
    rw [hτ, Sum.map_inr, ← hregister v hmet, hm.merged_register hs.heap depth hget hcell]
  have hunified : (s.heap.top label.arity).map (Term.subst fun u => τ (.inl u)) = t.heap.top label.arity := by
    simp only [hτ, Sum.map_inl, id]
    exact hm.unified hs.heap depth hsize
  have htop : t.arity = label.arity := hs.arity nofun
  -- a register that has been met is that of a variable of the head
  have hmem : t.heap.term cell ∈ t.heap.top t.arity := by
    have hvar := ((hhead.lt_iff _).1 hmet).resolve_left (Nat.not_lt_zero _)
    have hlength : head.args.length = (s.heap.top label.arity).length := by
      rw [harity, Heap.top, List.length_map, List.length_range']
    have hunifies := (hm.solves.mostGeneral.map (merge_injective depth)).unifies
    have harguments := mem_of_unifies hlength hunifies hvar
    rwa [hm.unified hs.heap depth hsize, hm.merged_register hs.heap depth hget hcell, ← htop] at harguments
  show m.writtenArgument { t with pc := pc } _ = Term.written _ _ (τ (.inr v))
  rw [hunified, hterm, State.register_eq hget, ← htop]
  exact writtenArgument_eq_written (s := { t with pc := pc }) hs.running hs.heap (htop ▸ hs.hand_le) hcell hmem

/-- A state comes to a body with the registers of its head. -/
theorem Standing.atBody {q : QueryProgram} {size met hand : Nat} {stage : Stage} {s : State}
    (h : Standing q size met hand stage s) (hallocated : stage.allocated = true) {pc : Nat}
    (hfits : Fits size .body met 0 (q.codeFrom pc)) : Standing q size met 0 .body { s with pc := pc } where
  running := h.running
  heap := h.heap
  code := hfits
  hand_le := Nat.zero_le _
  registers _ := h.registers hallocated
  callers := h.callers
  query := h.query
  arity hne := absurd rfl hne

theorem RuleParts.exists_numbering {symbols : Symbols} {r : Rule} {names : List String} {code : List Instruction}
    (h : RuleParts symbols r names code) : ∃ f : String → Nat, Function.Injective f ∧
      (∀ v ∈ names, names.idxOf v = f v) ∧
      (r.clause symbols).map (registerOf names) = ((r.clause symbols).map RuleVar.text).map f := by
  have hclause := h.clauseCode
  have := countable_string
  obtain ⟨f, hf, hregister⟩ := ProofWalk.exists_numbering (P := (· ∈ names)) (f := fun v => names.idxOf v)
    (fun v hv => List.idxOf_lt_length_iff.2 hv) fun v w hv _ heq => (List.idxOf_inj hv).1 heq
  have hmap : (r.clause symbols).map (registerOf names) = ((r.clause symbols).map RuleVar.text).map fun v =>
      names.idxOf v := by
    rw [Clause.map_map]
    rfl
  rw [hmap] at hclause ⊢
  refine ⟨f, hf, hregister, Clause.map_congr fun v hv => hregister v ?_⟩
  exact List.idxOf_lt_length_iff.1 (hclause.lt_size (hv.map _))

/-- **The way of a rule reports the features of the rule**, whatever its body does. -/
theorem clause_reports {s : State} {r : Rule} {names : List String} {address : Nat}
    (hw : Waiting m.query r.head.label s) (hparts : RuleParts m.symbols r names (m.query.codeFrom address))
    {o : Outlink K}
    (h : m.clauseWay s address = .ok (some o)) :
    r.Reports m.symbols ⟨r.head.label, s.heap.top r.head.label.arity⟩ o.features := by
  have hclause := hparts.clauseCode
  obtain ⟨f, hf, hregister, hnamed⟩ := hparts.exists_numbering
  obtain ⟨text, met, head, features, body, hcode, hhead, hfeatures, hbody⟩ := hparts
  rw [clauseWay_eq, wayFrom] at h
  rcases hrun : m.runFor m.limits.steps (.resume { s with pc := address } : Run K) with ⟨e | _, r₁⟩
  · rw [hrun] at h
    cases h
  rw [hrun] at h
  replace h : (if r₁.state.failed then none else some (⟨r₁.reported.getD .empty, .of r₁.state⟩ : Outlink K)) =
      some o :=
    Except.ok.inj h
  have hfits : Fits names.length .head met r.head.label.arity
      (.clearFeatures :: (features ++ .reportFeatures :: body)) :=
    .clearFeatures (hfeatures.featureCode.fits (.reportFeatures hbody.fits))
  cases clause_enters hw hclause.arity hcode hhead hbody.le hfits with
  | clash hdooms _ =>
    rw [hdooms _ _ hrun, if_pos rfl] at h
    cases h
  | @matched r₃ σ hgoes hs hcode₃ hmatched hstack =>
    obtain ⟨τ, hτ⟩ : ∃ τ : Unknown ⊕ String → Term Unknown, ∀ v, τ v =
        (σ (Sum.map id f v)).map (merge s.stack.length) :=
      ⟨_, fun _ => rfl⟩
    have hhead' : ((r.clause m.symbols).map (registerOf names)).head =
        ((r.clause m.symbols).map RuleVar.text).head.map f :=
      congrArg Clause.head hnamed
    have hgeneral : MostGeneral (headEquations ⟨r.head.label, s.heap.top r.head.label.arity⟩
        ((r.clause m.symbols).map RuleVar.text).head) τ := by
      rw [funext hτ]
      exact (hhead' ▸ hmatched).mostGeneral_named hf _
    have htexts := hmatched.writes hτ hs hw.arity_le hclause.arity hhead fun v hmet =>
      hregister v (List.idxOf_lt_length_iff.1 (Nat.lt_of_lt_of_le hmet hbody.le))
    obtain ⟨r₄, pc, hgoes₄, hstate₄, hcode₄, hreported⟩ :=
      features_reported htexts hfeatures hbody.fits.ne_nil hcode₃
    have hs₄ : Standing m.query names.length met 0 .body r₄.state := by
      rw [hstate₄] at hcode₄ ⊢
      exact hs.atBody rfl (hcode₄ ▸ hbody.fits)
    obtain ⟨fuel, hrun₄⟩ := (hgoes.trans hgoes₄) _ _ hrun
    obtain ⟨-, hkept, -⟩ := body_runs hs₄ rfl hrun₄ hrun₄
    split at h
    · cases h
    · cases h
      show r.Reports _ _ (r₁.reported.getD .empty)
      rw [hkept, hreported, Option.getD_some]
      exact Rule.reports_foldl hgeneral

/-! ## All clauses

The children of an expansion are the ways of the facts and of the clauses in turn, up to those that fail. -/

/-- **A child reports the features of its clause.**  If the expansion of a state that waits at a call succeeds, the
children by facts come first, and then there is one child or none for each clause of the called predicate, in the
order of the rules.  A child that comes from a clause has exactly the features that its rule reports for the call,
whatever was run before the expansion and before the clause, and whatever is run behind the head. -/
theorem outlinks_report {rules : List Rule} {query : Query} {symbols : Symbols}
    (h : m.query.CompiledFrom rules query symbols) (htable : symbols.Keeps m.symbols)
    {s : State} (hs : m.Reachable s)
    (hfailed : s.failed = false) {label : Label} (hlabel : s.jumpTo = some label) {r : Run K}
    {outlinks : List (Outlink K)}
    (hok : (m.outlinks s r).1 = .ok outlinks) :
    ∃ fromFacts children, (m.basesOutlinks s label (m.bases.filter (·.claims label)) r).1 = .ok fromFacts ∧
      List.Forall₂ (fun address child => ∀ r, (m.clauseOutlink s address r).1 = .ok child)
        (m.query.clauses label) children ∧
      outlinks = fromFacts ++ children.reduceOption ∧
      List.Forall₂ (fun (rule : Rule) child => ∀ o ∈ child,
          rule.Reports m.symbols ⟨label, s.heap.top label.arity⟩ o.features)
        (rules.filter (·.head.label = label)) children := by
  have hsettled := hs.settled h.fitting
  cases hsettled with
  | finished hf => rw [hf.pending] at hlabel; cases hlabel
  | refuted hr => rw [hr.failed.2] at hfailed; cases hfailed
  | @waiting label' hw =>
    obtain rfl : label' = label := Option.some.inj (hw.pending.symm.trans hlabel)
    rw [m.fst_outlinks_eq_collect hw.running hw.pending hw.arity_le r, ways] at hok
    split at hok
    · cases hok
    · obtain ⟨fromFacts, fromClauses, hfacts, hclauses, rfl⟩ := collect_append_eq_ok hok
      obtain ⟨children, hchildren, rfl⟩ := collect_map (List.forall₂_same.2 fun _ _ => rfl) hclauses
      have hways : List.Forall₂ (fun address child => m.clauseWay s address = .ok child)
          (m.query.clauses label') children := by
        refine hchildren.imp fun address child h => ?_
        obtain ⟨_, rfl, hway⟩ := h
        exact hway
      have hrules := (List.forall₂_and_left _ _).2 ⟨fun r hr => (List.mem_filter.1 hr).2,
        h.stand_at (P := fun table r code => ∃ names, RuleParts table r names code) addRule_parts htable label'⟩
      refine ⟨fromFacts, children, (m.fst_basesOutlinks hw.pending hw.arity_le _ r).trans hfacts,
        hways.imp fun _ _ hway _ => hway, rfl, (forall₂_through hrules.flip hways).imp ?_⟩
      rintro rule child ⟨address, ⟨hl, names, hparts⟩, hway⟩ o ho
      obtain rfl : rule.head.label = label' := by simpa using hl
      obtain rfl : child = some o := ho
      exact clause_reports hw hparts hway

/-! ## A predicate with features

The clauses below report in all the ways that `Rule.Reports` tells apart. -/

/-- Rules for one predicate: with features, one of them twice; without; with a feature of an unbound variable and a
constant; and one that does not match. -/
def featureRules : List Rule :=
  [⟨⟨"p", [.var "X", .var "Y", .var "Z"]⟩, [],
      [⟨"f", [.var "Y", .var "X"]⟩, ⟨"on", [.var "Z"]⟩, ⟨"f", [.var "Y", .var "X"]⟩, ⟨"k", []⟩]⟩,
    ⟨⟨"p", [.var "X", .var "X", .const "c"]⟩, [], []⟩,
    ⟨⟨"p", [.var "X", .var "X", .var "Z"]⟩, [⟨"assign", [.var "X", .const "a"]⟩],
      [⟨"same", [.var "X", .const "b"]⟩]⟩,
    ⟨⟨"p", [.var "X", .var "Y", .const "d"]⟩, [], [⟨"never", []⟩]⟩]

def featureQuery : Query := ⟨[⟨"p", [.var "A", .var "B", .const "c"]⟩]⟩

@[irreducible] def featureProgram : Program := (Program.ofRules featureRules ∅).1.toOption.getD .empty

@[irreducible] def featureSymbols : Symbols := (Program.ofRules featureRules ∅).2

@[irreducible] def featureQueryCode : QueryProgram :=
  (featureProgram.compileQuery featureQuery featureSymbols).1.toOption.getD default

@[irreducible] def featureTable : Symbols := (featureProgram.compileQuery featureQuery featureSymbols).2

def featureMachine : Machine ℚ := ⟨featureQueryCode, [], ⟨100, 10⟩, featureTable⟩

theorem featureMachine_compiled : featureMachine.query.CompiledFrom featureRules featureQuery featureTable := by
  have hprogram : Program.ofRules featureRules ∅ = (.ok featureProgram, featureSymbols) := by
    have hok : (Program.ofRules featureRules ∅).1.isOk = true := by decide +kernel
    rw [featureProgram, featureSymbols, ← eq_ok_of_isOk Program.empty hok]
  have hquery : featureProgram.compileQuery featureQuery featureSymbols =
      (.ok featureQueryCode, featureTable) := by
    have hok : (featureProgram.compileQuery featureQuery featureSymbols).1.isOk = true := by decide +kernel
    rw [featureQueryCode, featureTable, ← eq_ok_of_isOk default hok]
  exact ⟨∅, featureProgram, featureSymbols, featureSymbols, hprogram, .refl _, hquery⟩

/-- The first call has three children; what the body of the third binds is still unbound when its feature is
written. -/
theorem outlinks_report_marked : ∃ s outlinks, featureMachine.Reachable s ∧ s.jumpTo = some ⟨"p", 3⟩ ∧
    featureMachine.expand s = .ok outlinks ∧ (outlinks.map fun o => o.features.toList) =
      [[("f(_1,_0)", 2), ("k", 1), ("on(c)", 1)], [("id(defaultRule)", 1)], [("same(_0,b)", 1)]] ∧
    ∃ fromFacts children, (featureMachine.basesOutlinks s ⟨"p", 3⟩ [] featureMachine.initial).1 = .ok fromFacts ∧
      List.Forall₂ (fun address child => ∀ r, (featureMachine.clauseOutlink s address r).1 = .ok child)
        (featureMachine.query.clauses ⟨"p", 3⟩) children ∧
      outlinks = fromFacts ++ children.reduceOption ∧
      List.Forall₂ (fun (rule : Rule) child => ∀ o ∈ child,
          rule.Reports featureMachine.symbols ⟨⟨"p", 3⟩, s.heap.top 3⟩ o.features)
        (featureRules.filter (·.head.label = ⟨"p", 3⟩)) children := by
  have hstate : featureMachine.descend [] = some ((featureMachine.descend []).getD default) := by
    rw [← Option.some_get (show (featureMachine.descend []).isSome = true by decide +kernel), Option.getD_some]
  have hs := reachable_of_descend hstate
  have hlabel : ((featureMachine.descend []).getD default).jumpTo = some ⟨"p", 3⟩ := by decide +kernel
  have hok := congrArg Prod.fst (eq_ok_of_isOk
    (x := featureMachine.outlinks ((featureMachine.descend []).getD default) featureMachine.initial) []
      (by decide +kernel))
  exact ⟨_, _, hs, hlabel, hok, by decide +kernel,
    outlinks_report featureMachine_compiled (.refl _) hs (by decide +kernel) hlabel hok⟩

end ProofWalk
