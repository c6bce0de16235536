import ProofWalk.Proofs.EngineFailures
import ProofWalk.Proofs.RenamedProofs
/-!
# Proofs.IndependentQueries — queries to one engine do not influence each other

What a query leaves behind for the next is a longer table of constants, a longer table of features and higher counts
(`Engine.Later.solve`).  Under the longer tables the next query gets other numbers for its constants and features,
and still the same answers, or an error of the same kind (`Engine.solve_later`).  So each of some queries is
answered as if it were the first (`Engine.solveAll_independent`).

Numbers of constants occur in code, in facts and in heaps, and numbers of features in rows.  That they make no
difference is what the modules on renamed code, runs, graphs and proofs show; here their results are put together
along the way that a query takes, from its text to its answers.
-/
namespace ProofWalk

variable {K : Type}

/-- **Errors of one kind**: the same, or an illegal weight whose features are listed in another order. -/
inductive Error.Like : Error K → Error K → Prop
  | same (e : Error K) : Like e e
  | prover {e e' : ProverError K} (h : e.Like e') : Like (.prover e) (.prover e')

namespace Engine

/-! ## Engines after some queries

Each part of answering a query leaves an engine that is `Later` than before, whether it succeeds or not. -/

/-- **An engine after some queries**: its tables have grown. -/
def Later (made e : Engine K) : Prop :=
  ∃ constants features counts, made.constants.Keeps constants ∧ e = { made with constants, features, counts }

theorem Later.refl (made : Engine K) : made.Later made := ⟨_, _, _, .refl _, rfl⟩

variable {made : Engine K}

theorem meets_later_compile (query : String) : Meets made.Later (compile query) fun _ => True := by
  rintro e ⟨constants, features, counts, hkeeps, rfl⟩
  refine ⟨trivial, ?_⟩
  unfold compile ExceptT.mk
  dsimp only
  cases Query.read query with
  | error fault => exact ⟨_, _, _, hkeeps, rfl⟩
  | ok q => exact ⟨_, _, _, hkeeps.trans (compileQuery_renamed made.program q constants constants).1, rfl⟩

variable [Scalar K]

theorem meets_later_graphOf (q : QueryProgram) : Meets made.Later (graphOf q) fun _ => True := by
  rintro e ⟨constants, features, counts, hkeeps, rfl⟩
  refine ⟨trivial, ?_⟩
  rw [graphOf_eq]
  split
  · exact ⟨_, _, _, hkeeps, rfl⟩
  · exact ⟨_, _, _, hkeeps, rfl⟩

variable [Exponential K]

theorem meets_later_prove (graph : ProofGraph K) (audience : Audience) :
    Meets made.Later (prove graph audience) fun _ => True := by
  rintro e ⟨constants, features, counts, hkeeps, rfl⟩
  refine ⟨trivial, ?_⟩
  have hrun : ∃ (out : Prover.Outcome K (ProofVector K)) (features' : Symbols) (counts' : FeatureCounts),
      prove graph audience { made with constants, features, counts } =
        reported out { made with constants, features := features', counts := counts' } := ⟨_, _, _, rfl⟩
  obtain ⟨out, features', counts', hrun⟩ := hrun
  rw [hrun]
  unfold reported
  cases out.result with
  | ok result => exact ⟨_, _, _, hkeeps, rfl⟩
  | error halt =>
    cases halt with
    | failed fault => exact ⟨_, _, _, hkeeps, rfl⟩
    | abandoned => exact ⟨_, _, _, hkeeps, rfl⟩

/-- **A query leaves nothing behind but longer tables and higher counts.** -/
theorem Later.solve {e : Engine K} (h : made.Later e) (query : String) : made.Later (solve query e).2 := by
  have hproved : Meets made.Later (proved query) fun _ => True := by
    refine (meets_later_compile query).bind (fun q _ => ?_) fun _ _ => trivial
    refine (meets_later_graphOf q).bind (fun graph _ => ?_) fun _ _ => trivial
    cases graph with
    | error fault => exact meets_pure trivial
    | ok graph => exact (meets_later_prove graph .absent).bind (fun _ _ => meets_pure trivial) fun _ _ => trivial
  have hsolve : Meets made.Later (Engine.solve query) fun _ => True := by
    refine hproved.bind (fun r _ => ?_) fun _ _ => trivial
    cases r with
    | none => exact meets_pure trivial
    | some r => exact meets_pure trivial
  exact (hsolve e h).2

/-! ## One query after two histories

The query is compiled under two tables that both keep the numbers of the program and of the facts. -/

/-- **An engine whose program and facts name numbered constants only**, with the graph that its prover needs. -/
structure Sound (made : Engine K) : Prop where
  code : CodeNumbered made.constants made.program.code.toList
  facts : ∀ b ∈ made.bases, b.Numbered made.constants
  graph : made.prover.kind.requiresIdGraph = true → made.config.graph = .cachingId

variable {d e : Engine K}

omit [Scalar K] [Exponential K] in
theorem compile_later (h : made.Sound) (hd : made.Later d) (he : made.Later e) (query : String) :
    Corresponds Error.Like (fun q q' => ((compile query d).2.machine q).Renamed ((compile query e).2.machine q'))
      (compile query d).1 (compile query e).1 := by
  obtain ⟨constants, features, counts, hkeeps, rfl⟩ := hd
  obtain ⟨constants', features', counts', hkeeps', rfl⟩ := he
  unfold compile ExceptT.mk
  dsimp only
  cases Query.read query with
  | error fault => exact .error (.same _)
  | ok q =>
    obtain ⟨hgrown, hgrown', hcode⟩ := compileQuery_renamed made.program q constants constants'
    replace hkeeps := hkeeps.trans hgrown
    replace hkeeps' := hkeeps'.trans hgrown'
    dsimp only
    rcases hrun : made.program.compileQuery q constants with ⟨r, σ⟩
    rcases hrun' : made.program.compileQuery q constants' with ⟨r', τ⟩
    rw [hrun, hrun'] at hcode
    rw [hrun] at hkeeps
    rw [hrun'] at hkeeps'
    cases hcode with
    | error hfault =>
      cases hfault
      exact .error (.same _)
    | ok hcode =>
      obtain ⟨hprogram, hprogram', hnames, hquery, hcode⟩ := hcode
      refine .ok ⟨rfl, rfl, fun b hb label fact hfact c hc => ?_,
        hprogram.trans hprogram'.symm, hnames, hquery, ?_⟩
      · exact Symbols.namesakes_of_keeps hkeeps hkeeps' (h.facts b hb label fact hfact c hc)
      · unfold QueryProgram.codeFrom
        rw [List.drop_zero, List.drop_zero, Array.toList_append, Array.toList_append]
        refine List.rel_append ?_ hcode
        have hnumbered := h.code.renamed hkeeps hkeeps'
        rw [← hprogram] at hnumbered
        nth_rewrite 2 [hprogram.trans hprogram'.symm] at hnumbered
        exact hnumbered

omit [Exponential K] in
theorem concluded_like {out out' : Prover.Outcome K (ProofVector K)}
    (h : Corresponds Halt.Like (fun r r' => Answer.all out.store.graph r = Answer.all out'.store.graph r')
      out.result out'.result) :
    Corresponds Error.Like Eq ((concluded out).map fun r => Answer.all r.2 r.1)
      ((concluded out').map fun r => Answer.all r.2 r.1) := by
  unfold concluded
  generalize out.result = x, out'.result = y at h
  cases h with
  | ok hsame => exact .ok hsame
  | error hhalt =>
    obtain ⟨hfault⟩ := hhalt
    exact .error (.prover hfault)

theorem solve_compiled (h : made.Sound) (hsums : made.config.graph = .cachingId → Scalar.OrderFree K)
    {query : String} {q q' : QueryProgram} {d₁ e₁ : Engine K} (hd : made.Later d₁) (he : made.Later e₁)
    (hrun : compile query d = (.ok q, d₁))
    (hrun' : compile query e = (.ok q', e₁)) (hmachine : (d₁.machine q).Renamed (e₁.machine q')) :
    Corresponds Error.Like Eq (solve query d).1 (solve query e).1 := by
  obtain ⟨constants, features, counts, -, rfl⟩ := hd
  obtain ⟨constants', features', counts', -, rfl⟩ := he
  have hgraph := graphOf_eq q { made with constants, features, counts }
  have hgraph' := graphOf_eq q' { made with constants := constants', features := features', counts := counts' }
  have hbuilt := Counterparts.build hmachine hsums (fun _ => made.prover.weighter.params) features features'
    ((∅ : SortedMap Nat FeatureCounts).insert made.prover.weighter.key counts)
    ((∅ : SortedMap Nat FeatureCounts).insert made.prover.weighter.key counts')
  dsimp only at hgraph hgraph'
  generalize hbuild : ProofGraph.build made.config.graph
    (machine { made with constants, features, counts } q) features = x at hgraph hbuilt
  generalize hbuild' : ProofGraph.build made.config.graph
    (machine { made with constants := constants', features := features', counts := counts' } q')
    features' = y at hgraph' hbuilt
  cases hbuilt with
  | error _ =>
    unfold solve
    rw [bind_ok (proved_of_unreached hrun hgraph), bind_ok (proved_of_unreached hrun' hgraph')]
    exact .ok rfl
  | ok hcounterparts =>
    obtain ⟨-, -, hsolved⟩ := proved_eq hrun hgraph
    obtain ⟨-, -, hsolved'⟩ := proved_eq hrun' hgraph'
    rw [hsolved, hsolved']
    exact concluded_like (Prover.prove_counterparts rfl (fun hid => (kind_of_build hbuild).trans (h.graph hid))
      hcounterparts (ProofGraph.Regular.build hbuild _) (ProofGraph.Regular.build hbuild' _) rfl)

/-- **The same query after two histories** has the same answers, or an error of one kind. -/
theorem solve_later (h : made.Sound) (hsums : made.config.graph = .cachingId → Scalar.OrderFree K)
    (hd : made.Later d) (he : made.Later e) (query : String) :
    Corresponds Error.Like Eq (solve query d).1 (solve query e).1 := by
  have hcompile := compile_later h hd he query
  obtain ⟨-, hd⟩ := meets_later_compile query d hd
  obtain ⟨-, he⟩ := meets_later_compile query e he
  rcases hrun : compile query d with ⟨r, d₁⟩
  rcases hrun' : compile query e with ⟨r', e₁⟩
  rw [hrun, hrun'] at hcompile
  rw [hrun] at hd
  rw [hrun'] at he
  cases hcompile with
  | error hlike =>
    unfold solve
    rw [bind_error (proved_of_error hrun), bind_error (proved_of_error hrun')]
    exact .error hlike
  | ok hmachine => exact solve_compiled h hsums hd he hrun hrun' hmachine

/-! ## Many queries

An induction over the list: each query meets an engine that is later than the one that was made. -/

theorem solveAll_cons (query : String) (rest : List String) (e : Engine K) : (solveAll (query :: rest) e).1 =
    (solve query e).1 :: (solveAll rest (solve query e).2).1 := rfl

theorem solveAll_later (h : made.Sound) (hsums : made.config.graph = .cachingId → Scalar.OrderFree K)
    (queries : List String) (he : made.Later e) :
    List.Forall₂ (fun query outcome => Corresponds Error.Like Eq (solve query made).1 outcome) queries
      (solveAll queries e).1 := by
  induction queries generalizing e with
  | nil => exact .nil
  | cons query rest ih =>
    rw [solveAll_cons]
    exact .cons (solve_later h hsums (.refl made) he query) (ih (he.solve query))

/-- **Queries to one engine do not influence each other.**  Each of some queries gets the answers that an engine
which has just been made gives to it alone, or an error of the same kind; where features are numbered, sums must not
depend on the order. -/
theorem solveAll_independent [Written K] {rules : List Rule} {program : Program} {before table symbols : Symbols}
    (hprogram : Program.ofRules rules before = (.ok program, table)) (hkeeps : table.Keeps symbols)
    {bases : List (FactBase K)}
    (hbases : ∀ b ∈ bases, b.Numbered symbols) {c : ProverConfig K} {params : Params K}
    (hmade : make program bases symbols c params = .ok made) (hsums : c.graph = .cachingId → Scalar.OrderFree K)
    (queries : List String) :
    List.Forall₂ (fun query outcome => Corresponds Error.Like Eq (solve query made).1 outcome) queries
      (solveAll queries made).1 := by
  unfold make at hmade
  cases hw : c.weighter params 0 with
  | error fault =>
    rw [hw] at hmade
    cases hmade
  | ok w =>
    rw [hw] at hmade
    cases hmade
    obtain ⟨-, hcode⟩ := addRules_numbered rules hprogram fun i hi => by cases hi
    have hsound : Sound (⟨program, bases, c, .ofConfig c w, symbols, .empty, .zero⟩ : Engine K) :=
      ⟨fun i hi c hc => (hcode i hi c hc).keeps hkeeps, hbases, (ProverConfig.weighter_eq_ok hw).1⟩
    exact solveAll_later hsound hsums queries (.refl _)

/-! ## Queries about paths and roads

The queries name constants that the engine does not know yet, and one of them cannot be read. -/

attribute [local instance] flatExponential

attribute [local instance] wordlessNumbers

def roads : Except LogicError (FactBase ℚ) × Symbols :=
  (FactBase.empty "roads").add ⟨"road", [.const "b", .const "c"]⟩ 2 pathSymbols

def roadBase : FactBase ℚ := roads.1.toOption.getD (.empty "roads")

def roadEngine : Except (Error ℚ) (Engine ℚ) := make pathProgram [roadBase] roads.2 edgeless .unit

def roadQueries : List String := ["path(z,W)", "assign(X,d)", "path(a,W)", "path(", "road(X,W)"]

def roadAnswers : Option (List (Option (List (String × ℚ × Nat)))) := do
  let e ← roadEngine.toOption
  return (solveAll roadQueries e).1.map fun outcome => outcome.toOption.map fun answers =>
    answers.map fun a => (a.goal, a.probability, a.state)

theorem roads_eq : roads = (.ok roadBase, roads.2) := eq_ok_of_isOk _ (by decide +kernel)

/-- Later queries have their answers although the tables have grown, and one that cannot be read does not disturb
them. -/
theorem solveAll_independent_path : Program.ofRules pathRules ∅ = (.ok pathProgram, pathSymbols) ∧
    pathSymbols.Keeps roads.2 ∧
    roadBase.Numbered roads.2 ∧ (∃ e, roadEngine = .ok e ∧ List.Forall₂ (fun query outcome =>
      Corresponds Error.Like Eq (solve query e).1 outcome) roadQueries (solveAll roadQueries e).1) ∧
    roadAnswers = some [some [], some [("assign(d,d)", 1, 0)], some [("path(a,b)", 1, 1)], none,
      some [("road(b,c)", 1, 1)]] := by
  obtain ⟨hkeeps, hnumbered⟩ := (FactBase.numbered_empty "roads" pathSymbols).add roads_eq
  refine ⟨pathProgram_eq, hkeeps, hnumbered, ?_, by decide +kernel⟩
  cases hmade : roadEngine with
  | error fault =>
    have hok : roadEngine.isOk = true := by decide +kernel
    rw [hmade] at hok
    cases hok
  | ok e =>
    refine ⟨e, rfl, ?_⟩
    exact solveAll_independent pathProgram_eq hkeeps (fun b hb => List.mem_singleton.1 hb ▸ hnumbered) hmade
      (fun _ => Scalar.orderFree) roadQueries

end Engine

end ProofWalk
