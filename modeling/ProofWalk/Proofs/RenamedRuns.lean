import ProofWalk.Graph.Store
import ProofWalk.Proofs.CodeShape
import ProofWalk.Proofs.RenamedCode
import ProofWalk.Proofs.RunSteps
/-!
# Proofs.RenamedRuns — one query run under two tables

Machines of one query under two tables run in step: from runs that differ in the numbers of constants only, each
instruction makes such runs, branches where the other does and meets the faults that the other meets
(`RunsTogether`).  So a state and its counterpart go on in the same ways, with the same features
(`Machine.Renamed.expand`, `Machine.Renamed.waysOn`).

Unifying asks whether constants are equal, which they are just if their counterparts are; and features ask for the
names of constants, which are those of their counterparts.
-/
namespace ProofWalk

variable {K : Type} {σ τ : Symbols}

/-- **Runs that differ in the numbers of constants only.** -/
def Run.Renamed (σ τ : Symbols) (r r' : Run K) : Prop := ∃ s, r.state.Renamed σ τ s ∧ r' = r.withState s

/-- **Two computations on runs that correspond** under two tables. -/
abbrev RunsTogether (σ τ : Symbols) {α β : Type} (A : α → β → Prop) (x : RunM K α) (y : RunM K β) : Prop :=
  Together (Run.Renamed σ τ) Eq A x y

structure Outlink.Renamed (σ τ : Symbols) (o o' : Outlink K) : Prop where
  features : o.features = o'.features
  target : o.target.Renamed σ τ o'.target

namespace Machine

/-! ## Reading and writing

The parts that instructions are made of, one lemma for each. -/

theorem together_state : RunsTogether (K := K) σ τ (State.Renamed σ τ) state state := by
  refine together_get.bind fun r r' h => ?_
  obtain ⟨s, hs, rfl⟩ := h
  exact together_pure hs

theorem together_setState {s t : State} (h : s.Renamed σ τ t) :
    RunsTogether (K := K) σ τ (fun _ _ => True) (setState s) (setState t) := by
  refine together_modify fun r r' hr => ?_
  obtain ⟨_, -, rfl⟩ := hr
  exact ⟨t, h, rfl⟩

theorem together_relative (offset : Int) : RunsTogether (K := K) σ τ Eq (relative offset) (relative offset) := by
  refine together_state.bind fun s t h => ?_
  obtain ⟨heap, hh, rfl⟩ := h
  dsimp only
  rw [hh.size_eq]
  split
  · exact together_pure rfl
  · exact together_throw rfl

theorem together_readRegister (i : Nat) : RunsTogether (K := K) σ τ Eq (readRegister i) (readRegister i) := by
  refine together_state.bind fun s t h => ?_
  obtain ⟨heap, hh, rfl⟩ := h
  dsimp only
  split
  · exact together_pure rfl
  · exact together_throw rfl

theorem together_writeRegister (i cell : Nat) :
    RunsTogether (K := K) σ τ (fun _ _ => True) (writeRegister i cell) (writeRegister i cell) := by
  refine together_state.bind fun s t h => ?_
  obtain ⟨heap, hh, rfl⟩ := h
  dsimp only
  split
  · exact together_setState ⟨heap, hh, rfl⟩
  · exact together_throw rfl

theorem together_topCells (arity : Nat) : RunsTogether (K := K) σ τ Eq (topCells arity) (topCells arity) := by
  refine together_state.bind fun s t h => ?_
  obtain ⟨heap, hh, rfl⟩ := h
  dsimp only
  rw [hh.size_eq]
  split
  · exact together_pure rfl
  · exact together_throw rfl

theorem together_pendingArgument (position : Nat) :
    RunsTogether (K := K) σ τ (Binding.Renamed σ τ) (pendingArgument position) (pendingArgument position) := by
  refine together_state.bind fun s t h => ?_
  obtain ⟨heap, hh, rfl⟩ := h
  refine (together_topCells s.arity).bind fun cells cells' hcells => ?_
  subst hcells
  split
  · exact together_pure (hh.resolve _)
  · exact together_throw rfl

theorem together_changeHeap {change change' : Heap.Change} (h : change.Renamed σ τ change') :
    RunsTogether (K := K) σ τ (fun _ _ => True) (changeHeap change) (changeHeap change') := by
  refine together_state.bind fun s t hs => ?_
  obtain ⟨heap, hh, rfl⟩ := hs
  exact together_setState ⟨_, hh.apply h, rfl⟩

theorem together_unifyConst (cell : Nat) {c d : Nat} (hc : Namesakes σ τ c d) :
    RunsTogether (K := K) σ τ Eq (unifyConst cell c) (unifyConst cell d) := by
  refine together_state.bind fun s t hs => ?_
  obtain ⟨heap, hh, rfl⟩ := hs
  have hchange := hh.matchConst cell hc
  dsimp only
  generalize s.heap.matchConst cell c = x, heap.matchConst cell d = y at hchange
  cases hchange with
  | none => exact together_pure rfl
  | some hchange => exact (together_changeHeap hchange).bind fun _ _ _ => together_pure rfl

theorem together_fail : RunsTogether (K := K) σ τ Eq fail fail := by
  refine together_state.bind fun s t hs => ?_
  obtain ⟨heap, hh, rfl⟩ := hs
  exact Together.bind (together_setState ⟨heap, hh, rfl⟩) fun _ _ _ => together_pure rfl

theorem together_returnToCaller : RunsTogether (K := K) σ τ Eq returnToCaller returnToCaller := by
  refine together_state.bind fun s t hs => ?_
  obtain ⟨heap, hh, rfl⟩ := hs
  dsimp only
  split
  · exact Together.bind (together_setState ⟨heap, hh, rfl⟩) fun _ _ _ => together_pure rfl
  · exact Together.bind (together_setState ⟨heap, hh, rfl⟩) fun _ _ _ => together_pure rfl

/-! ## Features

The name of a feature is put together while the state stays as it is. -/

theorem completeFeature_withState [Scalar K] (r : Run K) (s : State) :
    (r.withState s).completeFeature = r.completeFeature.withState s := by
  unfold Run.completeFeature Run.withState
  dsimp only
  split
  · rfl
  · split
    · rfl
    · rfl

theorem together_gather {f : Run K → Run K} (hf : ∀ r s, f (r.withState s) = (f r).withState s)
    (hstate : ∀ r, (f r).state = r.state) : RunsTogether σ τ (fun _ _ => True) (modify f) (modify f) := by
  refine together_modify fun r r' hr => ?_
  obtain ⟨s, hs, rfl⟩ := hr
  exact ⟨s, (hstate r).symm ▸ hs, hf r s⟩

theorem together_addArgument [Scalar K] (arg : String) :
    RunsTogether (K := K) σ τ (fun _ _ => True) (modify (·.addArgument arg)) (modify (·.addArgument arg)) :=
  together_gather
    (fun r s => completeFeature_withState
      { r with unfinished := r.unfinished.map fun p => { p with args := p.args ++ [arg] } } s)
    fun r => state_addArgument r arg

/-! ## Machines of one query

Facts are numbered before any query is compiled, so that they have the same numbers in both tables. -/

/-- **Machines of one query**, whose code differs in the numbers of constants only; facts have the same numbers in
both tables. -/
structure Renamed (m m' : Machine K) : Prop where
  limits : m.limits = m'.limits
  bases : m.bases = m'.bases
  facts : ∀ b ∈ m.bases, ∀ label, ∀ fact ∈ b.factsOf label, ∀ c ∈ fact.args, Namesakes m.symbols m'.symbols c c
  program : m.query.program = m'.query.program
  names : m.query.names = m'.query.names
  query : m.query.query = m'.query.query
  code : CodeRenamed m.symbols m'.symbols (m.query.codeFrom 0) (m'.query.codeFrom 0)

namespace Renamed

variable {m m' : Machine K} (h : m.Renamed m')

include h

theorem fetch (pc : Nat) : Option.Rel (Instruction.Renamed m.symbols m'.symbols) (m.query.fetch pc)
      (m'.query.fetch pc) := by
  have hcode := List.forall₂_drop pc h.code
  have hfrom : ∀ q : QueryProgram, q.codeFrom pc = (q.codeFrom 0).drop pc := fun _ => rfl
  rw [QueryProgram.fetch_eq, QueryProgram.fetch_eq, hfrom, hfrom]
  generalize (m.query.codeFrom 0).drop pc = code, (m'.query.codeFrom 0).drop pc = code' at hcode
  cases hcode with
  | nil => exact .none
  | cons hi _ => exact .some hi

theorem entry_eq : m.query.entry = m'.query.entry := congrArg Program.size h.program

theorem next_eq (pc : Nat) : m.query.next pc = m'.query.next pc := by
  have hsize : ∀ q : QueryProgram, q.size = (q.codeFrom 0).length := fun q => by
    rw [QueryProgram.codeFrom, List.drop_zero, Array.length_toList, Array.size_append]
    rfl
  unfold QueryProgram.next
  rw [hsize, hsize, List.Forall₂.length_eq h.code]

theorem clauses_eq (label : Label) : m.query.clauses label = m'.query.clauses label :=
  congrArg (Program.clauses · label) h.program

theorem advance : RunsTogether m.symbols m'.symbols Eq m.advance m'.advance := by
  refine together_state.bind fun s t hs => ?_
  obtain ⟨heap, hh, rfl⟩ := hs
  dsimp only
  rw [h.next_eq]
  exact Together.bind (together_setState ⟨heap, hh, rfl⟩) fun _ _ _ => together_pure rfl

theorem proceedWith {change change' : Option Heap.Change}
    (hchange : Option.Rel (Heap.Change.Renamed m.symbols m'.symbols) change change') :
    RunsTogether m.symbols m'.symbols Eq (m.proceedWith change) (m'.proceedWith change') := by
  cases hchange with
  | none => exact together_fail
  | some hchange => exact (together_changeHeap hchange).bind fun _ _ _ => h.advance

theorem call (label : Label) : RunsTogether m.symbols m'.symbols Eq (m.call label) (m'.call label) := by
  refine (together_topCells label.arity).bind fun cells cells' hcells => ?_
  subst hcells
  split
  · rename_i b first second _ _
    refine together_state.bind fun s t hs => ?_
    obtain ⟨heap, hh, rfl⟩ := hs
    have hrun := hh.run b first second
    dsimp only
    generalize b.run s.heap first second = x, b.run heap first second = y at hrun
    cases hrun with
    | ok hchange => exact h.proceedWith hchange
    | error he => exact together_throw he
  · refine together_state.bind fun s t hs => ?_
    obtain ⟨heap, hh, rfl⟩ := hs
    dsimp only
    rw [h.limits, h.next_eq]
    split
    · exact together_throw rfl
    · exact Together.bind (together_setState ⟨heap, hh, rfl⟩) fun _ _ _ => together_pure rfl

omit h in
/-- **Features are written alike**: constants by their names, variables by their ranks. -/
theorem featureArgument (register : Nat) :
    RunsTogether m.symbols m'.symbols Eq (m.featureArgument register) (m'.featureArgument register) := by
  refine together_state.bind fun s t hs => ?_
  have hregister := hs.register register
  have hrank := hs.variableRank_eq
  have hpc : s.pc = t.pc := by
    obtain ⟨_, -, rfl⟩ := hs
    rfl
  generalize s.register register = x, t.register register = y at hregister
  cases hregister with
  | const hc => exact together_pure hc.name_eq
  | free root =>
    dsimp only
    rw [hrank]
    exact together_pure rfl
  | unset =>
    dsimp only
    rw [hpc]
    exact together_throw rfl

/-! ## Running

The step lemma is `execute`; runs follow by induction on the steps that are left. -/

variable [Scalar K]

/-- **Each instruction does the same to both runs.** -/
theorem execute {i j : Instruction} (hi : i.Renamed m.symbols m'.symbols j) :
    RunsTogether m.symbols m'.symbols Eq (m.execute i) (m'.execute j) := by
  cases hi with
  | unifyConst hc offset =>
    refine (together_relative offset).bind fun cell cell' hcell => ?_
    subst hcell
    refine together_state.bind fun s t hs => ?_
    obtain ⟨heap, hh, rfl⟩ := hs
    exact h.proceedWith (hh.matchConst cell hc)
  | pushConst hc =>
    refine together_state.bind fun s t hs => ?_
    obtain ⟨heap, hh, rfl⟩ := hs
    exact Together.bind (together_setState ⟨_, hh.push (.const hc), rfl⟩) fun _ _ _ => h.advance
  | @featureConst a b hc =>
    have hrun : ∀ (m : Machine K) (c : Nat), m.execute (.featureConst c) =
      ((modify (·.addArgument (m.symbols.name c)) : RunM K PUnit) >>= fun _ => m.advance) := fun _ _ => rfl
    rw [hrun, hrun, hc.name_eq]
    exact (together_addArgument _).bind fun _ _ _ => h.advance
  | same i hnone =>
    cases i with
    | comment text => exact h.advance
    | allocate size names =>
      refine together_state.bind fun s t hs => ?_
      obtain ⟨heap, hh, rfl⟩ := hs
      exact Together.bind (together_setState ⟨heap, hh, rfl⟩) fun _ _ _ => h.advance
    | initFreeVar register offset =>
      refine (together_relative offset).bind fun cell cell' hcell => ?_
      subst hcell
      exact (together_writeRegister register cell).bind fun _ _ _ => h.advance
    | unifyConst c offset => cases hnone
    | unifyBoundVar register offset =>
      refine (together_readRegister register).bind fun a a' ha => (together_relative offset).bind fun b b' hb => ?_
      subst ha hb
      refine together_state.bind fun s t hs => ?_
      obtain ⟨heap, hh, rfl⟩ := hs
      exact h.proceedWith (hh.unifier a b)
    | pushConst c => cases hnone
    | pushFreeVar register =>
      refine together_state.bind fun s t hs => ?_
      obtain ⟨heap, hh, rfl⟩ := hs
      dsimp only
      unfold Heap.pushFree
      rw [hh.size_eq]
      refine Together.bind (together_setState ⟨_, hh.push (.ref heap.size), rfl⟩) fun _ _ _ => ?_
      exact (together_writeRegister register heap.size).bind fun _ _ _ => h.advance
    | pushBoundVar register =>
      refine (together_readRegister register).bind fun a a' ha => ?_
      subst ha
      refine together_state.bind fun s t hs => ?_
      obtain ⟨heap, hh, rfl⟩ := hs
      dsimp only
      rw [hh.deref_eq]
      exact Together.bind (together_setState ⟨_, hh.push (.ref _), rfl⟩) fun _ _ _ => h.advance
    | call label => exact h.call label
    | proceed => exact together_returnToCaller
    | clearFeatures => exact Together.bind (together_gather (fun _ _ => rfl) fun _ => rfl) fun _ _ _ => h.advance
    | startFeature functor arity =>
      refine Together.bind (together_gather (fun r s => ?_) fun r => ?_) fun _ _ _ => h.advance
      · exact completeFeature_withState { r with unfinished := some ⟨functor, arity, []⟩ } s
      · exact state_completeFeature { r with unfinished := some ⟨functor, arity, []⟩ }
    | featureConst c => cases hnone
    | featureVar register =>
      refine Together.bind (featureArgument register) fun arg arg' harg => ?_
      subst harg
      exact (together_addArgument arg).bind fun _ _ _ => h.advance
    | reportFeatures => exact Together.bind (together_gather (fun _ _ => rfl) fun _ => rfl) fun _ _ _ => h.advance

theorem runFor (fuel : Nat) :
    RunsTogether m.symbols m'.symbols (fun _ _ => True) (m.runFor fuel) (m'.runFor fuel) := by
  induction fuel with
  | zero =>
    unfold Machine.runFor
    rw [h.limits]
    exact together_throw rfl
  | succ fuel ih =>
    unfold Machine.runFor
    refine Together.bind (together_gather (fun _ _ => rfl) fun _ => rfl) fun _ _ _ =>
      together_state.bind fun s t hs => ?_
    obtain ⟨heap, hh, rfl⟩ := hs
    have hfetch := h.fetch s.pc
    dsimp only
    generalize m.query.fetch s.pc = x, m'.query.fetch s.pc = y at hfetch
    cases hfetch with
    | none => exact together_throw rfl
    | some hi =>
      refine (h.execute hi).bind fun control control' hcontrol => ?_
      subst hcontrol
      cases control with
      | next => exact ih
      | branch => exact together_pure trivial
      | halt => exact together_pure trivial

theorem run : RunsTogether m.symbols m'.symbols (fun _ _ => True) m.run m'.run := by
  refine together_get.bind fun r r' hr => ?_
  obtain ⟨s, hs, rfl⟩ := hr
  rw [h.limits]
  exact h.runFor _

omit [Scalar K] in
theorem startState_renamed (σ τ : Symbols) : (State.start m.query.entry).Renamed σ τ (.start m'.query.entry) :=
  ⟨#[], fun _ => .none, by rw [h.entry_eq]; rfl⟩

omit [Scalar K] in
theorem initial : m.initial.Renamed m.symbols m'.symbols m'.initial := ⟨_, h.startState_renamed _ _, rfl⟩

theorem start : RunsTogether m.symbols m'.symbols (Frozen.Renamed m.symbols m'.symbols) m.start m'.start := by
  refine Together.bind (together_modify fun r r' hr => ?_) fun _ _ _ => h.run.bind fun _ _ _ => ?_
  · obtain ⟨s, -, rfl⟩ := hr
    exact ⟨_, h.startState_renamed _ _, rfl⟩
  · exact together_state.bind fun s t hs => together_pure hs

theorem startState : Corresponds Eq (Frozen.Renamed m.symbols m'.symbols) m.startState m'.startState :=
  (h.start _ _ h.initial).1

/-! ## Ways on

Facts first and then rules, as an expansion takes them. -/

omit h [Scalar K] in
theorem restore {s t : State} (hs : s.Renamed m.symbols m'.symbols t) :
    RunsTogether (K := K) m.symbols m'.symbols (fun _ _ => True) (Machine.restore s) (Machine.restore t) := by
  obtain ⟨heap, hh, rfl⟩ := hs
  exact together_set ⟨_, ⟨heap, hh, rfl⟩, rfl⟩

theorem finishCall (features : Features K) :
    RunsTogether m.symbols m'.symbols (Option.Rel (Outlink.Renamed m.symbols m'.symbols))
    (m.finishCall features) (m'.finishCall features) := by
  have hresult : RunsTogether m.symbols m'.symbols (Option.Rel (Outlink.Renamed m.symbols m'.symbols))
      (Machine.state >>= fun s => pure (if s.failed then none else some ⟨features, .of s⟩) :
        RunM K (Option (Outlink K)))
      (Machine.state >>= fun s => pure (if s.failed then none else some ⟨features, .of s⟩) : RunM K
        (Option (Outlink K))) := by
    refine together_state.bind fun s t hs => ?_
    obtain ⟨heap, hh, rfl⟩ := hs
    refine together_pure ?_
    dsimp only
    split
    · exact .none
    · exact .some ⟨rfl, heap, hh, rfl⟩
  refine together_returnToCaller.bind fun control control' hcontrol => ?_
  subst hcontrol
  cases control with
  | next => exact h.run.bind fun _ _ _ => hresult
  | branch => exact hresult
  | halt => exact hresult

omit h [Scalar K] in
/-- Facts have the same numbers in both tables, and match the same cells. -/
theorem unifyAll {pairs : List (Nat × Nat)} (hpairs : ∀ p ∈ pairs, Namesakes m.symbols m'.symbols p.2 p.2) :
    RunsTogether (K := K) m.symbols m'.symbols Eq (Machine.unifyAll pairs) (Machine.unifyAll pairs) := by
  induction pairs with
  | nil => exact together_pure rfl
  | cons p rest ih =>
    obtain ⟨hp, hrest⟩ := List.forall_mem_cons.1 hpairs
    refine (together_unifyConst p.1 hp).bind fun b b' hb => ?_
    subst hb
    split
    · exact ih hrest
    · exact together_pure rfl

omit h [Scalar K] in
theorem boundArguments (positions : List Nat) : RunsTogether (K := K) m.symbols m'.symbols
    (List.Forall₂ (Option.Rel (Namesakes m.symbols m'.symbols))) (Machine.boundArguments positions)
    (Machine.boundArguments positions) := by
  induction positions with
  | nil => exact together_pure .nil
  | cons position rest ih =>
    refine (together_pendingArgument position).bind fun b b' hb => ih.bind fun bound bound' hbound =>
      together_pure (.cons ?_ hbound)
    cases hb with
    | const hc => exact .some hc
    | free root => exact .none
    | unset => exact .none

omit h [Scalar K] in
theorem agrees_eq {fact : Fact K} (hfact : ∀ c ∈ fact.args, Namesakes m.symbols m'.symbols c c)
    {bound bound' : List (Option Nat)} (hbound : List.Forall₂ (Option.Rel (Namesakes m.symbols m'.symbols)) bound
    bound') : fact.agrees bound = fact.agrees bound' := by
  unfold Fact.agrees
  generalize fact.args = args at hfact
  induction hbound generalizing args with
  | nil => rfl
  | cons hb _ ih =>
    cases args with
    | nil => rfl
    | cons c rest =>
      obtain ⟨hc, hrest⟩ := List.forall_mem_cons.1 hfact
      rw [List.zip_cons_cons, List.zip_cons_cons, List.all_cons, List.all_cons, ih rest hrest]
      congr 1
      cases hb with
      | none => rfl
      | some hb =>
        dsimp only
        rw [Option.all_some, Option.all_some, Bool.eq_iff_iff, beq_iff_eq, beq_iff_eq]
        exact hb.eq_iff hc

theorem factOutlink {s t : State} (hs : s.Renamed m.symbols m'.symbols t) (label : Label)
    {bound bound' : List (Option Nat)}
    (hbound : List.Forall₂ (Option.Rel (Namesakes m.symbols m'.symbols)) bound bound') {fact : Fact K}
    (hfact : ∀ c ∈ fact.args, Namesakes m.symbols m'.symbols c c) :
    RunsTogether m.symbols m'.symbols (Option.Rel (Outlink.Renamed m.symbols m'.symbols))
      (m.factOutlink s label bound fact) (m'.factOutlink t label bound' fact) := by
  unfold Machine.factOutlink
  rw [agrees_eq hfact hbound]
  split
  · refine (restore hs).bind fun _ _ _ => (together_topCells label.arity).bind fun cells cells' hcells => ?_
    subst hcells
    refine (unifyAll fun p hp => hfact p.2 (List.of_mem_zip hp).2).bind fun b b' hb => ?_
    subst hb
    split
    · exact h.finishCall _
    · exact together_pure .none
  · exact together_pure .none

omit h [Scalar K] in
theorem append_toList {o o' : Option (Outlink K)} (ho : Option.Rel (Outlink.Renamed m.symbols m'.symbols) o o')
    {rest rest' : List (Outlink K)} (hrest : List.Forall₂ (Outlink.Renamed m.symbols m'.symbols) rest rest') :
    List.Forall₂ (Outlink.Renamed m.symbols m'.symbols) (o.toList ++ rest) (o'.toList ++ rest') := by
  cases ho with
  | none => exact hrest
  | some ho => exact .cons ho hrest

theorem factOutlinks {s t : State} (hs : s.Renamed m.symbols m'.symbols t) (label : Label)
    {bound bound' : List (Option Nat)}
    (hbound : List.Forall₂ (Option.Rel (Namesakes m.symbols m'.symbols)) bound bound') {facts : List (Fact K)}
    (hfacts : ∀ fact ∈ facts, ∀ c ∈ fact.args, Namesakes m.symbols m'.symbols c c) :
    RunsTogether m.symbols m'.symbols (List.Forall₂ (Outlink.Renamed m.symbols m'.symbols))
      (m.factOutlinks s label bound facts) (m'.factOutlinks t label bound' facts) := by
  induction facts with
  | nil => exact together_pure .nil
  | cons fact rest ih =>
    obtain ⟨hfact, hrest⟩ := List.forall_mem_cons.1 hfacts
    exact (h.factOutlink hs label hbound hfact).bind fun _ _ hhere => (ih hrest).bind fun _ _ hothers =>
      together_pure (append_toList hhere hothers)

theorem baseOutlinks {s t : State} (hs : s.Renamed m.symbols m'.symbols t) (label : Label)
    {b : FactBase K} (hb : b ∈ m.bases) :
    RunsTogether m.symbols m'.symbols (List.Forall₂ (Outlink.Renamed m.symbols m'.symbols))
      (m.baseOutlinks s label b) (m'.baseOutlinks t label b) :=
  (restore hs).bind fun _ _ _ => (boundArguments _).bind fun _ _ hbound =>
    h.factOutlinks hs label hbound (h.facts b hb label)

theorem basesOutlinks {s t : State} (hs : s.Renamed m.symbols m'.symbols t) (label : Label)
    {bases : List (FactBase K)} (hbases : ∀ b ∈ bases, b ∈ m.bases) :
    RunsTogether m.symbols m'.symbols (List.Forall₂ (Outlink.Renamed m.symbols m'.symbols))
      (m.basesOutlinks s label bases) (m'.basesOutlinks t label bases) := by
  induction bases with
  | nil => exact together_pure .nil
  | cons b rest ih =>
    obtain ⟨hb, hrest⟩ := List.forall_mem_cons.1 hbases
    exact (h.baseOutlinks hs label hb).bind fun _ _ hhere => (ih hrest).bind fun _ _ hothers =>
      together_pure (List.rel_append hhere hothers)

theorem clauseOutlink {s t : State} (hs : s.Renamed m.symbols m'.symbols t) (address : Nat) :
    RunsTogether m.symbols m'.symbols (Option.Rel (Outlink.Renamed m.symbols m'.symbols))
      (m.clauseOutlink s address) (m'.clauseOutlink t address) := by
  obtain ⟨heap, hh, rfl⟩ := hs
  refine Together.bind (restore ⟨heap, hh, rfl⟩) fun _ _ _ => h.run.bind fun _ _ _ =>
    together_get.bind fun r r' hr => ?_
  obtain ⟨_, ⟨heap', hh', rfl⟩, rfl⟩ := hr
  unfold Run.withState
  dsimp only
  split
  · exact together_pure .none
  · exact Together.bind (together_set ⟨_, ⟨heap', hh', rfl⟩, rfl⟩) fun _ _ _ =>
      together_pure (.some ⟨rfl, heap', hh', rfl⟩)

theorem clauseOutlinks {s t : State} (hs : s.Renamed m.symbols m'.symbols t) (addresses : List Nat) :
    RunsTogether m.symbols m'.symbols (List.Forall₂ (Outlink.Renamed m.symbols m'.symbols))
      (m.clauseOutlinks s addresses) (m'.clauseOutlinks t addresses) := by
  induction addresses with
  | nil => exact together_pure .nil
  | cons address rest ih =>
    exact (h.clauseOutlink hs address).bind fun _ _ hhere => ih.bind fun _ _ hothers =>
      together_pure (append_toList hhere hothers)

theorem outlinks {s t : State} (hs : s.Renamed m.symbols m'.symbols t) :
    RunsTogether m.symbols m'.symbols (List.Forall₂ (Outlink.Renamed m.symbols m'.symbols))
      (m.outlinks s) (m'.outlinks t) := by
  have hbases := h.basesOutlinks hs
  have hclauses := h.clauseOutlinks hs
  obtain ⟨heap, hh, rfl⟩ := hs
  unfold Machine.outlinks
  rw [← h.bases]
  dsimp only
  split
  · exact together_pure .nil
  · split
    · exact together_throw rfl
    · rename_i label _
      rw [← h.clauses_eq]
      refine (hbases label fun b hb => List.mem_of_mem_filter hb).bind fun _ _ hfacts => ?_
      split
      · exact together_throw rfl
      · exact (hclauses _).bind fun _ _ hrules => together_pure (List.rel_append hfacts hrules)

/-- **A state and its counterpart go on in the same ways.** -/
theorem expand {s t : State} (hs : s.Renamed m.symbols m'.symbols t) :
    Corresponds Eq (List.Forall₂ (Outlink.Renamed m.symbols m'.symbols)) (m.expand s) (m'.expand t) :=
  (h.outlinks hs _ _ h.initial).1

theorem waysOn {f g : Frozen} (hf : f.Renamed m.symbols m'.symbols g) :
    List.Forall₂ (Outlink.Renamed m.symbols m'.symbols) (m.waysOn f) (m'.waysOn g) := by
  have hways := h.expand hf
  unfold Machine.waysOn
  generalize m.expand f.state = x, m'.expand g.state = y at hways
  cases hways with
  | ok hways => exact hways
  | error _ => exact .nil

end Renamed

end Machine

end ProofWalk
