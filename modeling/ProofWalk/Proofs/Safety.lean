import Mathlib.Data.List.Dedup
import ProofWalk.Proofs.ClauseCode
import ProofWalk.Proofs.Ways
/-!
# Proofs.Safety — compiled code never goes wrong

Every state that a query can reach is settled (`Reachable.settled`): it waits at a call behind callers that stand,
or the query has succeeded or failed.  Runs between such states meet foreseen faults only.

States are reached by expanding others, and what was run before an expansion does not matter to it
(`Machine.outlinks_eq_expand`); so `Reachable` allows any run before each.
-/
namespace ProofWalk

/-! ## Registers of a query

The registers of a completed state are those of the query, one for each variable. -/

def Term.var? {V : Type} : Term V → Option V
  | const _ => none
  | var v => some v

def Query.variables (query : Query) : List RuleVar :=
  (readGoals ∅ 0 query.goals).flatMap fun goal => goal.args.filterMap Term.var?

theorem filterMap_readArguments (symbols symbols' : Symbols) : ∀ (count : Nat) (args : List Argument),
    (readArguments symbols count args).filterMap Term.var? =
      (readArguments symbols' count args).filterMap Term.var?
  | _, [] => rfl
  | count, .const _ :: rest => filterMap_readArguments symbols symbols' count rest
  | count, .var v :: rest =>
    congrArg (ruleVar count v :: ·) (filterMap_readArguments symbols symbols' (countAfter count (.var v)) rest)

theorem flatMap_readGoals (symbols symbols' : Symbols) : ∀ (count : Nat) (goals : List Goal),
    (readGoals symbols count goals).flatMap (fun goal => goal.args.filterMap Term.var?) =
      (readGoals symbols' count goals).flatMap fun goal => goal.args.filterMap Term.var?
  | _, [] => rfl
  | count, goal :: rest => by
    rw [readGoals, readGoals, List.flatMap_cons, List.flatMap_cons, filterMap_readArguments symbols symbols',
      flatMap_readGoals symbols symbols']

theorem QueryProgram.CompiledFrom.lt_length_iff {q : QueryProgram} {rules : List Rule}
    {query : Query} {symbols : Symbols} (h : q.CompiledFrom rules query symbols) (i : Nat) :
    i < q.names.length ↔ ∃ v ∈ query.variables, registerOf q.names v = i := by
  obtain ⟨-, body, -, hbody⟩ := h.query_at
  rw [hbody.lt_iff i, Query.variables, flatMap_readGoals ∅ symbols]
  constructor
  · rintro (hi | ⟨_, hgoal, hi⟩)
    · omega
    · obtain ⟨goal, hmem, rfl⟩ := List.mem_map.1 hgoal
      obtain ⟨t, ht, hti⟩ := List.mem_map.1 hi
      cases t with
      | const c => cases hti
      | var v =>
        exact ⟨v, List.mem_flatMap.2 ⟨goal, hmem, List.mem_filterMap.2 ⟨_, ht, rfl⟩⟩, Term.var.inj hti⟩
  · rintro ⟨v, hv, rfl⟩
    obtain ⟨goal, hgoal, hv⟩ := List.mem_flatMap.1 hv
    obtain ⟨t, ht, htv⟩ := List.mem_filterMap.1 hv
    cases t with
    | const c => cases htv
    | var w =>
      cases htv
      exact .inr ⟨_, List.mem_map_of_mem hgoal, List.mem_map_of_mem ht⟩

/-- **A compiled query has a register for each of its variables**, by name. -/
theorem QueryProgram.CompiledFrom.length_names {q : QueryProgram} {rules : List Rule}
    {query : Query} {symbols : Symbols} (h : q.CompiledFrom rules query symbols) :
    q.names.length = (query.variables.map RuleVar.text).dedup.length := by
  have hmem : ∀ v ∈ query.variables, v.text ∈ q.names := fun v hv =>
    List.idxOf_lt_length_iff.1 ((h.lt_length_iff _).2 ⟨v, hv, rfl⟩)
  have hname : ∀ i (hi : i < q.names.length), ∃ v ∈ query.variables, q.names[i] = v.text ∧
      q.names.idxOf q.names[i] = i := by
    intro i hi
    obtain ⟨v, hv, hidx⟩ := (h.lt_length_iff i).1 hi
    have hget : q.names[i] = v.text := by
      subst hidx
      exact List.getElem_idxOf _
    exact ⟨v, hv, hget, by rw [hget]; exact hidx⟩
  have hnodup : q.names.Nodup := List.pairwise_iff_getElem.2 fun i j hi hj hij heq => by
    obtain ⟨-, -, -, hidx⟩ := hname i hi
    obtain ⟨-, -, -, hidx'⟩ := hname j hj
    rw [heq, hidx'] at hidx
    omega
  refine List.Perm.length_eq ((List.perm_ext_iff_of_nodup hnodup (List.nodup_dedup _)).2 fun name => ?_)
  rw [List.mem_dedup, List.mem_map]
  constructor
  · intro hin
    obtain ⟨i, hi, rfl⟩ := List.mem_iff_getElem.1 hin
    obtain ⟨v, hv, hget, -⟩ := hname i hi
    exact ⟨v, hv, hget.symm⟩
  · rintro ⟨v, hv, rfl⟩
    exact hmem v hv

/-! ## Going on from a call

A call goes on in a rule or by a fact.  Either way the new state stands at code that fits, with the callers that
stood before. -/

open Machine

theorem Waiting.exists_caller {q : QueryProgram} {label : Label} {s : State} (h : Waiting q label s) :
    ∃ f rest, s.stack = f :: rest ∧ f.Stands q s.heap.size ∧ Callers q s.heap.size f.caller rest := by
  have hcallers := h.callers
  rw [h.pending] at hcallers
  cases hstack : s.stack with
  | nil => rw [hstack] at hcallers; cases hcallers
  | cons f rest =>
    rw [hstack] at hcallers
    exact ⟨f, rest, rfl, hcallers.2⟩

/-- **A rule is entered at code that fits.** -/
theorem Waiting.entered {q : QueryProgram} {label : Label} {s : State} (h : Waiting q label s) {size address : Nat}
    (hfits : Fits size .opening 0 label.arity (q.codeFrom address)) :
    Standing q size 0 label.arity .opening { s with pc := address } where
  running := h.running
  heap := h.sane.heap
  code := hfits
  hand_le := h.arity_le
  registers hc := nomatch hc
  callers := h.callers
  query hc := by rw [h.pending] at hc; cases hc
  arity _ := by show State.arity { s with pc := address } = _; rw [State.arity, h.pending]

theorem matchAll_fits : ∀ {pairs : List (Nat × Nat)} {h h' : Heap}, h.Sound → (∀ p ∈ pairs, p.1 < h.size) →
    matchAll h pairs = some h' → h'.Sound ∧ h'.size = h.size
  | [], h, h', hs, _, hm => by cases hm; exact ⟨hs, rfl⟩
  | (cell, constant) :: rest, h, h', hs, hlt, hm => by
    rw [matchAll] at hm
    cases hchange : h.matchConst cell constant with
    | none => rw [hchange] at hm; cases hm
    | some change =>
      rw [hchange] at hm
      have hfits := Heap.matchConst_fits hs (hlt _ List.mem_cons_self) hchange
      have hsize := Heap.size_apply h change
      obtain ⟨hs', hsize'⟩ := matchAll_fits (hs.apply hfits)
        (fun p hp => by rw [hsize]; exact hlt p (List.mem_cons_of_mem _ hp)) hm
      exact ⟨hs', hsize'.trans hsize⟩

/-- **A fact that matches returns to a caller that stands.** -/
theorem Waiting.answered {q : QueryProgram} {label : Label} {s : State} (h : Waiting q label s)
    {f : Frame} {rest : List Frame} (hstack : s.stack = f :: rest) {args : List Nat} {heap : Heap}
    (hm : matchAll s.heap ((List.range' (s.heap.size - label.arity) label.arity).zip args) = some heap) :
    ∃ size met, Standing q size met 0 .body (returned { s with heap := heap } f rest) := by
  obtain ⟨f', rest', hstack', ⟨size, met, hfits, hregisters, hquery⟩, hcallers⟩ := h.exists_caller
  rw [hstack] at hstack'
  cases hstack'
  have harity := h.arity_le
  obtain ⟨hsound, hsize⟩ := matchAll_fits h.sane.heap (fun p hp => by
    have := (List.mem_range'_1.1 (List.of_mem_zip hp).1).2
    omega) hm
  exact ⟨size, met,
    { running := h.running
      heap := hsound
      code := hfits
      hand_le := Nat.zero_le _
      registers := fun _ => hregisters.mono (Nat.le_of_eq hsize.symm)
      callers := hcallers.mono (Nat.le_of_eq hsize.symm)
      query := hquery
      arity := fun hne => absurd rfl hne }⟩

/-! ## Reachable states

The step lemma is `expand_fits`, for one expansion of a settled state; `Reachable.settled` follows by induction. -/

namespace Machine

variable {K : Type}

theorem exists_of_collect : ∀ {ways : List (Except LogicError (Option (Outlink K)))} {outlinks : List (Outlink K)},
    collect ways = .ok outlinks → ∀ {o : Outlink K}, o ∈ outlinks → .ok (some o) ∈ ways
  | [], _, h, _, ho => by cases h; cases ho
  | _ :: _, _, h, o, ho => by
    obtain ⟨way, rest, rfl, hrest, rfl⟩ := collect_cons_eq_ok h
    rcases List.mem_append.1 ho with ho | ho
    · rw [Option.mem_toList] at ho
      exact List.mem_cons.2 (.inl (by rw [ho]))
    · exact List.mem_cons_of_mem _ (exists_of_collect hrest ho)

theorem error_of_collect : ∀ {ways : List (Except LogicError (Option (Outlink K)))} {e : LogicError},
    collect ways = .error e → .error e ∈ ways
  | [], _, h => by cases h
  | .error _ :: _, _, h => by cases h; exact List.mem_cons_self
  | .ok way :: ways, e, h => by
    rw [collect] at h
    cases hrest : collect ways with
    | ok rest => rw [hrest] at h; cases h
    | error e' =>
      rw [hrest] at h
      cases h
      exact List.mem_cons_of_mem _ (error_of_collect hrest)

variable [Scalar K]

/-- **The states that a machine produces**: the first branching point of its query and whatever it leads to,
whatever was run before each expansion. -/
inductive Reachable (m : Machine K) : State → Prop
  | start {r : Run K} {f : Frozen} (h : (m.start r).1 = .ok f) : Reachable m f.state
  | outlink {s : State} {r : Run K} {outlinks : List (Outlink K)} {o : Outlink K} (hs : Reachable m s)
      (h : (m.outlinks s r).1 = .ok outlinks) (ho : o ∈ outlinks) : Reachable m o.target.state

/-- **The states that are some number of outlinks away from the start**, whatever was run before each expansion. -/
inductive ReachableIn (m : Machine K) : Nat → State → Prop
  | start {f : Frozen} (h : m.startState = .ok f) : ReachableIn m 0 f.state
  | outlink {n : Nat} {s : State} {r : Run K} {outlinks : List (Outlink K)}
      {o : Outlink K} (hs : ReachableIn m n s)
      (h : (m.outlinks s r).1 = .ok outlinks) (ho : o ∈ outlinks) : ReachableIn m (n + 1) o.target.state

variable {m : Machine K}

theorem ReachableIn.reachable {s : State} (h : m.ReachableIn n s) : m.Reachable s := by
  induction h with
  | start h => exact .start h
  | outlink _ h ho ih => exact .outlink ih h ho

def WayFits (q : QueryProgram) : Except LogicError (Option (Outlink K)) → Prop
  | .error e => e.Foreseen
  | .ok none => True
  | .ok (some o) => Settled q o.target.state

theorem wayFrom_fits {size met hand : Nat} {stage : Stage} {s : State}
    (hs : Standing m.query size met hand stage s) (features : Run K → Features K) :
    WayFits m.query (m.wayFrom s features) := by
  have hrun := runFor_settled m m.limits.steps (r := .resume s) hs
  rw [wayFrom]
  rcases hr : m.runFor m.limits.steps (.resume s : Run K) with ⟨e | _, r⟩
  · rw [hr] at hrun
    exact hrun
  · rw [hr] at hrun
    show WayFits m.query (.ok (if r.state.failed then none else some ⟨features r, .of r.state⟩))
    split
    · trivial
    · exact hrun

theorem ways_fit (hq : m.query.Fitting) {label : Label} {s : State} (h : Waiting m.query label s) :
    ∀ way ∈ m.ways s label, WayFits m.query way := by
  intro way hmem
  rcases List.mem_append.1 hmem with hmem | hmem
  · obtain ⟨b, -, hmem⟩ := List.mem_flatMap.1 hmem
    obtain ⟨fact, -, rfl⟩ := List.mem_map.1 hmem
    obtain ⟨f, rest, hstack, -, -⟩ := h.exists_caller
    rw [m.factWay_eq h.arity_le hstack]
    split
    · split
      · rename_i heap hm
        obtain ⟨size, met, hs⟩ := h.answered hstack hm
        exact wayFrom_fits hs _
      · trivial
    · trivial
  · obtain ⟨address, haddress, rfl⟩ := List.mem_map.1 hmem
    obtain ⟨size, hfits⟩ := hq.clauses label address haddress
    rw [m.clauseWay_eq]
    exact wayFrom_fits (h.entered hfits) _

/-- **What an expansion comes to**: settled states or a foreseen fault. -/
theorem expand_fits (hq : m.query.Fitting) {s : State} (hs : Settled m.query s) :
    match m.expand s with
    | .ok outlinks => ∀ o ∈ outlinks, Settled m.query o.target.state
    | .error e => e.Foreseen := by
  have hstop : s.completed = true ∨ s.failed = true → m.expand s = .ok [] := m.expand_of_stopped
  cases hs with
  | finished h => rw [hstop (.inl h.completed)]; exact fun _ ho => nomatch ho
  | refuted h => rw [hstop (.inr h.failed.2)]; exact fun _ ho => nomatch ho
  | @waiting label h =>
    have hways := ways_fit hq h
    rw [m.expand_eq_collect h.running h.pending h.arity_le]
    split
    · rename_i outlinks hok
      split at hok
      · cases hok
      · exact fun o ho => hways _ (exists_of_collect hok ho)
    · rename_i e herror
      split at herror
      · cases herror; trivial
      · exact hways _ (error_of_collect herror)

theorem standing_start {q : QueryProgram} (hq : q.Fitting) :
    Standing q q.names.length 0 0 .opening (State.start q.entry) where
  running := ⟨rfl, rfl⟩
  heap i hi := absurd hi (Nat.not_lt_zero i)
  code := hq.entry
  hand_le := Nat.le_refl _
  registers hc := nomatch hc
  callers := rfl
  query _ := rfl
  arity _ := rfl

theorem start_fits (hq : m.query.Fitting) (r : Run K) :
    match (m.start r).1 with
    | .ok f => Settled m.query f.state
    | .error e => e.Foreseen := by
  have hrun := runFor_settled m m.limits.steps (r := m.atStart r) (standing_start hq)
  rw [m.start_eq]
  rcases hr : m.runFor m.limits.steps (m.atStart r) with ⟨e | _, r'⟩
  · rw [hr] at hrun
    exact hrun
  · rw [hr] at hrun
    exact hrun

/-- **Every reachable state is settled.** -/
theorem Reachable.settled (hq : m.query.Fitting) {s : State} (h : m.Reachable s) : Settled m.query s := by
  induction h with
  | @start r f h =>
    have hfits := start_fits hq r
    rw [h] at hfits
    exact hfits
  | @outlink s r outlinks o hs h ho ih =>
    have hfits := expand_fits hq ih
    rw [← m.outlinks_eq_expand s r, h] at hfits
    exact hfits o ho

/-- The state that some choices among the outlinks lead to, the last choice first. -/
def descend (m : Machine K) : List Nat → Option State
  | [] => m.startState.toOption.map Frozen.state
  | choice :: before => do
    let s ← descend m before
    let outlinks ← (m.expand s).toOption
    let o ← outlinks[choice]?
    return o.target.state

theorem eq_ok_of_toOption {ε α : Type} {x : Except ε α} {a : α} (h : x.toOption = some a) : x = .ok a := by
  cases x with
  | error e => cases h
  | ok a' => exact congrArg Except.ok (Option.some.inj h)

theorem reachableIn_of_descend : ∀ {choices : List Nat} {s : State}, m.descend choices = some s →
    m.ReachableIn choices.length s
  | [], s, h => by
    obtain ⟨f, hf, rfl⟩ := Option.map_eq_some_iff.1 h
    exact .start (eq_ok_of_toOption hf)
  | choice :: before, s, h => by
    obtain ⟨s', hs', h⟩ := Option.bind_eq_some_iff.1 h
    obtain ⟨outlinks, houtlinks, h⟩ := Option.bind_eq_some_iff.1 h
    obtain ⟨o, ho, h⟩ := Option.bind_eq_some_iff.1 h
    cases h
    exact .outlink (reachableIn_of_descend hs') (eq_ok_of_toOption houtlinks) (List.mem_of_getElem? ho)

theorem reachable_of_descend {choices : List Nat} {s : State} (h : m.descend choices = some s) : m.Reachable s :=
  (reachableIn_of_descend h).reachable

/-- **Compiled code never goes wrong.**  Start and expansions of reachable states succeed or meet a foreseen fault.
In a reachable state references and registers stay inside the heap, chains of references end in a constant or an
unbound variable, and a query that has succeeded has no caller left and a register set for each of its variables. -/
theorem reachable_safe {rules : List Rule} {query : Query} {symbols : Symbols}
    (h : m.query.CompiledFrom rules query symbols) : (∀ r e, (m.start r).1 = .error e → e.Foreseen) ∧
      ∀ s, m.Reachable s →
        (∀ r e, (m.outlinks s r).1 = .error e → e.Foreseen) ∧
        (∀ i j : Nat, s.heap[i]? = some (Cell.ref j) → j < s.heap.size) ∧
        (∀ cell, some cell ∈ s.registers → cell < s.heap.size) ∧
        (∀ f ∈ s.stack, ∀ cell, some cell ∈ f.registers → cell < s.heap.size) ∧
        (∀ i < s.heap.size, ∃ n e, s.heap.Leads n i e ∧
          ((∃ c, s.heap[e]? = some (Cell.const c)) ∨ s.heap[e]? = some (Cell.ref e))) ∧
        (s.completed = true → s.stack = [] ∧ s.registers.length = (query.variables.map RuleVar.text).dedup.length ∧
          ∀ register ∈ s.registers, register.isSome) := by
  refine ⟨fun r e he => ?_, fun s hs => ?_⟩
  · have hfits := start_fits h.fitting r
    rw [he] at hfits
    exact hfits
  · have hsettled := hs.settled h.fitting
    have hsane := hsettled.sane
    refine ⟨fun r e he => ?_, fun i j hi => hsane.heap.ref_lt hi, hsane.registers, hsane.saved,
      fun i hi => ?_, fun hc => ?_⟩
    · have hfits := expand_fits h.fitting hsettled
      rw [← m.outlinks_eq_expand s r, he] at hfits
      exact hfits
    · obtain ⟨n, e, hl⟩ := hsane.heap i hi
      exact ⟨n, e, hl, hl.end_cell⟩
    · cases hsettled with
      | waiting hw => rw [hw.running.1] at hc; cases hc
      | refuted hr => rw [hr.failed.1] at hc; cases hc
      | finished hf => exact ⟨hf.stack, hf.length.trans h.length_names, hf.isSome⟩

end Machine

/-! ## A program to try things on

Later modules evaluate their statements on this machine too. -/

/-- Paths in a graph of one edge, which is given twice. -/
def pathRules : List Rule :=
  [⟨⟨"path", [.var "X", .var "Y"]⟩, [⟨"edge", [.var "X", .var "Y"]⟩], []⟩,
    ⟨⟨"path", [.var "X", .var "Y"]⟩, [⟨"edge", [.var "X", .var "Z"]⟩, ⟨"path", [.var "Z", .var "Y"]⟩], []⟩,
    ⟨⟨"edge", [.const "a", .const "b"]⟩, [], []⟩,
      ⟨⟨"edge", [.const "a", .var "Y"]⟩, [⟨"assign", [.var "Y", .const "b"]⟩], []⟩]

/-- Where a path from `a` may lead to. -/
def pathQuery : Query := ⟨[⟨"path", [.const "a", .var "W"]⟩]⟩

@[irreducible] def pathProgram : Program := (Program.ofRules pathRules ∅).1.toOption.getD .empty

@[irreducible] def pathSymbols : Symbols := (Program.ofRules pathRules ∅).2

@[irreducible] def pathCode : QueryProgram :=
  (pathProgram.compileQuery pathQuery pathSymbols).1.toOption.getD default

@[irreducible] def pathTable : Symbols := (pathProgram.compileQuery pathQuery pathSymbols).2

def pathMachine : Machine Float := ⟨pathCode, [], ⟨100, 10⟩, pathTable⟩

theorem eq_ok_of_isOk {ε α β : Type} {x : Except ε α × β} (a : α) (h : x.1.isOk = true) :
    x = (.ok (x.1.toOption.getD a), x.2) := by
  rcases x with ⟨e | a', b⟩
  · cases h
  · rfl

theorem pathProgram_eq : Program.ofRules pathRules ∅ = (.ok pathProgram, pathSymbols) := by
  have hok : (Program.ofRules pathRules ∅).1.isOk = true := by decide +kernel
  rw [pathProgram, pathSymbols, ← eq_ok_of_isOk Program.empty hok]

theorem pathCode_eq : pathProgram.compileQuery pathQuery pathSymbols = (.ok pathCode, pathTable) := by
  have hok : (pathProgram.compileQuery pathQuery pathSymbols).1.isOk = true := by decide +kernel
  rw [pathCode, pathTable, ← eq_ok_of_isOk default hok]

theorem pathMachine_compiled : pathMachine.query.CompiledFrom pathRules pathQuery pathTable :=
  ⟨∅, pathProgram, pathSymbols, pathSymbols, pathProgram_eq, .refl _, pathCode_eq⟩

/-- The query about paths has one register once it has succeeded. -/
theorem reachable_safe_path : pathMachine.query.CompiledFrom pathRules pathQuery pathTable ∧
    ∀ s, pathMachine.Reachable s → s.completed = true → s.stack = [] ∧ s.registers.length = 1 := by
  refine ⟨pathMachine_compiled, fun s hs hc => ?_⟩
  obtain ⟨-, hsafe⟩ := Machine.reachable_safe pathMachine_compiled
  obtain ⟨-, -, -, -, -, hcompleted⟩ := hsafe s hs
  obtain ⟨hstack, hlength, -⟩ := hcompleted hc
  have hvariables : (pathQuery.variables.map RuleVar.text).dedup.length = 1 := by decide
  exact ⟨hstack, hlength.trans hvariables⟩

def pathState (choices : List Nat) : State := (pathMachine.descend choices).getD default

theorem pathState_reachable {choices : List Nat} (h : (pathMachine.descend choices).isSome = true) :
    pathMachine.Reachable (pathState choices) := by
  obtain ⟨s, hs⟩ := Option.isSome_iff_exists.1 h
  rw [pathState, hs]
  exact reachable_of_descend hs

end ProofWalk
