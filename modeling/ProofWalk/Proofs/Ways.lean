import ProofWalk.Proofs.Standing
/-!
# Proofs.Ways — an expansion is made of independent ways

Each way to go on from a state starts afresh from that state, so what the ways before it did does not matter.  An
expansion is therefore the list of the ways taken one by one, up to the first fault (`expand_eq_collect`).

The ways from a call are those by facts and then those by rules.  One by a rule runs from the code of the rule up to
the next branching point, with the features that the rule reports on the way.  One by a fact binds the arguments of
the call and runs on in the caller.
-/
namespace ProofWalk
namespace Machine

variable {K : Type}

/-- **Taking ways one after another**, up to the first fault; ways that fail are left out. -/
def collect : List (Except LogicError (Option (Outlink K))) → Except LogicError (List (Outlink K))
  | [] => .ok []
  | .error e :: _ => .error e
  | .ok way :: rest => (collect rest).map (way.toList ++ ·)

theorem collect_append : ∀ (ways rest : List (Except LogicError (Option (Outlink K)))),
    collect (ways ++ rest) = collect ways >>= fun before => (collect rest).map (before ++ ·)
  | [], rest => by
    show collect rest = (collect rest).map ([] ++ ·)
    cases collect rest <;> rfl
  | .error _ :: _, _ => rfl
  | .ok way :: ways, rest => by
    rw [List.cons_append, collect, collect, collect_append ways rest]
    cases collect ways with
    | error e => rfl
    | ok before =>
      show ((collect rest).map (before ++ ·)).map (way.toList ++ ·) =
        (collect rest).map (way.toList ++ before ++ ·)
      cases collect rest with
      | error e => rfl
      | ok after => exact congrArg Except.ok (List.append_assoc ..).symm

theorem collect_cons_eq_ok {way : Except LogicError (Option (Outlink K))}
    {ways : List (Except LogicError (Option (Outlink K)))} {outlinks : List (Outlink K)}
    (h : collect (way :: ways) = .ok outlinks) :
    ∃ o rest, way = .ok o ∧ collect ways = .ok rest ∧ outlinks = o.toList ++ rest := by
  cases way with
  | error e => cases h
  | ok o =>
    rw [collect] at h
    cases hrest : collect ways with
    | error e => rw [hrest] at h; cases h
    | ok rest =>
      rw [hrest] at h
      exact ⟨o, rest, rfl, rfl, (Except.ok.inj h).symm⟩

theorem collect_append_eq_ok {ways ways' : List (Except LogicError (Option (Outlink K)))}
    {outlinks : List (Outlink K)} (h : collect (ways ++ ways') = .ok outlinks) :
    ∃ first second, collect ways = .ok first ∧ collect ways' = .ok second ∧ outlinks = first ++ second := by
  rw [collect_append] at h
  obtain ⟨first, hfirst, h⟩ := except_bind_eq_ok h
  cases hsecond : collect ways' with
  | error e => rw [hsecond] at h; cases h
  | ok second =>
    rw [hsecond] at h
    exact ⟨first, second, hfirst, rfl, (Except.ok.inj h).symm⟩

def boundCells (s : State) (arity : Nat) : List (Option Nat) :=
  (List.range' (s.heap.size - arity) arity).map fun cell =>
    match s.heap.resolve cell with
    | .const c => some c
    | _ => none

theorem pendingArgument_eq {position : Nat} {r : Run K} (h : r.state.arity ≤ r.state.heap.size)
    (hp : position < r.state.arity) :
    (pendingArgument position : RunM K Binding) r =
      (.ok (r.state.heap.resolve (r.state.heap.size - r.state.arity + position)), r) := by
  unfold pendingArgument
  rw [bind_ok (state_eq r), bind_ok (topCells_eq r h), List.getElem?_range' hp, Nat.one_mul]
  rfl

theorem boundArguments_eq : ∀ (positions : List Nat) {r : Run K}, r.state.arity ≤ r.state.heap.size →
    (∀ p ∈ positions, p < r.state.arity) →
    (boundArguments positions : RunM K (List (Option Nat))) r =
      (.ok (positions.map fun p =>
        match r.state.heap.resolve (r.state.heap.size - r.state.arity + p) with
        | .const c => some c
        | _ => none), r)
  | [], _, _, _ => rfl
  | position :: rest, r, h, hp => by
    have hrest := boundArguments_eq rest h fun p hmem => hp p (List.mem_cons_of_mem _ hmem)
    show ((pendingArgument position : RunM K Binding) >>= fun b => boundArguments rest >>= fun rest =>
      pure ((match b with | .const c => some c | _ => none) :: rest)) r = _
    rw [bind_ok (pendingArgument_eq h (hp position List.mem_cons_self)), bind_ok hrest]
    rfl

variable [Scalar K] (m : Machine K)

def clauseWay (s : State) (address : Nat) : Except LogicError (Option (Outlink K)) :=
  (m.clauseOutlink s address (.resume s)).1

def factWay (s : State) (label : Label) (fact : Fact K) : Except LogicError (Option (Outlink K)) :=
  (m.factOutlink s label (boundCells s label.arity) fact (.resume s)).1

/-- **The ways on from a state that waits at a call**: the facts of each base in turn, then the rules. -/
def ways (s : State) (label : Label) : List (Except LogicError (Option (Outlink K))) :=
  ((m.bases.filter (·.claims label)).flatMap fun b => (b.factsOf label).map (m.factWay s label)) ++
    (m.query.clauses label).map (m.clauseWay s)

def atStart (r : Run K) : Run K := { r.clearFeatures with state := .start m.query.entry, steps := 0 }

theorem start_eq (r : Run K) : (m.start r).1 = match m.runFor m.limits.steps (m.atStart r) with
    | (.ok _, r') => .ok (.of r'.state)
    | (.error e, _) => .error e := by
  show ((m.runFor m.limits.steps >>= fun _ => (state : RunM K State) >>= fun s => pure (Frozen.of s))
    (m.atStart r)).1 = _
  rcases hrun : m.runFor m.limits.steps (m.atStart r) with ⟨e | _, r'⟩
  · rw [bind_error hrun]
  · rw [bind_ok hrun]
    rfl

/-- **Running on from a state** to the next branching point; nothing if that fails. -/
def wayFrom (s : State) (features : Run K → Features K) : Except LogicError (Option (Outlink K)) :=
  match m.runFor m.limits.steps (.resume s) with
  | (.ok _, r) => .ok (if r.state.failed then none else some ⟨features r, .of r.state⟩)
  | (.error e, _) => .error e

theorem clauseWay_eq (s : State) (address : Nat) :
    m.clauseWay s address = m.wayFrom { s with pc := address } fun r => r.reported.getD .empty := by
  unfold clauseWay clauseOutlink
  rw [wayFrom]
  show ((m.runFor m.limits.steps >>= _) (.resume { s with pc := address } : Run K)).1 = _
  rcases hrun : m.runFor m.limits.steps (.resume { s with pc := address } : Run K) with ⟨e | _, r⟩
  · rw [bind_error hrun]
  · rw [bind_ok hrun]
    show Prod.fst ((if r.state.failed then (pure none : RunM K (Option (Outlink K)))
      else set { r with reported := none } >>= fun _ => pure (some ⟨r.reported.getD .empty, .of r.state⟩)) r) =
        .ok (if r.state.failed then none else some ⟨r.reported.getD .empty, .of r.state⟩)
    split <;> rfl

def matchAll (h : Heap) : List (Nat × Nat) → Option Heap
  | [] => some h
  | (cell, constant) :: rest => (h.matchConst cell constant).bind fun change => matchAll (h.apply change) rest

omit [Scalar K] in
theorem unifyAll_eq : ∀ (pairs : List (Nat × Nat)) (r : Run K),
    match matchAll r.state.heap pairs with
    | some h => (unifyAll pairs : RunM K Bool) r = (.ok true, r.withState { r.state with heap := h })
    | none => ∃ r', (unifyAll pairs : RunM K Bool) r = (.ok false, r')
  | [], _ => rfl
  | (cell, constant) :: rest, r => by
    have hrun : (unifyAll ((cell, constant) :: rest) : RunM K Bool) r =
        ((unifyConst cell constant : RunM K Bool) >>= fun b => if b then unifyAll rest else pure false) r := rfl
    rw [matchAll, hrun]
    cases hmatch : r.state.heap.matchConst cell constant with
    | none =>
      have hu : (unifyConst cell constant : RunM K Bool) r = (.ok false, r) := by
        rw [unifyConst_eq, Heap.unifyConst, hmatch]
        rfl
      rw [bind_ok hu]
      exact ⟨r, rfl⟩
    | some change =>
      have hu : (unifyConst cell constant : RunM K Bool) r =
          (.ok true, r.withState { r.state with heap := r.state.heap.apply change }) := by
        rw [unifyConst_eq, Heap.unifyConst, hmatch]
        rfl
      rw [bind_ok hu]
      exact unifyAll_eq rest (r.withState { r.state with heap := r.state.heap.apply change })

omit [Scalar K] in
def returned (s : State) (f : Frame) (rest : List Frame) : State :=
  { s with pc := f.returnTo, registers := f.registers, jumpTo := f.caller, stack := rest }

/-- **A fact that matches returns to the caller.** -/
theorem factWay_eq {s : State} {label : Label} {f : Frame} {rest : List Frame} (hsize : label.arity ≤ s.heap.size)
    (hstack : s.stack = f :: rest) (fact : Fact K) :
    m.factWay s label fact =
      if fact.agrees (boundCells s label.arity) then
        match matchAll s.heap ((List.range' (s.heap.size - label.arity) label.arity).zip fact.args) with
        | some h => m.wayFrom (returned { s with heap := h } f rest) fun _ =>
            (∅ : Features K).insert (FactBase.feature label) fact.weight
        | none => .ok none
      else .ok none := by
  unfold factWay factOutlink
  split
  · have hcells : (topCells label.arity : RunM K (List Nat)) (.resume s) =
        (.ok (List.range' (s.heap.size - label.arity) label.arity), .resume s) := topCells_eq (.resume s) hsize
    show ((topCells label.arity >>= fun cells => unifyAll (cells.zip fact.args) >>= fun b =>
      if b then m.finishCall ((∅ : Features K).insert (FactBase.feature label) fact.weight)
        else pure none) (.resume s)).1 = _
    rw [bind_ok hcells]
    have hunify :=
      unifyAll_eq (K := K) ((List.range' (s.heap.size - label.arity) label.arity).zip fact.args) (.resume s)
    have hheap : (Run.resume s : Run K).state.heap = s.heap := rfl
    rw [hheap] at hunify
    split at hunify
    · rename_i h hmatch
      rw [bind_ok hunify, if_pos rfl, wayFrom]
      have hreturn : (returnToCaller : RunM K Control) ((Run.resume s).withState { s with heap := h }) =
          (.ok .next, .resume (returned { s with heap := h } f rest)) := returnToCaller_cons _ hstack
      unfold finishCall
      show (((returnToCaller : RunM K Control) >>= _) ((Run.resume s).withState { s with heap := h })).1 = _
      rw [bind_ok hreturn]
      show ((m.runFor m.limits.steps >>= _) (.resume (returned { s with heap := h } f rest) : Run K)).1 = _
      rcases hrun : m.runFor m.limits.steps (.resume (returned { s with heap := h } f rest) : Run K)
        with ⟨e | _, r⟩
      · rw [bind_error hrun]
      · rw [bind_ok hrun]
        rfl
    · rename_i hmatch
      obtain ⟨r', hr'⟩ := hunify
      rw [bind_ok hr']
      rfl
  · rfl

theorem fst_clauseOutlinks (s : State) : ∀ (addresses : List Nat) (r : Run K),
    (m.clauseOutlinks s addresses r).1 = collect (addresses.map (m.clauseWay s))
  | [], _ => rfl
  | address :: rest, r => by
    have hfresh : m.clauseOutlink s address r = m.clauseOutlink s address (.resume s) := rfl
    show ((m.clauseOutlink s address >>= fun here => m.clauseOutlinks s rest >>= fun there =>
      pure (here.toList ++ there)) r).1 = _
    rw [List.map_cons, clauseWay]
    rcases hway : m.clauseOutlink s address (.resume s) with ⟨e | here, r'⟩
    · rw [bind_error (hfresh.trans hway)]
      rfl
    · rw [bind_ok (hfresh.trans hway), collect, ← fst_clauseOutlinks s rest r']
      rcases hrest : m.clauseOutlinks s rest r' with ⟨e | there, r''⟩
      · rw [bind_error hrest]
        rfl
      · rw [bind_ok hrest]
        rfl

theorem fst_factOutlink (s : State) (label : Label) (bound : List (Option Nat)) (fact : Fact K) (r r' : Run K) :
    (m.factOutlink s label bound fact r).1 = (m.factOutlink s label bound fact r').1 := by
  unfold factOutlink
  split <;> rfl

theorem fst_factOutlinks (s : State) (label : Label) : ∀ (facts : List (Fact K)) (r : Run K),
    (m.factOutlinks s label (boundCells s label.arity) facts r).1 = collect (facts.map (m.factWay s label))
  | [], _ => rfl
  | fact :: rest, r => by
    have hfresh := m.fst_factOutlink s label (boundCells s label.arity) fact r (.resume s)
    show ((m.factOutlink s label (boundCells s label.arity) fact >>= fun here =>
      m.factOutlinks s label (boundCells s label.arity) rest >>= fun there => pure (here.toList ++ there)) r).1 = _
    rw [List.map_cons, factWay, ← hfresh]
    rcases hway : m.factOutlink s label (boundCells s label.arity) fact r with ⟨e | here, r'⟩
    · rw [bind_error hway]
      rfl
    · rw [bind_ok hway, collect, ← fst_factOutlinks s label rest r']
      rcases hrest : m.factOutlinks s label (boundCells s label.arity) rest r' with ⟨e | there, r''⟩
      · rw [bind_error hrest]
        rfl
      · rw [bind_ok hrest]
        rfl

theorem fst_baseOutlinks {s : State} {label : Label} (hlabel : s.jumpTo = some label)
    (hsize : label.arity ≤ s.heap.size) (b : FactBase K) (r : Run K) :
    (m.baseOutlinks s label b r).1 = collect ((b.factsOf label).map (m.factWay s label)) := by
  have harity : s.arity = label.arity := by rw [State.arity, hlabel]
  have hcells : (List.range label.arity).map (fun p =>
      match s.heap.resolve (s.heap.size - s.arity + p) with
      | .const c => some c
      | _ => none) = boundCells s label.arity := by
    rw [boundCells, harity, List.range'_eq_map_range, List.map_map]
    exact List.map_congr_left fun p _ => by simp only [Function.comp_apply]
  have hbound : (boundArguments (List.range label.arity) : RunM K (List (Option Nat))) (.resume s) =
      (.ok (boundCells s label.arity), .resume s) := by
    rw [← hcells]
    exact boundArguments_eq _ (harity ▸ hsize) fun p hp => harity ▸ List.mem_range.1 hp
  rw [← m.fst_factOutlinks s label _ (.resume s)]
  show ((boundArguments (List.range label.arity) >>= fun bound =>
    m.factOutlinks s label bound (b.factsOf label)) (.resume s)).1 = _
  rw [bind_ok hbound]

theorem fst_basesOutlinks {s : State} {label : Label} (hlabel : s.jumpTo = some label)
    (hsize : label.arity ≤ s.heap.size) : ∀ (bases : List (FactBase K)) (r : Run K),
      (m.basesOutlinks s label bases r).1 =
        collect (bases.flatMap fun b => (b.factsOf label).map (m.factWay s label))
  | [], _ => rfl
  | b :: rest, r => by
    have hbase := m.fst_baseOutlinks hlabel hsize b r
    show ((m.baseOutlinks s label b >>= fun here => m.basesOutlinks s label rest >>= fun there =>
      pure (here ++ there)) r).1 = _
    rw [List.flatMap_cons, collect_append, ← hbase]
    rcases hway : m.baseOutlinks s label b r with ⟨e | here, r'⟩
    · rw [bind_error hway]
      rfl
    · rw [bind_ok hway, ← fst_basesOutlinks hlabel hsize rest r']
      rcases hrest : m.basesOutlinks s label rest r' with ⟨e | there, r''⟩
      · rw [bind_error hrest]
        rfl
      · rw [bind_ok hrest]
        rfl

theorem fst_outlinks_eq_collect {s : State} {label : Label} (hrunning : s.completed = false ∧ s.failed = false)
    (hlabel : s.jumpTo = some label) (hsize : label.arity ≤ s.heap.size) (r : Run K) :
    (m.outlinks s r).1 =
      if (m.query.clauses label).isEmpty && (m.bases.filter (·.claims label)).isEmpty
        then .error (.unknownPredicate label)
      else collect (m.ways s label) := by
  unfold outlinks
  rw [hrunning.1, hrunning.2, hlabel]
  show ((m.basesOutlinks s label (m.bases.filter (·.claims label)) >>= fun fromFacts =>
    if (m.query.clauses label).isEmpty && (m.bases.filter (·.claims label)).isEmpty then
      throw (LogicError.unknownPredicate label)
    else m.clauseOutlinks s (m.query.clauses label) >>= fun there => pure (fromFacts ++ there)) r).1 = _
  rw [ways, collect_append, ← m.fst_basesOutlinks hlabel hsize _ r]
  rcases hbases : m.basesOutlinks s label (m.bases.filter (·.claims label)) r with ⟨e | here, r'⟩
  · rw [bind_error hbases]
    split
    · rename_i hempty
      rw [Bool.and_eq_true] at hempty
      rw [List.isEmpty_iff.1 hempty.2] at hbases
      cases hbases
    · rfl
  · rw [bind_ok hbases]
    split
    · rfl
    · rw [← m.fst_clauseOutlinks s _ r']
      rcases hrest : m.clauseOutlinks s (m.query.clauses label) r' with ⟨e | there, r''⟩
      · rw [bind_error hrest]
        rfl
      · rw [bind_ok hrest]
        rfl

/-- **An expansion takes the ways one by one.** -/
theorem expand_eq_collect {s : State} {label : Label} (hrunning : s.completed = false ∧ s.failed = false)
    (hlabel : s.jumpTo = some label) (hsize : label.arity ≤ s.heap.size) :
    m.expand s =
      if (m.query.clauses label).isEmpty && (m.bases.filter (·.claims label)).isEmpty
        then .error (.unknownPredicate label)
      else collect (m.ways s label) :=
  m.fst_outlinks_eq_collect hrunning hlabel hsize m.initial

theorem expand_of_stopped {s : State} (h : s.completed = true ∨ s.failed = true) : m.expand s = .ok [] := by
  have hstop : (s.completed || s.failed) = true := by rcases h with h | h <;> rw [h] <;> simp
  unfold expand outlinks
  rw [if_pos hstop]
  rfl

/-! ## What was run before

Nothing in an expansion looks at the run that it starts on before it has put the machine back to the state that it
expands.  So its outcome is the same on any run, for every state, and what an expansion leaves behind may be kept for
the next one. -/

/-- **Computations whose outcome does not depend on the run that they start on.** -/
def Oblivious {α : Type} (x : RunM K α) : Prop := ∀ r r' : Run K, (x r).1 = (x r').1

variable {α β : Type}

omit [Scalar K] in
theorem oblivious_pure (a : α) : Oblivious (pure a : RunM K α) := fun _ _ => rfl

omit [Scalar K] in
theorem oblivious_throw (e : LogicError) : Oblivious (throw e : RunM K α) := fun _ _ => rfl

omit [Scalar K] in
theorem Oblivious.bind {x : RunM K α} {f : α → RunM K β} (hx : Oblivious x) (hf : ∀ a, Oblivious (f a)) :
    Oblivious (x >>= f) := by
  intro r r'
  have hsame := hx r r'
  rcases hrun : x r with ⟨e | a, t⟩ <;> rcases hrun' : x r' with ⟨e' | a', t'⟩ <;>
    rw [hrun, hrun'] at hsame <;> cases hsame
  · rw [bind_error hrun, bind_error hrun']
  · rw [bind_ok hrun, bind_ok hrun']
    exact hf a t t'

-- both begin with `restore`
theorem oblivious_clauseOutlink (s : State) (address : Nat) :
    Oblivious (m.clauseOutlink s address) := fun _ _ => rfl

theorem oblivious_baseOutlinks (s : State) (label : Label) (b : FactBase K) :
    Oblivious (m.baseOutlinks s label b) :=
  fun _ _ => rfl

theorem oblivious_clauseOutlinks (s : State) (addresses : List Nat) :
    Oblivious (m.clauseOutlinks s addresses) := by
  induction addresses with
  | nil => exact oblivious_pure _
  | cons address rest ih =>
    exact (m.oblivious_clauseOutlink s address).bind fun here => ih.bind fun there => oblivious_pure _

theorem oblivious_basesOutlinks (s : State) (label : Label) (bases : List (FactBase K)) :
    Oblivious (m.basesOutlinks s label bases) := by
  induction bases with
  | nil => exact oblivious_pure _
  | cons b rest ih =>
    exact (m.oblivious_baseOutlinks s label b).bind fun here => ih.bind fun there => oblivious_pure _

theorem oblivious_outlinks (s : State) : Oblivious (m.outlinks s) := by
  unfold outlinks
  split
  · exact oblivious_pure _
  · split
    · exact oblivious_throw _
    · refine (m.oblivious_basesOutlinks s _ _).bind fun fromFacts => ?_
      dsimp only
      split
      · exact oblivious_throw _
      · exact (m.oblivious_clauseOutlinks s _).bind fun there => oblivious_pure _

/-- **What has been run before an expansion does not matter.** -/
theorem outlinks_eq_expand (s : State) (r : Run K) : (m.outlinks s r).1 = m.expand s :=
  m.oblivious_outlinks s r m.initial

theorem outlinks_of_stopped {s : State} (h : s.completed = true ∨ s.failed = true) (r : Run K) :
    (m.outlinks s r).1 = .ok [] := by
  rw [m.outlinks_eq_expand, m.expand_of_stopped h]

end Machine
end ProofWalk
