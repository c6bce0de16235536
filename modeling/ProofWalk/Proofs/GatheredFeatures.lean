import Mathlib.Data.List.Induction
import ProofWalk.Proofs.HeadMatching
/-!
# Proofs.GatheredFeatures — code that gathers features

A feature is built up argument by argument, and it is counted when it has its last one.  A run through the code of
some features counts each of them as it is written (`gather_runs`), and nothing that was gathered before a clause is
reported with its features (`features_reported`).
-/
namespace ProofWalk

open Machine

/-! ## Features as they are written

A constant is written as its name, and a variable as whatever its register is written as where the features are
reported; a feature without arguments is its functor alone. -/

def Argument.written (value : String → String) : Argument → String
  | const c => c
  | var v => value v

/-- **A feature as it is written**: its functor alone if it has no arguments. -/
def Goal.written (value : String → String) (g : Goal) : String :=
  if g.args.isEmpty then g.functor else g.functor ++ "(" ++
    Text.join "," (g.args.map (Argument.written value)) ++ ")"

def PartialFeature.name (f : PartialFeature) : String :=
  if f.arity = 0 then f.functor else f.functor ++ "(" ++ Text.join "," f.args ++ ")"

theorem Goal.name_written (value : String → String) (g : Goal) :
    PartialFeature.name ⟨g.functor, g.arity, g.args.map (Argument.written value)⟩ = g.written value := by
  unfold PartialFeature.name written arity
  cases g.args <;> rfl

/-! ## Counting

A feature that occurs twice is counted twice, so the values of the dictionary are sums of ones, added one by one. -/

section Counts

variable {K : Type} [Scalar K]

def ones : Nat → K
  | 0 => 0
  | n + 1 => ones n + 1

theorem getElem?_foldl_count (names : List String) (name : String) :
    (names.foldl Features.count (∅ : Features K))[name]? = if name ∈ names then some (ones (names.count name))
      else none := by
  induction names using List.reverseRecOn with
  | nil => simp
  | append_singleton names last ih =>
    rw [List.foldl_append, List.foldl_cons, List.foldl_nil, Features.count, List.count_append]
    by_cases h : name = last
    · subst h
      have hold : (if name ∈ names then some (ones (names.count name)) else none).getD 0 =
          (ones (names.count name) : K) := by
        split
        · rfl
        · rename_i hnot
          rw [List.count_eq_zero.2 hnot]
          rfl
      rw [SortedMap.getElem?_upsert_self, ih, hold, List.count_singleton_self,
        if_pos (List.mem_append_right _ List.mem_cons_self)]
      rfl
    · have hcount : [last].count name = 0 := List.count_eq_zero.2 fun hmem => h (List.mem_singleton.1 hmem)
      rw [SortedMap.getElem?_upsert_of_ne _ _ h, ih, hcount, Nat.add_zero]
      simp [h]

end Counts

/-! ## The feature under construction

`Gathers` is the invariant while a feature gets its arguments: the features before it have been counted, and it has
been itself once it has all. -/

section Run

variable {K : Type} [Scalar K] {m : Machine K}

/-- **What a run has gathered when a feature has some of its arguments**: those before it, and itself once it has
all. -/
def Gathers (r : Run K) (before : Features K) (f : PartialFeature) : Prop :=
  if f.args.length < f.arity then r.unfinished = some f ∧ r.features = before else r.features = before.count f.name

theorem gathers_completeFeature (r : Run K) (f : PartialFeature) :
    Gathers { r with unfinished := some f }.completeFeature r.features f := by
  unfold Gathers Run.completeFeature
  by_cases h : f.args.length < f.arity
  · simp [if_pos h]
  · simp [if_neg h, PartialFeature.name]

theorem Gathers.addArgument {r : Run K} {before : Features K} {f : PartialFeature} (h : Gathers r before f)
    (hlt : f.args.length < f.arity) (a : String) :
    Gathers (r.addArgument a) before { f with args := f.args ++ [a] } := by
  rw [Gathers, if_pos hlt] at h
  obtain ⟨hunfinished, rfl⟩ := h
  rw [Run.addArgument, hunfinished]
  exact gathers_completeFeature r _

/-! ## Running through features

The registers that features refer to have been met in the head, and code that gathers features changes neither the
heap nor the registers, so what they are written as stays the same from the first feature to the last. -/

def Writes (m : Machine K) (s : State) (names : List String) (met : Nat) (value : String → String) : Prop :=
  ∀ v, names.idxOf v < met → s.register (names.idxOf v) ≠ .unset ∧
    ∀ pc, m.writtenArgument { s with pc := pc } (s.register (names.idxOf v)) = value v

variable {s : State} {names : List String} {met : Nat} {value : String → String}

theorem argument_added (hw : Writes m s names met value) {a : Argument} {i : Instruction}
    (h : ArgumentCode m.symbols names met a i) {r : Run K} {pc : Nat} (hstate : r.state = { s with pc := pc }) :
    m.execute i r = (.ok .next, m.advanced (r.addArgument (a.written value))) := by
  cases h with
  | const hnumber =>
    rw [execute_featureConst, Symbols.name_of_find? hnumber]
    rfl
  | @var v hmet =>
    obtain ⟨hset, hvalue⟩ := hw v hmet
    have hregister : r.state.register (names.idxOf v) = s.register (names.idxOf v) := by
      rw [hstate]
      rfl
    rw [execute_featureVar m r (hregister ▸ hset), hregister, hstate, hvalue]
    rfl

theorem arguments_run (hw : Writes m s names met value) {before : Features K}
    {rest : List Instruction} (hrest : rest ≠ []) {args : List Argument} {code : List Instruction}
    (h : List.Forall₂ (ArgumentCode m.symbols names met) args code)
    {f : PartialFeature} {r : Run K} {pc : Nat} (hstate : r.state = { s with pc := pc })
    (hcode : m.query.codeFrom r.state.pc = code ++ rest) (harity : f.args.length + args.length = f.arity)
    (hgathers : Gathers r before f) :
    ∃ r₁ pc₁, m.Continues r r₁ ∧ r₁.state = { s with pc := pc₁ } ∧ m.query.codeFrom r₁.state.pc = rest ∧
      r₁.features = before.count { f with args := f.args ++ args.map (Argument.written value) }.name := by
  induction h generalizing f r pc with
  | nil =>
    rw [List.length_nil, Nat.add_zero] at harity
    rw [Gathers, if_neg (by omega)] at hgathers
    refine ⟨r, pc, .refl r, hstate, hcode, ?_⟩
    rw [hgathers, List.map_nil, List.append_nil]
  | @cons a i args code ha _ ih =>
    rw [List.length_cons] at harity
    have hne : code ++ rest ≠ [] := List.append_ne_nil_of_right_ne_nil _ hrest
    have hexec := argument_added hw ha (r := counted r) hstate
    have hstate₁ : (m.advanced ((counted r).addArgument (a.written value))).state =
        { s with pc := m.query.next r.state.pc } := by
      rw [state_advanced, state_addArgument]
      show { r.state with pc := m.query.next r.state.pc } = _
      rw [hstate]
    obtain ⟨hgoes, hcode₁⟩ := continues_step hcode hne hexec (by rw [hstate₁])
    have hgathers₁ : Gathers (counted r) before f := hgathers
    have hlength : (f.args ++ [a.written value]).length + args.length = f.arity := by
      rw [List.length_append, List.length_singleton]
      omega
    obtain ⟨r₂, pc₂, hgoes₂, hstate₂, hcode₂, hfeatures⟩ := ih hstate₁ hcode₁
      (f := { f with args := f.args ++ [a.written value] }) hlength
      (hgathers₁.addArgument (by omega) _)
    refine ⟨r₂, pc₂, hgoes.trans hgoes₂, hstate₂, hcode₂, ?_⟩
    rw [hfeatures, List.append_assoc]
    rfl

/-- **Features are counted one after another, as they are written.** -/
theorem gather_runs (hw : Writes m s names met value) {rest : List Instruction}
    (hrest : rest ≠ []) {goals : List Goal} {code : List Instruction}
    (h : GatherCode m.symbols names met goals code) {r : Run K} {pc : Nat}
    (hstate : r.state = { s with pc := pc }) (hcode : m.query.codeFrom r.state.pc = code ++ rest) :
    ∃ r₁ pc₁, m.Continues r r₁ ∧ r₁.state = { s with pc := pc₁ } ∧ m.query.codeFrom r₁.state.pc = rest ∧
      r₁.features = (goals.map (Goal.written value)).foldl Features.count r.features := by
  induction h generalizing r pc with
  | nil => exact ⟨r, pc, .refl r, hstate, hcode, rfl⟩
  | @cons g goals args code hargs _ ih =>
    rw [List.cons_append, List.append_assoc] at hcode
    have hne : code ++ rest ≠ [] := List.append_ne_nil_of_right_ne_nil _ hrest
    have hexec := execute_startFeature m (counted r) g.functor g.arity
    have hstate₁ :
        (m.advanced { counted r with unfinished := some ⟨g.functor, g.arity, []⟩ }.completeFeature).state =
        { s with pc := m.query.next r.state.pc } := by
      rw [state_advanced, state_completeFeature]
      show { r.state with pc := m.query.next r.state.pc } = _
      rw [hstate]
    obtain ⟨hgoes₁, hcode₁⟩ :=
      continues_step hcode (List.append_ne_nil_of_right_ne_nil _ hne) hexec (by rw [hstate₁])
    obtain ⟨r₂, pc₂, hgoes₂, hstate₂, hcode₂, hfeatures₂⟩ := arguments_run hw hne hargs hstate₁ hcode₁
      (f := ⟨g.functor, g.arity, []⟩) (Nat.zero_add _) (gathers_completeFeature (counted r) _)
    obtain ⟨r₃, pc₃, hgoes₃, hstate₃, hcode₃, hfeatures₃⟩ := ih hstate₂ hcode₂
    refine ⟨r₃, pc₃, (hgoes₁.trans hgoes₂).trans hgoes₃, hstate₃, hcode₃, ?_⟩
    rw [hfeatures₃, hfeatures₂, List.nil_append, Goal.name_written]
    rfl

/-- **The features of a clause alone are reported**, whatever was gathered before. -/
theorem features_reported {r : Run K} (hw : Writes m r.state names met value) {goals : List Goal}
    {code body : List Instruction} (h : GatherCode m.symbols names met goals code) (hbody : body ≠ [])
    (hcode : m.query.codeFrom r.state.pc = .clearFeatures :: (code ++ .reportFeatures :: body)) :
    ∃ r₁ pc, m.Continues r r₁ ∧ r₁.state = { r.state with pc := pc } ∧ m.query.codeFrom r₁.state.pc = body ∧
      r₁.reported = some ((goals.map (Goal.written value)).foldl Features.count ∅) := by
  obtain ⟨hgoes₁, hcode₁⟩ := continues_step hcode (List.append_ne_nil_of_right_ne_nil _ (List.cons_ne_nil _ _))
    (execute_clearFeatures m (counted r)) rfl
  have hstate₁ : (m.advanced (counted r).clearFeatures).state =
    { r.state with pc := m.query.next r.state.pc } := rfl
  obtain ⟨r₂, pc₂, hgoes₂, hstate₂, hcode₂, hfeatures⟩ := gather_runs hw (List.cons_ne_nil _ _) h hstate₁ hcode₁
  obtain ⟨hgoes₃, hcode₃⟩ := continues_step hcode₂ hbody (execute_reportFeatures m (counted r₂)) rfl
  refine ⟨_, m.query.next r₂.state.pc, (hgoes₁.trans hgoes₂).trans hgoes₃, ?_, hcode₃, congrArg some hfeatures⟩
  show { r₂.state with pc := m.query.next r₂.state.pc } = _
  rw [hstate₂]

end Run

end ProofWalk
