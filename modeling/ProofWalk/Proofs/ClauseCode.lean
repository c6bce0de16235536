import ProofWalk.Proofs.CodeShape
import ProofWalk.Proofs.Interning
import ProofWalk.Proofs.Lists
import ProofWalk.Proofs.RunSteps
import ProofWalk.Proofs.Resolution
/-!
# Proofs.ClauseCode — the code of a clause

A clause whose variables are the registers in order of first occurrence has a code that can be read off it
(`ClauseCode`): one instruction for each argument, which tells whether the register is met for the first time.  Such
code fits (`ClauseCode.fits`), and it is what rules and queries are compiled to (`addRule_compiled`,
`compileQuery_compiled`).

The code is described by relations, one for each part of a clause, that take a list of instructions apart from its
front.  Each has the number of registers that have been met before the part and after it.  What lies behind a part
stays open until the end of the clause, and there it is whatever lies behind the clause in the program; so a program
need not be cut into clauses to speak of one of them.
-/
namespace ProofWalk

/-! ## Code of arguments, features and goals

An argument is a constant, a variable that is met for the first time, or one that has been met before, and each
takes another instruction; so the relations have a case for each. -/

/-- **Code that matches terms** with the cells from an offset on, before which `met` registers have been met. -/
inductive HeadCode : (met : Nat) → (offset : Int) → List (Term Nat) → (met' : Nat) → List Instruction → Prop
  | nil {met : Nat} {offset : Int} : HeadCode met offset [] met []
  | const {met met' c : Nat} {offset : Int} {terms : List (Term Nat)} {code : List Instruction}
      (h : HeadCode met (offset + 1) terms met' code) :
      HeadCode met offset (.const c :: terms) met' (.unifyConst c offset :: code)
  | old {met met' register : Nat} {offset : Int} {terms : List (Term Nat)}
      {code : List Instruction} (hlt : register < met) (h : HeadCode met (offset + 1) terms met' code) :
      HeadCode met offset (.var register :: terms) met' (.unifyBoundVar register offset :: code)
  | new {met met' : Nat} {offset : Int} {terms : List (Term Nat)} {code : List Instruction}
      (h : HeadCode (met + 1) (offset + 1) terms met' code) :
      HeadCode met offset (.var met :: terms) met' (.initFreeVar met offset :: code)

def FeatureCode (met : Nat) (code : List Instruction) : Prop := ∀ i ∈ code,
  (∃ functor arity, i = .startFeature functor arity) ∨ (∃ c, i = .featureConst c) ∨
    ∃ register < met, i = .featureVar register

def Rule.reported (r : Rule) : List Goal :=
  if r.features.isEmpty then [⟨"id", [.const Rule.defaultFeature]⟩] else r.features

inductive ArgumentCode (table : Symbols) (names : List String) (met : Nat) : Argument → Instruction → Prop
  | const {c : String} {i : Nat} (hnumber : table.find? c = some i) :
    ArgumentCode table names met (.const c) (.featureConst i)
  | var {v : String} (hmet : names.idxOf v < met) :
      ArgumentCode table names met (.var v) (.featureVar (names.idxOf v))

inductive GatherCode (table : Symbols) (names : List String) (met : Nat) : List Goal → List Instruction → Prop
  | nil : GatherCode table names met [] []
  | cons {g : Goal} {goals : List Goal} {args code : List Instruction}
      (hargs : List.Forall₂ (ArgumentCode table names met) g.args args)
        (h : GatherCode table names met goals code) :
      GatherCode table names met (g :: goals) (.startFeature g.functor g.arity :: (args ++ code))

inductive PushCode : (met : Nat) → List (Term Nat) → (met' : Nat) → List Instruction → Prop
  | nil {met : Nat} : PushCode met [] met []
  | const {met met' c : Nat} {terms : List (Term Nat)} {code : List Instruction}
      (h : PushCode met terms met' code) : PushCode met (.const c :: terms) met' (.pushConst c :: code)
  | old {met met' register : Nat} {terms : List (Term Nat)} {code : List Instruction} (hlt : register < met)
      (h : PushCode met terms met' code) : PushCode met (.var register :: terms) met'
        (.pushBoundVar register :: code)
  | new {met met' : Nat} {terms : List (Term Nat)} {code : List Instruction}
      (h : PushCode (met + 1) terms met' code) : PushCode met (.var met :: terms) met' (.pushFreeVar met :: code)

/-- **Code that calls goals one after another and returns**, with whatever lies behind it. -/
inductive BodyCode : (met : Nat) → List (Atom Nat) → (met' : Nat) → List Instruction → Prop
  | nil {met : Nat} {code : List Instruction} : BodyCode met [] met (.proceed :: code)
  | cons {met met₁ met₂ : Nat} {goal : Atom Nat} {goals : List (Atom Nat)} {push code : List Instruction}
      (harity : goal.args.length = goal.label.arity) (hpush : PushCode met goal.args met₁ push)
      (h : BodyCode met₁ goals met₂ code) : BodyCode met (goal :: goals) met₂ (push ++ .call goal.label :: code)

/-- **The code of a clause** of `size` registers. -/
structure ClauseCode (size : Nat) (clause : Clause Nat) (code : List Instruction) : Prop where
  arity : clause.head.args.length = clause.head.label.arity
  /-- The comment and the register file come first, then the parts of the clause. -/
  parts : ∃ text names met head features body,
    code = .comment text :: .allocate size names ::
      (head ++ .clearFeatures :: (features ++ .reportFeatures :: body)) ∧
      HeadCode 0 (-(clause.head.label.arity : Int)) clause.head.args met head ∧ FeatureCode met features ∧
      BodyCode met clause.body size body

/-! ## The code fits

Each relation is shown to give code that fits, provided that what is left of the clause does. -/

theorem HeadCode.le {met met' : Nat} {offset : Int} {terms : List (Term Nat)} {code : List Instruction}
    (h : HeadCode met offset terms met' code) : met ≤ met' := by
  induction h <;> omega

theorem PushCode.le {met met' : Nat} {terms : List (Term Nat)} {code : List Instruction}
    (h : PushCode met terms met' code) : met ≤ met' := by
  induction h <;> omega

theorem BodyCode.le {met met' : Nat} {goals : List (Atom Nat)} {code : List Instruction}
    (h : BodyCode met goals met' code) : met ≤ met' := by
  induction h with
  | nil => exact Nat.le_refl _
  | cons _ hpush _ ih => exact Nat.le_trans hpush.le ih

theorem HeadCode.fits {size hand met met' : Nat} {offset : Int} {terms : List (Term Nat)} {code : List Instruction}
    (h : HeadCode met offset terms met' code) (hlow : -(hand : Int) ≤ offset) (hend : offset + terms.length = 0)
    (hsize : met' ≤ size) {rest : List Instruction} (hrest : Fits size .head met' hand rest) :
    Fits size .head met hand (code ++ rest) := by
  induction h with
  | nil => exact hrest
  | const h ih =>
    rw [List.length_cons] at hend
    exact .unifyConst hlow (by omega) (ih (by omega) (by omega) hsize hrest)
  | old hlt h ih =>
    rw [List.length_cons] at hend
    exact .unifyBoundVar hlow (by omega) hlt (ih (by omega) (by omega) hsize hrest)
  | new h ih =>
    rw [List.length_cons] at hend
    exact .initFreeVar hlow (by omega) (Nat.lt_of_lt_of_le h.le hsize) (ih (by omega) (by omega) hsize hrest)

theorem FeatureCode.fits {size met hand : Nat} {rest : List Instruction}
    (hrest : Fits size .features met hand rest) :
    ∀ {code : List Instruction}, FeatureCode met code → Fits size .features met hand (code ++ rest)
  | [], _ => hrest
  | i :: code, h => by
    have hcode := FeatureCode.fits hrest fun i hi => h i (List.mem_cons_of_mem _ hi)
    rcases h i List.mem_cons_self with ⟨functor, arity, rfl⟩ | ⟨c, rfl⟩ | ⟨register, hlt, rfl⟩
    · exact .startFeature hcode
    · exact .featureConst hcode
    · exact .featureVar hlt hcode

theorem GatherCode.featureCode {table : Symbols} {names : List String} {met : Nat} {goals : List Goal}
    {code : List Instruction} (h : GatherCode table names met goals code) : FeatureCode met code := by
  induction h with
  | nil => exact fun _ hi => nomatch hi
  | cons hargs _ ih =>
    intro i hi
    rcases List.mem_cons.1 hi with rfl | hi
    · exact .inl ⟨_, _, rfl⟩
    · rcases List.mem_append.1 hi with hi | hi
      · obtain ⟨a, -, ha⟩ := exists_of_forall₂ hargs hi
        cases ha with
        | const => exact .inr (.inl ⟨_, rfl⟩)
        | var hmet => exact .inr (.inr ⟨_, hmet, rfl⟩)
      · exact ih i hi

theorem PushCode.fits {size met met' : Nat} {terms : List (Term Nat)} {code : List Instruction}
    (h : PushCode met terms met' code) (hsize : met' ≤ size) {hand : Nat} {rest : List Instruction}
    (hrest : Fits size .body met' (hand + terms.length) rest) : Fits size .body met hand (code ++ rest) := by
  induction h generalizing hand with
  | nil => exact hrest
  | const h ih =>
    exact .pushConst (ih hsize (by rwa [List.length_cons, Nat.add_comm _ 1, ← Nat.add_assoc] at hrest))
  | old hlt h ih =>
    exact .pushBoundVar hlt (ih hsize (by rwa [List.length_cons, Nat.add_comm _ 1, ← Nat.add_assoc] at hrest))
  | new h ih =>
    exact .pushFreeVar (Nat.lt_of_lt_of_le h.le hsize)
      (ih hsize (by rwa [List.length_cons, Nat.add_comm _ 1, ← Nat.add_assoc] at hrest))

theorem BodyCode.fits {met size : Nat} {goals : List (Atom Nat)} {code : List Instruction}
    (h : BodyCode met goals size code) : Fits size .body met 0 code := by
  induction h with
  | nil => exact .proceed
  | cons harity hpush h ih =>
    exact hpush.fits h.le (by rw [Nat.zero_add, harity]; exact .call ih)

/-- **The code of a clause fits.** -/
theorem ClauseCode.fits {size : Nat} {clause : Clause Nat} {code : List Instruction}
    (h : ClauseCode size clause code) : Fits size .opening 0 clause.head.label.arity code := by
  obtain ⟨text, names, met, head, features, body, rfl, hhead, hfeatures, hbody⟩ := h.parts
  refine .comment (.allocateRule ?_)
  exact hhead.fits (Int.le_refl _) (by rw [h.arity]; omega) hbody.le
    (.clearFeatures (hfeatures.fits (.reportFeatures hbody.fits)))

/-! ## Registers of a clause

A register is met just if its variable occurs, so a body that ends with all registers met leaves none unset. -/

theorem lt_or_mem_cons {met register : Nat} (hlt : register < met) (terms : List (Term Nat)) (i : Nat) :
    i < met ∨ .var i ∈ .var register :: terms ↔ i < met ∨ .var i ∈ terms := by
  rw [List.mem_cons, Term.var.injEq]
  constructor
  · rintro (hi | rfl | hi)
    · exact .inl hi
    · exact .inl hlt
    · exact .inr hi
  · exact Or.imp_right .inr

theorem HeadCode.lt_iff {met met' : Nat} {offset : Int} {terms : List (Term Nat)} {code : List Instruction}
    (h : HeadCode met offset terms met' code) (i : Nat) : i < met' ↔ i < met ∨ .var i ∈ terms := by
  induction h with
  | nil => simp
  | const h ih => rw [ih]; simp
  | old hlt h ih => rw [ih, lt_or_mem_cons hlt]
  | new h ih => rw [ih, List.mem_cons, Term.var.injEq, Nat.lt_succ_iff_lt_or_eq, or_assoc]

theorem PushCode.lt_iff {met met' : Nat} {terms : List (Term Nat)} {code : List Instruction}
    (h : PushCode met terms met' code) (i : Nat) : i < met' ↔ i < met ∨ .var i ∈ terms := by
  induction h with
  | nil => simp
  | const h ih => rw [ih]; simp
  | old hlt h ih => rw [ih, lt_or_mem_cons hlt]
  | new h ih => rw [ih, List.mem_cons, Term.var.injEq, Nat.lt_succ_iff_lt_or_eq, or_assoc]

theorem BodyCode.lt_iff {met met' : Nat} {goals : List (Atom Nat)} {code : List Instruction}
    (h : BodyCode met goals met' code) (i : Nat) : i < met' ↔ i < met ∨ ∃ goal ∈ goals, .var i ∈ goal.args := by
  induction h with
  | nil => simp
  | cons harity hpush h ih => rw [ih, hpush.lt_iff, List.exists_mem_cons_iff, or_assoc]

/-! ## Scopes

Compiling names variables in a scope that only grows; the register of a variable is the place of its text among the
names.  Anonymous variables get texts of their own, by their rank. -/

def RuleVar.text : RuleVar → String
  | named name => name
  | anonymous rank => s!"_{rank}"

def registerOf (names : List String) (v : RuleVar) : Nat := names.idxOf v.text

/-- **A scope that goes on from another**: registers and numbers stay. -/
structure Scope.Grows (before after : Scope) : Prop where
  names : before.names <+: after.names
  symbols : before.symbols.Keeps after.symbols

theorem Scope.Grows.trans {s s' s'' : Scope} (h : s.Grows s') (h' : s'.Grows s'') : s.Grows s'' :=
  ⟨h.names.trans h'.names, h.symbols.trans h'.symbols⟩

theorem idxOf_of_isPrefix {names names' : List String} (h : names <+: names')
    {name : String} (hmem : name ∈ names) : names'.idxOf name = names.idxOf name := by
  obtain ⟨rest, rfl⟩ := h
  rw [List.idxOf_append, if_pos hmem]

theorem length_readArguments (symbols : Symbols) : ∀ (count : Nat) (args : List Argument),
    (readArguments symbols count args).length = args.length
  | _, [] => rfl
  | count, a :: rest => congrArg Nat.succ (length_readArguments symbols (countAfter count a) rest)

theorem register_eq (v : String) (names : List String) (count : Nat) (symbols : Symbols) :
    Scope.register v ⟨names, count, symbols⟩ = (names.findIdx? (· == (ruleVar count v).text)).elim
      ((names.length, false), ⟨names ++ [(ruleVar count v).text], countAfter count (.var v), symbols⟩)
      fun i => ((i, true), ⟨names, countAfter count (.var v), symbols⟩) := by
  unfold Scope.register ruleVar countAfter Scope.find?
  by_cases hv : v = "_"
  · have htext : (RuleVar.anonymous (count + 1)).text = toString "_" ++ toString (count + 1) := rfl
    simp only [if_pos hv, htext]
    cases names.findIdx? _ <;> rfl
  · have htext : (RuleVar.named v).text = v := rfl
    simp only [if_neg hv, htext]
    cases names.findIdx? _ <;> rfl

theorem register_compiled (v : String) (s : Scope) :
    s.Grows (Scope.register v s).2 ∧ (Scope.register v s).2.anonymous = countAfter s.anonymous (.var v) ∧
      ∀ names, (Scope.register v s).2.names <+: names →
        registerOf names (ruleVar s.anonymous v) = (Scope.register v s).1.1 ∧
          ((Scope.register v s).1.2 = true ∧ (Scope.register v s).1.1 < s.names.length ∧
              (Scope.register v s).2.names.length = s.names.length ∨
            (Scope.register v s).1.2 = false ∧ (Scope.register v s).1.1 = s.names.length ∧
              (Scope.register v s).2.names.length = s.names.length + 1) := by
  obtain ⟨names₀, count, symbols⟩ := s
  rw [register_eq]
  cases hfind : names₀.findIdx? (· == (ruleVar count v).text) with
  | some i =>
    rw [Option.elim_some]
    obtain ⟨hlt, hname, -⟩ := List.findIdx?_eq_some_iff_getElem.1 hfind
    have hidx : names₀.idxOf (ruleVar count v).text = i := by
      rw [List.idxOf, List.findIdx_eq_getD_findIdx?, hfind]
      rfl
    refine ⟨⟨List.prefix_rfl, .refl _⟩, rfl, fun names hnames => ⟨?_, .inl ⟨rfl, hlt, rfl⟩⟩⟩
    rw [registerOf, idxOf_of_isPrefix hnames (List.mem_of_getElem (beq_iff_eq.1 hname)), hidx]
  | none =>
    rw [Option.elim_none]
    have hnotMem : (ruleVar count v).text ∉ names₀ := fun hmem => by
      have := List.findIdx?_eq_none_iff.1 hfind _ hmem
      rw [beq_self_eq_true] at this
      cases this
    refine ⟨⟨List.prefix_append _ _, .refl _⟩, rfl, fun names hnames => ⟨?_, .inr ⟨rfl, rfl, List.length_append⟩⟩⟩
    rw [registerOf, idxOf_of_isPrefix hnames (List.mem_append_right _ List.mem_cons_self),
      List.idxOf_append, if_neg hnotMem, List.idxOf_cons_self, Nat.zero_add]

theorem constant_compiled (c : String) (s : Scope) :
    s.Grows (Scope.constant c s).2 ∧ (Scope.constant c s).2.names = s.names ∧
      (Scope.constant c s).2.anonymous = s.anonymous ∧
      ∀ symbols, (Scope.constant c s).2.symbols.Keeps symbols →
        (symbols.find? c).getD 0 = (Scope.constant c s).1 :=
  ⟨⟨List.prefix_rfl, s.symbols.keeps_intern c⟩, rfl, rfl, fun symbols hkeeps => by
    rw [hkeeps c _ (Interned.find?_intern s.symbols c)]
    rfl⟩

/-! ## Compiling a clause

Each function of the compiler is shown to give code of its relation for the terms that the arguments denote, in the
scope that it leaves.  Features only number constants, since their variables have been met in the head. -/

theorem matchArguments_compiled : ∀ (args : List Argument) (offset : Int) (s : Scope),
    s.Grows (Rule.matchArguments offset args s).2 ∧
      (Rule.matchArguments offset args s).2.anonymous = args.foldl countAfter s.anonymous ∧
      ∀ names symbols, (Rule.matchArguments offset args s).2.names <+: names →
        (Rule.matchArguments offset args s).2.symbols.Keeps symbols →
        HeadCode s.names.length offset ((readArguments symbols s.anonymous args).map (Term.map (registerOf names)))
          (Rule.matchArguments offset args s).2.names.length (Rule.matchArguments offset args s).1
  | [], _, s => ⟨⟨List.prefix_rfl, .refl _⟩, rfl, fun _ _ _ _ => .nil⟩
  | .const c :: rest, offset, s => by
    obtain ⟨hgrows, hnames, hcount, hnumber⟩ := constant_compiled c s
    obtain ⟨hgrows', hcount', hcode⟩ := matchArguments_compiled rest (offset + 1) (Scope.constant c s).2
    refine ⟨hgrows.trans hgrows', hcount', fun names symbols hprefix hkeeps => ?_⟩
    have hrest := hcode names symbols hprefix hkeeps
    rw [hnames, hcount] at hrest
    rw [readArguments, List.map_cons, readArgument, hnumber symbols (hgrows'.symbols.trans hkeeps)]
    exact .const hrest
  | .var v :: rest, offset, s => by
    obtain ⟨hgrows, hcount, hregister⟩ := register_compiled v s
    obtain ⟨hgrows', hcount', hcode⟩ := matchArguments_compiled rest (offset + 1) (Scope.register v s).2
    refine ⟨hgrows.trans hgrows', hcount'.trans (by rw [List.foldl_cons, hcount]),
      fun names symbols hprefix hkeeps => ?_⟩
    have hrest := hcode names symbols hprefix hkeeps
    obtain ⟨hindex, hseen⟩ := hregister names (hgrows'.names.trans hprefix)
    rw [readArguments, List.map_cons, readArgument, Term.map_var, hindex, ← hcount]
    show HeadCode s.names.length offset _ _ ((if (Scope.register v s).1.2 then
      .unifyBoundVar (Scope.register v s).1.1 offset else .initFreeVar (Scope.register v s).1.1 offset) ::
        (Rule.matchArguments (offset + 1) rest (Scope.register v s).2).1)
    rcases hseen with ⟨hseen, hlt, hlength⟩ | ⟨hseen, heq, hlength⟩
    · rw [hseen, if_pos rfl]
      exact .old hlt (hlength ▸ hrest)
    · rw [hseen, if_neg Bool.false_ne_true, heq]
      exact .new (hlength ▸ hrest)

theorem pushArguments_compiled : ∀ (args : List Argument) (s : Scope),
    s.Grows (args.mapM Rule.pushArgument s).2 ∧
      (args.mapM Rule.pushArgument s).2.anonymous = args.foldl countAfter s.anonymous ∧
      ∀ names symbols, (args.mapM Rule.pushArgument s).2.names <+: names →
        (args.mapM Rule.pushArgument s).2.symbols.Keeps symbols →
        PushCode s.names.length ((readArguments symbols s.anonymous args).map (Term.map (registerOf names)))
          (args.mapM Rule.pushArgument s).2.names.length (args.mapM Rule.pushArgument s).1
  | [], s => ⟨⟨List.prefix_rfl, .refl _⟩, rfl, fun _ _ _ _ => .nil⟩
  | .const c :: rest, s => by
    obtain ⟨hgrows, hnames, hcount, hnumber⟩ := constant_compiled c s
    obtain ⟨hgrows', hcount', hcode⟩ := pushArguments_compiled rest (Scope.constant c s).2
    rw [List.mapM_cons]
    refine ⟨hgrows.trans hgrows', hcount', fun names symbols hprefix hkeeps => ?_⟩
    have hrest := hcode names symbols hprefix hkeeps
    rw [hnames, hcount] at hrest
    rw [readArguments, List.map_cons, readArgument, hnumber symbols (hgrows'.symbols.trans hkeeps)]
    exact .const hrest
  | .var v :: rest, s => by
    obtain ⟨hgrows, hcount, hregister⟩ := register_compiled v s
    obtain ⟨hgrows', hcount', hcode⟩ := pushArguments_compiled rest (Scope.register v s).2
    rw [List.mapM_cons]
    refine ⟨hgrows.trans hgrows', hcount'.trans (by rw [List.foldl_cons, hcount]),
      fun names symbols hprefix hkeeps => ?_⟩
    have hrest := hcode names symbols hprefix hkeeps
    obtain ⟨hindex, hseen⟩ := hregister names (hgrows'.names.trans hprefix)
    rw [readArguments, List.map_cons, readArgument, Term.map_var, hindex, ← hcount]
    show PushCode s.names.length _ _ ((if (Scope.register v s).1.2 then
      .pushBoundVar (Scope.register v s).1.1 else .pushFreeVar (Scope.register v s).1.1) ::
        (rest.mapM Rule.pushArgument (Scope.register v s).2).1)
    rcases hseen with ⟨hseen, hlt, hlength⟩ | ⟨hseen, heq, hlength⟩
    · rw [hseen, if_pos rfl]
      exact .old hlt (hlength ▸ hrest)
    · rw [hseen, if_neg Bool.false_ne_true, heq]
      exact .new (hlength ▸ hrest)

theorem goals_compiled : ∀ (goals : List Goal) (s : Scope),
    s.Grows (goals.mapM Rule.callCode s).2 ∧
      ∀ names symbols rest, (goals.mapM Rule.callCode s).2.names <+: names →
        (goals.mapM Rule.callCode s).2.symbols.Keeps symbols →
        BodyCode s.names.length ((readGoals symbols s.anonymous goals).map (Atom.map (registerOf names)))
          (goals.mapM Rule.callCode s).2.names.length ((goals.mapM Rule.callCode s).1.flatten ++ .proceed :: rest)
  | [], s => ⟨⟨List.prefix_rfl, .refl _⟩, fun _ _ _ _ _ => .nil⟩
  | goal :: goals, s => by
    obtain ⟨hgrows, hcount, hpush⟩ := pushArguments_compiled goal.args s
    obtain ⟨hgrows', hcode⟩ := goals_compiled goals (goal.args.mapM Rule.pushArgument s).2
    rw [List.mapM_cons]
    refine ⟨hgrows.trans hgrows', fun names symbols rest hprefix hkeeps => ?_⟩
    have hrest := hcode names symbols rest hprefix hkeeps
    have hargs := hpush names symbols (hgrows'.names.trans hprefix) (hgrows'.symbols.trans hkeeps)
    rw [hcount] at hrest
    rw [readGoals, List.map_cons]
    show BodyCode _ _ _ ((((goal.args.mapM Rule.pushArgument s).1 ++ [.call goal.label]) ++
      (goals.mapM Rule.callCode (goal.args.mapM Rule.pushArgument s).2).1.flatten) ++ .proceed :: rest)
    rw [List.append_assoc, List.append_assoc]
    refine .cons ?_ hargs hrest
    show ((readArguments symbols s.anonymous goal.args).map (Term.map (registerOf names))).length =
      goal.args.length
    rw [List.length_map, length_readArguments]

structure Scope.Numbers (before after : Scope) : Prop where
  names : after.names = before.names
  anonymous : after.anonymous = before.anonymous
  symbols : before.symbols.Keeps after.symbols

theorem Scope.Numbers.trans {s s' s'' : Scope} (h : s.Numbers s') (h' : s'.Numbers s'') : s.Numbers s'' :=
  ⟨h'.names.trans h.names, h'.anonymous.trans h.anonymous, h.symbols.trans h'.symbols⟩

theorem mapM_numbers {α β : Type} {f : α → CompileM β} {P : List String → Nat → Symbols → α → β → Prop}
    (hf : ∀ a s b s', f a s = (.ok b, s') → s.Numbers s' ∧
      ∀ names table, s.names <+: names → s'.symbols.Keeps table → P names s.names.length table a b) :
    ∀ (l : List α) {s s' : Scope} {bs : List β}, l.mapM f s = (.ok bs, s') → s.Numbers s' ∧
      ∀ names table, s.names <+: names → s'.symbols.Keeps table → List.Forall₂ (P names s.names.length table) l bs
  | [], s, s', bs, h => by
    cases h
    exact ⟨⟨rfl, rfl, .refl _⟩, fun _ _ _ _ => .nil⟩
  | a :: l, s, s', bs, h => by
    rw [List.mapM_cons] at h
    obtain ⟨b, s₁, hb, h⟩ := bind_eq_ok h
    obtain ⟨bs', s₂, hbs, h⟩ := bind_eq_ok h
    cases h
    obtain ⟨hnumbers, hP⟩ := hf a s b s₁ hb
    obtain ⟨hnumbers', hP'⟩ := mapM_numbers hf l hbs
    refine ⟨hnumbers.trans hnumbers', fun names table hnames htable => ?_⟩
    exact .cons (hP names table hnames (hnumbers'.symbols.trans htable))
      (hnumbers.names ▸ hP' names table (hnumbers.names ▸ hnames) htable)

theorem constant_numbers (c : String) (s : Scope) : s.Numbers (Scope.constant c s).2 :=
  ⟨rfl, rfl, s.symbols.keeps_intern c⟩

theorem featureArgument_var {label : Label} {v : String} {s s' : Scope} {i : Instruction}
    (h : Rule.featureArgument label (.var v) s = (.ok i, s')) :
    s' = s ∧ v ∈ s.names ∧ i = .featureVar (s.names.idxOf v) := by
  rw [Rule.featureArgument, bind_ok (show (get : CompileM Scope) s = (.ok s, s) from rfl)] at h
  cases hfind : s.find? v with
  | none => rw [hfind] at h; cases h
  | some register =>
    rw [hfind] at h
    cases h
    obtain ⟨hlt, hname, -⟩ := List.findIdx?_eq_some_iff_getElem.1 hfind
    refine ⟨rfl, List.mem_of_getElem (beq_iff_eq.1 hname), ?_⟩
    rw [List.idxOf, List.findIdx_eq_getD_findIdx?, ← Scope.find?, hfind]
    rfl

theorem featureArgument_compiled {label : Label} : ∀ (a : Argument) (s : Scope) (i : Instruction) (s' : Scope),
    Rule.featureArgument label a s = (.ok i, s') → s.Numbers s' ∧
      ∀ names table, s.names <+: names → s'.symbols.Keeps table → ArgumentCode table names s.names.length a i
  | .const c, s, i, s', h => by
    have he : (Except.ok (.featureConst (Scope.constant c s).1), (Scope.constant c s).2) = (Except.ok i, s') := h
    cases he
    exact ⟨constant_numbers c s, fun _ table _ htable => .const (htable c _ (Interned.find?_intern s.symbols c))⟩
  | .var v, s, i, s', h => by
    obtain ⟨rfl, hmem, rfl⟩ := featureArgument_var h
    refine ⟨⟨rfl, rfl, .refl _⟩, fun names _ hnames _ => ?_⟩
    have hindex : names.idxOf v = s'.names.idxOf v := idxOf_of_isPrefix hnames hmem
    rw [← hindex]
    exact .var (hindex ▸ List.idxOf_lt_length_iff.2 hmem)

theorem GatherCode.of_forall₂ {table : Symbols} {names : List String} {met : Nat} {goals : List Goal}
    {codes : List (List Instruction)}
      (h : List.Forall₂ (fun g code => ∃ args, code = .startFeature g.functor g.arity :: args ∧
      List.Forall₂ (ArgumentCode table names met) g.args args) goals codes) :
    GatherCode table names met goals codes.flatten := by
  induction h with
  | nil => exact .nil
  | cons hfirst _ ih =>
    obtain ⟨args, rfl, hargs⟩ := hfirst
    exact .cons hargs ih

theorem featureList_compiled {r : Rule} {s s' : Scope} {code : List Instruction}
    (h : Rule.featureList r.head.label r.features s = (.ok code, s')) : s.Numbers s' ∧
      ∀ names table, s.names <+: names → s'.symbols.Keeps table →
        GatherCode table names s.names.length r.reported code := by
  unfold Rule.featureList at h
  unfold Rule.reported
  split at h
  · have he : (Except.ok [.startFeature "id" 1, .featureConst (Scope.constant Rule.defaultFeature s).1],
        (Scope.constant Rule.defaultFeature s).2) = (Except.ok code, s') := h
    cases he
    rename_i hempty
    rw [if_pos hempty]
    refine ⟨constant_numbers _ s, fun names table _ htable => ?_⟩
    have hdefault : ArgumentCode table names s.names.length (.const Rule.defaultFeature) (.featureConst _) :=
      .const (htable _ _ (Interned.find?_intern s.symbols Rule.defaultFeature))
    exact .cons (g := ⟨"id", [.const Rule.defaultFeature]⟩) (.cons hdefault .nil) .nil
  · rename_i hne
    rw [if_neg hne]
    obtain ⟨codes, s₁, hcodes, h⟩ := bind_eq_ok h
    cases h
    have hfeature : ∀ g s code s', Rule.featureCode r.head.label g s = (.ok code, s') → s.Numbers s' ∧
        ∀ names table, s.names <+: names → s'.symbols.Keeps table →
          ∃ args, code = .startFeature g.functor g.arity :: args ∧
          List.Forall₂ (ArgumentCode table names s.names.length) g.args args := by
      intro g s code s' h
      obtain ⟨args, s₁, hargs, h⟩ := bind_eq_ok h
      cases h
      obtain ⟨hnumbers, hcode⟩ := mapM_numbers
        (P := fun names met table => ArgumentCode table names met) featureArgument_compiled _ hargs
      exact ⟨hnumbers, fun names table hnames htable => ⟨args, rfl, hcode names table hnames htable⟩⟩
    obtain ⟨hnumbers, hcode⟩ := mapM_numbers (P := fun names met table g code =>
      ∃ args, code = .startFeature g.functor g.arity :: args ∧
        List.Forall₂ (ArgumentCode table names met) g.args args)
      hfeature _ hcodes
    exact ⟨hnumbers, fun names table hnames htable => .of_forall₂ (hcode names table hnames htable)⟩

theorem featuresCode_eq_ok {label : Label} {features : List Goal} {s s' : Scope} {code : List Instruction}
    (h : Rule.featuresCode label features s = (.ok code, s')) :
    ∃ built, Rule.featureList label features s = (.ok built, s') ∧
      code = .clearFeatures :: (built ++ [.reportFeatures]) := by
  obtain ⟨built, s₁, hbuilt, h⟩ := bind_eq_ok h
  cases h
  exact ⟨built, hbuilt, rfl⟩

/-! ## Compiling rules and queries

A rule's code stands at its address, and at the addresses of a predicate stand its rules in order
(`addRules_stand`).  `CompiledFrom` ties a query program to the rules, the query and the symbol table that it was
compiled from. -/

/-- **Code that begins with the code of a rule, part by part**: its registers, its head, its features and its body. -/
def RuleParts (symbols : Symbols) (r : Rule) (names : List String) (code : List Instruction) : Prop :=
  ∃ text met head features body,
    code = .comment text :: .allocate names.length names ::
      (head ++ .clearFeatures :: (features ++ .reportFeatures :: body)) ∧
      HeadCode 0 (-(r.head.label.arity : Int)) ((r.clause symbols).map (registerOf names)).head.args met head ∧
      GatherCode symbols names met r.reported features ∧
      BodyCode met ((r.clause symbols).map (registerOf names)).body names.length body

theorem addRule_parts {p p' : Program} {r : Rule} {t t' : Symbols} (h : p.addRule r t = (.ok p', t')) :
    t.Keeps t' ∧ ∃ code, p' = p.append r.head.label code ∧
      ∀ symbols, t'.Keeps symbols → ∀ rest, ∃ names, RuleParts symbols r names (code ++ rest) := by
  unfold Program.addRule at h
  dsimp only at h
  split at h
  · rename_i code scope hrun
    cases h
    obtain ⟨head, s₁, hhead, hrun⟩ := bind_eq_ok (s := (⟨[], 0, t⟩ : Scope)) hrun
    obtain ⟨features, s₂, hfeatures, hrun⟩ := bind_eq_ok hrun
    obtain ⟨body, s₃, hbody, hrun⟩ := bind_eq_ok hrun
    obtain ⟨built, hbuilt, rfl⟩ := featuresCode_eq_ok hfeatures
    cases hrun
    cases hhead
    cases hbody
    obtain ⟨hnumbers, hbuilt⟩ := featureList_compiled hbuilt
    obtain ⟨hgrows, hcount, hhead⟩ := matchArguments_compiled r.head.args (-r.head.arity) ⟨[], 0, t⟩
    obtain ⟨hgrows', hbody⟩ := goals_compiled r.body s₂
    have hnames := hnumbers.names ▸ hgrows'.names
    have hkeeps' := hnumbers.symbols.trans hgrows'.symbols
    refine ⟨hgrows.symbols.trans hkeeps', _, rfl, fun symbols hkeeps rest => ?_⟩
    have hhead := hhead (r.body.mapM Rule.callCode s₂).2.names symbols hnames (hkeeps'.trans hkeeps)
    have hbuilt := hbuilt _ symbols hnames (hgrows'.symbols.trans hkeeps)
    have hbody := hbody _ symbols rest List.prefix_rfl hkeeps
    rw [hnumbers.anonymous, hcount, hnumbers.names] at hbody
    refine ⟨(r.body.mapM Rule.callCode s₂).2.names, r.text, _, _, built, _, ?_, hhead, hbuilt, hbody⟩
    show Instruction.comment _ :: .allocate _ _ ::
      (((_ ++ .clearFeatures :: (built ++ [.reportFeatures])) ++ (_ ++ [.proceed])) ++ rest) = _
    simp only [List.cons_append, List.append_assoc, List.nil_append]
    rfl
  · cases h

def RuleCode (symbols : Symbols) (r : Rule) (code : List Instruction) : Prop :=
  ∃ names : List String, ClauseCode names.length ((r.clause symbols).map (registerOf names)) code

theorem RuleParts.clauseCode {symbols : Symbols} {r : Rule} {names : List String} {code : List Instruction}
    (h : RuleParts symbols r names code) :
    ClauseCode names.length ((r.clause symbols).map (registerOf names)) code := by
  obtain ⟨text, met, head, features, body, rfl, hhead, hfeatures, hbody⟩ := h
  refine ⟨?_, text, names, met, head, features, body, rfl, hhead, hfeatures.featureCode, hbody⟩
  show ((readArguments symbols 0 r.head.args).map (Term.map (registerOf _))).length = r.head.args.length
  rw [List.length_map, length_readArguments]

/-- **A rule is compiled to its code**, whatever stands behind it. -/
theorem addRule_compiled {p p' : Program} {r : Rule} {t t' : Symbols} (h : p.addRule r t = (.ok p', t')) :
    t.Keeps t' ∧ ∃ code, p' = p.append r.head.label code ∧
      ∀ symbols, t'.Keeps symbols → ∀ rest, RuleCode symbols r (code ++ rest) := by
  obtain ⟨hkeeps, code, happend, hparts⟩ := addRule_parts h
  refine ⟨hkeeps, code, happend, fun symbols hsymbols rest => ?_⟩
  obtain ⟨names, hparts⟩ := hparts symbols hsymbols rest
  exact ⟨names, hparts.clauseCode⟩

/-- **A query is compiled to its code.** -/
theorem compileQuery_compiled {p : Program} {query : Query} {q : QueryProgram} {t t' : Symbols}
    (h : p.compileQuery query t = (.ok q, t')) :
    t.Keeps t' ∧ q.program = p ∧ ∃ text body, q.code.toList =
      .comment text :: .allocate q.names.length q.names :: body ∧ ∀ symbols, t'.Keeps symbols →
        BodyCode 0 ((readGoals symbols 0 query.goals).map (Atom.map (registerOf q.names)))
          q.names.length body := by
  unfold Program.compileQuery at h
  split at h
  · cases h
  · cases h
    obtain ⟨hgrows, hbody⟩ := goals_compiled query.goals ⟨[], 0, t⟩
    exact ⟨hgrows.symbols, rfl, _, _, rfl, fun symbols hkeeps => hbody _ symbols [] List.prefix_rfl hkeeps⟩

theorem SortedMap.reverse_getD_upsert {κ ν : Type} [Ord κ] [Std.TransOrd κ] [Std.LawfulEqOrd κ] [DecidableEq κ]
    (lists : SortedMap κ (List ν)) (k k' : κ) (a : ν) :
    ((lists.upsert k fun old => a :: old.getD []).getD k' []).reverse =
      (lists.getD k' []).reverse ++ if k = k' then [a] else [] := by
  by_cases hk : k = k'
  · subst hk
    rw [if_pos rfl, Std.ExtTreeMap.getD_eq_getD_getElem?, SortedMap.getElem?_upsert_self]
    show (a :: (lists[k]?).getD []).reverse = (lists.getD k []).reverse ++ [a]
    rw [List.reverse_cons, Std.ExtTreeMap.getD_eq_getD_getElem?]
  · rw [if_neg hk, List.append_nil, Std.ExtTreeMap.getD_eq_getD_getElem?,
      SortedMap.getElem?_upsert_of_ne _ _ (Ne.symm hk), ← Std.ExtTreeMap.getD_eq_getD_getElem?]

theorem clauses_append (p : Program) (label label' : Label) (code : List Instruction) :
    (p.append label code).clauses label' = p.clauses label' ++ if label = label' then [p.size] else [] :=
  SortedMap.reverse_getD_upsert p.rules label label' p.size

/-- **What holds of the code of each rule holds at the addresses of the rules of a predicate**, in their order,
whatever stands behind the program. -/
theorem addRules_stand {P : Symbols → Rule → List Instruction → Prop}
    (hP : ∀ {p p' : Program} {r : Rule} {t t' : Symbols}, p.addRule r t = (.ok p', t') → t.Keeps t' ∧
      ∃ code, p' = p.append r.head.label code ∧ ∀ symbols, t'.Keeps symbols → ∀ rest, P symbols r (code ++ rest)) :
    ∀ (rules : List Rule) {p p' : Program} {t t' : Symbols}, p.addRules rules t = (.ok p', t') →
    t.Keeps t' ∧ p.code.toList <+: p'.code.toList ∧ ∀ label, ∃ addresses, p'.clauses label =
      p.clauses label ++ addresses ∧ ∀ symbols, t'.Keeps symbols → List.Forall₂ (fun r address => ∀ rest,
        P symbols r (p'.code.toList.drop address ++ rest)) (rules.filter (·.head.label = label)) addresses
  | [], p, p', t, t', h => by
    cases h
    exact ⟨.refl _, List.prefix_rfl, fun _ => ⟨[], (List.append_nil _).symm, fun _ _ => .nil⟩⟩
  | r :: rules, p, p', t, t', h => by
    rw [Program.addRules] at h
    split at h
    · rename_i p₁ t₁ hrule
      obtain ⟨hkeeps, code, rfl, hcode⟩ := hP hrule
      obtain ⟨hkeeps', hprefix, hclauses⟩ := addRules_stand hP rules h
      have hprefix₁ : p.code.toList ++ code <+: p'.code.toList := by
        rwa [Program.append, Array.toList_append] at hprefix
      refine ⟨hkeeps.trans hkeeps', (List.prefix_append _ _).trans hprefix₁, fun label => ?_⟩
      obtain ⟨addresses, heq, hforall⟩ := hclauses label
      rw [clauses_append, List.append_assoc] at heq
      refine ⟨_, heq, fun symbols hsymbols => ?_⟩
      have hrest := hforall symbols hsymbols
      by_cases hl : r.head.label = label
      · rw [if_pos hl, List.filter_cons_of_pos (by simpa using hl)]
        refine .cons (fun rest => ?_) hrest
        obtain ⟨after, hafter⟩ := hprefix₁
        have hdrop : p'.code.toList.drop p.size = code ++ after := by
          rw [← hafter, List.append_assoc, Program.size, ← Array.length_toList, List.drop_left]
        rw [hdrop, List.append_assoc]
        exact hcode symbols (hkeeps'.trans hsymbols) _
      · rw [if_neg hl, List.filter_cons_of_neg (by simpa using hl)]
        exact hrest
    · cases h

/-- **A query program that rules and a query are compiled to**, with the symbol table that this leaves.  Facts may
number constants in between. -/
def QueryProgram.CompiledFrom (q : QueryProgram) (rules : List Rule) (query : Query) (symbols : Symbols) : Prop :=
  ∃ t p t₁ t₂, Program.ofRules rules t = (.ok p, t₁) ∧ t₁.Keeps t₂ ∧ p.compileQuery query t₂ = (.ok q, symbols)

namespace QueryProgram.CompiledFrom

variable {q : QueryProgram} {rules : List Rule} {query : Query} {symbols : Symbols}

theorem stand_at {P : Symbols → Rule → List Instruction → Prop}
    (hP : ∀ {p p' : Program} {r : Rule} {t t' : Symbols}, p.addRule r t = (.ok p', t') → t.Keeps t' ∧
      ∃ code, p' = p.append r.head.label code ∧ ∀ symbols, t'.Keeps symbols → ∀ rest, P symbols r (code ++ rest))
    (h : q.CompiledFrom rules query symbols) {table : Symbols} (htable : symbols.Keeps table) (label : Label) :
    List.Forall₂ (fun r address => P table r (q.codeFrom address))
      (rules.filter (·.head.label = label)) (q.clauses label) := by
  obtain ⟨t, p, t₁, t₂, hrules, hkeeps, hquery⟩ := h
  obtain ⟨-, -, hclauses⟩ := addRules_stand hP rules hrules
  obtain ⟨hkeeps', rfl, -⟩ := compileQuery_compiled hquery
  obtain ⟨addresses, heq, hforall⟩ := hclauses label
  have hempty : Program.empty.clauses label = [] := rfl
  rw [hempty, List.nil_append] at heq
  rw [QueryProgram.clauses, heq]
  refine (hforall table ((hkeeps.trans hkeeps').trans htable)).imp fun r address hcode => ?_
  rw [codeFrom, Array.toList_append, List.drop_append]
  exact hcode _

theorem rules_at (h : q.CompiledFrom rules query symbols) (label : Label) :
    List.Forall₂ (fun r address => RuleCode symbols r (q.codeFrom address)) (rules.filter (·.head.label = label))
      (q.clauses label) :=
  h.stand_at addRule_compiled (.refl _) label

theorem query_at (h : q.CompiledFrom rules query symbols) :
    ∃ text body, q.codeFrom q.entry = .comment text :: .allocate q.names.length q.names :: body ∧
      BodyCode 0 ((readGoals symbols 0 query.goals).map (Atom.map (registerOf q.names))) q.names.length body := by
  obtain ⟨t, p, t₁, t₂, hrules, hkeeps, hquery⟩ := h
  obtain ⟨-, -, text, body, hcode, hbody⟩ := compileQuery_compiled hquery
  refine ⟨text, body, ?_, hbody symbols (.refl _)⟩
  rw [codeFrom, Array.toList_append, hcode, entry, Program.size, ← Array.length_toList, List.drop_left]

/-- **Compiled code fits.** -/
theorem fitting (h : q.CompiledFrom rules query symbols) : q.Fitting where
  clauses label address hmem := by
    obtain ⟨r, hr, names, hcode⟩ := exists_of_forall₂ (h.rules_at label) hmem
    have hl : r.head.label = label := by simpa using (List.mem_filter.1 hr).2
    exact ⟨names.length, hl ▸ hcode.fits⟩
  entry := by
    obtain ⟨text, body, hcode, hbody⟩ := h.query_at
    rw [hcode]
    exact .comment (.allocateQuery hbody.fits)

end QueryProgram.CompiledFrom

end ProofWalk
