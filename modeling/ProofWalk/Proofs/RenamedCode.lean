import ProofWalk.Proofs.ClauseCode
import ProofWalk.Proofs.Namesakes
/-!
# Proofs.RenamedCode — one source compiled under two tables

Compiling numbers constants and does nothing else with the table of symbols.  From two tables it thus gives the same
code up to the numbers of constants, and the same fault if it fails (`Compiles`).  Compared with itself, a program
has every constant numbered (`addRules_numbered`); compared under the tables of two engines, a query has the same
code but for the names that the tables number differently (`compileQuery_renamed`).
-/
namespace ProofWalk

variable {σ τ σ' τ' : Symbols}

/-! ## Instructions

Two instructions are compared under their tables: constants by the names that the tables have for their numbers, and
everything else as it is. -/

def Instruction.constant? : Instruction → Option Nat
  | .unifyConst c _ => some c
  | .pushConst c => some c
  | .featureConst c => some c
  | _ => none

/-- **Instructions that differ in the numbers of constants only.** -/
inductive Instruction.Renamed (σ τ : Symbols) : Instruction → Instruction → Prop
  | same (i : Instruction) (h : i.constant? = none) : Renamed σ τ i i
  | unifyConst {a b : Nat} (h : Namesakes σ τ a b) (offset : Int) :
      Renamed σ τ (.unifyConst a offset) (.unifyConst b offset)
  | pushConst {a b : Nat} (h : Namesakes σ τ a b) : Renamed σ τ (.pushConst a) (.pushConst b)
  | featureConst {a b : Nat} (h : Namesakes σ τ a b) : Renamed σ τ (.featureConst a) (.featureConst b)

theorem Instruction.Renamed.keeps {i j : Instruction} (h : i.Renamed σ τ j) (hσ : σ.Keeps σ') (hτ : τ.Keeps τ') :
    i.Renamed σ' τ' j := by
  cases h with
  | same _ h => exact .same _ h
  | unifyConst h offset => exact .unifyConst (h.keeps hσ hτ) offset
  | pushConst h => exact .pushConst (h.keeps hσ hτ)
  | featureConst h => exact .featureConst (h.keeps hσ hτ)

def CodeRenamed (σ τ : Symbols) : List Instruction → List Instruction → Prop :=
  List.Forall₂ (Instruction.Renamed σ τ)

theorem CodeRenamed.keeps {code code' : List Instruction} (h : CodeRenamed σ τ code code')
    (hσ : σ.Keeps σ') (hτ : τ.Keeps τ') : CodeRenamed σ' τ' code code' :=
  h.imp fun _ _ hi => hi.keeps hσ hτ

theorem CodeRenamed.flatten {codes codes' : List (List Instruction)}
    (h : List.Forall₂ (CodeRenamed σ τ) codes codes') : CodeRenamed σ τ codes.flatten codes'.flatten := by
  induction h with
  | nil => exact .nil
  | cons hcode _ ih => exact List.rel_append hcode ih

/-! ## Compiling

`Compiles` says of two computations on scopes that they correspond, wherever they start, and that the tables only
grow.  What has been compiled before stays related while they do (`Stays`). -/

structure Scope.Alike (s t : Scope) : Prop where
  names : s.names = t.names
  anonymous : s.anonymous = t.anonymous

/-- **Two ways to compile that correspond** from all scopes which are alike and have grown from two tables: the
results are related under the tables that they leave. -/
def Compiles {α β : Type} (A : Symbols → Symbols → α → β → Prop) (σ τ : Symbols) (x : StateM Scope α)
    (y : StateM Scope β) : Prop :=
  ∀ s t : Scope, s.Alike t → σ.Keeps s.symbols → τ.Keeps t.symbols →
    (x s).2.Alike (y t).2 ∧ s.symbols.Keeps (x s).2.symbols ∧ t.symbols.Keeps (y t).2.symbols ∧
      A (x s).2.symbols (y t).2.symbols (x s).1 (y t).1

/-- The same for compiling that may fail; faults are the same. -/
def CompilesOrFails {α β : Type} (A : Symbols → Symbols → α → β → Prop) (σ τ : Symbols) (x : CompileM α)
    (y : CompileM β) : Prop :=
  Compiles (fun σ' τ' => Corresponds Eq (A σ' τ')) σ τ x y

section

variable {α β α' β' : Type} {A : Symbols → Symbols → α → α' → Prop} {B : Symbols → Symbols → β → β' → Prop}

theorem compiles_pure {a : α} {b : α'} (h : ∀ σ' τ', σ.Keeps σ' → τ.Keeps τ' → A σ' τ' a b) :
    Compiles A σ τ (pure a) (pure b) :=
  fun s t hst hs ht => ⟨hst, .refl _, .refl _, h s.symbols t.symbols hs ht⟩

theorem Compiles.bind {x : StateM Scope α} {y : StateM Scope α'} {f : α → StateM Scope β}
    {g : α' → StateM Scope β'} (hx : Compiles A σ τ x y)
    (hf : ∀ a b σ' τ', σ.Keeps σ' → τ.Keeps τ' → A σ' τ' a b → Compiles B σ' τ' (f a) (g b)) :
    Compiles B σ τ (x >>= f) (y >>= g) := by
  intro s t hst hs ht
  obtain ⟨hst', hs', ht', ha⟩ := hx s t hst hs ht
  obtain ⟨hst'', hs'', ht'', hb⟩ := hf _ _ _ _ (hs.trans hs') (ht.trans ht') ha _ _ hst' (.refl _) (.refl _)
  exact ⟨hst'', hs'.trans hs'', ht'.trans ht'', hb⟩

theorem compilesOrFails_pure {a : α} {b : α'} (h : ∀ σ' τ', σ.Keeps σ' → τ.Keeps τ' → A σ' τ' a b) :
    CompilesOrFails A σ τ (pure a) (pure b) :=
  fun s t hst hs ht => ⟨hst, .refl _, .refl _, .ok (h s.symbols t.symbols hs ht)⟩

theorem Compiles.lift {x : StateM Scope α} {y : StateM Scope α'} (h : Compiles A σ τ x y) :
    CompilesOrFails A σ τ (liftM x : CompileM α) (liftM y : CompileM α') := by
  intro s t hst hs ht
  obtain ⟨hst', hs', ht', ha⟩ := h s t hst hs ht
  exact ⟨hst', hs', ht', .ok ha⟩

theorem CompilesOrFails.bind {x : CompileM α} {y : CompileM α'} {f : α → CompileM β} {g : α' → CompileM β'}
    (hx : CompilesOrFails A σ τ x y)
    (hf : ∀ a b σ' τ', σ.Keeps σ' → τ.Keeps τ' → A σ' τ' a b → CompilesOrFails B σ' τ' (f a) (g b)) :
    CompilesOrFails B σ τ (x >>= f) (y >>= g) := by
  intro s t hst hs ht
  obtain ⟨hst', hs', ht', hout⟩ := hx s t hst hs ht
  rcases hrun : x s with ⟨r, s'⟩
  rcases hrun' : y t with ⟨r', t'⟩
  rw [hrun, hrun'] at hst' hout
  rw [hrun] at hs'
  rw [hrun'] at ht'
  cases hout with
  | error he =>
    rw [bind_error hrun, bind_error hrun']
    exact ⟨hst', hs', ht', .error he⟩
  | ok ha =>
    rw [bind_ok hrun, bind_ok hrun']
    obtain ⟨hst'', hs'', ht'', hb⟩ := hf _ _ _ _ (hs.trans hs') (ht.trans ht') ha _ _ hst' (.refl _) (.refl _)
    exact ⟨hst'', hs'.trans hs'', ht'.trans ht'', hb⟩

def Stays (B : Symbols → Symbols → β → β' → Prop) : Prop :=
  ∀ (σ τ σ' τ' : Symbols) (b : β) (b' : β'), B σ τ b b' → σ.Keeps σ' → τ.Keeps τ' → B σ' τ' b b'

theorem instruction_stays : Stays Instruction.Renamed := fun _ _ _ _ _ _ h => h.keeps

theorem code_stays : Stays CodeRenamed := fun _ _ _ _ _ _ h => h.keeps

theorem compiles_mapM (hB : Stays B) {f : α → StateM Scope β} {g : α → StateM Scope β'}
    (hf : ∀ a σ τ, Compiles B σ τ (f a) (g a)) (l : List α) :
    Compiles (fun σ' τ' => List.Forall₂ (B σ' τ')) σ τ (l.mapM f) (l.mapM g) := by
  induction l generalizing σ τ with
  | nil => exact compiles_pure fun _ _ _ _ => .nil
  | cons a rest ih =>
    rw [List.mapM_cons, List.mapM_cons]
    refine (hf a σ τ).bind fun b b' σ₁ τ₁ _ _ hb => ih.bind fun bs bs' σ₂ τ₂ hσ hτ hbs => ?_
    exact compiles_pure fun σ₃ τ₃ hσ' hτ' =>
      .cons (hB _ _ _ _ _ _ hb (hσ.trans hσ') (hτ.trans hτ')) (hbs.imp fun _ _ h => hB _ _ _ _ _ _ h hσ' hτ')

theorem compilesOrFails_mapM (hB : Stays B) {f : α → CompileM β} {g : α → CompileM β'}
    (hf : ∀ a σ τ, CompilesOrFails B σ τ (f a) (g a)) (l : List α) :
    CompilesOrFails (fun σ' τ' => List.Forall₂ (B σ' τ')) σ τ (l.mapM f) (l.mapM g) := by
  induction l generalizing σ τ with
  | nil => exact compilesOrFails_pure fun _ _ _ _ => .nil
  | cons a rest ih =>
    rw [List.mapM_cons, List.mapM_cons]
    refine (hf a σ τ).bind fun b b' σ₁ τ₁ _ _ hb => ih.bind fun bs bs' σ₂ τ₂ hσ hτ hbs => ?_
    exact compilesOrFails_pure fun σ₃ τ₃ hσ' hτ' =>
      .cons (hB _ _ _ _ _ _ hb (hσ.trans hσ') (hτ.trans hτ')) (hbs.imp fun _ _ h => hB _ _ _ _ _ _ h hσ' hτ')

end

/-! ## Arguments, features and goals

One lemma for each function of the compiler, from the inside out. -/

theorem constant_renamed (name : String) (σ τ : Symbols) :
    Compiles Namesakes σ τ (Scope.constant name) (Scope.constant name) :=
  fun s t hst _ _ => ⟨⟨hst.names, hst.anonymous⟩, s.symbols.keeps_intern name, t.symbols.keeps_intern name,
    namesakes_intern s.symbols t.symbols name⟩

theorem register_renamed (name : String) (σ τ : Symbols) :
    Compiles (fun _ _ => Eq) σ τ (Scope.register name) (Scope.register name) := by
  rintro ⟨names, anonymous, symbols⟩ ⟨_, _, symbols'⟩ ⟨rfl, rfl⟩ _ _
  have hregister : ∃ r names' anonymous', ∀ symbols,
      Scope.register name ⟨names, anonymous, symbols⟩ = (r, ⟨names', anonymous', symbols⟩) := by
    unfold Scope.register Scope.find?
    by_cases hname : name = "_"
    · simp only [if_pos hname]
      split
      · exact ⟨_, _, _, fun _ => rfl⟩
      · exact ⟨_, _, _, fun _ => rfl⟩
    · simp only [if_neg hname]
      split
      · exact ⟨_, _, _, fun _ => rfl⟩
      · exact ⟨_, _, _, fun _ => rfl⟩
  obtain ⟨r, names', anonymous', hregister⟩ := hregister
  rw [hregister, hregister]
  exact ⟨⟨rfl, rfl⟩, .refl _, .refl _, rfl⟩

theorem matchArgument_renamed (offset : Int) (a : Argument) (σ τ : Symbols) :
    Compiles Instruction.Renamed σ τ (Rule.matchArgument offset a) (Rule.matchArgument offset a) := by
  cases a with
  | const name =>
    exact (constant_renamed name σ τ).bind fun a b σ₁ τ₁ _ _ hc => compiles_pure fun _ _ hσ hτ =>
      .unifyConst (hc.keeps hσ hτ) offset
  | var name =>
    refine (register_renamed name σ τ).bind fun r r' _ _ _ _ hr => ?_
    subst hr
    refine compiles_pure fun _ _ _ _ => ?_
    split
    · exact .same _ rfl
    · exact .same _ rfl

theorem matchArguments_renamed (offset : Int) (args : List Argument) (σ τ : Symbols) :
    Compiles CodeRenamed σ τ (Rule.matchArguments offset args) (Rule.matchArguments offset args) := by
  induction args generalizing offset σ τ with
  | nil => exact compiles_pure fun _ _ _ _ => .nil
  | cons a rest ih =>
    refine (matchArgument_renamed offset a σ τ).bind fun i i' σ₁ τ₁ _ _ hi => ?_
    refine (ih (offset + 1) σ₁ τ₁).bind fun code code' σ₂ τ₂ hσ hτ hcode => ?_
    exact compiles_pure fun _ _ hσ' hτ' => .cons (hi.keeps (hσ.trans hσ') (hτ.trans hτ')) (hcode.keeps hσ' hτ')

theorem featureArgument_renamed (label : Label) (a : Argument) (σ τ : Symbols) :
    CompilesOrFails Instruction.Renamed σ τ (Rule.featureArgument label a) (Rule.featureArgument label a) := by
  cases a with
  | const name =>
    exact (constant_renamed name σ τ).lift.bind fun a b σ₁ τ₁ _ _ hc =>
      compilesOrFails_pure fun _ _ hσ hτ => .featureConst (hc.keeps hσ hτ)
  | var name =>
    rintro ⟨names, anonymous, symbols⟩ ⟨_, _, symbols'⟩ ⟨rfl, rfl⟩ _ _
    have hrun : ∀ symbols, Rule.featureArgument label (.var name) ⟨names, anonymous, symbols⟩ =
        ((names.findIdx? (· == name)).elim (.error (.unboundFeatureVariable name label)) fun register =>
          .ok (.featureVar register), ⟨names, anonymous, symbols⟩) := by
      intro symbols
      rw [Rule.featureArgument, bind_ok (show (get : CompileM Scope) ⟨names, anonymous, symbols⟩ =
        (.ok ⟨names, anonymous, symbols⟩, ⟨names, anonymous, symbols⟩) from rfl)]
      unfold Scope.find?
      cases names.findIdx? (· == name) with
      | none => rfl
      | some register => rfl
    rw [hrun, hrun]
    refine ⟨⟨rfl, rfl⟩, .refl _, .refl _, ?_⟩
    cases names.findIdx? (· == name) with
    | none => exact .error rfl
    | some register => exact .ok (.same _ rfl)

theorem featureCode_renamed (label : Label) (feature : Goal) (σ τ : Symbols) :
    CompilesOrFails CodeRenamed σ τ (Rule.featureCode label feature) (Rule.featureCode label feature) := by
  refine (compilesOrFails_mapM instruction_stays (featureArgument_renamed label) feature.args).bind
    fun code code' _ _ _ _ h => ?_
  exact compilesOrFails_pure fun _ _ hσ hτ => .cons (.same _ rfl) (CodeRenamed.keeps h hσ hτ)

theorem featureList_renamed (label : Label) (features : List Goal) (σ τ : Symbols) :
    CompilesOrFails CodeRenamed σ τ (Rule.featureList label features) (Rule.featureList label features) := by
  unfold Rule.featureList
  split
  · refine (constant_renamed _ σ τ).lift.bind fun a b _ _ _ _ hc => compilesOrFails_pure fun _ _ hσ hτ => ?_
    exact .cons (.same _ rfl) (.cons (.featureConst (hc.keeps hσ hτ)) .nil)
  · refine (compilesOrFails_mapM code_stays (featureCode_renamed label) features).bind
      fun codes codes' _ _ _ _ h => ?_
    exact compilesOrFails_pure fun _ _ hσ hτ => CodeRenamed.keeps (.flatten h) hσ hτ

theorem featuresCode_renamed (label : Label) (features : List Goal) (σ τ : Symbols) :
    CompilesOrFails CodeRenamed σ τ (Rule.featuresCode label features) (Rule.featuresCode label features) := by
  refine (featureList_renamed label features σ τ).bind fun built built' _ _ _ _ h =>
    compilesOrFails_pure fun _ _ hσ hτ => ?_
  exact .cons (.same _ rfl) (List.rel_append (h.keeps hσ hτ) (.cons (.same _ rfl) .nil))

theorem pushArgument_renamed (a : Argument) (σ τ : Symbols) :
    Compiles Instruction.Renamed σ τ (Rule.pushArgument a) (Rule.pushArgument a) := by
  cases a with
  | const name =>
    exact (constant_renamed name σ τ).bind fun a b σ₁ τ₁ _ _ hc => compiles_pure fun _ _ hσ hτ =>
      .pushConst (hc.keeps hσ hτ)
  | var name =>
    refine (register_renamed name σ τ).bind fun r r' _ _ _ _ hr => ?_
    subst hr
    refine compiles_pure fun _ _ _ _ => ?_
    split
    · exact .same _ rfl
    · exact .same _ rfl

theorem callCode_renamed (goal : Goal) (σ τ : Symbols) :
    Compiles CodeRenamed σ τ (Rule.callCode goal) (Rule.callCode goal) := by
  refine (compiles_mapM instruction_stays pushArgument_renamed goal.args).bind fun code code' _ _ _ _ h => ?_
  exact compiles_pure fun _ _ hσ hτ => List.rel_append (CodeRenamed.keeps h hσ hτ) (.cons (.same _ rfl) .nil)

theorem bodyCode_renamed (goals : List Goal) (σ τ : Symbols) :
    Compiles CodeRenamed σ τ (Rule.bodyCode goals) (Rule.bodyCode goals) := by
  refine (compiles_mapM code_stays callCode_renamed goals).bind fun codes codes' _ _ _ _ h => ?_
  exact compiles_pure fun _ _ hσ hτ => List.rel_append (CodeRenamed.keeps (.flatten h) hσ hτ)
    (.cons (.same _ rfl) .nil)

/-! ## Programs, queries and facts

Code that is related to itself has all its constants numbered; then it is the same code under any two tables that
keep the numbers. -/

def Symbols.Numbers (table : Symbols) (c : Nat) : Prop := (table.get? c).isSome

/-- **Code whose constants are all numbered.** -/
def CodeNumbered (table : Symbols) (code : List Instruction) :
    Prop := ∀ i ∈ code, ∀ c, i.constant? = some c → table.Numbers c

theorem codeNumbered_of_renamed {code : List Instruction} (h : CodeRenamed σ σ code code) :
    CodeNumbered σ code := by
  intro i hi c hc
  have hself := List.forall₂_same.1 h i hi
  have hnamed : ∀ {a b : Nat}, Namesakes σ σ a b → σ.Numbers a := fun ⟨name, ha, _⟩ => by
    rw [Symbols.Numbers, Symbols.get?_of_find? ha]
    rfl
  cases hself with
  | same _ hnone =>
    rw [hnone] at hc
    cases hc
  | unifyConst h _ =>
    cases hc
    exact hnamed h
  | pushConst h =>
    cases hc
    exact hnamed h
  | featureConst h =>
    cases hc
    exact hnamed h

theorem Symbols.Numbers.keeps {c : Nat} (h : σ.Numbers c) (hσ : σ.Keeps σ') : σ'.Numbers c := by
  obtain ⟨name, hname⟩ := Option.isSome_iff_exists.1 h
  rw [Symbols.Numbers, Symbols.get?_of_find? (hσ name c (Interned.find?_eq_some_iff.2 ⟨name, hname, rfl⟩))]
  rfl

/-- **Numbered code is the same code under any two tables that keep the numbers.** -/
theorem CodeNumbered.renamed {table : Symbols} {code : List Instruction}
    (h : CodeNumbered table code) (hσ : table.Keeps σ) (hτ : table.Keeps τ) : CodeRenamed σ τ code code := by
  refine List.forall₂_same.2 fun i hi => ?_
  have hc := h i hi
  cases i with
  | unifyConst c offset => exact .unifyConst (Symbols.namesakes_of_keeps hσ hτ (hc c rfl)) offset
  | pushConst c => exact .pushConst (Symbols.namesakes_of_keeps hσ hτ (hc c rfl))
  | featureConst c => exact .featureConst (Symbols.namesakes_of_keeps hσ hτ (hc c rfl))
  | _ => exact .same _ rfl

def Rule.code (r : Rule) : CompileM (List Instruction) := do
  let head ← headCode r.head
  let features ← featuresCode r.head.label r.features
  let body ← bodyCode r.body
  return head ++ features ++ body

theorem ruleCode_renamed (r : Rule) (σ τ : Symbols) : CompilesOrFails CodeRenamed σ τ r.code r.code := by
  refine (matchArguments_renamed _ _ σ τ).lift.bind fun head head' σ₁ τ₁ _ _ hhead => ?_
  refine (featuresCode_renamed _ _ σ₁ τ₁).bind fun features features' σ₂ τ₂ hσ hτ hfeatures => ?_
  refine (bodyCode_renamed _ σ₂ τ₂).lift.bind fun body body' σ₃ τ₃ hσ' hτ' hbody =>
    compilesOrFails_pure fun _ _ hσ'' hτ'' => ?_
  have hhead' := hhead.keeps ((hσ.trans hσ').trans hσ'') ((hτ.trans hτ').trans hτ'')
  exact List.rel_append (List.rel_append hhead' (hfeatures.keeps (hσ'.trans hσ'') (hτ'.trans hτ'')))
    (hbody.keeps hσ'' hτ'')

theorem addRule_numbered {p p' : Program} {r : Rule} {t t' : Symbols} (h : p.addRule r t = (.ok p', t')) :
    t.Keeps t' ∧ ∃ code, p'.code.toList = p.code.toList ++ code ∧ CodeNumbered t' code := by
  -- a rule is compiled beside itself, from the scope without variables
  obtain ⟨-, hkeeps, -, hcode⟩ := ruleCode_renamed r t t ⟨[], 0, t⟩ ⟨[], 0, t⟩ ⟨rfl, rfl⟩ (.refl _) (.refl _)
  unfold Program.addRule at h
  dsimp only at h
  split at h
  · rename_i code scope hrun
    cases h
    replace hrun : r.code ⟨[], 0, t⟩ = (.ok code, scope) := hrun
    rw [hrun] at hkeeps hcode
    cases hcode with
    | ok hcode =>
      refine ⟨hkeeps, _, Array.toList_append, fun i hi c hc => ?_⟩
      rcases List.mem_cons.1 hi with rfl | hi
      · cases hc
      rcases List.mem_cons.1 hi with rfl | hi
      · cases hc
      · exact codeNumbered_of_renamed hcode i hi c hc
  · cases h

/-- **Every constant of compiled rules is numbered.** -/
theorem addRules_numbered (rules : List Rule) {p p' : Program} {t t' : Symbols}
    (h : p.addRules rules t = (.ok p', t')) (hp : CodeNumbered t p.code.toList) :
    t.Keeps t' ∧ CodeNumbered t' p'.code.toList := by
  induction rules generalizing p t with
  | nil =>
    cases h
    exact ⟨.refl _, hp⟩
  | cons r rest ih =>
    rw [Program.addRules] at h
    split at h
    · rename_i p₁ t₁ hrule
      obtain ⟨hkeeps, code, happend, hcode⟩ := addRule_numbered hrule
      obtain ⟨hkeeps', hnumbered⟩ := ih h fun i hi c hc => by
        rw [happend] at hi
        rcases List.mem_append.1 hi with hi | hi
        · exact (hp i hi c hc).keeps hkeeps
        · exact hcode i hi c hc
      exact ⟨hkeeps.trans hkeeps', hnumbered⟩
    · cases h

/-- **A query compiled under two tables**: refused under both, or of the same code but for the numbers of constants. -/
theorem compileQuery_renamed (p : Program) (query : Query) (σ τ : Symbols) :
    σ.Keeps (p.compileQuery query σ).2 ∧ τ.Keeps (p.compileQuery query τ).2 ∧
      Corresponds Eq (fun q q' : QueryProgram => q.program = p ∧ q'.program = p ∧
        q.names = q'.names ∧ q.query = q'.query ∧
        CodeRenamed (p.compileQuery query σ).2 (p.compileQuery query τ).2 q.code.toList q'.code.toList)
        (p.compileQuery query σ).1 (p.compileQuery query τ).1 := by
  unfold Program.compileQuery
  split
  · exact ⟨.refl _, .refl _, .error rfl⟩
  · obtain ⟨hscopes, hσ, hτ, hcode⟩ := bodyCode_renamed query.goals σ τ ⟨[], 0, σ⟩ ⟨[], 0, τ⟩
      ⟨rfl, rfl⟩ (.refl _) (.refl _)
    refine ⟨hσ, hτ, .ok ⟨rfl, rfl, hscopes.names, rfl, ?_⟩⟩
    refine .cons (.same _ rfl) ?_
    have hallocate : ∀ {names names' : List String}, names = names' →
        (Instruction.allocate names.length names).Renamed (Rule.bodyCode query.goals ⟨[], 0, σ⟩).2.symbols
          (Rule.bodyCode query.goals ⟨[], 0, τ⟩).2.symbols (.allocate names'.length names') := by
      rintro names _ rfl
      exact .same _ rfl
    exact .cons (hallocate hscopes.names) hcode

/-- **Facts whose constants are all numbered.** -/
def FactBase.Numbered {K : Type} (table : Symbols) (b : FactBase K) : Prop :=
  ∀ label, ∀ fact ∈ b.factsOf label, ∀ c ∈ fact.args, table.Numbers c

theorem FactBase.numbered_empty {K : Type} (name : String) (table : Symbols) :
    (FactBase.empty name : FactBase K).Numbered table := by
  intro label fact hfact
  simp [factsOf, empty] at hfact

theorem FactBase.numberArguments_numbered (args : List Argument) (t : Symbols) :
    t.Keeps (numberArguments args t).2 ∧
    ∀ is, (numberArguments args t).1 = .ok is → ∀ c ∈ is, (numberArguments args t).2.Numbers c := by
  induction args generalizing t with
  | nil =>
    refine ⟨.refl _, fun is h => ?_⟩
    cases h
    exact nofun
  | cons a rest ih =>
    cases a with
    | var v => exact ⟨.refl _, nofun⟩
    | const name =>
      obtain ⟨hkeeps, hrest⟩ := ih (t.intern name).1
      have hfirst : Symbols.Numbers (t.intern name).1 (t.intern name).2 := by
        rw [Symbols.Numbers, Symbols.get?_of_find? (Interned.find?_intern t name)]
        rfl
      simp only [numberArguments]
      rcases hargs : numberArguments rest (t.intern name).1 with ⟨v | is, t'⟩
      · rw [hargs] at hkeeps
        exact ⟨(t.keeps_intern name).trans hkeeps, nofun⟩
      · rw [hargs] at hkeeps hrest
        refine ⟨(t.keeps_intern name).trans hkeeps, fun is' h => ?_⟩
        cases h
        exact List.forall_mem_cons.2 ⟨hfirst.keeps hkeeps, hrest is rfl⟩

theorem FactBase.Numbered.add {K : Type} {b b' : FactBase K} {goal : Goal} {weight : K}
    {t t' : Symbols} (hb : b.Numbered t) (h : b.add goal weight t = (.ok b', t')) :
    t.Keeps t' ∧ b'.Numbered t' := by
  obtain ⟨hkeeps, hargs⟩ := FactBase.numberArguments_numbered goal.args t
  unfold FactBase.add at h
  rcases hnumber : FactBase.numberArguments goal.args t with ⟨v | args, t₁⟩
  · rw [hnumber] at h
    cases h
  · rw [hnumber] at h hkeeps hargs
    cases h
    refine ⟨hkeeps, fun label fact hfact c hc => ?_⟩
    simp only [FactBase.factsOf, List.mem_reverse, Std.ExtTreeMap.getD_eq_getD_getElem?] at hfact
    by_cases hlabel : label = goal.label
    · subst hlabel
      rw [SortedMap.getElem?_upsert_self, Option.getD_some] at hfact
      rcases List.mem_cons.1 hfact with rfl | hfact
      · exact hargs args rfl c hc
      · refine (hb goal.label fact ?_ c hc).keeps hkeeps
        rw [FactBase.factsOf, List.mem_reverse, Std.ExtTreeMap.getD_eq_getD_getElem?]
        exact hfact
    · rw [SortedMap.getElem?_upsert_of_ne _ _ hlabel] at hfact
      refine (hb label fact ?_ c hc).keeps hkeeps
      rw [FactBase.factsOf, List.mem_reverse, Std.ExtTreeMap.getD_eq_getD_getElem?]
      exact hfact

end ProofWalk
