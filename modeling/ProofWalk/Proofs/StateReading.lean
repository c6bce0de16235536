import Mathlib.Logic.Equiv.Basic
import ProofWalk.Proofs.SolvedForm
import ProofWalk.Proofs.Standing
/-!
# Proofs.StateReading — a state read as a goal list

The pending call comes first, then what each caller still has to call, read off its code from its return address
on.  A register that is not set stands for a variable of its own (`Unknown.unmet`).  Binding a cell puts a term for
a variable everywhere (`Shifts`), and meeting a register renames a variable.
-/
namespace ProofWalk

/-- **A variable of a state**: the cell at the end of a chain, or a register that has not been met, by the number of
callers below its clause. -/
inductive Unknown
  | cell (root : Nat)
  | unmet (depth register : Nat)
deriving DecidableEq, Repr

/-! ## Reading a state

A reading is over the variables of the state: cells at the end of chains, and registers that have not been met.  The
latter are told by how many callers lie below their clause, which does not change when calls are made above it. -/

def Binding.term (other : Unknown) : Binding → Term Unknown
  | const c => .const c
  | free root => .var (.cell root)
  | unset => .var other

def Heap.term (h : Heap) (i : Nat) : Term Unknown := (h.resolve i).term (.cell i)

def Heap.top (h : Heap) (hand : Nat) : List (Term Unknown) := (List.range' (h.size - hand) hand).map h.term

def registerTerm (h : Heap) (depth : Nat) (registers : Registers) (i : Nat) : Term Unknown :=
  match registers[i]? with
  | some (some cell) => h.term cell
  | _ => .var (.unmet depth i)

/-- **The goals that code goes on to call**, with the terms of its registers and those at hand. -/
def goalsOf (terms : Nat → Term Unknown) : List (Term Unknown) → List Instruction → List (Atom Unknown)
  | _, [] => []
  | hand, .pushConst c :: code => goalsOf terms (hand ++ [.const c]) code
  | hand, .pushBoundVar register :: code => goalsOf terms (hand ++ [terms register]) code
  | hand, .pushFreeVar register :: code => goalsOf terms (hand ++ [terms register]) code
  | hand, .call label :: code => ⟨label, hand⟩ :: goalsOf terms [] code
  | _, .proceed :: _ => []
  | hand, _ :: code => goalsOf terms hand code

def callerGoals (q : QueryProgram) (h : Heap) : List Frame → List (Atom Unknown)
  | [] => []
  | f :: rest => goalsOf (registerTerm h rest.length f.registers) [] (q.codeFrom f.returnTo) ++
      callerGoals q h rest

def queryRegisters : Registers → List Frame → Registers
  | registers, [] => registers
  | _, f :: rest => queryRegisters f.registers rest

namespace State

def answers (s : State) : List (Term Unknown) :=
  (List.range (queryRegisters s.registers s.stack).length).map
    (registerTerm s.heap 0 (queryRegisters s.registers s.stack))

def pendingGoals (s : State) : List (Atom Unknown) :=
  match s.jumpTo with
  | some label => [⟨label, s.argumentCells.map s.heap.term⟩]
  | none => []

/-- **A state as a goal list.** -/
def reading (q : QueryProgram) (s : State) : Reading Unknown :=
  ⟨s.pendingGoals ++ callerGoals q s.heap s.stack, s.answers⟩

/-- A state in the middle of a clause as a goal list, with some terms at hand. -/
def running (q : QueryProgram) (hand : Nat) (s : State) : Reading Unknown :=
  ⟨goalsOf (registerTerm s.heap s.stack.length s.registers) (s.heap.top hand) (q.codeFrom s.pc) ++
    callerGoals q s.heap s.stack, s.answers⟩

end State

/-! ## Terms of cells

Every change of the heap is a push, which leaves the terms of old cells alone, or a binding, which puts a term for
one variable. -/

namespace Heap

variable {h : Heap}

theorem term_cases (hs : h.Sound) {i : Nat} (hi : i < h.size) :
    (∃ c, h.resolve i = .const c ∧ h.term i = .const c) ∨
      ∃ root < h.size, h.resolve i = .free root ∧ h.term i = .var (.cell root) ∧ h[root]? = some (.ref root) := by
  rcases hs.resolve_cases hi with ⟨c, hc, -⟩ | ⟨hr, hcell⟩
  · exact .inl ⟨c, hc, by rw [term, hc]; rfl⟩
  · exact .inr ⟨h.deref i, hs.deref_lt hi, hr, by rw [term, hr]; rfl, hcell⟩

theorem term_of_resolve {h' : Heap} {i j : Nat} (hne : h.resolve i ≠ .unset) (heq : h'.resolve j = h.resolve i) :
    h'.term j = h.term i := by
  rw [term, term, heq]
  cases hb : h.resolve i with
  | const c => rfl
  | free root => rfl
  | unset => exact absurd hb hne

theorem term_push (hs : h.Sound) (c : Cell) {i : Nat} (hi : i < h.size) : term (h.push c) i = h.term i :=
  term_of_resolve (hs.resolve_ne_unset hi) (resolve_push h hs c hi)

theorem term_pushConst (hs : h.Sound) (c : Nat) : (h.pushConst c).term h.size = .const c := by
  have hresolve : (h.pushConst c).resolve h.size = .const c := resolve_push_const h hs c
  rw [term, hresolve]
  rfl

theorem term_pushFree : h.pushFree.term h.size = .var (.cell h.size) := by
  rw [term, resolve_pushFree]
  rfl

theorem term_pushRef (hs : h.Sound) {i : Nat} (hi : i < h.size) :
    term (h.push (.ref (h.deref i))) h.size = h.term i :=
  term_of_resolve (hs.resolve_ne_unset hi) ((resolve_push_ref h hs (hs.deref_lt hi)).trans (hs.resolve_deref hi))

theorem top_push (hs : h.Sound) (c : Cell) {hand : Nat} (hle : hand ≤ h.size) :
    top (h.push c) (hand + 1) = h.top hand ++ [term (h.push c) h.size] := by
  have hlast : h.size - hand + hand = h.size := Nat.sub_add_cancel hle
  rw [top, size_push, Nat.add_sub_add_right, List.range'_1_concat, hlast, List.map_append, top]
  refine congrArg (· ++ _) (List.map_congr_left fun i hi => term_push hs c ?_)
  have := (List.mem_range'_1.1 hi).2
  omega

/-- **Binding a variable puts a term for it.** -/
theorem term_bind (hs : h.Sound) {root : Nat} {cell : Cell} {t : Term Unknown}
    (hf : Change.Fits h (.bind root cell)) (ht : (h.cellValue cell).term (.cell root) = t)
    (hset : h.cellValue cell ≠ .unset) {i : Nat} (hi : i < h.size) :
    (h.apply (.bind root cell)).term i = (h.term i).subst (put (.cell root) t) := by
  have hresolve := resolve_bind hs hf hi
  rcases term_cases hs hi with ⟨c, hc, hterm⟩ | ⟨r, -, hr, hterm, -⟩
  · rw [hc, if_neg (fun he => nomatch he)] at hresolve
    rw [term, hresolve, hterm]
    rfl
  · rw [hterm, Term.subst_var, put]
    by_cases he : r = root
    · subst he
      rw [hr, if_pos rfl] at hresolve
      rw [term, hresolve, if_pos rfl, ← ht]
      cases hv : h.cellValue cell with
      | const c => rfl
      | free root => rfl
      | unset => exact absurd hv hset
    · rw [hr, if_neg (by simpa using he)] at hresolve
      rw [term, hresolve, if_neg (by simpa using he)]
      rfl

/-- **A change of the heap that solves an equation.** -/
structure Change.Solves (h : Heap) (change : Change) (e : Term Unknown × Term Unknown)
    (θ : Unknown → Term Unknown) : Prop where
  fits : change.Fits h
  solves : ProofWalk.Solves [e] θ
  cells : ∀ i < h.size, (h.apply change).term i = (h.term i).subst θ
  unmet : ∀ depth i, θ (.unmet depth i) = .var (.unmet depth i)

theorem Change.Solves.symm {change : Change} {s t : Term Unknown} {θ : Unknown → Term Unknown}
    (hsolves : change.Solves h (s, t) θ) : change.Solves h (t, s) θ :=
  { hsolves with solves := hsolves.solves.symm }

theorem Change.Solves.keep (t : Term Unknown) : Change.keep.Solves h (t, t) .var where
  fits := .keep
  solves := .refl t
  cells i _ := (h.term i).subst_id.symm
  unmet _ _ := rfl

theorem Change.Solves.bind (hs : h.Sound) {root : Nat} {cell : Cell} (hf : Change.Fits h (.bind root cell))
    (hset : h.cellValue cell ≠ .unset) :
    (Change.bind root cell).Solves h (.var (.cell root), (h.cellValue cell).term (.cell root))
      (put (.cell root) ((h.cellValue cell).term (.cell root))) where
  fits := hf
  solves := .put _ _
  cells _ hi := term_bind hs hf rfl hset hi
  unmet _ _ := put_of_ne (by simp) _

/-- **What is asked of a heap solves an equation**, or there is no solution and nothing is asked. -/
inductive Decides (h : Heap) (e : Term Unknown × Term Unknown) : Option Change → Prop
  | solved {change : Change} {θ : Unknown → Term Unknown} (hchange : change.Solves h e θ) :
    Decides h e (some change)
  | clash (hclash : Clashes [e]) : Decides h e none

theorem Decides.symm {s t : Term Unknown} {asked : Option Change} (hd : h.Decides (s, t) asked) :
    h.Decides (t, s) asked := by
  cases hd with
  | solved hchange => exact .solved hchange.symm
  | clash hclash => exact .clash hclash.symm

theorem decides_const (x y : Nat) : h.Decides (.const x, .const y) (if x = y then some .keep else none) := by
  by_cases he : x = y
  · subst he
    rw [if_pos rfl]
    exact .solved (.keep _)
  · rw [if_neg he]
    exact .clash (clashes_const he)

theorem matchConst_decides (hs : h.Sound) {i : Nat} (hi : i < h.size) (c : Nat) :
    h.Decides (h.term i, .const c) (h.matchConst i c) := by
  unfold matchConst
  rcases term_cases hs hi with ⟨d, hd, hterm⟩ | ⟨root, -, hr, hterm, hcell⟩
  · rw [hd, hterm]
    exact decides_const d c
  · rw [hr, hterm]
    exact .solved (.bind hs (.bindConst hcell) fun he => nomatch he)

/-- **Unifying two cells decides the equation between them.** -/
theorem unifier_decides (hs : h.Sound) {a b : Nat} (ha : a < h.size) (hb : b < h.size) :
    h.Decides (h.term a, h.term b) (h.unifier a b) := by
  have hfits : ∀ {change : Change}, h.unifier a b = some change → change.Fits h := unifier_fits hs ha hb
  have hval : ∀ {i : Nat}, i < h.size → h.cellValue (.ref (h.deref i)) = h.resolve i := hs.resolve_deref
  rw [unifier_eq hs ha hb] at hfits ⊢
  rcases term_cases hs ha with ⟨x, hx, hterm⟩ | ⟨r, -, hr, hterm, -⟩ <;>
    rcases term_cases hs hb with ⟨y, hy, hterm'⟩ | ⟨r', -, hr', hterm', hcell'⟩
  · rw [hx, hy, hterm, hterm']
    exact decides_const x y
  · rw [hx, hr'] at hfits
    have hbind := Change.Solves.bind hs (hfits rfl) (by rw [hval ha, hx]; exact fun he => nomatch he)
    rw [hval ha, hx] at hbind
    rw [hx, hr', hterm, hterm']
    exact .solved hbind.symm
  · rw [hr, hy] at hfits
    have hbind := Change.Solves.bind hs (hfits rfl) (by rw [hval hb, hy]; exact fun he => nomatch he)
    rw [hval hb, hy] at hbind
    rw [hr, hy, hterm, hterm']
    exact .solved hbind
  · rw [hr, hr'] at hfits
    rw [hr, hr', hterm, hterm']
    by_cases he : r = r'
    · subst he
      simp only [if_pos]
      exact .solved (.keep _)
    · have hroot : h.cellValue (.ref r') = .free r' := resolve_root hcell'
      simp only [if_neg he] at hfits ⊢
      have hbind := Change.Solves.bind hs (hfits rfl) (by rw [hroot]; exact fun he => nomatch he)
      rw [hroot] at hbind
      exact .solved hbind

end Heap

/-! ## Putting terms for variables

What lies behind the running clause is read with the same terms put for its variables. -/

theorem goalsOf_subst (σ : Unknown → Term Unknown) (terms : Nat → Term Unknown) : ∀ (hand : List (Term Unknown))
    (code : List Instruction),
    goalsOf (fun i => (terms i).subst σ) (hand.map (Term.subst σ)) code =
      (goalsOf terms hand code).map (Atom.subst σ)
  | _, [] => rfl
  | hand, i :: code => by
    have hrest := fun hand => goalsOf_subst σ terms hand code
    have hpush : ∀ t : Term Unknown, hand.map (Term.subst σ) ++ [t.subst σ] = (hand ++ [t]).map (Term.subst σ) :=
      fun t => by rw [List.map_append]; rfl
    cases i with
    | pushConst c => exact (congrArg (goalsOf _ · code) (hpush (.const c))).trans (hrest _)
    | pushBoundVar register => exact (congrArg (goalsOf _ · code) (hpush (terms register))).trans (hrest _)
    | pushFreeVar register => exact (congrArg (goalsOf _ · code) (hpush (terms register))).trans (hrest _)
    | call label => exact congrArg (Atom.mk label (hand.map (Term.subst σ)) :: ·) (hrest [])
    | proceed => rfl
    | _ => exact hrest hand

theorem registerTerm_shifted {h h' : Heap} {σ : Unknown → Term Unknown} {depth : Nat} {registers : Registers}
    (hcells : ∀ i < h.size, h'.term i = (h.term i).subst σ)
    (hlt : ∀ cell, some cell ∈ registers → cell < h.size) {i : Nat}
    (hunmet : σ (.unmet depth i) = .var (.unmet depth i)) :
    registerTerm h' depth registers i = (registerTerm h depth registers i).subst σ := by
  unfold registerTerm
  split
  · rename_i cell hget
    exact hcells cell (hlt cell (List.mem_of_getElem? hget))
  · exact hunmet.symm

theorem callerGoals_shifted {q : QueryProgram} {h h' : Heap} {σ : Unknown → Term Unknown}
    (hcells : ∀ i < h.size, h'.term i = (h.term i).subst σ) : ∀ {stack : List Frame},
    (∀ depth < stack.length, ∀ i, σ (.unmet depth i) = .var (.unmet depth i)) →
    (∀ f ∈ stack, ∀ cell, some cell ∈ f.registers → cell < h.size) →
    callerGoals q h' stack = (callerGoals q h stack).map (Atom.subst σ)
  | [], _, _ => rfl
  | f :: rest, hunmet, hlt => by
    have hrest : callerGoals q h' rest = (callerGoals q h rest).map (Atom.subst σ) :=
      callerGoals_shifted hcells (fun depth hd => hunmet depth (Nat.lt_succ_of_lt hd))
        fun g hg => hlt g (List.mem_cons_of_mem _ hg)
    have hterms : registerTerm h' rest.length f.registers = fun i =>
        (registerTerm h rest.length f.registers i).subst σ :=
      funext fun i => registerTerm_shifted hcells (hlt f List.mem_cons_self)
        (hunmet rest.length (Nat.lt_succ_self _) i)
    rw [callerGoals, callerGoals, hrest, hterms, List.map_append]
    exact congrArg (· ++ _) (goalsOf_subst σ _ [] _)

theorem queryRegisters_cons : ∀ (registers : Registers) (f : Frame) (rest : List Frame),
    ∃ g ∈ f :: rest, queryRegisters registers (f :: rest) = g.registers
  | _, f, [] => ⟨f, List.mem_cons_self, rfl⟩
  | _, f, g :: rest => by
    obtain ⟨e, he, heq⟩ := queryRegisters_cons f.registers g rest
    exact ⟨e, List.mem_cons_of_mem _ he, heq⟩

/-- **From one state to another, terms are put for variables**, except for registers that callers have not met. -/
structure State.Shifts (s s' : State) (σ : Unknown → Term Unknown) : Prop where
  stack : s'.stack = s.stack
  cells : ∀ i < s.heap.size, s'.heap.term i = (s.heap.term i).subst σ
  unmet : ∀ depth < s.stack.length, ∀ i, σ (.unmet depth i) = .var (.unmet depth i)
  saved : ∀ f ∈ s.stack, ∀ cell, some cell ∈ f.registers → cell < s.heap.size
  own : s.stack = [] → s'.registers.length = s.registers.length ∧
    ∀ i, registerTerm s'.heap 0 s'.registers i = (registerTerm s.heap 0 s.registers i).subst σ

namespace State.Shifts

variable {q : QueryProgram} {s s' : State} {σ : Unknown → Term Unknown}

theorem callers (h : s.Shifts s' σ) : callerGoals q s'.heap s'.stack =
      (callerGoals q s.heap s.stack).map (Atom.subst σ) := by
  rw [h.stack]
  exact callerGoals_shifted h.cells h.unmet h.saved

theorem answers (h : s.Shifts s' σ) : s'.answers = s.answers.map (Term.subst σ) := by
  rw [State.answers, State.answers, List.map_map, h.stack]
  cases hstack : s.stack with
  | nil =>
    obtain ⟨hlength, hterms⟩ := h.own hstack
    show (List.range s'.registers.length).map _ = _
    rw [hlength]
    exact List.map_congr_left fun i _ => hterms i
  | cons f rest =>
    obtain ⟨g, hg, hregisters⟩ := queryRegisters_cons s.registers f rest
    have hsame : queryRegisters s'.registers (f :: rest) = queryRegisters s.registers (f :: rest) := rfl
    rw [hsame, hregisters]
    exact List.map_congr_left fun i _ => registerTerm_shifted h.cells (h.saved g (hstack ▸ hg))
      (h.unmet 0 (by rw [hstack]; exact Nat.succ_pos _) i)

/-- **What remains is read with the terms put for the variables**, if this is so of the goals of the running clause. -/
theorem running (h : s.Shifts s' σ) {hand : Nat} {goals : List (Atom Unknown)}
    (hgoals : goalsOf (registerTerm s'.heap s'.stack.length s'.registers) (s'.heap.top hand) (q.codeFrom s'.pc) =
      goals.map (Atom.subst σ)) :
    s'.running q hand = Reading.subst σ ⟨goals ++ callerGoals q s.heap s.stack, s.answers⟩ := by
  rw [State.running, hgoals, h.callers, h.answers, ← List.map_append]
  rfl

theorem pushed (h : s.Shifts s' σ) {hand : Nat} {t : Term Unknown} {code : List Instruction}
    (hterms : ∀ i, registerTerm s'.heap s.stack.length s'.registers i =
      (registerTerm s.heap s.stack.length s.registers i).subst σ)
    (hgoals : goalsOf (registerTerm s.heap s.stack.length s.registers) (s.heap.top hand) (q.codeFrom s.pc) =
      goalsOf (registerTerm s.heap s.stack.length s.registers) (s.heap.top hand ++ [t]) code)
    (hcode : q.codeFrom s'.pc = code)
    (htop : s'.heap.top (hand + 1) = (s.heap.top hand ++ [t]).map (Term.subst σ)) :
    s'.running q (hand + 1) = (s.running q hand).subst σ := by
  have hnext : goalsOf (registerTerm s'.heap s'.stack.length s'.registers)
      (s'.heap.top (hand + 1)) (q.codeFrom s'.pc) =
      (goalsOf (registerTerm s.heap s.stack.length s.registers) (s.heap.top hand) (q.codeFrom s.pc)).map
        (Atom.subst σ) := by
    rw [hgoals, hcode, htop, h.stack, ← goalsOf_subst]
    exact congrArg (goalsOf · _ _) (funext hterms)
  exact h.running hnext

end State.Shifts

/-! ## Instructions of a body

One equation for each instruction: the reading before it is the reading behind it, up to the renaming or the
substitution that the instruction makes. -/

namespace Standing

variable {q : QueryProgram} {size met hand : Nat} {s : State} {code : List Instruction}

theorem term_subst_of_cells {h : Heap} (hs : h.Sound) {σ : Unknown → Term Unknown}
    (hσ : ∀ root < h.size, σ (.cell root) = .var (.cell root)) {i : Nat} (hi : i < h.size) :
    (h.term i).subst σ = h.term i := by
  rcases Heap.term_cases hs hi with ⟨c, -, hterm⟩ | ⟨root, hlt, -, hterm, -⟩
  · rw [hterm]
    rfl
  · rw [hterm]
    exact hσ root hlt

theorem shifts_push (h : Standing q size met hand .body s) (c : Cell) (pc : Nat) :
    s.Shifts { s with heap := s.heap.push c, pc := pc } .var ∧
      ∀ i, registerTerm (s.heap.push c) s.stack.length s.registers i =
        (registerTerm s.heap s.stack.length s.registers i).subst .var := by
  have hcells : ∀ i < s.heap.size, Heap.term (s.heap.push c) i = (s.heap.term i).subst .var := fun i hi =>
    (Heap.term_push h.heap c hi).trans (Term.subst_id _).symm
  have hlt : ∀ cell, some cell ∈ s.registers → cell < s.heap.size :=
    fun _ hcell => (h.registers rfl).lt_bound hcell
  exact ⟨⟨rfl, hcells, fun _ _ _ => rfl, h.callers.lt_bound,
    fun _ => ⟨rfl, fun _ => registerTerm_shifted hcells hlt rfl⟩⟩, fun _ => registerTerm_shifted hcells hlt rfl⟩

theorem top_subst (h : Standing q size met hand .body s) {σ : Unknown → Term Unknown}
    (hσ : ∀ root < s.heap.size, σ (.cell root) = .var (.cell root)) :
    (s.heap.top hand).map (Term.subst σ) = s.heap.top hand := by
  rw [Heap.top, List.map_map]
  refine List.map_congr_left fun i hi => term_subst_of_cells h.heap hσ ?_
  have := (List.mem_range'_1.1 hi).2
  have := h.hand_le
  omega

/-- **A cell that is pushed leaves the reading as it is.** -/
theorem running_push (h : Standing q size met hand .body s) {i : Instruction} (hcode : q.codeFrom s.pc = i :: code)
    (hne : code ≠ []) {c : Cell} {t : Term Unknown} (ht : Heap.term (s.heap.push c) s.heap.size = t)
    (hgoals : ∀ hand, goalsOf (registerTerm s.heap s.stack.length s.registers) hand (i :: code) =
      goalsOf (registerTerm s.heap s.stack.length s.registers) (hand ++ [t]) code) :
    ({ s with heap := s.heap.push c, pc := q.next s.pc } : State).running q (hand + 1) = s.running q hand := by
  obtain ⟨hshifts, hterms⟩ := h.shifts_push c (q.next s.pc)
  have htop : Heap.top (s.heap.push c) (hand + 1) = (s.heap.top hand ++ [t]).map (Term.subst .var) := by
    rw [Heap.top_push h.heap c h.hand_le, ht]
    exact ((List.map_congr_left fun t _ => t.subst_id).trans (List.map_id _)).symm
  have hpushed := hshifts.pushed (q := q) hterms (by rw [hcode, hgoals])
    (QueryProgram.codeFrom_next hcode hne).1 htop
  rwa [Reading.subst_id] at hpushed

/-- **Meeting a register renames its variable.** -/
theorem running_pushFree (h : Standing q size met hand .body s)
    (hcode : q.codeFrom s.pc = .pushFreeVar met :: code) (hne : code ≠ []) (hmet : met < size) :
    ({ s with
      heap := s.heap.pushFree, registers := s.registers.set met (some s.heap.size), pc := q.next s.pc } :
    State).running q (hand + 1) =
      (s.running q hand).map (Equiv.swap (.unmet s.stack.length met) (.cell s.heap.size)) := by
  let σ : Unknown → Term Unknown := fun u => .var (Equiv.swap (.unmet s.stack.length met) (.cell s.heap.size) u)
  have hcell : ∀ root < s.heap.size, σ (.cell root) = .var (.cell root) := fun root hlt =>
    congrArg Term.var (Equiv.swap_apply_of_ne_of_ne (fun he => nomatch he) fun he => by cases he; omega)
  have hunmet : ∀ depth i, depth ≠ s.stack.length ∨ i ≠ met →
      σ (.unmet depth i) = .var (.unmet depth i) := fun depth i hne =>
    congrArg Term.var (Equiv.swap_apply_of_ne_of_ne (fun he => by cases he; simp at hne) fun he => nomatch he)
  have hcells : ∀ i < s.heap.size, Heap.term s.heap.pushFree i = (s.heap.term i).subst σ := fun i hi =>
    (Heap.term_push h.heap _ hi).trans (term_subst_of_cells h.heap hcell hi).symm
  have hfit := h.registers rfl
  have hterms : ∀ i, registerTerm s.heap.pushFree s.stack.length (s.registers.set met (some s.heap.size)) i =
      (registerTerm s.heap s.stack.length s.registers i).subst σ := by
    intro i
    by_cases hi : i = met
    · subst hi
      rw [registerTerm, registerTerm, List.getElem?_set_self (hfit.length ▸ hmet),
        hfit.isUnset i (Nat.le_refl _) hmet]
      exact Heap.term_pushFree.trans (congrArg Term.var (Equiv.swap_apply_left _ _)).symm
    · have hset : registerTerm s.heap.pushFree s.stack.length (s.registers.set met (some s.heap.size)) i =
          registerTerm s.heap.pushFree s.stack.length s.registers i := by
        rw [registerTerm, registerTerm, List.getElem?_set_ne (Ne.symm hi)]
      rw [hset]
      exact registerTerm_shifted hcells (fun _ hcell => hfit.lt_bound hcell) (hunmet _ i (.inr hi))
  have hshifts : s.Shifts { s with
      heap := s.heap.pushFree, registers := s.registers.set met (some s.heap.size), pc := q.next s.pc } σ :=
    ⟨rfl, hcells, fun depth hd i => hunmet depth i (.inl (Nat.ne_of_lt hd)), h.callers.lt_bound, fun hstack =>
      ⟨List.length_set, fun i => by have := hterms i; rwa [hstack] at this⟩⟩
  have htop : Heap.top s.heap.pushFree (hand + 1) =
      (s.heap.top hand ++ [Term.var (Unknown.unmet s.stack.length met)]).map (Term.subst σ) := by
    have hnew : σ (.unmet s.stack.length met) = .var (.cell s.heap.size) :=
      congrArg Term.var (Equiv.swap_apply_left _ _)
    rw [List.map_append, h.top_subst hcell, List.map_singleton, Term.subst_var, hnew, ← Heap.term_pushFree]
    exact Heap.top_push h.heap _ h.hand_le
  have hold : registerTerm s.heap s.stack.length s.registers met = .var (.unmet s.stack.length met) := by
    rw [registerTerm, hfit.isUnset met (Nat.le_refl _) hmet]
  exact hshifts.pushed hterms (by rw [hcode, goalsOf, hold]) (QueryProgram.codeFrom_next hcode hne).1 htop

/-- **A builtin that binds a variable puts a term for it** in what is left when its goal is taken away. -/
theorem running_changed (h : Standing q size met 2 .body s) {b : Builtin}
    (hcode : q.codeFrom s.pc = .call b.label :: code) (hne : code ≠ []) {change : Heap.Change}
    {e : Term Unknown × Term Unknown} {θ : Unknown → Term Unknown}
    (hchange : change.Solves s.heap e θ) :
    ∃ rest, s.running q 2 = ⟨⟨b.label, [s.heap.term (s.heap.size - 2), s.heap.term (s.heap.size - 1)]⟩ :: rest,
      s.answers⟩ ∧
      ({ s with heap := s.heap.apply change, pc := q.next s.pc } : State).running q 0 =
        Reading.subst θ ⟨rest, s.answers⟩ := by
  have hlt : ∀ cell, some cell ∈ s.registers → cell < s.heap.size :=
    fun _ hcell => (h.registers rfl).lt_bound hcell
  have hterms : ∀ depth i, registerTerm (s.heap.apply change) depth s.registers i =
      (registerTerm s.heap depth s.registers i).subst θ := fun depth i =>
    registerTerm_shifted hchange.cells hlt (hchange.unmet depth i)
  have hshifts : s.Shifts { s with heap := s.heap.apply change, pc := q.next s.pc } θ :=
    ⟨rfl, hchange.cells, fun depth _ => hchange.unmet depth, h.callers.lt_bound, fun _ => ⟨rfl, hterms 0⟩⟩
  have htop : s.heap.top 2 = [s.heap.term (s.heap.size - 2), s.heap.term (s.heap.size - 1)] := by
    have hsize := h.hand_le
    rw [show s.heap.size - 1 = s.heap.size - 2 + 1 by omega]
    rfl
  refine ⟨goalsOf (registerTerm s.heap s.stack.length s.registers) [] code ++ callerGoals q s.heap s.stack, ?_, ?_⟩
  · rw [State.running, htop, hcode]
    rfl
  · refine hshifts.running ?_
    rw [← goalsOf_subst, (QueryProgram.codeFrom_next hcode hne).1]
    exact congrArg (goalsOf · [] code) (funext (hterms _))

/-- **A call that branches leaves its goal pending.** -/
theorem reading_called {label : Label} (h : Standing q size met label.arity .body s)
    (hcode : q.codeFrom s.pc = .call label :: code) (hne : code ≠ []) :
    ({ s with stack := ⟨q.next s.pc, s.registers, s.jumpTo⟩ :: s.stack, jumpTo := some label } : State).reading q =
      s.running q label.arity := by
  have hpending : ({ s with
      stack := ⟨q.next s.pc, s.registers, s.jumpTo⟩ :: s.stack, jumpTo := some label } : State).pendingGoals =
      [⟨label, s.heap.top label.arity⟩] := by
    show [(⟨label, (List.range' (s.heap.size - label.arity) (min label.arity s.heap.size)).map s.heap.term⟩ :
      Atom Unknown)] = _
    rw [Nat.min_eq_left h.hand_le]
    rfl
  rw [State.reading, hpending, State.running, hcode]
  refine congrArg₂ Reading.mk ?_ rfl
  show ⟨label, s.heap.top label.arity⟩ :: (goalsOf (registerTerm s.heap s.stack.length s.registers) []
    (q.codeFrom (q.next s.pc)) ++ callerGoals q s.heap s.stack) = _
  rw [(QueryProgram.codeFrom_next hcode hne).1]
  rfl

/-- **A return leaves the goals of the callers.** -/
theorem running_returned (hcode : q.codeFrom s.pc = .proceed :: code) {f : Frame} {rest : List Frame}
    (hstack : s.stack = f :: rest) :
    ({ s with pc := f.returnTo, registers := f.registers, jumpTo := f.caller, stack := rest } : State).running q
      0 = s.running q 0 := by
  rw [State.running, State.running, hcode, State.answers, State.answers, hstack]
  rfl

theorem reading_finished (hcode : q.codeFrom s.pc = .proceed :: code) (hstack : s.stack = []) :
    ({ s with completed := true, jumpTo := none } : State).reading q = s.running q 0 := by
  rw [State.reading, State.running, hcode, State.answers, State.answers, hstack]
  rfl

end Standing

end ProofWalk
