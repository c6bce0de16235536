import Mathlib.Data.Rat.Floor
import ProofWalk.Proofs.FormPaths
import ProofWalk.Proofs.GraphAgreement
import ProofWalk.Proofs.ProofRuns
import ProofWalk.Proofs.PushBalance
/-!
# Proofs.DepthBounds — the exact provers find every answer within the depth, and no other

Where all weights are positive, power iteration has mass on a state after some steps if a walk of just so many edges
leads there, and propagation along paths has mass on the states that paths up to the depth lead to.  The edges of
the graph are the ways of the machine by form (`Explored`), so for both the completed states with mass are those
that are at most so many outlinks away from the start: walks restart and loop, but a loop is what keeps an answer
that was found early.

The amounts of mass do not matter here, only where it is positive.  So a computation is described by the places to
which it adds mass (`Deposited`), and both provers by relations between forms: which forms have mass after so many
steps, and which are within so many steps of a form.  States are met as a proof goes, and a number that a state gets
late is the number that it has in the end; statements about places are therefore made in the table of states that
the computation leaves, and carry over to any that grows from it.
-/
namespace ProofWalk

open MassVector (mass entries)

/-! ## Deposits

Mass that is not negative is added at some places and nowhere else.  Deposits compose, and a deposit at equal places
is the same deposit. -/

section

variable {K : Type} [Field K] [LinearOrder K] [FloorSemiring K] {V : Type} [MassVector V K]

/-- **Storage to which mass has been added at some places**, and nowhere else. -/
def Deposited (v v' : V) (places : Nat → Prop) : Prop :=
  ∀ j, mass v j ≤ mass v' j ∧ (0 < mass v' j ↔ 0 < mass v j ∨ places j)

theorem Deposited.refl (v : V) : Deposited v v fun _ => False := fun _ => ⟨le_rfl, by simp⟩

theorem Deposited.trans {v v' v'' : V} {P Q : Nat → Prop} (h : Deposited v v' P) (h' : Deposited v' v'' Q) :
    Deposited v v'' fun j => P j ∨ Q j :=
  fun j => ⟨(h j).1.trans (h' j).1, by rw [(h' j).2, (h j).2, or_assoc]⟩

theorem Deposited.congr {v v' : V} {P Q : Nat → Prop} (h : Deposited v v' P) (hPQ : ∀ j, P j ↔ Q j) :
    Deposited v v' Q :=
  fun j => ⟨(h j).1, by rw [(h j).2, hPQ]⟩

theorem Deposited.nonneg {v v' : V} {P : Nat → Prop} (h : Deposited v v' P) (hv : ∀ j, 0 ≤ mass v j) :
    ∀ j, 0 ≤ mass v' j :=
  fun j => (hv j).trans (h j).1

variable [LawfulMass V K] [IsStrictOrderedRing K]

theorem deposited_add {v : V} (hv : ∀ j, 0 ≤ mass v j) (i : Nat) {x : K} (hx : 0 < x) :
    Deposited v (MassVector.add v i x) fun j => i = j := by
  intro j
  rw [LawfulMass.mass_add]
  by_cases h : j = i
  · subst h
    rw [if_pos rfl]
    exact ⟨le_add_of_nonneg_right hx.le, iff_of_true (add_pos_of_nonneg_of_pos (hv j) hx) (.inr rfl)⟩
  · rw [if_neg h]
    simp [Ne.symm h]

theorem deposited_foldl {l : List (Nat × K)} (hl : ∀ e ∈ l, 0 < e.2) {v : V} (hv : ∀ j, 0 ≤ mass v j) :
    Deposited v (l.foldl (fun v e => MassVector.add v e.1 e.2) v) fun j => ∃ e ∈ l, e.1 = j := by
  induction l generalizing v with
  | nil => exact (Deposited.refl v).congr fun j => by simp
  | cons e rest ih =>
    obtain ⟨hfirst, hrest⟩ := List.forall_mem_cons.1 hl
    have hadd := deposited_add hv e.1 hfirst
    exact (hadd.trans (ih hrest (hadd.nonneg hv))).congr fun j => by simp

end

variable {K : Type} [Field K] [LinearOrder K] [FloorSemiring K] [Exponential K]

/-! ## Positive weights

`Favours` asks of a weighter that it gives a positive weight to every edge of a machine's graph.  Then no weight is
refused by a strict weighter, and the edges that a state is told to have are all of its edges. -/

namespace Weighter

def Allots (w : Weighter K) (features : Features K) : Prop := ∃ x, w.weigh features = .ok x ∧ 0 < x

/-- **A weighter that gives a positive weight to every edge** of a machine's graph. -/
structure Favours (w : Weighter K) (m : Machine K) : Prop where
  derived : ∀ s, m.Reachable s → ∀ outlinks, m.expand s = .ok outlinks → ∀ o ∈ outlinks, w.Allots o.features
  restart : w.Allots (impliedFeatures restartFeature)
  trueLoop : w.Allots (impliedFeatures trueLoopFeature)

variable {w : Weighter K}

theorem Allots.weighNamed {features : Features K} (h : w.Allots features) {l : List (String × K)}
    (hl : l.Perm features.toList) : ∃ x, w.weighNamed l = .ok x ∧ 0 < x := by
  obtain ⟨x, hx, hpos⟩ := h
  have hnamed : w.weighNamed features.toList = .ok x := by
    show (w.weigh features).mapError _ = _
    rw [hx]
    rfl
  have hlike := w.weighNamed_like Scalar.orderFree hl
  rw [hnamed] at hlike
  exact ⟨x, hlike.eq_ok, hpos⟩

theorem weighAll_pos {edges : List (Nat × List (String × K))}
    (h : ∀ e ∈ edges, ∃ x, w.weighNamed e.2 = .ok x ∧ 0 < x) :
    ∃ weights, w.weighAll edges = .ok weights ∧ (∀ e ∈ weights, 0 < e.2) ∧
      weights.map (·.1) = edges.map (·.1) := by
  induction edges with
  | nil => exact ⟨[], rfl, nofun, rfl⟩
  | cons e rest ih =>
    obtain ⟨⟨x, hx, hpos⟩, hrest⟩ := List.forall_mem_cons.1 h
    obtain ⟨weights, hweights, hall, hplaces⟩ := ih hrest
    refine ⟨(e.1, x) :: weights, ?_, List.forall_mem_cons.2 ⟨hpos, hall⟩,
      by rw [List.map_cons, List.map_cons, hplaces]⟩
    rw [weighAll, hx, hweights]
    rfl

theorem linksOf_pos {m : Machine K} (h : w.Favours m) (id : Nat) (looped : Bool)
    {edges : List (Nat × List (String × K))} (hedges : ∀ e ∈ edges, ∃ x, w.weighNamed e.2 = .ok x ∧ 0 < x) :
    ∃ links, w.linksOf id looped edges = .ok links ∧ (∀ l ∈ links, 0 < l.weight) ∧
      links.map (fun l => (l.child, l.kind)) =
        edges.map (fun e => (e.1, .derived)) ++ (if looped then [(id, .trueLoop)] else []) ++ [(0, .restart)] := by
  obtain ⟨weights, hweights, hpos, hplaces⟩ := weighAll_pos hedges
  obtain ⟨restart, hrestart, hrestartPos⟩ := h.restart.weighNamed (.refl _)
  obtain ⟨loop, hloop, hloopPos⟩ := h.trueLoop.weighNamed (.refl _)
  rw [impliedFeatures, toList_insert_empty] at hrestart hloop
  have hderived : (weights.map fun l => (⟨l.1, l.2, .derived⟩ : Link K)).map (fun l => (l.child, l.kind)) =
      edges.map fun e => (e.1, LinkKind.derived) := by
    simpa [List.map_map, Function.comp_def] using congrArg (List.map fun i => (i, LinkKind.derived)) hplaces
  have hderivedPos : ∀ l ∈ weights.map fun l => (⟨l.1, l.2, .derived⟩ : Link K), 0 < l.weight := by
    intro l hl
    obtain ⟨e, he, rfl⟩ := List.mem_map.1 hl
    exact hpos e he
  cases looped with
  | false =>
    refine ⟨weights.map (fun l => ⟨l.1, l.2, .derived⟩) ++ [] ++ [⟨0, restart, .restart⟩], ?_, ?_, ?_⟩
    · rw [linksOf, hweights, hrestart]
      rfl
    · exact List.forall_mem_append.2 ⟨List.forall_mem_append.2 ⟨hderivedPos, List.forall_mem_nil _⟩,
        List.forall_mem_singleton.2 hrestartPos⟩
    · rw [List.map_append, List.map_append, hderived]
      rfl
  | true =>
    refine ⟨weights.map (fun l => ⟨l.1, l.2, .derived⟩) ++ [⟨id, loop, .trueLoop⟩] ++
      [⟨0, restart, .restart⟩], ?_, ?_, ?_⟩
    · rw [linksOf, hweights, weighLoop, hloop, hrestart]
      rfl
    · exact List.forall_mem_append.2 ⟨List.forall_mem_append.2 ⟨hderivedPos, List.forall_mem_singleton.2 hloopPos⟩,
        List.forall_mem_singleton.2 hrestartPos⟩
    · rw [List.map_append, List.map_append, hderived]
      rfl

end Weighter

/-! ## Walking on a graph

A walk is told the weighted edges of a state, and these stand for the ways on from it in the graph as it is then.
`Underway` is the invariant of a proof: an explored graph, and no one who abandons the proof. -/

variable {m : Machine K} {w : Weighter K} {start : Frozen}

section

variable {params : Nat → Params K} {id : Nat} {f : Frozen}

theorem StateGraph.weightedOutlinks_for {s : Store (StateGraph K) K} (h : Explored m (ofState s))
    (hregular : s.graph.Regular) (hf : s.graph.states.get? id = some f) (w : Weighter K) (trueLoop : Bool) :
    ∃ edges, (weightedOutlinks id w trueLoop s).1 = w.linksOf id (trueLoop && f.state.completed) (listed edges) ∧
      EdgesFor (weightedOutlinks id w trueLoop s).2.graph.states edges (m.waysOn f) := by
  have hmoves := outlinks_moves id s
  have hkept := hmoves.extends id f hf
  have hrecorded := (h.moves hmoves).recorded id
  obtain ⟨edges, s', hout, -, -⟩ := hregular.outlinks (Option.isSome_of_eq_some hf)
  obtain ⟨hlinks, hgraph⟩ := weightedOutlinks_eq w trueLoop hout
  have hedges := edges_of_outlinks (congrArg Prod.fst hout)
  rw [hout] at hkept hrecorded hedges
  obtain ⟨f', edges', hf', hedges', hfor⟩ : ∃ f' edges', s'.graph.states.get? id = some f' ∧
      s'.graph.edges.get? id = some edges' ∧ EdgesFor s'.graph.states edges' (m.waysOn f') :=
    hrecorded (Option.isSome_of_eq_some hedges)
  obtain rfl : f = f' := Option.some.inj (hkept.symm.trans hf')
  obtain rfl : edges = edges' := Option.some.inj (hedges.symm.trans hedges')
  have hcompleted : s'.graph.isCompleted id = f.state.completed := by
    rw [isCompleted, hf']
    rfl
  rw [hcompleted] at hlinks
  exact ⟨edges, hlinks, hgraph ▸ hfor⟩

theorem IdGraph.weightedOutlinks_for {s : Store (IdGraph K) K} (h : Explored m (ofId s))
    (hregular : s.graph.Regular params s.features) (hw : w.params = params w.key)
    (hf : s.graph.states.get? id = some f) (trueLoop : Bool) :
    ∃ edges named, Reordered (StateGraph.listed edges) named ∧
      (weightedOutlinks id w trueLoop s).1 = w.linksOf id (trueLoop && f.state.completed) named ∧
      EdgesFor (weightedOutlinks id w trueLoop s).2.graph.states edges (m.waysOn f) := by
  have hmoves := row_moves id s
  have hkept := hmoves.extends id f hf
  have hrecorded := (h.moves hmoves).recorded id
  obtain ⟨here, s', hrow, hregular', hhere⟩ := hregular.row (Option.isSome_of_eq_some hf)
  obtain ⟨hlinks, hweighed⟩ :=
    weightedOutlinks_eq hw trueLoop hrow (fun e he => (hregular'.closed id here hhere e he).2)
    hregular'.restart hregular'.trueLoop hregular'.honest
  rw [hrow] at hkept hrecorded
  obtain ⟨f', edges, hf', ⟨row, hrow', hstands⟩, hfor⟩ : ∃ f' edges, s'.graph.states.get? id = some f' ∧
      (∃ row, s'.graph.rows.get? id = some row ∧ RowFor s'.features edges row) ∧
        EdgesFor s'.graph.states edges (m.waysOn f') :=
    hrecorded (Option.isSome_of_eq_some hhere)
  obtain rfl : f = f' := Option.some.inj (hkept.symm.trans hf')
  obtain rfl : here = row := Option.some.inj (hhere.symm.trans hrow')
  have hcompleted : s'.graph.isCompleted id = f.state.completed := by
    rw [isCompleted, hf']
    rfl
  rw [hcompleted] at hlinks
  refine ⟨edges, listed s'.features here, hstands.reordered, hlinks, ?_⟩
  rw [hweighed.graph]
  exact hfor

theorem Explored.weightedOutlinks {s : Store (ProofGraph K) K} (h : Explored m s)
    (hregular : ProofGraph.Regular params s) (hw : w.params = params w.key)
    (hf : s.graph.states.get? id = some f) (trueLoop : Bool) :
    ∃ edges named, Reordered (StateGraph.listed edges) named ∧
      (ProofGraph.weightedOutlinks id w trueLoop s).1 = w.linksOf id (trueLoop && f.state.completed) named ∧
      EdgesFor (ProofGraph.weightedOutlinks id w trueLoop s).2.graph.states edges (m.waysOn f) := by
  cases hregular with
  | state hregular =>
    obtain ⟨edges, hlinks, hfor⟩ := StateGraph.weightedOutlinks_for h hregular hf w trueLoop
    exact ⟨edges, StateGraph.listed edges, List.forall₂_same.2 fun _ _ => ⟨rfl, .refl _⟩, hlinks, hfor⟩
  | cachingId hregular => exact IdGraph.weightedOutlinks_for h hregular hw hf trueLoop

end

/-- **A proof under way on an explored graph**, which nobody abandons. -/
structure Underway (m : Machine K) (start : Frozen) (w : Weighter K) (τ : ProofState K) : Prop where
  explored : Explored m τ.store
  regular : ProofGraph.Regular (fun _ => w.params) τ.store
  root : τ.store.graph.states.find? start.form = some 0
  patient : ∀ n, τ.audience ≠ .present (some n)

abbrev ProofState.states (τ : ProofState K) : StateTable := τ.store.graph.states

namespace Underway

variable {τ : ProofState K}

omit [Exponential K] in
theorem report (h : Underway m start w τ) (r : Thunk (Progress K)) :
    ∃ τ', ProofM.report r τ = (.ok (), τ') ∧ Underway m start w τ' ∧ τ'.states = τ.states := by
  obtain ⟨store, reports, audience⟩ := τ
  cases audience with
  | absent => exact ⟨_, rfl, h, rfl⟩
  | present patience =>
    cases patience with
    | some n => exact absurd rfl (h.patient n)
    | none =>
      exact ⟨⟨store, reports.push r.get, .present none⟩, rfl, ⟨h.explored, h.regular, h.root, h.patient⟩, rfl⟩

theorem progress (h : Underway m start w τ) {V : Type} [MassVector V K] (name : String)
    (iteration pushes : Nat) (settled residual : V) :
    ∃ τ', (ProofGraph.walk w).progress name iteration pushes settled residual τ =
      (.ok (), τ') ∧ Underway m start w τ' ∧ τ'.states = τ.states := h.report _

theorem links (h : Underway m start w τ) (hw : w.Favours m) {id : Nat} {f : Frozen}
    (hf : τ.states.get? id = some f) (trueLoop : Bool) :
      ∃ links edges τ', (ProofGraph.walk w).links id trueLoop τ = (.ok links, τ') ∧ Underway m start w τ' ∧
      Extends τ.states.get? τ'.states.get? ∧ (∀ l ∈ links, 0 < l.weight) ∧
      links.map (fun l => (l.child, l.kind)) = edges.map (fun e => (e.child, .derived)) ++
        (if trueLoop && f.state.completed then [(id, .trueLoop)] else []) ++ [(0, .restart)] ∧
      EdgesFor τ'.states edges (m.waysOn f) := by
  have hmoves := request_moves (.weightedOutlinks id w trueLoop) τ.store
  have hregular := h.regular.request (.weightedOutlinks id w trueLoop) rfl
  rw [Request.run_weightedOutlinks] at hmoves hregular
  obtain ⟨edges, named, hnamed, hlinks, hfor⟩ := h.explored.weightedOutlinks h.regular rfl hf trueLoop
  have hallots : ∀ e ∈ named, ∃ x, w.weighNamed e.2 = .ok x ∧ 0 < x := by
    intro e he
    obtain ⟨e', he', -, hperm⟩ := exists_of_forall₂ hnamed he
    obtain ⟨edge, hedge, rfl⟩ := List.mem_map.1 he'
    obtain ⟨o, ho, hfeatures, -⟩ := exists_of_forall₂ hfor.flip hedge
    obtain ⟨outlinks, hexpand, ho⟩ := Machine.mem_waysOn.1 ho
    have hallot := hw.derived f.state (h.explored.reachable id f hf) outlinks hexpand o ho
    rw [← hfeatures] at hallot
    exact hallot.weighNamed hperm.symm
  obtain ⟨links, hrun, hpos, hplaces⟩ := Weighter.linksOf_pos hw id (trueLoop && f.state.completed) hallots
  have hchildren : named.map (fun e => (e.1, LinkKind.derived)) = edges.map fun e =>
      (e.child, LinkKind.derived) := by
    rw [← List.forall₂_eq_eq_eq, List.forall₂_map_left_iff, List.forall₂_map_right_iff]
    refine (List.forall₂_map_left_iff.1 hnamed).flip.imp fun e edge he => ?_
    exact congrArg (·, LinkKind.derived) he.1.symm
  rw [hchildren] at hplaces
  refine ⟨links, edges, { τ with store := (ProofGraph.weightedOutlinks id w trueLoop τ.store).2 }, ?_,
    ⟨h.explored.moves hmoves, hregular, StateTable.keeps_of_extends hmoves.extends _ _ h.root, h.patient⟩,
    hmoves.extends, hpos, hplaces, hfor⟩
  show ProofM.onGraph (ProofGraph.weightedOutlinks id w trueLoop) τ = _
  rw [onGraph_eq, hlinks, hrun]
  rfl

variable [IsStrictOrderedRing K]

theorem normalized (h : Underway m start w τ) (hw : w.Favours m) {id : Nat} {f : Frozen}
    (hf : τ.states.get? id = some f) (trueLoop : Bool) :
      ∃ links edges τ', (ProofGraph.walk w).normalized id trueLoop τ = (.ok links, τ') ∧
      Underway m start w τ' ∧ Extends τ.states.get? τ'.states.get? ∧ (∀ l ∈ links, 0 < l.weight) ∧
      links.map (fun l => (l.child, l.kind)) = edges.map (fun e => (e.child, .derived)) ++
        (if trueLoop && f.state.completed then [(id, .trueLoop)] else []) ++ [(0, .restart)] ∧
      EdgesFor τ'.states edges (m.waysOn f) := by
  obtain ⟨links, edges, τ', hrun, hτ', hextends, hpos, hplaces, hfor⟩ := h.links hw hf trueLoop
  have hnonempty : links.map (·.weight) ≠ [] := by
    intro hnone
    rw [List.map_eq_nil_iff.1 hnone] at hplaces
    simp at hplaces
  have htotal : 0 < (links.map (·.weight)).sum := by
    refine List.sum_pos _ (fun x hx => ?_) hnonempty
    obtain ⟨l, hl, rfl⟩ := List.mem_map.1 hx
    exact hpos l hl
  refine ⟨Walk.normalize links, edges, τ', ?_, hτ', hextends, ?_, ?_, hfor⟩
  · unfold Walk.normalized
    rw [bind_ok hrun]
    rfl
  · rw [Walk.normalize_of_pos htotal]
    intro l hl
    obtain ⟨l', hl', rfl⟩ := List.mem_map.1 hl
    exact div_pos (hpos l' hl') htotal
  · rw [Walk.normalize_of_pos htotal, List.map_map, ← hplaces]
    rfl

end Underway

/-! ## Power iteration

One step deposits mass wherever edges lead from the states that have some, and `Spread` says which states these are
after so many steps, by forms.  A completed state loops, so that what has been found is found after every later
step. -/

def Onward (m : Machine K) (states : StateTable) (u j : Nat) : Prop :=
  ∃ f, states.get? u = some f ∧
    ((∃ o ∈ m.waysOn f, states.find? o.target.form = some j) ∨ (f.state.completed = true ∧ j = u) ∨ j = 0)

def Numbered (m : Machine K) (states : StateTable) (u : Nat) : Prop :=
  ∃ f, states.get? u = some f ∧ ∀ o ∈ m.waysOn f, ∃ j, states.find? o.target.form = some j

section

variable {states states' : StateTable} {u : Nat}

omit [Exponential K] in
theorem Numbered.extends (h : Numbered m states u) (hstates : Extends states.get? states'.get?) :
    Numbered m states' u := by
  obtain ⟨f, hf, hways⟩ := h
  refine ⟨f, hstates u f hf, fun o ho => ?_⟩
  obtain ⟨j, hj⟩ := hways o ho
  exact ⟨j, StateTable.keeps_of_extends hstates _ _ hj⟩

omit [Exponential K] in
theorem Numbered.onward_iff (h : Numbered m states u) (hstates : Extends states.get? states'.get?) (j : Nat) :
    Onward m states u j ↔ Onward m states' u j := by
  obtain ⟨f, hf, hways⟩ := h
  have hf' := hstates u f hf
  have hsame : ∀ o ∈ m.waysOn f, states.find? o.target.form = states'.find? o.target.form := by
    intro o ho
    obtain ⟨i, hi⟩ := hways o ho
    rw [hi, StateTable.keeps_of_extends hstates _ _ hi]
  have hchild : (∃ o ∈ m.waysOn f, states.find? o.target.form = some j) ↔
      ∃ o ∈ m.waysOn f, states'.find? o.target.form = some j :=
    exists_congr fun o => and_congr_right fun ho => by rw [hsame o ho]
  constructor
  · rintro ⟨f', hu, hj⟩
    rw [hf] at hu
    cases hu
    exact ⟨f, hf', by rwa [← hchild]⟩
  · rintro ⟨f', hu, hj⟩
    rw [hf'] at hu
    cases hu
    exact ⟨f, hf, by rwa [hchild]⟩

omit [Exponential K] in
theorem onward_iff {f : Frozen} (hf : states.get? u = some f) (j : Nat) : Onward m states u j ↔
    (∃ o ∈ m.waysOn f, states.find? o.target.form = some j) ∨ (f.state.completed = true ∧ j = u) ∨ j = 0 := by
  simp [Onward, hf]

end

variable [IsStrictOrderedRing K] {V : Type} [MassVector V K] [LawfulMass V K]

omit [Exponential K] in
theorem deposited_spread {x : K} (hx : 0 < x) {links : List (Link K)} (hlinks : ∀ l ∈ links, 0 < l.weight) {v : V}
    (hv : ∀ j, 0 ≤ mass v j) : Deposited v (Walk.spread x links v) fun j => ∃ l ∈ links, l.child = j := by
  have hfoldl : Walk.spread x links v =
      (links.map fun l => (l.child, x * l.weight)).foldl (fun v e => MassVector.add v e.1 e.2) v := by
    rw [List.foldl_map]
    rfl
  rw [hfoldl]
  refine (deposited_foldl (fun e he => ?_) hv).congr fun j => by simp
  obtain ⟨l, hl, rfl⟩ := List.mem_map.1 he
  exact mul_pos hx (hlinks l hl)

/-- **One step deposits mass wherever edges lead** from the states that have some. -/
theorem powerStep_deposits (hw : w.Favours m) {rest : List (Nat × K)} {τ : ProofState K} {next : V}
    (hτ : Underway m start w τ) (hrest : ∀ e ∈ rest, 0 < e.2 ∧ ∃ f, τ.states.get? e.1 = some f)
    (hnext : ∀ j, 0 ≤ mass next j) :
    ∃ v τ', (ProofGraph.walk w).powerStep rest next τ = (.ok v, τ') ∧ Underway m start w τ' ∧
      Extends τ.states.get? τ'.states.get? ∧ (∀ e ∈ rest, Numbered m τ'.states e.1) ∧
      Deposited next v fun j => ∃ e ∈ rest, Onward m τ'.states e.1 j := by
  induction rest generalizing τ next with
  | nil => exact ⟨next, τ, rfl, hτ, .refl _, nofun, (Deposited.refl next).congr fun j => by simp⟩
  | cons e rest ih =>
    obtain ⟨⟨hmass, f, hf⟩, hothers⟩ := List.forall_mem_cons.1 hrest
    obtain ⟨links, edges, τ₁, hrun, hτ₁, hextends, hpos, hplaces, hfor⟩ := hτ.normalized hw hf true
    have hspread := deposited_spread hmass hpos hnext
    have hothers₁ : ∀ e ∈ rest, 0 < e.2 ∧ ∃ f, τ₁.states.get? e.1 = some f := fun e he =>
      ⟨(hothers e he).1, (hothers e he).2.imp fun f hf => hextends _ f hf⟩
    obtain ⟨v, τ', hrest', hτ', hextends', hnumbered, hdeposited⟩ := ih hτ₁ hothers₁ (hspread.nonneg hnext)
    have hhere : Numbered m τ₁.states e.1 := by
      refine ⟨f, hextends _ f hf, fun o ho => ?_⟩
      obtain ⟨edge, -, -, hchild⟩ := exists_of_forall₂ hfor ho
      exact ⟨edge.child, hchild⟩
    have honward : ∀ j, (∃ l ∈ links, l.child = j) ↔ Onward m τ₁.states e.1 j := by
      intro j
      have hmem : (∃ l ∈ links, l.child = j) ↔
        ∃ place ∈ links.map fun l => (l.child, l.kind), place.1 = j := by simp
      have hplace : (∃ l ∈ links, l.child = j) ↔
          (∃ edge ∈ edges, edge.child = j) ∨ (f.state.completed = true ∧ j = e.1) ∨ j = 0 := by
        rw [hmem, hplaces]
        cases f.state.completed <;> simp [or_and_right, exists_or, eq_comm]
      rw [hplace, hfor.mem_child_iff, onward_iff (hextends _ f hf)]
    refine ⟨v, τ', ?_, hτ', hextends.trans hextends',
      List.forall_mem_cons.2 ⟨hhere.extends hextends', hnumbered⟩, ?_⟩
    · unfold Walk.powerStep
      rw [bind_ok hrun]
      exact hrest'
    · refine (hspread.trans hdeposited).congr fun j => ?_
      rw [honward, hhere.onward_iff hextends']
      simp

/-- **Which forms have mass after just so many steps**: those that as many outlinks lead to, and completed ones that
fewer do. -/
def Arrives (m : Machine K) (start : Frozen) (steps : Nat) (form : Form) : Prop :=
  m.FormPath steps start.form form ∨
    ∃ n < steps, m.FormPath n start.form form ∧ ∃ f : Frozen, m.Reachable f.state ∧
      f.form = form ∧ f.state.completed = true

omit [Exponential K] [IsStrictOrderedRing K] in
theorem Arrives.previous {steps : Nat} {form : Form} (h : Arrives m start (steps + 1) form) :
    (∃ form', Arrives m start steps form' ∧ m.FormStep form' form) ∨
      (Arrives m start steps form ∧ ∃ f : Frozen, m.Reachable f.state ∧ f.form = form ∧
        f.state.completed = true) := by
  rcases h with hpath | ⟨n, hn, hpath, hcompleted⟩
  · obtain ⟨form', hfirst, hlast⟩ := hpath.last
    exact .inl ⟨form', .inl hfirst, hlast⟩
  · rcases Nat.lt_succ_iff_lt_or_eq.1 hn with hn | rfl
    · exact .inr ⟨.inr ⟨n, hn, hpath, hcompleted⟩, hcompleted⟩
    · exact .inr ⟨.inl hpath, hcompleted⟩

/-- **The masses after so many steps of power iteration.** -/
structure Spread (m : Machine K) (start : Frozen) (steps : Nat) (states : StateTable) (v : V) : Prop where
  nonneg : ∀ j, 0 ≤ mass v j
  sound : ∀ j, 0 < mass v j → ∃ n ≤ steps, ∃ form, m.FormPath n start.form form ∧ states.find? form = some j
  complete : ∀ form, Arrives m start steps form → ∃ j, states.find? form = some j ∧ 0 < mass v j

omit [Exponential K] [IsStrictOrderedRing K] in
theorem mem_entries_iff {v : V} (hv : ∀ j, 0 ≤ mass v j) (j : Nat) : (∃ x, (j, x) ∈ entries v) ↔ 0 < mass v j := by
  simp only [LawfulMass.mem_entries]
  constructor
  · rintro ⟨x, rfl, hx⟩
    exact lt_of_le_of_ne (hv j) hx.symm
  · intro h
    exact ⟨_, rfl, h.ne'⟩

omit [Exponential K] [IsStrictOrderedRing K] in
/-- **One more step** spreads the masses one step further. -/
theorem Spread.step (hq : m.query.Fitting) {steps : Nat} {τ τ' : ProofState K} {v v' : V}
    (h : Spread m start steps τ.states v) (hτ' : Underway m start w τ')
    (hextends : Extends τ.states.get? τ'.states.get?)
    (hnumbered : ∀ e ∈ entries v, Numbered m τ'.states e.1)
    (hdeposited : Deposited (MassVector.none : V) v' fun j => ∃ e ∈ entries v, Onward m τ'.states e.1 j) :
    Spread m start (steps + 1) τ'.states v' := by
  have hnone : ∀ j, mass (MassVector.none : V) j = 0 := LawfulMass.mass_none
  have hkeeps := StateTable.keeps_of_extends hextends
  have hpositive : ∀ j, 0 < mass v' j ↔ ∃ i, 0 < mass v i ∧ Onward m τ'.states i j := by
    intro j
    rw [(hdeposited j).2, hnone, or_iff_right (lt_irrefl _)]
    constructor
    · rintro ⟨⟨i, x⟩, he, hj⟩
      exact ⟨i, (mem_entries_iff h.nonneg i).1 ⟨x, he⟩, hj⟩
    · rintro ⟨i, hi, hj⟩
      obtain ⟨x, hx⟩ := (mem_entries_iff h.nonneg i).2 hi
      exact ⟨(i, x), hx, hj⟩
  refine ⟨hdeposited.nonneg fun j => (hnone j).ge, fun j hj => ?_, fun form hform => ?_⟩
  · obtain ⟨i, hi, f, hf, hj⟩ := (hpositive j).1 hj
    obtain ⟨n, hn, form, hpath, hnumber⟩ := h.sound i hi
    obtain ⟨f', hf', rfl⟩ := Interned.find?_eq_some_iff.1 (hkeeps _ _ hnumber)
    rw [hf] at hf'
    cases hf'
    rcases hj with ⟨o, ho, hj⟩ | ⟨-, rfl⟩ | rfl
    · exact ⟨n + 1, Nat.succ_le_succ hn, _, hpath.snoc ⟨f, hτ'.explored.reachable i f hf, rfl, o, ho, rfl⟩, hj⟩
    · exact ⟨n, Nat.le_succ_of_le hn, _, hpath, hkeeps _ _ hnumber⟩
    · exact ⟨0, Nat.zero_le _, _, .refl _, hτ'.root⟩
  · rcases hform.previous with ⟨form', harrives, hstep⟩ | ⟨harrives, f, -, rfl, hcompleted⟩
    · obtain ⟨i, hi, hmass⟩ := h.complete form' harrives
      obtain ⟨x, hx⟩ := (mem_entries_iff h.nonneg i).2 hmass
      obtain ⟨f, hf, hways⟩ := hnumbered _ hx
      obtain ⟨f', hf', rfl⟩ := Interned.find?_eq_some_iff.1 (hkeeps _ _ hi)
      rw [hf] at hf'
      cases hf'
      obtain ⟨o, ho, rfl⟩ := hstep.outlink hq (hτ'.explored.reachable i f hf)
      obtain ⟨j, hj⟩ := hways o ho
      exact ⟨j, hj, (hpositive j).2 ⟨i, hmass, f, hf, .inl ⟨o, ho, hj⟩⟩⟩
    · obtain ⟨i, hi, hmass⟩ := h.complete _ harrives
      obtain ⟨f', hf', hform'⟩ := Interned.find?_eq_some_iff.1 (hkeeps _ _ hi)
      rw [← Machine.completed_of_form hform'] at hcompleted
      exact ⟨i, hkeeps _ _ hi, (hpositive i).2 ⟨i, hmass, f', hf', .inr (.inl ⟨hcompleted, rfl⟩)⟩⟩

theorem powerSteps_spreads (hq : m.query.Fitting) (hw : w.Favours m) (name : String)
    (further iteration : Nat) {steps : Nat} {τ : ProofState K} {v : V} (hτ : Underway m start w τ)
    (h : Spread m start steps τ.states v) :
    ∃ v' τ', (ProofGraph.walk w).powerSteps name further iteration v τ = (.ok v', τ') ∧ Underway m start w τ' ∧
      Spread m start (steps + further) τ'.states v' := by
  induction further generalizing steps iteration τ v with
  | zero => exact ⟨v, τ, rfl, hτ, h⟩
  | succ further ih =>
    have hplaced : ∀ e ∈ entries v, 0 < e.2 ∧ ∃ f, τ.states.get? e.1 = some f := by
      intro e he
      have hmass := (LawfulMass.mem_entries v e.1 e.2).1 he
      have hpos := (mem_entries_iff h.nonneg e.1).1 ⟨e.2, he⟩
      obtain ⟨n, -, form, -, hnumber⟩ := h.sound e.1 hpos
      obtain ⟨f, hf, -⟩ := Interned.find?_eq_some_iff.1 hnumber
      exact ⟨hmass.1 ▸ hpos, f, hf⟩
    have hnone : ∀ j, 0 ≤ mass (MassVector.none : V) j := fun j => (LawfulMass.mass_none j).ge
    obtain ⟨next, τ₁, hrun, hτ₁, hextends, hnumbered, hdeposited⟩ := powerStep_deposits hw hτ hplaced hnone
    have hspread := h.step hq hτ₁ hextends hnumbered hdeposited
    obtain ⟨τ₂, hreport, hτ₂, hstates⟩ := hτ₁.progress name iteration 0 next (MassVector.none : V)
    rw [← hstates] at hspread
    obtain ⟨v', τ', hrest, hτ', hspread'⟩ := ih (iteration + 1) hτ₂ hspread
    refine ⟨v', τ', ?_, hτ', ?_⟩
    · unfold Walk.powerSteps
      rw [bind_ok hrun]
      exact (bind_ok hreport).trans hrest
    · rw [Nat.add_right_comm] at hspread'
      exact hspread'

/-! ## Propagation along paths

A visit deposits mass within the depth (`visit_deposits`).  The induction is on the depth, for visits of one state
and of several one after the other; the states within a depth have been numbered when the visit has ended. -/

/-- Whether a path of at least one step and at most so many leads from a form to a state. -/
def Within (m : Machine K) (depth : Nat) (states : StateTable) (form : Form) (j : Nat) : Prop :=
  ∃ n, n ≤ depth ∧ 0 < n ∧ ∃ b, m.FormPath n form b ∧ states.find? b = some j

def NumberedWithin (m : Machine K) (depth : Nat) (states : StateTable) (form : Form) : Prop :=
  ∀ n ≤ depth, ∀ b, m.FormPath n form b → ∃ j, states.find? b = some j

section

variable {depth : Nat} {states states' : StateTable} {form : Form}

omit [Exponential K] [IsStrictOrderedRing K] in
theorem NumberedWithin.extends (h : NumberedWithin m depth states form)
    (hstates : Extends states.get? states'.get?) : NumberedWithin m depth states' form := by
  intro n hn b hpath
  obtain ⟨j, hj⟩ := h n hn b hpath
  exact ⟨j, StateTable.keeps_of_extends hstates _ _ hj⟩

omit [Exponential K] [IsStrictOrderedRing K] in
theorem NumberedWithin.within_iff (h : NumberedWithin m depth states form)
    (hstates : Extends states.get? states'.get?) (j : Nat) :
    Within m depth states form j ↔ Within m depth states' form j := by
  refine exists_congr fun n => and_congr_right fun hn => and_congr_right fun _ => exists_congr fun b =>
    and_congr_right fun hpath => ?_
  obtain ⟨i, hi⟩ := h n hn b hpath
  rw [hi, StateTable.keeps_of_extends hstates _ _ hi]

omit [Exponential K] [IsStrictOrderedRing K] in
theorem within_succ_iff (hq : m.query.Fitting) {f : Frozen} (hf : m.Reachable f.state) (j : Nat) :
    Within m (depth + 1) states f.form j ↔
      (∃ o ∈ m.waysOn f, states.find? o.target.form = some j) ∨
        ∃ o ∈ m.waysOn f, Within m depth states o.target.form j := by
  constructor
  · rintro ⟨n, hn, hpos, b, hpath, hj⟩
    obtain _ | ⟨hstep, hrest⟩ := hpath
    · exact absurd hpos (lt_irrefl 0)
    · rename_i n c
      obtain ⟨o, ho, rfl⟩ := hstep.outlink hq hf
      rcases Nat.eq_zero_or_pos n with rfl | hmore
      · cases hrest
        exact .inl ⟨o, ho, hj⟩
      · exact .inr ⟨o, ho, n, Nat.le_of_succ_le_succ hn, hmore, b, hrest, hj⟩
  · rintro (⟨o, ho, hj⟩ | ⟨o, ho, n, hn, -, b, hpath, hj⟩)
    · exact ⟨1, Nat.succ_le_succ (Nat.zero_le _), Nat.one_pos, _, .step ⟨f, hf, rfl, o, ho, rfl⟩ (.refl _), hj⟩
    · exact ⟨n + 1, Nat.succ_le_succ hn, Nat.succ_pos n, b, .step ⟨f, hf, rfl, o, ho, rfl⟩ hpath, hj⟩

end

def Visited (m : Machine K) (start : Frozen) (w : Weighter K) (depth : Nat)
    (forms : Form → Prop) (τ τ' : ProofState K) (v v' : Walk.Visits K) : Prop :=
  Underway m start w τ' ∧ Extends τ.states.get? τ'.states.get? ∧
    (∀ form, forms form → NumberedWithin m depth τ'.states form) ∧
    Deposited v.result v'.result fun j => ∃ form, forms form ∧ Within m depth τ'.states form j

omit [IsStrictOrderedRing K] in
theorem visits_deposit {depth : Nat}
    (hvisit : ∀ (u : Nat) (x : K) (v : Walk.Visits K) (τ : ProofState K) (f :
      Frozen), Underway m start w τ → 0 < x →
      τ.states.get? u = some f → (∀ j, 0 ≤ mass v.result j) →
        ∃ v' τ', (ProofGraph.walk w).visit depth u x v τ = (.ok v', τ') ∧
        Visited m start w depth (· = f.form) τ τ' v v')
    {next : List (Nat × K)} {τ : ProofState K} {v : Walk.Visits K} (hτ : Underway m start w τ)
    (hnext : ∀ e ∈ next, 0 < e.2 ∧ ∃ f, τ.states.get? e.1 = some f) (hv : ∀ j, 0 ≤ mass v.result j) :
    ∃ v' τ', (next.foldlM (fun v e => (ProofGraph.walk w).visit depth e.1 e.2 v) v : ProofM K _) τ = (.ok v', τ') ∧
      Visited m start w depth (fun form => ∃ e ∈ next, τ.states.find? form = some e.1) τ τ' v v' := by
  induction next generalizing τ v with
  | nil => exact ⟨v, τ, rfl, hτ, .refl _, by simp, (Deposited.refl v.result).congr fun j => by simp⟩
  | cons e rest ih =>
    obtain ⟨⟨hpos, f, hf⟩, hothers⟩ := List.forall_mem_cons.1 hnext
    obtain ⟨v₁, τ₁, hrun, hτ₁, hextends, hnumbered, hdeposited⟩ := hvisit e.1 e.2 v τ f hτ hpos hf hv
    have hothers₁ : ∀ e ∈ rest, 0 < e.2 ∧ ∃ f, τ₁.states.get? e.1 = some f := fun e he =>
      ⟨(hothers e he).1, (hothers e he).2.imp fun f hf => hextends _ f hf⟩
    obtain ⟨v', τ', hrest, hτ', hextends', hnumbered', hdeposited'⟩ := ih hτ₁ hothers₁ (hdeposited.nonneg hv)
    have hhere : ∀ form, τ.states.find? form = some e.1 ↔ form = f.form := by
      intro form
      rw [Interned.find?_eq_some_iff, hf]
      simp [eq_comm]
    have hthere : ∀ form, (∃ e ∈ rest, τ.states.find? form = some e.1) ↔
        ∃ e ∈ rest, τ₁.states.find? form = some e.1 := by
      intro form
      refine exists_congr fun e => and_congr_right fun he => ?_
      obtain ⟨f, hf⟩ := (hothers e he).2
      rw [Interned.find?_eq_some_iff, Interned.find?_eq_some_iff, hf, hextends _ f hf]
    have hfirst := hnumbered f.form rfl
    refine ⟨v', τ', ?_, hτ', hextends.trans hextends', fun form hform => ?_, ?_⟩
    · rw [List.foldlM_cons]
      exact (bind_ok hrun).trans hrest
    · rcases hform with ⟨e', he', hform⟩
      rcases List.mem_cons.1 he' with rfl | he'
      · rw [(hhere form).1 hform]
        exact hfirst.extends hextends'
      · exact hnumbered' form ((hthere form).1 ⟨e', he', hform⟩)
    · refine (hdeposited.trans hdeposited').congr fun j => ?_
      simp only [exists_eq_left]
      rw [hfirst.within_iff hextends']
      simp only [← hthere, List.mem_cons, hhere, or_and_right, exists_or, exists_eq_left]

omit [Exponential K] in
theorem followed_children {x : K} (hx : 0 < x) {links : List (Link K)} {edges : List (Edge K)}
    (hpos : ∀ l ∈ links, 0 < l.weight) (hplaces :
    links.map (fun l => (l.child, l.kind)) = edges.map (fun e => (e.child, LinkKind.derived)) ++ [(0, .restart)]) :
    (∀ e ∈ Walk.followed x links, 0 < e.2) ∧ (Walk.followed x links).map (·.1) = edges.map (·.child) := by
  constructor
  · intro e he
    obtain ⟨l, hl, rfl⟩ := List.mem_map.1 he
    exact mul_pos hx (hpos l (List.mem_filter.1 hl).1)
  · have hkinds : (Walk.followed x links).map (·.1) =
        ((links.map fun l => (l.child, l.kind)).filter fun p => !(p.2 == .restart)).map (·.1) := by
      simp [Walk.followed, List.filter_map, List.map_map, Function.comp_def]
    have hderived : (LinkKind.derived == LinkKind.restart) = false := rfl
    rw [hkinds, hplaces]
    simp [List.filter_map, List.map_map, Function.comp_def, hderived]

omit [Exponential K] [IsStrictOrderedRing K] in
theorem visited_completed (hq : m.query.Fitting) {depth u : Nat} {τ : ProofState K}
    {f : Frozen} (v : Walk.Visits K) (hτ : Underway m start w τ) (hf : τ.states.get? u = some f)
    (hcompleted : f.state.completed = true) :
    Visited m start w depth (· = f.form) τ τ v v := by
  have hnoPath : ∀ n b, m.FormPath n f.form b → n = 0 ∧ b = f.form := by
    rintro _ _ (_ | ⟨hstep, -⟩)
    · exact ⟨rfl, rfl⟩
    · obtain ⟨o, ho, -⟩ := hstep.outlink hq (hτ.explored.reachable u f hf)
      rw [Machine.waysOn_of_completed hcompleted] at ho
      cases ho
  refine ⟨hτ, .refl _, ?_, (Deposited.refl v.result).congr fun j => ?_⟩
  · rintro _ rfl n - b hpath
    rw [(hnoPath n b hpath).2]
    exact ⟨u, Interned.find?_eq_some_iff.2 ⟨f, hf, rfl⟩⟩
  · simp only [exists_eq_left, false_iff]
    rintro ⟨n, -, hpos, b, hpath, -⟩
    rw [(hnoPath n b hpath).1] at hpos
    exact lt_irrefl 0 hpos

/-- **A visit deposits mass on all states within the depth**, and on no others. -/
theorem visit_deposits (hq : m.query.Fitting) (hw : w.Favours m) (depth u : Nat) (x : K)
    (v : Walk.Visits K) (τ : ProofState K) (f : Frozen) (hτ : Underway m start w τ) (hx : 0 < x)
    (hf : τ.states.get? u = some f) (hv : ∀ j, 0 ≤ mass v.result j) :
    ∃ v' τ', (ProofGraph.walk w).visit depth u x v τ = (.ok v', τ') ∧
      Visited m start w depth (· = f.form) τ τ' v v' := by
  induction depth generalizing u x v τ f with
  | zero =>
    refine ⟨v, τ, rfl, hτ, .refl _, ?_, (Deposited.refl v.result).congr fun j => ?_⟩
    · rintro _ rfl n hn b hpath
      obtain rfl : n = 0 := Nat.le_zero.1 hn
      cases hpath
      exact ⟨u, Interned.find?_eq_some_iff.2 ⟨f, hf, rfl⟩⟩
    · simp only [exists_eq_left, false_iff]
      rintro ⟨n, hn, hpos, -⟩
      omega
  | succ depth ih =>
    have hrun : (ProofGraph.walk w).isCompleted u τ = (.ok f.state.completed, τ) := by
      have hcompleted : τ.store.graph.isCompleted u = f.state.completed := by
        unfold ProofGraph.isCompleted ProofGraph.state?
        rw [hf]
        rfl
      rw [← hcompleted]
      rfl
    unfold Walk.visit
    rw [bind_ok hrun]
    by_cases hcompleted : f.state.completed = true
    · rw [if_pos hcompleted]
      exact ⟨v, τ, rfl, visited_completed hq v hτ hf hcompleted⟩
    rw [if_neg hcompleted]
    obtain ⟨links, edges, τ₁, hlinks, hτ₁, hextends, hpos, hplaces, hfor⟩ := hτ.normalized hw hf false
    simp only [Bool.false_and, Bool.false_eq_true, if_false, List.append_nil] at hplaces
    obtain ⟨hpositive, hchildren⟩ := followed_children hx hpos hplaces
    have hsame : ∀ P : Nat → Prop, (∃ e ∈ Walk.followed x links, P e.1) ↔ ∃ edge ∈ edges, P edge.child := by
      intro P
      have hlists : (∃ i ∈ (Walk.followed x links).map (·.1), P i) ↔
        ∃ i ∈ edges.map (·.child), P i := by rw [hchildren]
      simpa using hlists
    have hfirst := deposited_foldl (V := ProofVector K) (fun e he => hpositive e (List.mem_reverse.1 he)) hv
    obtain ⟨τ₂, hreport, hτ₂, hstates⟩ := hτ₁.progress "dfs" (v.count + 1) 0
      ((Walk.followed x links).reverse.foldl (fun r e => MassVector.add r e.1 e.2) v.result) (∅ : ProofVector K)
    have hplaced : ∀ e ∈ Walk.followed x links, 0 < e.2 ∧ ∃ f, τ₂.states.get? e.1 = some f := by
      intro e he
      obtain ⟨edge, hedge, hchild⟩ := (hsame (· = e.1)).1 ⟨e, he, rfl⟩
      obtain ⟨o, -, -, hform⟩ := exists_of_forall₂ hfor.flip hedge
      obtain ⟨f, hf, -⟩ := Interned.find?_eq_some_iff.1 hform
      rw [hstates, ← hchild]
      exact ⟨hpositive e he, f, hf⟩
    obtain ⟨v', τ', hrest, hτ', hextends', hnumbered, hdeposited⟩ :=
      visits_deposit ih hτ₂ hplaced (v := ⟨_, v.count + 1⟩) (hfirst.nonneg hv)
    rw [hstates] at hextends'
    have hforms : ∀ form, (∃ e ∈ Walk.followed x links, τ₂.states.find? form = some e.1) ↔
        ∃ o ∈ m.waysOn f, o.target.form = form := by
      intro form
      rw [hstates, hsame fun i => τ₁.states.find? form = some i, hfor.form_iff]
    simp only [hforms] at hnumbered hdeposited
    refine ⟨v', τ', ?_, hτ', hextends.trans hextends', ?_, ?_⟩
    · rw [bind_ok hlinks]
      exact (bind_ok hreport).trans hrest
    · rintro _ rfl n hn b hpath
      obtain _ | ⟨hstep, hfurther⟩ := hpath
      · exact ⟨u, Interned.find?_eq_some_iff.2 ⟨f, hextends' u f (hextends u f hf), rfl⟩⟩
      · obtain ⟨o, ho, rfl⟩ := hstep.outlink hq (hτ.explored.reachable u f hf)
        exact hnumbered _ ⟨o, ho, rfl⟩ _ (Nat.le_of_succ_le_succ hn) b hfurther
    · refine (hfirst.trans hdeposited).congr fun j => ?_
      have hnext : (∃ e ∈ (Walk.followed x links).reverse, e.1 = j) ↔
          ∃ o ∈ m.waysOn f, τ'.states.find? o.target.form = some j := by
        simp only [List.mem_reverse]
        rw [hsame (· = j), (hfor.extends hextends').mem_child_iff]
      rw [exists_eq_left, within_succ_iff hq (hτ.explored.reachable u f hf), hnext]
      simp only [exists_exists_and_eq_and]

/-! ## Provers with a bound for the depth

Both provers come to `Found`, which says of the masses on forms what the result says of the answers. -/

/-- **The forms of the completed states of a graph that hold positive mass.** -/
def AnswersHeld (g : ProofGraph K) (result : ProofVector K) (form : Form) : Prop :=
  ∃ id f x, g.states.get? id = some f ∧ f.form = form ∧ f.state.completed = true ∧ result[id]? = some x ∧ 0 < x

/-- **Whether a prover finds just some answers on a graph.** -/
def Prover.Finds (p : Prover K) (audience : Audience) (s : Store (ProofGraph K) K)
    (answers : Form → Prop) : Prop :=
  ∃ result, (p.prove audience s).result = .ok result ∧
    ∀ form, AnswersHeld (p.prove audience s).store.graph result form ↔ answers form

/-- **What both provers have in the end**: mass on forms within the depth only, and on all completed ones. -/
structure Found (m : Machine K) (start : Frozen) (depth : Nat) (states : StateTable)
    (result : ProofVector K) : Prop where
  sound : ∀ j, 0 < mass result j → ∃ n ≤ depth, ∃ form, m.FormPath n start.form form ∧ states.find? form = some j
  complete : ∀ n ≤ depth, ∀ f : Frozen, m.FormPath n start.form f.form → m.Reachable f.state →
    f.state.completed = true → ∃ j, states.find? f.form = some j ∧ 0 < mass result j

omit [Exponential K] [IsStrictOrderedRing K] in
theorem Found.answers_iff (hq : m.query.Fitting) (hstart : m.startState = .ok start)
    {depth : Nat} {g : ProofGraph K} {result : ProofVector K}
    (h : Found m start depth g.states result) (form : Form) :
    AnswersHeld g result form ↔ m.AnswersWithin depth form := by
  have hmass : ∀ j x, result[j]? = some x → mass result j = x := fun j x hx => by rw [LawfulMass.mass_map, hx]; rfl
  constructor
  · rintro ⟨id, f, x, hf, rfl, hcompleted, hx, hpos⟩
    obtain ⟨n, hn, form, hpath, hnumber⟩ := h.sound id (by rwa [hmass id x hx])
    obtain ⟨f', hf', rfl⟩ := Interned.find?_eq_some_iff.1 hnumber
    rw [hf] at hf'
    cases hf'
    obtain ⟨s, hs, hform⟩ := (Machine.formPath_iff hq hstart).1 hpath
    exact ⟨n, hn, s, hs, (Machine.completed_of_form hform).trans hcompleted, hform⟩
  · rintro ⟨n, hn, s, hs, hcompleted, rfl⟩
    have hpath := (Machine.formPath_iff hq hstart).2 ⟨s, hs, rfl⟩
    obtain ⟨j, hj, hpos⟩ := h.complete n hn (.of s) hpath hs.reachable hcompleted
    obtain ⟨f, hf, hform⟩ := Interned.find?_eq_some_iff.1 hj
    rcases hx : result[j]? with _ | x
    · rw [LawfulMass.mass_map, hx] at hpos
      exact absurd hpos (lt_irrefl 0)
    · rw [hmass j x hx] at hpos
      exact ⟨j, f, x, hf, hform, (Machine.completed_of_form hform).trans hcompleted, hx, hpos⟩

omit [Exponential K] in
theorem started (V : Type) [MassVector V K] [LawfulMass V K] :
    (∀ j, 0 ≤ mass (MassVector.add (MassVector.none : V) 0 1) j) ∧
    ∀ j, 0 < mass (MassVector.add (MassVector.none : V) 0 1) j ↔ 0 = j := by
  refine ⟨MassVector.mass_start_nonneg, fun j => ⟨fun h => (MassVector.eq_of_mass_start h.ne').symm, fun h => ?_⟩⟩
  rw [← h, MassVector.mass_start, if_pos rfl]
  exact zero_lt_one

theorem power_found (hq : m.query.Fitting) (hw : w.Favours m) (settings : ProverSettings K)
    (hstop : settings.apr.stopEarly = none) (name : String) {τ : ProofState K} (hτ : Underway m start w τ) :
    ∃ (result : ProofVector K) (τ' : ProofState K), (ProofGraph.walk w).power settings name τ = (.ok result, τ') ∧
      Found m start settings.apr.maxDepth τ'.states result := by
  obtain ⟨hnonneg, hstarted⟩ := started (K := K) (ProofVector K)
  have hspread : Spread m start 0 τ.states (MassVector.add (MassVector.none : ProofVector K) 0 1) := by
    refine ⟨hnonneg, fun j hj => ?_, fun form hform => ?_⟩
    · obtain rfl := (hstarted j).1 hj
      exact ⟨0, le_rfl, _, .refl _, hτ.root⟩
    · rcases hform with hpath | ⟨n, hn, -⟩
      · cases hpath
        exact ⟨0, hτ.root, (hstarted 0).2 rfl⟩
      · exact absurd hn (Nat.not_lt_zero n)
  obtain ⟨v, τ', hrun, hτ', h⟩ := powerSteps_spreads hq hw name settings.apr.maxDepth 1 hτ hspread
  rw [Nat.zero_add] at h
  refine ⟨v, τ', ?_, h.sound, fun n hn f hpath hf hcompleted => h.complete f.form ?_⟩
  · unfold Walk.power Walk.powerCount
    rw [hstop]
    exact hrun
  · rcases Nat.lt_or_eq_of_le hn with hless | rfl
    · exact .inr ⟨n, hless, hpath, f, hf, rfl, hcompleted⟩
    · exact .inl hpath

theorem depthFirst_found (hq : m.query.Fitting) (hw : w.Favours m) (settings : ProverSettings K) {τ : ProofState K}
    (hτ : Underway m start w τ) :
    ∃ (result : ProofVector K) (τ' : ProofState K), (ProofGraph.walk w).depthFirst settings τ = (.ok result, τ') ∧
      Found m start settings.apr.maxDepth τ'.states result := by
  obtain ⟨hnonneg, hstarted⟩ := started (K := K) (ProofVector K)
  obtain ⟨f, hf, hform⟩ := Interned.find?_eq_some_iff.1 hτ.root
  obtain ⟨v, τ', hrun, hτ', -, hnumbered, hdeposited⟩ := visit_deposits hq hw settings.apr.maxDepth 0 1
    ⟨MassVector.add (∅ : ProofVector K) 0 1, 0⟩ τ f hτ zero_lt_one hf hnonneg
  simp only [exists_eq_left, hform] at hdeposited
  have hpositive : ∀ j, 0 < mass v.result j ↔
      0 = j ∨ Within m settings.apr.maxDepth τ'.states start.form j := fun j =>
    (hdeposited j).2.trans (or_congr_left (hstarted j))
  refine ⟨v.result, τ', (bind_ok hrun).trans rfl, fun j hj => ?_, fun n hn f' hpath _ _ => ?_⟩
  · rcases (hpositive j).1 hj with rfl | ⟨n, hn, -, form, hpath, hj⟩
    · exact ⟨0, Nat.zero_le _, _, .refl _, hτ'.root⟩
    · exact ⟨n, hn, form, hpath, hj⟩
  · generalize f'.form = form at hpath
    obtain ⟨j, hj⟩ := hnumbered f.form rfl n hn form (hform.symm ▸ hpath)
    refine ⟨j, hj, (hpositive j).2 ?_⟩
    rcases Nat.eq_zero_or_pos n with rfl | hpos
    · cases hpath
      exact .inl (Option.some.inj (hτ'.root.symm.trans hj))
    · exact .inr ⟨n, hn, hpos, form, hpath, hj⟩

omit [Exponential K] [IsStrictOrderedRing K] in
theorem Underway.build {kind : GraphKind} {features table : Symbols} {g : ProofGraph K}
    (hg : ProofGraph.build kind m features = .ok (g, table))
    (counts : SortedMap Nat FeatureCounts) {audience : Audience}
    (haudience : ∀ n, audience ≠ .present (some n)) :
    ∃ start, m.startState = .ok start ∧ Underway m start w ⟨⟨g, table, counts⟩, #[], audience⟩ := by
  have hexplored := Explored.build hg counts
  have hregular : ProofGraph.Regular (fun _ => w.params) ⟨g, table, counts⟩ := ProofGraph.Regular.build hg counts
  rcases hstart : m.startState with e | start
  · cases kind <;> simp [ProofGraph.build, StateGraph.build, IdGraph.build, hstart, bind, Except.bind] at hg
  · refine ⟨start, rfl, hexplored, hregular, ?_, haudience⟩
    have hfind : (StateTable.single start).find? start.form = some 0 := by
      have hnone : (Interned.empty : StateTable).find? start.form = none :=
        Interned.find?_eq_none_iff.2 fun _ hmem => absurd hmem List.not_mem_nil
      exact (Interned.find?_intern _ start).trans (congrArg some (Interned.intern_of_none hnone).2)
    cases kind <;> simp only [ProofGraph.build, StateGraph.build, IdGraph.build, hstart, bind,
      Except.bind, pure, Except.pure,
      Except.ok.injEq, Prod.mk.injEq] at hg <;> obtain ⟨rfl, -⟩ := hg <;> exact hfind

omit [IsStrictOrderedRing K] in
theorem Found.finds (hq : m.query.Fitting) (hstart : m.startState = .ok start) {p : Prover K} {audience : Audience}
    {s : Store (ProofGraph K) K} {depth pushes : Nat} {result : ProofVector K} {τ : ProofState K}
    (h : Found m start depth τ.states result) (hbusy : p.busy = false) (hprunes : p.prunes = false)
    (hgraph : p.kind.requiresIdGraph = true → s.graph.kind = .cachingId)
    (hrun : p.proveUnpruned ⟨s, #[], audience⟩ = (.ok (result, pushes), τ)) :
    p.Finds audience s (m.AnswersWithin depth) := by
  obtain ⟨hresult, hstore⟩ := (Prover.prove_of_ok hbusy hgraph hrun).1 hprunes
  refine ⟨result, hresult, ?_⟩
  rw [hstore]
  exact h.answers_iff hq hstart

/-- **Provers with a bound for the depth find every answer within it and no other.**  Where every edge has a
positive weight and no other bound stops it early, power iteration ends with positive mass on just those completed
states that are at most so many outlinks away from the start; so does propagation along paths. -/
theorem bounded_provers_find {rules : List Rule} {query : Query} {symbols : Symbols}
    (hm : m.query.CompiledFrom rules query symbols) {kind : GraphKind} {features table : Symbols}
    {g : ProofGraph K} (hg : ProofGraph.build kind m features = .ok (g, table))
    (counts : SortedMap Nat FeatureCounts) (hw : w.Favours m) {c : ProverConfig K} (hstop : c.apr.stopEarly = none)
    {audience : Audience} (haudience : ∀ n, audience ≠ .present (some n)) :
    (Prover.ofConfig { c with prover := .ppr } w).Finds audience ⟨g, table, counts⟩
      (m.AnswersWithin c.apr.maxDepth) ∧
      (Prover.ofConfig { c with prover := .dfs } w).Finds audience ⟨g, table, counts⟩
        (m.AnswersWithin c.apr.maxDepth) := by
  have hq := hm.fitting
  obtain ⟨start, hstart, hτ⟩ := Underway.build (w := w) hg counts haudience
  constructor
  · obtain ⟨result, τ', hrun, hfound⟩ := power_found hq hw (.ofConfig c) hstop ProverKind.ppr.name hτ
    have hproof : (Prover.ofConfig { c with prover := .ppr } w).proveUnpruned ⟨⟨g, table, counts⟩, #[], audience⟩ =
        (.ok (result, 0), τ') := (bind_ok hrun).trans rfl
    exact hfound.finds hq hstart rfl rfl (by nofun) hproof
  · obtain ⟨result, τ', hrun, hfound⟩ := depthFirst_found hq hw (.ofConfig c) hτ
    have hproof : (Prover.ofConfig { c with prover := .dfs } w).proveUnpruned ⟨⟨g, table, counts⟩, #[], audience⟩ =
        (.ok (result, 0), τ') := (bind_ok hrun).trans rfl
    exact hfound.finds hq hstart rfl rfl (by nofun) hproof

/-! ## Answers about paths -/

attribute [local instance] flatExponential

def exponential : Weighter ℚ := ⟨.exp, .unit, true, 0⟩

theorem exponential_favours (m : Machine ℚ) : exponential.Favours m := by
  have hallots : ∀ features : Features ℚ, exponential.Allots features := fun features => ⟨1, rfl, zero_lt_one⟩
  exact ⟨fun _ _ _ _ _ _ => hallots _, hallots _, hallots _⟩

def pathDepth : ProverConfig ℚ := { ProverConfig.usual with apr := { AprOptions.usual with maxDepth := 2 } }

def edgeForm : Form := (Frozen.of ((exactPath.descend [0, 0]).getD default)).form

/-- Both provers find the path along the edge, which takes two steps. -/
theorem bounded_provers_find_path : exactPath.query.CompiledFrom pathRules pathQuery pathTable ∧
    exponential.Favours exactPath ∧ pathDepth.apr.stopEarly = none ∧ exactPath.AnswersWithin 2 edgeForm ∧
    ∃ g table, ProofGraph.build .cachingId exactPath ∅ = .ok (g, table) ∧
      (Prover.ofConfig { pathDepth with prover := .ppr } exponential).Finds .absent ⟨g, table, ∅⟩
        (exactPath.AnswersWithin 2) ∧
      (Prover.ofConfig { pathDepth with prover := .dfs } exponential).Finds .absent ⟨g, table, ∅⟩
        (exactPath.AnswersWithin 2) := by
  have hcompiled : exactPath.query.CompiledFrom pathRules pathQuery pathTable := pathMachine_compiled
  have hanswer : (exactPath.descend [0, 0]).map (·.completed) = some true := by decide +kernel
  obtain ⟨s, hs, hcompleted⟩ := Option.map_eq_some_iff.1 hanswer
  have hbuilds : (ProofGraph.build .cachingId exactPath ∅).toOption.isSome = true := by decide +kernel
  obtain ⟨⟨g, table⟩, hg⟩ := Option.isSome_iff_exists.1 hbuilds
  replace hg := Machine.eq_ok_of_toOption hg
  have hnobody : ∀ n, Audience.absent ≠ .present (some n) := nofun
  obtain ⟨hppr, hdfs⟩ := bounded_provers_find (c := pathDepth) hcompiled hg ∅
    (exponential_favours exactPath) rfl hnobody
  refine ⟨hcompiled, exponential_favours _, rfl, ⟨2, le_rfl, s, Machine.reachableIn_of_descend hs, hcompleted, ?_⟩,
    g, table, hg, hppr, hdfs⟩
  rw [edgeForm, hs]
  rfl

end ProofWalk
