import ProofWalk.Code.Program
/-!
# Proofs.CodeShape — what compiled code looks like from each address on

A clause opens with its comment and its register file, matches its head, reports its features, and calls the goals
of its body.  `Fits` says that the code from some address on goes on in this way: which registers have been met,
which is also which registers are set, and how many cells on top of the heap are at hand, so that every offset and
every call finds its cells.

It is a relation on what is left of the code, one case for each instruction that may come next.  A step of the
machine takes the code from one address to the code from the next (`codeFrom_next`), so an invariant of runs can
carry `Fits` along without knowing which clause it is in.  `QueryProgram.Fitting` says it of every clause and of the
query.
-/
namespace ProofWalk

namespace QueryProgram

def codeFrom (q : QueryProgram) (pc : Nat) : List Instruction := (q.program.code ++ q.code).toList.drop pc

theorem fetch_eq (q : QueryProgram) (pc : Nat) : q.fetch pc = (q.codeFrom pc).head? := by
  rw [codeFrom, List.head?_drop, Array.getElem?_toList, fetch, entry, Program.size]
  split
  · rename_i h
    rw [Array.getElem?_append_left h]
  · rename_i h
    rw [Array.getElem?_append_right (Nat.le_of_not_lt h)]

theorem fetch_of_codeFrom {q : QueryProgram} {pc : Nat} {i : Instruction} {code : List Instruction}
    (h : q.codeFrom pc = i :: code) : q.fetch pc = some i := by
  rw [fetch_eq, h]
  rfl

theorem codeFrom_next {q : QueryProgram} {pc : Nat} {i : Instruction} {code : List Instruction}
    (h : q.codeFrom pc = i :: code) (hne : code ≠ []) : q.codeFrom (q.next pc) = code ∧ q.next pc = pc + 1 := by
  have htail : q.codeFrom (pc + 1) = code := by
    have := congrArg List.tail h
    rwa [codeFrom, List.tail_drop] at this
  have hlt : pc + 1 < q.size := Nat.lt_of_not_le fun hle => hne <| by
    rw [← htail, codeFrom]
    refine List.drop_eq_nil_of_le ?_
    rw [Array.length_toList, Array.size_append]
    exact hle
  have hnext : q.next pc = pc + 1 := if_pos hlt
  exact ⟨hnext ▸ htail, hnext⟩

end QueryProgram

inductive Stage
  | opening
  | allocating
  | head
  | features
  | body
deriving DecidableEq, Inhabited, Repr

def Stage.allocated : Stage → Bool
  | opening => false
  | allocating => false
  | _ => true

/-- **Code that fits a clause of `size` registers from some point on**, where the first `met` registers are set and
`hand` cells lie at hand on top of the heap. -/
inductive Fits (size : Nat) : Stage → Nat → Nat → List Instruction → Prop
  | comment {text : String} {hand : Nat} {code : List Instruction} (h : Fits size .allocating 0 hand code) :
      Fits size .opening 0 hand (.comment text :: code)
  | allocateRule {names : List String} {hand : Nat} {code : List Instruction} (h : Fits size .head 0 hand code) :
      Fits size .allocating 0 hand (.allocate size names :: code)
  | allocateQuery {names : List String} {code : List Instruction} (h : Fits size .body 0 0 code) :
      Fits size .allocating 0 0 (.allocate size names :: code)
  | initFreeVar {met hand : Nat} {offset : Int} {code : List Instruction}
      (hlow : -(hand : Int) ≤ offset) (hhigh : offset < 0)
      (hmet : met < size) (h : Fits size .head (met + 1) hand code) :
      Fits size .head met hand (.initFreeVar met offset :: code)
  | unifyConst {met hand constant : Nat} {offset : Int} {code : List Instruction} (hlow : -(hand : Int) ≤ offset)
      (hhigh : offset < 0) (h : Fits size .head met hand code) :
      Fits size .head met hand (.unifyConst constant offset :: code)
  | unifyBoundVar {met hand register : Nat} {offset : Int} {code : List Instruction}
      (hlow : -(hand : Int) ≤ offset)
      (hhigh : offset < 0) (hregister : register < met) (h : Fits size .head met hand code) :
      Fits size .head met hand (.unifyBoundVar register offset :: code)
  | clearFeatures {met hand : Nat} {code : List Instruction} (h : Fits size .features met hand code) :
      Fits size .head met hand (.clearFeatures :: code)
  | startFeature {met hand : Nat} {functor : String} {arity : Nat} {code : List Instruction}
      (h : Fits size .features met hand code) :
      Fits size .features met hand (.startFeature functor arity :: code)
  | featureConst {met hand constant : Nat} {code : List Instruction} (h : Fits size .features met hand code) :
      Fits size .features met hand (.featureConst constant :: code)
  | featureVar {met hand register : Nat} {code : List Instruction} (hregister : register < met)
      (h : Fits size .features met hand code) :
      Fits size .features met hand (.featureVar register :: code)
  | reportFeatures {met hand : Nat} {code : List Instruction} (h : Fits size .body met 0 code) :
      Fits size .features met hand (.reportFeatures :: code)
  | pushConst {met hand constant : Nat} {code : List Instruction} (h : Fits size .body met (hand + 1) code) :
      Fits size .body met hand (.pushConst constant :: code)
  | pushFreeVar {met hand : Nat} {code : List Instruction} (hmet : met < size)
      (h : Fits size .body (met + 1) (hand + 1) code) :
      Fits size .body met hand (.pushFreeVar met :: code)
  | pushBoundVar {met hand register : Nat} {code : List Instruction} (hregister : register < met)
      (h : Fits size .body met (hand + 1) code) :
      Fits size .body met hand (.pushBoundVar register :: code)
  | call {met : Nat} {label : Label} {code : List Instruction} (h : Fits size .body met 0 code) :
      Fits size .body met label.arity (.call label :: code)
  | proceed {code : List Instruction} : Fits size .body size 0 (.proceed :: code)

namespace Fits

theorem ne_nil {size met hand : Nat} {stage : Stage} {code : List Instruction}
    (h : Fits size stage met hand code) : code ≠ [] := by
  cases h <;> exact List.cons_ne_nil _ _

end Fits

/-- **A query program in which every clause and the query fit.** -/
structure QueryProgram.Fitting (q : QueryProgram) : Prop where
  clauses : ∀ label, ∀ address ∈ q.clauses label, ∃ size, Fits size .opening 0 label.arity (q.codeFrom address)
  entry : Fits q.names.length .opening 0 0 (q.codeFrom q.entry)

end ProofWalk
