import ProofWalk.Clause.Label
/-!
# Machine.Form — canonical forms and their digests

A canonical form is a list of tokens.  With it goes a digest, a word computed from the tokens, so that forms with
different digests are told apart at once.  The digest adds nothing to a form: forms with the same tokens are equal.
Forms are ordered by digest first, and only forms of one digest by their tokens.

Tokens are ordered by rank: their kind, a number and a name.  A digest reads the codes of the tokens as the digits
of a number and cuts it to a word; names contribute nothing to it, because an address or a count beside them tells
as much.
-/
namespace ProofWalk

/-- **One token of a canonical form.** -/
inductive Mark
  /-- A word that tells what follows. -/
  | word (text : String)
  | number (n : Nat)
  | const (c : Nat)
  /-- An unbound variable, by its rank. -/
  | var (rank : Nat)
  | unset
  | label (l : Option Label)
deriving DecidableEq, Inhabited, Repr

namespace Mark

def text : Mark → String
  | word t => t
  | number n => toString n
  | const c => s!"c{c}"
  | var v => s!"_{v}"
  | unset => "?"
  | label (some l) => l.text
  | label none => "-"

def rank : Mark → Nat × Nat × String
  | word t => (0, 0, t)
  | number n => (1, n, "")
  | const c => (2, c, "")
  | var v => (3, v, "")
  | unset => (4, 0, "")
  | label (some l) => (5, l.arity, l.functor)
  | label none => (6, 0, "")

theorem rank_injective {a b : Mark} (h : a.rank = b.rank) : a = b := by
  rcases a with _ | _ | _ | _ | _ | (_ | ⟨_, _⟩) <;> rcases b with _ | _ | _ | _ | _ | (_ | ⟨_, _⟩) <;>
    simp_all [rank]

instance : Ord Mark where
  compare := compareLex (compareOn (·.rank.1)) (compareLex (compareOn (·.rank.2.1)) (compareOn (·.rank.2.2)))

instance : Std.TransOrd Mark := inferInstanceAs (Std.TransCmp (compareLex _ (compareLex _ _)))

instance : Std.LawfulEqOrd Mark where
  compare_self := Std.ReflCmp.compare_self
  eq_of_compare h := by
    obtain ⟨hkind, h⟩ := compareLex_eq_eq.1 h
    obtain ⟨hnumber, hname⟩ := compareLex_eq_eq.1 h
    exact rank_injective (Prod.ext (Std.LawfulEqOrd.eq_of_compare hkind)
      (Prod.ext (Std.LawfulEqOrd.eq_of_compare hnumber) (Std.LawfulEqOrd.eq_of_compare hname)))

def code : Mark → UInt64
  | word _ => 1
  | number n => 8 * n.toUInt64 + 2
  | const c => 8 * c.toUInt64 + 3
  | var v => 8 * v.toUInt64 + 4
  | unset => 5
  | label (some l) => 8 * l.arity.toUInt64 + 6
  | label none => 7

/-- **The digest of some tokens**: their codes as the digits of a number, cut to a word. -/
def digest (marks : List Mark) : UInt64 := marks.foldl (fun d m => 6364136223846793005 * d + m.code) 0

end Mark

structure Form where
  marks : List Mark
  digest : UInt64
  digest_eq : digest = Mark.digest marks

namespace Form

def of (marks : List Mark) : Form := ⟨marks, Mark.digest marks, rfl⟩

@[ext] theorem ext {f g : Form} (h : f.marks = g.marks) : f = g := by
  obtain ⟨_, _, rfl⟩ := f
  obtain ⟨_, _, rfl⟩ := g
  cases h
  rfl

/-- Tokens are compared only where the digests agree. -/
instance : DecidableEq Form := fun f g =>
  if hd : f.digest = g.digest then
    if hm : f.marks = g.marks then isTrue (ext hm) else isFalse fun h => hm (h ▸ rfl)
  else isFalse fun h => hd (h ▸ rfl)

instance : Inhabited Form := ⟨of []⟩

/-- Forms are ordered by digest, then by tokens. -/
instance : Ord Form where
  compare := compareLex (compareOn digest) (compareOn marks)

instance : Std.TransOrd Form := inferInstanceAs (Std.TransCmp (compareLex _ _))

instance : Std.LawfulEqOrd Form where
  compare_self := Std.ReflCmp.compare_self
  eq_of_compare h := ext (Std.LawfulEqCmp.eq_of_compare (compareLex_eq_eq.1 h).2)

def text (f : Form) : String := Text.join " " (f.marks.map Mark.text)

@[simp] theorem marks_of (marks : List Mark) : (of marks).marks = marks := rfl

theorem of_marks (f : Form) : of f.marks = f := ext rfl

end Form

end ProofWalk
