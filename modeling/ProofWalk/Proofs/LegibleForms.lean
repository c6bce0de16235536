import ProofWalk.Proofs.CanonicalForm
import ProofWalk.Proofs.SeparatedTexts
import Std.Data.String.ToNat
/-!
# Proofs.LegibleForms — canonical forms can be read from their texts

The text of a canonical form has its tokens with blanks between them.  A token can be read from its text: a label by
its slash, which stands in no other token, and the others by the character that they begin with (`Mark.read_text`).
No token holds a blank unless it is a label whose functor does.  So states without such labels have the same tokens
if they have the same text, and comparing texts keeps them apart wherever digests fail to.
-/
namespace ProofWalk

namespace Mark

/-! ## Reading tokens

A reader of tokens is given and shown to undo their texts; the words of canonical forms are few and known.  That the
texts of legible tokens are different is then a consequence, with no comparison of one kind of token with another. -/

def value (digits : List Char) : Nat := Nat.ofDigitChars 10 digits 0

def readLabel (cs : List Char) : Label :=
  ⟨String.ofList (cs.reverse.dropWhile (· != '/')).tail.reverse, value (cs.reverse.takeWhile (· != '/')).reverse⟩

def read (t : String) : Mark :=
  if '/' ∈ t.toList then .label (some (readLabel t.toList))
  else if t.toList.head?.any Char.isDigit then .number (value t.toList)
  else
    match t.toList with
    | 'c' :: digits => .const (value digits)
    | '_' :: digits => .var (value digits)
    | ['?'] => .unset
    | ['-'] => .label none
    | _ => .word t

def words : List String := ["done", "failed", "pc", "args", "regs", "frame"]

/-- **A token that can be read from its text** and has no blank in it. -/
def Legible : Mark → Prop
  | word t => t ∈ words
  | label (some l) => Lacks ' ' l.functor
  | _ => True

theorem value_toDigits (n : Nat) : value (Nat.toDigits 10 n) = n :=
  Nat.ofDigitChars_toDigits (by decide) (by decide)

theorem toList_number (n : Nat) : (toString n).toList = Nat.toDigits 10 n := Nat.toList_repr

theorem readLabel_text (l : Label) : readLabel l.text.toList = l := by
  have hdigits : ∀ c ∈ (Nat.toDigits 10 l.arity).reverse, (c != '/') = true := fun c hc =>
    bne_iff_ne.2 fun hslash => Lacks.number (c := '/') rfl l.arity
      (by rw [toList_number, ← hslash]; exact List.mem_reverse.1 hc)
  have hbackwards : l.text.toList.reverse = (Nat.toDigits 10 l.arity).reverse ++ '/' ::
      l.functor.toList.reverse := by
    rw [Label.text, String.toList_append, String.toList_append, toList_number]
    simp
  rw [readLabel, hbackwards, List.dropWhile_append_of_pos hdigits, List.takeWhile_append_of_pos hdigits]
  simp [value_toDigits]

theorem toList_const (c : Nat) : (const c).text.toList = 'c' :: Nat.toDigits 10 c := by
  rw [text, String.toList_append, ← toList_number]
  rfl

theorem toList_var (v : Nat) : (var v).text.toList = '_' :: Nat.toDigits 10 v := by
  rw [text, String.toList_append, ← toList_number]
  rfl

theorem slash_notMem_toDigits (n : Nat) : '/' ∉ Nat.toDigits 10 n := toList_number n ▸ Lacks.number rfl n

/-- **Reading a token undoes writing it.** -/
theorem read_text {m : Mark} (h : m.Legible) : read m.text = m := by
  cases m with
  | word t =>
    have hall : ∀ t ∈ words, read t = word t := by decide
    exact hall t h
  | number n =>
    obtain ⟨c, rest, hdigits⟩ := List.exists_cons_of_ne_nil (Nat.toDigits_ne_nil (n := n) (b := 10))
    have hfirst : c.isDigit = true := Nat.isDigit_of_mem_toDigits (by decide) (by decide)
      (hdigits ▸ List.mem_cons_self)
    rw [text, read, toList_number, if_neg (slash_notMem_toDigits n),
      if_pos (by rw [hdigits]; exact hfirst), value_toDigits]
  | const c =>
    have hslash : '/' ∉ 'c' :: Nat.toDigits 10 c :=
      List.not_mem_cons_of_ne_of_not_mem (by decide) (slash_notMem_toDigits c)
    rw [read, toList_const, if_neg hslash]
    exact congrArg const (value_toDigits c)
  | var v =>
    have hslash : '/' ∉ '_' :: Nat.toDigits 10 v :=
      List.not_mem_cons_of_ne_of_not_mem (by decide) (slash_notMem_toDigits v)
    rw [read, toList_var, if_neg hslash]
    exact congrArg var (value_toDigits v)
  | unset => rfl
  | label l =>
    cases l with
    | none => rfl
    | some l =>
      have hslash : '/' ∈ l.text.toList := by simp [Label.text]
      rw [text, read, if_pos hslash, readLabel_text]

theorem lacks_blank {m : Mark} (h : m.Legible) : Lacks ' ' m.text := by
  have hnumber (n : Nat) : Lacks ' ' (toString n) := .number rfl n
  have hdigits (n : Nat) : ' ' ∉ Nat.toDigits 10 n := toList_number n ▸ hnumber n
  cases m with
  | word t =>
    have hall : ∀ t ∈ words, Lacks ' ' t := by decide
    exact hall t h
  | number n => exact hnumber n
  | const c =>
    rw [Lacks, toList_const]
    exact List.not_mem_cons_of_ne_of_not_mem (by decide) (hdigits c)
  | var v =>
    rw [Lacks, toList_var]
    exact List.not_mem_cons_of_ne_of_not_mem (by decide) (hdigits v)
  | unset => exact (by decide : Lacks ' ' "?")
  | label l =>
    cases l with
    | none => exact (by decide : Lacks ' ' "-")
    | some l =>
      have hslash : Lacks ' ' "/" := by decide
      exact (Lacks.append h hslash).append (hnumber l.arity)

theorem eq_of_text_eq {ms ns : List Mark} (hms : ∀ m ∈ ms, m.Legible) (hns : ∀ n ∈ ns, n.Legible)
    (hm : ms ≠ []) (hn : ns ≠ []) (h : (Form.of ms).text = (Form.of ns).text) : ms = ns := by
  have htexts : ms.map text = ns.map text :=
    Text.join_inj rfl (List.forall_mem_map.2 fun m hm => lacks_blank (hms m hm))
      (List.forall_mem_map.2 fun n hn => lacks_blank (hns n hn)) (by simpa using hm) (by simpa using hn) h
  refine eq_of_map_eq (fun m hm n hn heq => ?_) htexts
  rw [← read_text (hms m hm), heq, read_text (hns n hn)]

end Mark

/-! ## States

The labels of a state are that of the call and those of its callers, and every other token is legible as it is. -/

namespace State

def labels (s : State) : List Label := s.jumpTo.toList ++ s.stack.filterMap (·.caller)

/-- **A state without a blank in the functor of any label.** -/
def Legible (s : State) : Prop := ∀ l ∈ s.labels, Lacks ' ' l.functor

instance (s : State) : Decidable s.Legible := inferInstanceAs (Decidable (∀ l ∈ s.labels, Lacks ' ' l.functor))

theorem legible_tokenOf {h : Heap} {met : Numbering} {item : Item} (hitem : ∀ m, item = .mark m → m.Legible) :
    (tokenOf h met item).Legible := by
  rcases item with m | (_ | i)
  · exact hitem m rfl
  · exact trivial
  · rw [tokenOf]
    split <;> exact trivial

theorem mark_mem_outlineRegisters {m : Mark} {registers : Registers} :
    .mark m ∈ outlineRegisters registers ↔ m = .number registers.length := by simp [outlineRegisters]

theorem mark_mem_outlineFrame {m : Mark} {f : Frame} : .mark m ∈ outlineFrame f ↔
    m = .word "frame" ∨ m = .number f.returnTo ∨ m = .label f.caller ∨ m = .number f.registers.length := by
  simp [outlineFrame, mark_mem_outlineRegisters]

theorem jumpTo_mem_labels {s : State} : ∀ l ∈ s.jumpTo, l ∈ s.labels := fun _ hl =>
  List.mem_append_left _ (Option.mem_toList.2 hl)

theorem caller_mem_labels {s : State} {f : Frame} (hf : f ∈ s.stack) : ∀ l ∈ f.caller, l ∈ s.labels := fun _ hl =>
  List.mem_append_right _ (List.mem_filterMap.2 ⟨f, hf, hl⟩)

theorem of_mark_mem_outline {s : State} {m : Mark} (h : .mark m ∈ s.outline) :
    (∃ t ∈ Mark.words, m = .word t) ∨ (∃ n, m = .number n) ∨ ∃ l, m = .label l ∧ ∀ l' ∈ l, l' ∈ s.labels := by
  have hword {t : String} (ht : t ∈ Mark.words) (hm : m = .word t) : ∃ t ∈ Mark.words, m = .word t := ⟨t, ht, hm⟩
  unfold outline at h
  split at h
  · rcases List.mem_cons.1 h with hm | hm
    · exact .inl (hword (by decide) (Item.mark.inj hm))
    · exact .inr (.inl ⟨_, mark_mem_outlineRegisters.1 hm⟩)
  · split at h
    · exact .inl (hword (by decide) (Item.mark.inj (List.mem_singleton.1 h)))
    · simp only [List.mem_append, List.mem_cons, List.mem_map, List.mem_flatMap,
        List.not_mem_nil, reduceCtorEq, and_false,
        exists_false, or_false, Item.mark.injEq, mark_mem_outlineRegisters, mark_mem_outlineFrame] at h
      obtain ((hm | hm | hm | hm) | hm | hm) | ⟨f, hf, hm | hm | hm | hm⟩ := h
      · exact .inl (hword (by decide) hm)
      · exact .inr (.inl ⟨_, hm⟩)
      · exact .inr (.inr ⟨_, hm, jumpTo_mem_labels⟩)
      · exact .inl (hword (by decide) hm)
      · exact .inl (hword (by decide) hm)
      · exact .inr (.inl ⟨_, hm⟩)
      · exact .inl (hword (by decide) hm)
      · exact .inr (.inl ⟨_, hm⟩)
      · exact .inr (.inr ⟨_, hm, caller_mem_labels hf⟩)
      · exact .inr (.inl ⟨_, hm⟩)

theorem Legible.canonical {s : State} (h : s.Legible) : ∀ m ∈ s.canonical, m.Legible := by
  rw [canonical_eq_map]
  refine List.forall_mem_map.2 fun item hitem => legible_tokenOf fun m hm => ?_
  subst hm
  obtain ⟨t, ht, rfl⟩ | ⟨n, rfl⟩ | ⟨_ | l, rfl, hl⟩ := of_mark_mem_outline hitem
  · exact ht
  · exact trivial
  · exact trivial
  · exact h l (hl l rfl)

theorem canonical_ne_nil (s : State) : s.canonical ≠ [] := fun hnil => by
  have hhead := head?_canonical s
  rw [hnil] at hhead
  cases hhead

end State

/-! ## Comparing states

States pass for one if the digests of their tokens are equal and so are their texts.  The digest may be any
function. -/

/-- **Whether two states pass for one**: what digests their tokens gives the same for both, and their texts are the
same. -/
def Frozen.Passes {D : Type} (digest : List Mark → D) (f g : Frozen) : Prop :=
  digest f.form.marks = digest g.form.marks ∧ f.text = g.text

/-- **A text stands for the tokens of a state.**  Let there be no blank in the functor of any label.  Then states
with the same text have the same tokens; and whatever digest is compared first, even one that is the same for all,
only states with one form pass for one. -/
theorem State.text_determines_tokens {s t : State} (hs : s.Legible) (ht : t.Legible) :
    ((Frozen.of s).text = (Frozen.of t).text → s.canonical = t.canonical) ∧
      ∀ {D : Type} (digest : List Mark → D),
        (Frozen.of s).Passes digest (Frozen.of t) ↔ (Frozen.of s).form = (Frozen.of t).form := by
  have hinj : (Frozen.of s).text = (Frozen.of t).text → s.canonical = t.canonical :=
    Mark.eq_of_text_eq hs.canonical ht.canonical s.canonical_ne_nil t.canonical_ne_nil
  refine ⟨hinj, fun digest => ⟨fun ⟨_, htext⟩ => Frozen.form_eq_form_iff.2 (hinj htext), fun hform => ⟨?_, ?_⟩⟩⟩
  · rw [hform]
  · exact congrArg Form.text hform

/-- Two layouts of one state: in the second, the heap has a cell before the variable and the other reference to it. -/
theorem State.text_determines_tokens_layouts :
    let s : State :=
      ⟨#[.ref 0, .ref 0, .const 4], [some 0, none], [⟨7, [some 0], some ⟨"q", 1⟩⟩], 3,
        some ⟨"p/a", 2⟩, false, false⟩
    let t : State :=
      ⟨#[.const 8, .ref 1, .ref 1, .const 4], [some 2, none], [⟨7, [some 1], some ⟨"q", 1⟩⟩], 3,
        some ⟨"p/a", 2⟩, false, false⟩
    s.Legible ∧ t.Legible ∧ s ≠ t ∧ (Frozen.of s).text = (Frozen.of t).text ∧ s.canonical = t.canonical ∧
      (Frozen.of s).Passes (fun _ => ()) (Frozen.of t) := by
  intro s t
  have hs : s.Legible := by decide
  have ht : t.Legible := by decide
  have htext : (Frozen.of s).text = (Frozen.of t).text := by decide +kernel
  have hsame := State.text_determines_tokens hs ht
  exact ⟨hs, ht, by decide, htext, hsame.1 htext, (hsame.2 _).2 (Frozen.form_eq_form_iff.2 (hsame.1 htext))⟩

/-- With blanks, one caller can look like two. -/
example :
    let s : State := ⟨#[], [], [⟨2, [], some ⟨"q/0 0 frame 3 r", 0⟩⟩], 1, none, false, false⟩
    let t : State := ⟨#[], [], [⟨2, [], some ⟨"q", 0⟩⟩, ⟨3, [], some ⟨"r", 0⟩⟩], 1, none, false, false⟩
    (Frozen.of s).text = (Frozen.of t).text ∧ s.canonical ≠ t.canonical := by decide +kernel

end ProofWalk
