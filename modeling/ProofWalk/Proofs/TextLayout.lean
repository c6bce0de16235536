import Mathlib.Data.List.Induction
import Mathlib.Data.List.TakeWhile
import ProofWalk.Proofs.WrittenForms
/-!
# Proofs.TextLayout — scanning neither loses nor moves text

A text is laid out in pieces, each a gap and the token behind it (`Laid`).  A gap is white space and comments; a
name ends only where no name goes on, and a quoted atom at the next quote.  Every text is laid out up to its end, or
up to a place where it is stuck (`exists_layout`), and scanning follows the layout (`scanFrom_of_laid`): it finds
the tokens of the pieces, each at the place where its characters stand, or stops with the fault of the character at
which the text is stuck.
-/
namespace ProofWalk

/-- **The place behind some characters**: one more than the lines that end among them, and one more than the
characters since the last of these ends. -/
def Position.behind (before : List Char) : Position :=
  ⟨1 + before.count '\n', 1 + (before.reverse.takeWhile (· != '\n')).length⟩

theorem Position.after_start (before : List Char) : Position.start.after before = .behind before := by
  induction before using List.reverseRecOn with
  | nil => rfl
  | append_singleton before c ih =>
    rw [after_append, ih, after_cons, after_nil, next, behind, behind]
    by_cases hc : c = '\n'
    · subst hc
      simp [Nat.add_assoc]
    · have hcount : [c].count '\n' = 0 := List.count_singleton.trans (by simp [hc])
      simp [hc, hcount]
      omega

theorem Position.after_behind (before cs : List Char) : (behind before).after cs = .behind (before ++ cs) := by
  rw [← after_start, ← after_start, after_append]

namespace Token

open Grammar (EndsName isBlank_of_isNameChar startsComment_of_isNameChar)

/-! ## Gaps and tokens

These relations say what a token is in terms of the characters before and behind it, without a scanner.  That a name
is as long as it can be is part of `Stands`: no name goes on behind it. -/

/-- **A gap before the rest of a text**: blanks, and comments that run up to the end of a line or of the text. -/
inductive Gap : List Char → List Char → Prop
  | none {after : List Char} : Gap [] after
  | blank {c : Char} {gap after : List Char} (hc : Text.isBlank c = true) (h : Gap gap after) :
      Gap (c :: gap) after
  | comment {c : Char} {body gap after : List Char} (hc : startsComment c = true) (hbody : '\n' ∉ body)
    (hend : gap ++ after = [] ∨ (gap ++ after).head? = some '\n') (h : Gap gap after) :
      Gap (c :: body ++ gap) after

/-- **Whether a name goes on with a text**: with a name character, or with a period that a name character follows. -/
def GoesOn (cs : List Char) : Prop := ∃ c rest, isNameChar c = true ∧ (cs = c :: rest ∨ cs = '.' :: c :: rest)

inductive Stands : Token → List Char → Prop
  | name {text : String} {after : List Char} (htext : IsPlain text) (hend : ¬GoesOn after) :
    Stands (.name text) after
  | quoted {text : String} {after : List Char} (htext : '\'' ∉ text.toList) : Stands (.quoted text) after
  | mark {t : Token} {after : List Char} (ht : t ∈
    [leftParen, rightParen, leftBrace, rightBrace, comma, neck, period]) : Stands t after

/-- **Where a text cannot be read on**: at a quote without another, or at a character that is no gap and starts no
token. -/
inductive Stuck : Char → List Char → SyntaxFault → Prop
  | quote {rest : List Char} (hopen : '\'' ∉ rest) : Stuck '\'' rest .unterminatedQuote
  | character {c : Char} {rest : List Char} (hquote : c ≠ '\'') (hblank : Text.isBlank c = false)
    (hcomment : startsComment c = false) (hnone : ∀ t after, Stands t after → t.chars ++ after ≠ c :: rest) :
    Stuck c rest (.unexpectedCharacter c)

/-! ## Names

A period belongs to a name only if a name character follows. -/

theorem endsName_iff {cs : List Char} : EndsName cs ↔ ¬GoesOn cs := by
  constructor
  · rintro h ⟨c, rest, hc, rfl | rfl⟩
    · simp [EndsName, spanName, hc] at h
    · simp [EndsName, spanName, nameFollows, hc] at h
  · intro h
    cases cs with
    | nil => rfl
    | cons c rest =>
      have hc : isNameChar c = false := Bool.eq_false_iff.2 fun hc => h ⟨c, rest, hc, .inl rfl⟩
      by_cases hperiod : c = '.'
      · subst hperiod
        have hfollows : nameFollows rest = false := by
          cases rest with
          | nil => rfl
          | cons d more => exact Bool.eq_false_iff.2 fun hd => h ⟨d, more, hd, .inr rfl⟩
        simp [EndsName, spanName, hc, hfollows]
      · exact Grammar.endsName_cons hc hperiod rest

theorem endsName_spanName (cs : List Char) : EndsName (spanName cs).2 := by
  induction cs with
  | nil => rfl
  | cons c rest ih =>
    by_cases hgoes : (isNameChar c || (c == '.' && nameFollows rest)) = true
    · rw [spanName, if_pos hgoes]
      exact ih
    · rw [spanName, if_neg hgoes, EndsName, spanName, if_neg hgoes]

theorem head?_spanName {cs : List Char} (h : nameFollows cs = true) :
    ∃ c, (spanName cs).1.head? = some c ∧ isNameChar c = true := by
  cases cs with
  | nil => cases h
  | cons c rest =>
    have hc : isNameChar c = true := h
    exact ⟨c, by simp [spanName, hc], hc⟩

/-- **What is read as a name** has periods only where a name character follows them. -/
theorem spanName_word (cs : List Char) : (∀ c ∈ (spanName cs).1, isNameChar c = true ∨ c = '.') ∧
    (spanName cs).1.getLast? ≠ some '.' ∧ ('.', '.') ∉ (spanName cs).1.zip (spanName cs).1.tail := by
  have hperiod : isNameChar '.' = false := by decide
  induction cs with
  | nil => simp [spanName]
  | cons c rest ih =>
    obtain ⟨hchars, hlast, hapart⟩ := ih
    by_cases hgoes : (isNameChar c || (c == '.' && nameFollows rest)) = true
    · have hword : (spanName (c :: rest)).1 = c :: (spanName rest).1 := by rw [spanName, if_pos hgoes]
      have hc : isNameChar c = true ∨ c = '.' ∧ nameFollows rest = true := by simpa using hgoes
      have hnext : c = '.' → ∃ d, (spanName rest).1.head? = some d ∧ isNameChar d = true := by
        rintro rfl
        exact head?_spanName (hc.resolve_left (by simp [hperiod])).2
      rw [hword]
      refine ⟨List.forall_mem_cons.2 ⟨hc.imp_right And.left, hchars⟩, fun hend => ?_, fun hpair => ?_⟩
      · rw [List.getLast?_cons] at hend
        cases hrest : (spanName rest).1.getLast? with
        | none =>
          rw [hrest] at hend
          obtain ⟨d, hd, -⟩ := hnext (Option.some.inj hend)
          rw [List.getLast?_eq_none_iff.1 hrest] at hd
          cases hd
        | some d =>
          rw [hrest] at hend
          exact hlast (hrest.trans hend)
      · rw [List.tail_cons] at hpair
        cases hrest : (spanName rest).1 with
        | nil => rw [hrest] at hpair; cases hpair
        | cons d more =>
          rw [hrest, List.zip_cons_cons, List.mem_cons] at hpair
          rcases hpair with heq | hmore
          · obtain ⟨rfl, rfl⟩ := Prod.mk.inj heq
            obtain ⟨e, he, hname⟩ := hnext rfl
            rw [hrest, List.head?_cons, Option.some.injEq] at he
            rw [← he, hperiod] at hname
            cases hname
          · exact hapart (by rw [hrest]; exact hmore)
    · have hword : (spanName (c :: rest)).1 = [] := by rw [spanName, if_neg hgoes]
      simp [hword]

theorem stands_spanName {c : Char} (hc : isNameChar c = true) (rest : List Char) :
    Stands (.name (String.ofList (spanName (c :: rest)).1)) (spanName (c :: rest)).2 := by
  obtain ⟨hchars, hlast, hapart⟩ := spanName_word (c :: rest)
  have hword : (spanName (c :: rest)).1 = c :: (spanName rest).1 := by simp [spanName, hc]
  have hlist := String.toList_ofList (l := (spanName (c :: rest)).1)
  refine .name ⟨fun hempty => ?_, by rwa [hlist], fun hfirst => ?_, by rwa [hlist], by rwa [hlist]⟩
    (endsName_iff.1 (endsName_spanName _))
  · rw [hempty, hword] at hlist
    cases hlist
  · rw [hlist, hword, List.head?_cons, Option.some.injEq] at hfirst
    rw [hfirst] at hc
    exact absurd hc (by decide)

/-! ## The token at the front

What the scanner finds at the front of a text is what stands there, and the other way round. -/

/-- **A token that stands at the front of a text is found there.** -/
theorem front_of_stands {t : Token} {after : List Char} (h : Stands t after) :
    front (t.chars ++ after) = .ok (t, after) := by
  cases h with
  | name htext hend => exact Grammar.front_plain htext (endsName_iff.2 hend)
  | @quoted text _ htext =>
    have hbody : ∀ c ∈ text.toList, (c != '\'') = true := fun c hc => bne_iff_ne.2 fun he => htext (he ▸ hc)
    have hdrop : (text.toList ++ '\'' :: after).dropWhile (· != '\'') = '\'' :: after := by
      rw [List.dropWhile_append_of_pos hbody]
      rfl
    have htake : (text.toList ++ '\'' :: after).takeWhile (· != '\'') = text.toList := by
      rw [List.takeWhile_append_of_pos hbody]
      simp
    have hchars : (quoted text).chars ++ after = '\'' :: (text.toList ++ '\'' :: after) := by simp [chars]
    rw [hchars, front, hdrop, htake, String.ofList_toList]
  | mark ht =>
    simp only [List.mem_cons, List.not_mem_nil, or_false] at ht
    rcases ht with rfl | rfl | rfl | rfl | rfl | rfl | rfl
    all_goals rfl

/-- **What is found at the front of a text stands there.** -/
theorem stands_of_front {cs after : List Char} {t : Token} (h : front cs = .ok (t, after)) : Stands t after := by
  unfold front at h
  split at h
  case h_1 => cases h
  case h_8 rest =>
    split at h
    · cases h
    · cases h
      refine .quoted fun hquote => ?_
      rw [String.toList_ofList] at hquote
      simpa using List.mem_takeWhile_imp hquote
  case h_9 c rest _ _ _ _ _ _ _ =>
    split at h
    · rename_i hc
      cases h
      exact stands_spanName hc rest
    · split at h <;> cases h
      exact .mark (by decide)
  all_goals
    cases h
    exact .mark (by decide)

theorem fault_of_front {c : Char} {rest : List Char} {fault : SyntaxFault} (h : front (c :: rest) = .error fault) :
    c = '\'' ∧ '\'' ∉ rest ∧ fault = .unterminatedQuote ∨ c ≠ '\'' ∧ fault = .unexpectedCharacter c := by
  unfold front at h
  split at h
  case h_1 heq => cases heq
  case h_8 heq =>
    cases heq
    split at h
    · rename_i hdrop
      cases h
      refine .inl ⟨rfl, fun hquote => ?_, rfl⟩
      simpa using List.dropWhile_eq_nil_iff.1 hdrop _ hquote
    · cases h
  case h_9 hquote heq =>
    cases heq
    refine .inr ⟨fun hc => hquote hc, ?_⟩
    split at h
    · cases h
    · split at h <;> cases h
      rfl
  all_goals cases h

/-- **A text that is stuck has no token at its front**, and its first character is at fault. -/
theorem Stuck.front {c : Char} {rest : List Char} {fault : SyntaxFault} (h : Stuck c rest fault) :
    Token.front (c :: rest) = .error fault := by
  cases hfront : Token.front (c :: rest) with
  | ok found =>
    obtain ⟨t, after⟩ := found
    have htext := front_append hfront
    cases h with
    | quote hopen =>
      -- what stands behind an open quote could only be a quoted atom
      cases stands_of_front hfront with
      | name hname =>
        obtain ⟨d, more, hlist, hd⟩ := hname.exists_cons
        rw [chars, hlist, List.cons_append, List.cons.injEq] at htext
        rw [htext.1] at hd
        exact absurd hd (by decide)
      | quoted _ =>
        rw [chars, List.append_assoc, List.cons_append, List.cons.injEq] at htext
        exact absurd (htext.2 ▸ by simp) hopen
      | mark ht =>
        simp only [List.mem_cons, List.not_mem_nil, or_false] at ht
        rcases ht with rfl | rfl | rfl | rfl | rfl | rfl | rfl
        all_goals exact absurd (List.cons.inj htext).1 (by decide)
    | character _ _ _ hnone => exact absurd htext (hnone t after (stands_of_front hfront))
  | error fault' =>
    rcases fault_of_front hfront with ⟨rfl, -, rfl⟩ | ⟨hquote, rfl⟩
    · cases h with
      | quote _ => rfl
      | character hquote => exact absurd rfl hquote
    · cases h with
      | quote _ => exact absurd rfl hquote
      | character => rfl

theorem Stuck.starts {c : Char} {rest : List Char} {fault : SyntaxFault} (h : Stuck c rest fault) :
    Text.isBlank c = false ∧ startsComment c = false := by
  cases h with
  | quote => decide
  | character _ hblank hcomment => exact ⟨hblank, hcomment⟩

theorem Stands.starts {t : Token} {after : List Char} (h : Stands t after) :
    ∃ c rest, t.chars = c :: rest ∧ Text.isBlank c = false ∧ startsComment c = false := by
  cases h with
  | name hname =>
    obtain ⟨c, rest, hlist, hc⟩ := hname.exists_cons
    exact ⟨c, rest, hlist, isBlank_of_isNameChar hc, startsComment_of_isNameChar hc⟩
  | quoted => exact ⟨_, _, rfl, by decide, by decide⟩
  | mark ht =>
    simp only [List.mem_cons, List.not_mem_nil, or_false] at ht
    rcases ht with rfl | rfl | rfl | rfl | rfl | rfl | rfl
    all_goals exact ⟨_, _, rfl, by decide, by decide⟩

/-! ## Scanning a piece

Positions are told by the characters that have been passed (`Position.behind`). -/

theorem scanFrom_blank {c : Char} (hc : Text.isBlank c = true) (p : Position) (cs : List Char) :
    scanFrom p (c :: cs) = scanFrom (p.next c) cs := by
  rw [scanFrom, if_pos hc]

theorem scanFrom_comment {c : Char} (hc : startsComment c = true) {body cs : List Char} (hbody : '\n' ∉ body)
    (hend : cs = [] ∨ cs.head? = some '\n') (p : Position) :
    scanFrom p (c :: body ++ cs) = scanFrom (p.after (c :: body)) cs := by
  have hblank : Text.isBlank c = false := by
    have hstarts : c = '%' ∨ c = '#' := by simpa [startsComment] using hc
    rcases hstarts with rfl | rfl <;> decide
  have hline : ∀ d ∈ body, (d != '\n') = true := fun d hd => bne_iff_ne.2 fun he => hbody (he ▸ hd)
  have hstop : cs.takeWhile (· != '\n') = [] ∧ cs.dropWhile (· != '\n') = cs := by
    cases cs with
    | nil => exact ⟨rfl, rfl⟩
    | cons d more =>
      obtain rfl : d = '\n' := by simpa using hend
      exact ⟨rfl, rfl⟩
  rw [List.cons_append, scanFrom, if_neg (by simp [hblank]), if_pos hc, List.takeWhile_append_of_pos hline,
    List.dropWhile_append_of_pos hline, hstop.1, hstop.2, List.append_nil]

theorem scanFrom_gap {gap after : List Char} (h : Gap gap after) (p : Position) :
    scanFrom p (gap ++ after) = scanFrom (p.after gap) after := by
  induction h generalizing p with
  | none => rfl
  | blank hc _ ih =>
    rw [List.cons_append, scanFrom_blank hc, ih]
    rfl
  | comment hc hbody hend _ ih =>
    rw [List.append_assoc, scanFrom_comment hc hbody hend, ih, Position.after_append]

/-- **A token that stands in a text is scanned**, at the place of its first character. -/
theorem scanFrom_token {t : Token} {after : List Char} (h : Stands t after) (p : Position) :
    scanFrom p (t.chars ++ after) = (scanFrom (p.after t.chars) after).map (⟨t, p⟩ :: ·) := by
  have hfront := front_of_stands h
  obtain ⟨c, rest, hchars, hblank, hcomment⟩ := h.starts
  rw [hchars, List.cons_append] at hfront ⊢
  rw [scanFrom, if_neg (by simp [hblank]), if_neg (by simp [hcomment])]
  split
  · rename_i hfault
    rw [hfront] at hfault
    cases hfault
  · rename_i hok
    rw [hfront] at hok
    cases hok
    rw [← hchars]
    cases scanFrom (p.after t.chars) after <;> rfl

theorem scanFrom_stuck {c : Char} {rest : List Char} {fault : SyntaxFault}
    (h : Stuck c rest fault) (p : Position) : scanFrom p (c :: rest) = .error (.malformed p fault) := by
  have hfront := h.front
  obtain ⟨hblank, hcomment⟩ := h.starts
  rw [scanFrom, if_neg (by simp [hblank]), if_neg (by simp [hcomment])]
  split
  · rename_i hfault
    rw [hfront] at hfault
    cases hfault
    rfl
  · rename_i hok
    rw [hfront] at hok
    cases hok

/-! ## Layouts

That every text can be laid out is shown by induction on its length: each piece takes at least one character. -/

structure Piece where
  gap : List Char
  token : Token

def Piece.chars (piece : Piece) : List Char := piece.gap ++ piece.token.chars

def textOf (pieces : List Piece) : List Char := pieces.flatMap Piece.chars

/-- **The tokens of some pieces**, each at the place where its characters begin. -/
def located : List Char → List Piece → List Located
  | _, [] => []
  | before, piece :: more =>
    ⟨piece.token, .behind (before ++ piece.gap)⟩ :: located (before ++ piece.chars) more

/-- **Pieces that a text begins with**, up to what is left of it. -/
def Laid : List Piece → List Char → Prop
  | [], _ => True
  | piece :: more, left => Gap piece.gap (piece.token.chars ++ (textOf more ++ left)) ∧
      Stands piece.token (textOf more ++ left) ∧ Laid more left

/-- **Scanning follows a layout.** -/
theorem scanFrom_of_laid {pieces : List Piece} {left : List Char} (h : Laid pieces left) (before : List Char) :
    scanFrom (.behind before) (textOf pieces ++ left) =
      (scanFrom (.behind (before ++ textOf pieces)) left).map (located before pieces ++ ·) := by
  induction pieces generalizing before with
  | nil =>
    rw [textOf, List.flatMap_nil, List.append_nil, List.nil_append, located]
    cases scanFrom (.behind before) left <;> rfl
  | cons piece more ih =>
    obtain ⟨hgap, hstands, hmore⟩ := h
    have htext : textOf (piece :: more) ++ left = piece.gap ++ (piece.token.chars ++ (textOf more ++ left)) := by
      simp [textOf, Piece.chars]
    have hbehind : before ++ textOf (piece :: more) = before ++ piece.chars ++ textOf more := by simp [textOf]
    rw [htext, scanFrom_gap hgap, Position.after_behind, scanFrom_token hstands,
      Position.after_behind, List.append_assoc, ← Piece.chars, ih hmore, hbehind, located]
    cases scanFrom (.behind (before ++ piece.chars ++ textOf more)) left <;> rfl

def LaidOut (cs : List Char) : Prop := ∃ pieces gap left, cs = textOf pieces ++ (gap ++ left) ∧
    Laid pieces (gap ++ left) ∧
  Gap gap left ∧ (left = [] ∨ ∃ c rest fault, left = c :: rest ∧ Stuck c rest fault)

theorem LaidOut.prepend {cs : List Char} (h : LaidOut cs) (ahead : List Char)
    (hgaps : ∀ gap after, gap ++ after = cs → Gap gap after → Gap (ahead ++ gap) after) :
    LaidOut (ahead ++ cs) := by
  obtain ⟨pieces, gap, left, hcs, hlaid, hgap, hleft⟩ := h
  cases pieces with
  | nil => exact ⟨[], ahead ++ gap, left, by rw [hcs]; simp [textOf], trivial, hgaps _ _ hcs.symm hgap, hleft⟩
  | cons piece more =>
    obtain ⟨hfirst, hstands, hmore⟩ := hlaid
    have htext : piece.gap ++ (piece.token.chars ++ (textOf more ++ (gap ++ left))) = cs := by
      rw [hcs]
      simp [textOf, Piece.chars]
    refine ⟨⟨ahead ++ piece.gap, piece.token⟩ :: more, gap, left, ?_,
      ⟨hgaps _ _ htext hfirst, hstands, hmore⟩, hgap, hleft⟩
    rw [← htext]
    simp [textOf, Piece.chars]

/-- **Every text can be laid out.** -/
theorem exists_layout (cs : List Char) : LaidOut cs := by
  match cs with
  | [] => exact ⟨[], [], [], rfl, trivial, .none, .inl rfl⟩
  | c :: rest =>
    cases hblank : Text.isBlank c with
    | true => exact (exists_layout rest).prepend [c] fun gap after _ hgap => .blank hblank hgap
    | false =>
      cases hcomment : startsComment c with
      | true =>
        have hline : '\n' ∉ rest.takeWhile (· != '\n') := fun h => by simpa using List.mem_takeWhile_imp h
        have hend : rest.dropWhile (· != '\n') = [] ∨ (rest.dropWhile (· != '\n')).head? = some '\n' := by
          cases hrest : rest.dropWhile (· != '\n') with
          | nil => exact .inl rfl
          | cons d more =>
            have hd := List.head_dropWhile_not (· != '\n') (l := rest) (by simp [hrest])
            exact .inr (by simpa [hrest] using hd)
        have htext : c :: rest = c :: rest.takeWhile (· != '\n') ++ rest.dropWhile (· != '\n') := by
          rw [List.cons_append, List.takeWhile_append_dropWhile]
        have hlength : (rest.dropWhile (· != '\n')).length ≤ rest.length := (List.dropWhile_sublist _).length_le
        rw [htext]
        refine (exists_layout (rest.dropWhile (· != '\n'))).prepend (c :: rest.takeWhile (· != '\n'))
          fun gap after hboth hgap => ?_
        exact .comment hcomment hline (hboth ▸ hend) hgap
      | false =>
        cases hfront : front (c :: rest) with
        | ok found =>
          obtain ⟨t, after⟩ := found
          have htext := front_append hfront
          have hlength := front_length hfront
          obtain ⟨pieces, gap, left, hafter, hlaid, hgap, hleft⟩ := exists_layout after
          refine ⟨⟨[], t⟩ :: pieces, gap, left, ?_, ⟨.none, hafter ▸ stands_of_front hfront, hlaid⟩, hgap, hleft⟩
          rw [← htext, hafter]
          simp [textOf, Piece.chars]
        | error fault =>
          refine ⟨[], [], c :: rest, rfl, trivial, .none, .inr ⟨c, rest, fault, rfl, ?_⟩⟩
          rcases fault_of_front hfront with ⟨rfl, hopen, rfl⟩ | ⟨hquote, rfl⟩
          · exact .quote hopen
          · refine .character hquote hblank hcomment fun t after hstands htext => ?_
            rw [← htext, front_of_stands hstands] at hfront
            cases hfront
termination_by cs.length
decreasing_by
  all_goals simp only [List.length_cons] at *
  all_goals omega

/-! ## What scanning answers

A text has one answer, so what follows from a layout holds of every layout. -/

theorem scan_of_laid {source : String} {pieces : List Piece} {gap left : List Char}
    (hsource : source.toList = textOf pieces ++ (gap ++ left))
    (hlaid : Laid pieces (gap ++ left)) (hgap : Gap gap left) :
    scan source = (scanFrom (.behind (textOf pieces ++ gap)) left).map (located [] pieces ++ ·) := by
  have hstart : Position.start = .behind [] := rfl
  rw [scan, hsource, hstart, scanFrom_of_laid hlaid, List.nil_append, scanFrom_gap hgap, Position.after_behind]

/-- **Scanning neither loses nor moves text.**  A source has some tokens exactly if it is made of gaps and these
tokens, each where its characters stand, and a gap at the end; and it is malformed exactly if it is made so up to a
place where it is stuck, which is the place that is told. -/
theorem scan_follows_layout (source : String) :
    (∀ tokens, scan source = .ok tokens ↔ ∃ pieces gap, source.toList = textOf pieces ++ gap ∧
      Laid pieces gap ∧ Gap gap [] ∧ tokens = located [] pieces) ∧
    ∀ e, scan source = .error e ↔ ∃ pieces gap c rest fault, source.toList = textOf pieces ++ (gap ++ c :: rest) ∧
      Laid pieces (gap ++ c :: rest) ∧ Gap gap (c :: rest) ∧ Stuck c rest fault ∧
        e = .malformed (.behind (textOf pieces ++ gap)) fault := by
  have hread {pieces : List Piece} {gap : List Char} (hsource : source.toList = textOf pieces ++ gap)
      (hlaid : Laid pieces gap) (hgap : Gap gap []) : scan source = .ok (located [] pieces) := by
    rw [← List.append_nil gap] at hsource hlaid
    rw [scan_of_laid hsource hlaid hgap, scanFrom]
    exact congrArg Except.ok (List.append_nil _)
  have hfails {pieces : List Piece} {gap rest : List Char} {c : Char} {fault : SyntaxFault}
      (hsource : source.toList = textOf pieces ++ (gap ++ c :: rest)) (hlaid : Laid pieces (gap ++ c :: rest))
      (hgap : Gap gap (c :: rest)) (hstuck : Stuck c rest fault) :
      scan source = .error (.malformed (.behind (textOf pieces ++ gap)) fault) := by
    rw [scan_of_laid hsource hlaid hgap, scanFrom_stuck hstuck]
    rfl
  obtain ⟨pieces, gap, left, hsource, hlaid, hgap, hleft⟩ := exists_layout source.toList
  constructor
  · refine fun tokens => ⟨fun hscan => ?_, ?_⟩
    · rcases hleft with rfl | ⟨c, rest, fault, rfl, hstuck⟩
      · rw [List.append_nil] at hsource hlaid
        rw [hread hsource hlaid hgap] at hscan
        exact ⟨pieces, gap, hsource, hlaid, hgap, (Except.ok.inj hscan).symm⟩
      · rw [hfails hsource hlaid hgap hstuck] at hscan
        cases hscan
    · rintro ⟨pieces, gap, hsource, hlaid, hgap, rfl⟩
      exact hread hsource hlaid hgap
  · refine fun e => ⟨fun hscan => ?_, ?_⟩
    · rcases hleft with rfl | ⟨c, rest, fault, rfl, hstuck⟩
      · rw [List.append_nil] at hsource hlaid
        rw [hread hsource hlaid hgap] at hscan
        cases hscan
      · rw [hfails hsource hlaid hgap hstuck] at hscan
        exact ⟨pieces, gap, c, rest, fault, hsource, hlaid, hgap, hstuck, (Except.error.inj hscan).symm⟩
    · rintro ⟨pieces, gap, c, rest, fault, hsource, hlaid, hgap, hstuck, rfl⟩
      exact hfails hsource hlaid hgap hstuck

end Token

end ProofWalk
