import ProofWalk.Proofs.Phrases
/-!
# Proofs.Lookahead — readers that look one token ahead

A reader looks one token ahead of what it has used up, and whatever it has used up is the beginning of a phrase.  So
what it does with some tokens it does again if the tokens from the next one on are others (`Reads`).  This is kept
when readers are put together: one after another, or one of two as the next token says.

`Reads` relates a reader to a language, which pairs words with what they stand for: tokens that the reader uses up
are a word of the language if it succeeds, and begin one if it fails.  The languages of readers that are put
together are put together likewise, and that of the second may depend on what the first has read.
-/
namespace ProofWalk

namespace Grammar

variable {α β : Type}

def SameAhead (left left' : List Located) : Prop := (tokensOf left).head? = (tokensOf left').head?

theorem SameAhead.append {left left' : List Located} (h : SameAhead left left') (us : List Located) :
    SameAhead (us ++ left) (us ++ left') := by
  cases us with
  | nil => exact h
  | cons u us => rfl

theorem SameAhead.next_eq {left left' : List Located} (h : SameAhead left left') (t : Token) :
    next t left = next t left' := by
  rw [Grammar.next_eq, Grammar.next_eq, h]

def take (accept : Token → Option α) (fault : SyntaxFault) : List Located → Parsed α
  | [] => .error (fault, [])
  | t :: rest =>
    match accept t.token with
    | none => .error (fault, t :: rest)
    | some a => .ok (a, rest)

def andThen (first : List Located → Parsed α) (second : α → List Located → Parsed β)
    (ts : List Located) : Parsed β :=
  match first ts with
  | .error e => .error e
  | .ok (a, left) => second a left

def ifNext (t : Token) (yes no : List Located → Parsed α) (ts : List Located) : Parsed α :=
  if next t ts then yes ts.tail else no ts

def done (a : α) (ts : List Located) : Parsed α := .ok (a, ts)

def fail (fault : SyntaxFault) (ts : List Located) : Parsed α := .error (fault, ts)

/-- **What a reader does with some tokens.**  The tokens that it uses up are a word of a language if it succeeds, and
begin one if it fails; it does the same if the tokens that it leaves are others, the next one apart. -/
def Reads (L : List Token → α → Prop) (reader : List Located → Parsed α) (ts : List Located) : Prop :=
  match reader ts with
  | .ok (a, left) => ∃ us, ts = us ++ left ∧ L (tokensOf us) a ∧
      ∀ left', SameAhead left left' → reader (us ++ left') = .ok (a, left')
  | .error (fault, left) => ∃ us, ts = us ++ left ∧ (∃ more a, L (tokensOf us ++ more) a) ∧
      ∀ left', SameAhead left left' → reader (us ++ left') = .error (fault, left')

section Reads

variable {L N : List Token → α → Prop} {reader : List Located → Parsed α} {ts : List Located}

theorem Reads.of_ok (us : List Located) {a : α} {left : List Located}
    (h : reader ts = .ok (a, left)) (hts : ts = us ++ left) (hword : L (tokensOf us) a)
    (hagain : ∀ left', SameAhead left left' → reader (us ++ left') = .ok (a, left')) :
    Reads L reader ts := by
  rw [Reads, h]
  exact ⟨us, hts, hword, hagain⟩

theorem Reads.of_error (us : List Located) {fault : SyntaxFault} {left : List Located}
    (h : reader ts = .error (fault, left)) (hts : ts = us ++ left) (hword : ∃ more a, L (tokensOf us ++ more) a)
    (hagain : ∀ left', SameAhead left left' → reader (us ++ left') = .error (fault, left')) :
    Reads L reader ts := by
  rw [Reads, h]
  exact ⟨us, hts, hword, hagain⟩

theorem Reads.ok {a : α} {left : List Located} (hr : Reads L reader ts) (h : reader ts = .ok (a, left)) :
    ∃ us, ts = us ++ left ∧ L (tokensOf us) a ∧ ∀ left', SameAhead left left' →
      reader (us ++ left') = .ok (a, left') := by
  rwa [Reads, h] at hr

theorem Reads.error {fault : SyntaxFault} {left : List Located} (hr : Reads L reader ts)
    (h : reader ts = .error (fault, left)) : ∃ us, ts = us ++ left ∧ (∃ more a, L (tokensOf us ++ more) a) ∧
      ∀ left', SameAhead left left' → reader (us ++ left') = .error (fault, left') := by
  rwa [Reads, h] at hr

theorem reads_done {a : α} (h : L [] a) : Reads L (done a) ts :=
  .of_ok [] rfl (List.nil_append ts).symm h fun _ _ => rfl

theorem reads_fail {fault : SyntaxFault} (h : ∃ more a, L more a) : Reads L (fail fault) ts :=
  .of_error [] rfl (List.nil_append ts).symm h fun _ _ => rfl

theorem reads_take {accept : Token → Option α} {fault : SyntaxFault} (hword : ∀ t a, accept t = some a → L [t] a)
    (hsome : ∃ t a, accept t = some a) : Reads L (take accept fault) ts := by
  have hbegins : ∃ more a, L (tokensOf [] ++ more) a := by
    obtain ⟨t, a, hta⟩ := hsome
    exact ⟨[t], a, hword t a hta⟩
  cases ts with
  | nil =>
    refine .of_error [] rfl rfl hbegins fun left' h => ?_
    cases left' with
    | nil => rfl
    | cons s rest => cases h
  | cons t rest =>
    cases ha : accept t.token with
    | none =>
      have hhere : take accept fault (t :: rest) = .error (fault, t :: rest) := by simp only [take, ha]
      refine .of_error [] hhere rfl hbegins fun left' h => ?_
      cases left' with
      | nil => cases h
      | cons s rest' =>
        have hs : t.token = s.token := Option.some.inj h
        simp only [List.nil_append, take, ← hs, ha]
    | some a =>
      have hhere : take accept fault (t :: rest) = .ok (a, rest) := by simp only [take, ha]
      refine .of_ok [t] hhere rfl (hword _ _ ha) fun left' _ => ?_
      simp only [List.cons_append, List.nil_append, take, ha]

theorem reads_drop {t : Token} {a : α} (hnext : next t ts = true) (hword : L [t] a) :
    Reads L (fun ts => .ok (a, ts.tail)) ts := by
  cases ts with
  | nil => cases hnext
  | cons s rest =>
    obtain rfl : s.token = t := by simpa [next] using hnext
    exact .of_ok [s] rfl rfl hword fun _ _ => rfl

theorem Reads.of_agreement {other : List Located → Parsed α} (h : Reads L other ts)
    (hagree : ∀ us left left', ts = us ++ left → SameAhead left left' →
    reader (us ++ left') = other (us ++ left')) :
    Reads L reader ts := by
  have hhere : reader ts = other ts := hagree [] ts ts rfl rfl
  cases hread : other ts with
  | ok r =>
    obtain ⟨a, left⟩ := r
    obtain ⟨us, hts, hus, hagain⟩ := h.ok hread
    exact .of_ok us (hhere.trans hread) hts hus fun left' hsame =>
      (hagree us left left' hts hsame).trans (hagain left' hsame)
  | error e =>
    obtain ⟨fault, left⟩ := e
    obtain ⟨us, hts, hus, hagain⟩ := h.error hread
    exact .of_error us (hhere.trans hread) hts hus
      fun left' hsame => (hagree us left left' hts hsame).trans (hagain left' hsame)

theorem Reads.ifNext {t : Token} {yes no : List Located → Parsed α} (hyes : next t ts = true → Reads L yes ts.tail)
    (hword : ∀ us a, L us a → N (t :: us) a) (hno : next t ts = false → Reads N no ts) :
    Reads N (ifNext t yes no) ts := by
  cases hnext : next t ts with
  | true =>
    obtain ⟨s, rest, rfl⟩ : ∃ s rest, ts = s :: rest := by
      cases ts with
      | nil => cases hnext
      | cons s rest => exact ⟨s, rest, rfl⟩
    have hreads : Reads L yes rest := hyes hnext
    obtain rfl : s.token = t := by simpa [next] using hnext
    -- with the token at the front, the first reader is taken whatever follows
    have htaken : ∀ more, Grammar.ifNext s.token yes no (s :: more) = yes more := fun more => by
      simp [Grammar.ifNext, next]
    cases hread : yes rest with
    | ok r =>
      obtain ⟨a, left⟩ := r
      obtain ⟨us, rfl, hus, hagain⟩ := hreads.ok hread
      exact .of_ok (s :: us) ((htaken _).trans hread) rfl (hword _ _ hus)
        fun left' h => (htaken _).trans (hagain left' h)
    | error e =>
      obtain ⟨fault, left⟩ := e
      obtain ⟨us, rfl, ⟨more, a, hus⟩, hagain⟩ := hreads.error hread
      exact .of_error (s :: us) ((htaken _).trans hread) rfl ⟨more, a, hword _ _ hus⟩
        fun left' h => (htaken _).trans (hagain left' h)
  | false =>
    refine (hno hnext).of_agreement fun us left left' hts h => ?_
    rw [Grammar.ifNext, ← (h.append us).next_eq t, ← hts, hnext]
    rfl

/-- **One reader after another**: the second one's language depends on what the first one read. -/
theorem Reads.andThen {second : α → List Located → Parsed β} {M : α → List Token → β → Prop}
    {K : List Token → β → Prop} (hfirst : Reads L reader ts)
    (hsecond : ∀ a left, reader ts = .ok (a, left) → Reads (M a) (second a) left)
    (hsome : ∀ a, ∃ more b, M a more b) (hword : ∀ us vs a b, L us a → M a vs b → K (us ++ vs) b) :
    Reads K (andThen reader second) ts := by
  cases hread : reader ts with
  | error e =>
    obtain ⟨fault, left⟩ := e
    obtain ⟨us, hts, ⟨more, a, hus⟩, hagain⟩ := hfirst.error hread
    obtain ⟨rest, b, hrest⟩ := hsome a
    refine .of_error us (by rw [Grammar.andThen, hread]) hts ⟨more ++ rest, b, ?_⟩ fun left' h => ?_
    · rw [← List.append_assoc]
      exact hword _ _ _ _ hus hrest
    · rw [Grammar.andThen, hagain left' h]
  | ok r =>
    obtain ⟨a, left⟩ := r
    obtain ⟨us, rfl, hus, hagain⟩ := hfirst.ok hread
    cases hthen : second a left with
    | ok r =>
      obtain ⟨b, rest⟩ := r
      obtain ⟨vs, rfl, hvs, hthen'⟩ := (hsecond a left hread).ok hthen
      refine .of_ok (us ++ vs) (by rw [Grammar.andThen, hread]; exact hthen) (List.append_assoc ..).symm ?_
        fun left' h => ?_
      · rw [tokensOf_append]
        exact hword _ _ _ _ hus hvs
      · rw [Grammar.andThen, List.append_assoc, hagain _ (h.append vs)]
        exact hthen' left' h
    | error e =>
      obtain ⟨fault, rest⟩ := e
      obtain ⟨vs, rfl, ⟨more, b, hvs⟩, hthen'⟩ := (hsecond a left hread).error hthen
      refine .of_error (us ++ vs) (by rw [Grammar.andThen, hread]; exact hthen) (List.append_assoc ..).symm
        ⟨more, b, ?_⟩ fun left' h => ?_
      · rw [tokensOf_append, List.append_assoc]
        exact hword _ _ _ _ hus hvs
      · rw [Grammar.andThen, List.append_assoc, hagain _ (h.append vs)]
        exact hthen' left' h

theorem Reads.mono (h : Reads L reader ts) (hword : ∀ us a, L us a → N us a) : Reads N reader ts := by
  cases hread : reader ts with
  | ok r =>
    obtain ⟨us, hts, hus, hagain⟩ := h.ok hread
    exact .of_ok us hread hts (hword _ _ hus) hagain
  | error e =>
    obtain ⟨us, hts, ⟨more, a, hus⟩, hagain⟩ := h.error hread
    exact .of_error us hread hts ⟨more, a, hword _ _ hus⟩ hagain

theorem Reads.map {f : α → β} {K : List Token → β → Prop} (h : Reads L reader ts)
    (hword : ∀ us a, L us a → K us (f a)) : Reads K (Grammar.andThen reader fun a => done (f a)) ts :=
  h.andThen (M := fun a us b => us = [] ∧ b = f a) (fun _ _ _ => reads_done ⟨rfl, rfl⟩)
    (fun a => ⟨[], f a, rfl, rfl⟩) fun us vs a b hus ⟨hvs, hb⟩ => by
      rw [hvs, hb, List.append_nil]
      exact hword us a hus

end Reads

end Grammar

end ProofWalk
