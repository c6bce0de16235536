import ProofWalk.Proofs.Lists
import ProofWalk.Text.Join
/-!
# Proofs.SeparatedTexts — texts that tell their parts

A text is told from what follows it by a character that does not stand in it, and a list of texts is told from the
texts with separators between them if the separator stands in none of them (`join_inj`).  Only the list of no text
and that of one empty text look alike.

A separator between the texts of a list is a single character; between two texts there may be more behind it.
-/
namespace ProofWalk

/-- **A text in which a character does not stand.** -/
def Lacks (c : Char) (t : String) : Prop := c ∉ t.toList

instance (c : Char) (t : String) : Decidable (Lacks c t) := inferInstanceAs (Decidable (c ∉ t.toList))

namespace Lacks

variable {c : Char} {t u r r' : String}

theorem append (ht : Lacks c t) (hu : Lacks c u) : Lacks c (t ++ u) := by
  intro h
  rw [String.toList_append] at h
  exact (List.mem_append.1 h).elim ht hu

theorem join {sep : String} {ts : List String} (hsep : Lacks c sep) (hts : ∀ t ∈ ts, Lacks c t) :
    Lacks c (Text.join sep ts) := by
  induction ts with
  | nil => exact List.not_mem_nil
  | cons t rest ih =>
    obtain ⟨ht, hrest⟩ := List.forall_mem_cons.1 hts
    by_cases hempty : rest = []
    · rwa [hempty, Text.join_singleton]
    · rw [Text.join_cons_of_ne_nil sep t hempty]
      exact (ht.append hsep).append (ih hrest)

theorem number (hc : c.isDigit = false) (n : Nat) : Lacks c (toString n) := by
  intro h
  have hdigit : c.isDigit = true := Nat.isDigit_of_mem_toDigits (by decide) (by decide) (Nat.toList_repr ▸ h)
  rw [hc] at hdigit
  cases hdigit

/-- **What stands before a separator can be told from what follows it**, if the separator begins with a character
that does not stand there. -/
theorem append_inj {sep : String} (ht : Lacks c t) (hu : Lacks c u) (hsep : sep.toList.head? = some c)
    (h : t ++ (sep ++ r) = u ++ (sep ++ r')) : t = u ∧ r = r' := by
  obtain ⟨more, hmore⟩ := List.head?_eq_some_iff.1 hsep
  have hstop (cs : List Char) : ∃ d, (sep.toList ++ cs).head? = some d ∧ (d == c) = true :=
    ⟨c, by simp [hmore], beq_self_eq_true c⟩
  have hwithout {s : String} (hs : Lacks c s) : ∀ d ∈ s.toList, (d == c) = false := fun d hd =>
    beq_eq_false_iff_ne.2 fun he => hs (he ▸ hd)
  have hlist := congrArg String.toList h
  simp only [String.toList_append] at hlist
  obtain ⟨htu, hrest⟩ := append_inj_of_stop (hwithout ht) (hwithout hu) (hstop _) (hstop _) hlist
  exact ⟨String.toList_inj.1 htu, String.toList_inj.1 (List.append_cancel_left hrest)⟩

end Lacks

namespace Text

theorem toList_join (sep : String) (ts : List String) :
    (join sep ts).toList = sep.toList.intercalate (ts.map String.toList) := by
  induction ts with
  | nil => rfl
  | cons t rest ih =>
    cases rest with
    | nil => simp
    | cons u more =>
      rw [join_cons_cons, String.toList_append, String.toList_append, ih]
      simp

variable {sep : String} {c : Char} {ts us : List String}

/-- **Texts can be told from the text that joins them**, if the separator stands in none of them. -/
theorem join_inj (hsep : sep.toList = [c]) (hts : ∀ t ∈ ts, Lacks c t) (hus : ∀ t ∈ us, Lacks c t)
    (ht : ts ≠ []) (hu : us ≠ []) (h : join sep ts = join sep us) : ts = us := by
  have hsplit {l : List String} (hl : ∀ t ∈ l, Lacks c t) (hne : l ≠ []) : (join sep l).toList.splitOn c =
      l.map String.toList := by
    rw [toList_join, hsep]
    exact List.splitOn_intercalate c (List.forall_mem_map.2 hl) (by simpa using hne)
  have hlists := congrArg (fun s : String => s.toList.splitOn c) h
  rw [hsplit hts ht, hsplit hus hu] at hlists
  exact List.map_injective_iff.2 (fun _ _ => String.toList_inj.1) hlists

theorem join_eq_empty_iff (ht : "" ∉ ts) : join sep ts = "" ↔ ts = [] := by
  cases ts with
  | nil => simp
  | cons t rest =>
    refine iff_of_false (fun h => ht ?_) (List.cons_ne_nil t rest)
    obtain ⟨more, hmore⟩ : ∃ more, join sep (t :: rest) = t ++ more := by
      by_cases hempty : rest = []
      · exact ⟨"", by rw [hempty, join_singleton, String.append_empty]⟩
      · exact ⟨_, by rw [join_cons_of_ne_nil sep t hempty, String.append_assoc]⟩
    rw [hmore, String.append_eq_empty_iff] at h
    rw [h.1]
    exact List.mem_cons_self

/-- Texts that are not empty can be told even if there may be none. -/
theorem join_inj_of_nonempty (hsep : sep.toList = [c]) (hts : ∀ t ∈ ts, Lacks c t)
    (hus : ∀ t ∈ us, Lacks c t) (ht : "" ∉ ts) (hu : "" ∉ us) (h : join sep ts = join sep us) : ts = us := by
  by_cases hempty : ts = []
  · rw [hempty, join_nil, eq_comm, join_eq_empty_iff hu] at h
    rw [hempty, h]
  · refine join_inj hsep hts hus hempty (fun hnone => hempty ?_) h
    rwa [hnone, join_nil, join_eq_empty_iff ht] at h

theorem joinOnto_eq (sep acc : String) (ts : List String) :
    joinOnto sep acc ts = acc ++ String.join (ts.map (sep ++ ·)) := by
  induction ts generalizing acc with
  | nil => simp [joinOnto]
  | cons t rest ih =>
    rw [joinOnto, ih, List.map_cons, String.join_cons]
    simp only [String.append_assoc]

end Text

end ProofWalk
