/-!
# Text.Join — texts with a separator between them

`join sep ts` is the list `ts` written one after another with `sep` between neighbours and nowhere else.  The text
grows at its end only (`joinOnto`), and `join_cons_cons` is the equation that proofs unfold it by.
-/
namespace ProofWalk.Text

def joinOnto (sep acc : String) : List String → String
  | [] => acc
  | t :: rest => joinOnto sep (acc ++ sep ++ t) rest

def join (sep : String) : List String → String
  | [] => ""
  | t :: rest => joinOnto sep t rest

theorem joinOnto_append (sep a b : String) (rest : List String) :
    joinOnto sep (a ++ b) rest = a ++ joinOnto sep b rest := by
  induction rest generalizing b with
  | nil => rfl
  | cons t rest ih => simp only [joinOnto, String.append_assoc, ih]

@[simp] theorem join_nil (sep : String) : join sep [] = "" := rfl

@[simp] theorem join_singleton (sep t : String) : join sep [t] = t := rfl

theorem join_cons_cons (sep t u : String) (rest : List String) :
    join sep (t :: u :: rest) = t ++ sep ++ join sep (u :: rest) := by
  simp only [join, joinOnto, joinOnto_append]

theorem join_cons_of_ne_nil (sep t : String) {rest : List String} (h : rest ≠ []) :
    join sep (t :: rest) = t ++ sep ++ join sep rest := by
  cases rest with
  | nil => exact absurd rfl h
  | cons u rest => exact join_cons_cons sep t u rest

end ProofWalk.Text
