import ProofWalk.Text.Join
/-!
# Config.FilePath — paths and the directories above them

A path is its pieces between slashes; its text gives the pieces and the pieces give its text back.  Before a slash
at the very beginning stands the empty piece.  A piece that is empty or a single dot leads nowhere else, so the
directory above a path leaves such pieces out at its end (`parent?`).  Pieces further in front stay as they were
written.  There is no directory above the root, nor above the path without a name, which is where relative paths
start from.
-/
namespace ProofWalk

/-- **A path**, by the pieces between its slashes.  Before a slash at the very beginning stands the empty piece. -/
structure FilePath where
  /-- What stands before the first slash. -/
  first : String
  /-- What stands behind each slash. -/
  rest : List String
deriving DecidableEq, Repr

namespace FilePath

def split : List Char → List Char × List (List Char)
  | [] => ([], [])
  | c :: cs =>
    let (piece, others) := split cs
    if c == '/' then ([], piece :: others) else (c :: piece, others)

def ofText (path : String) : FilePath :=
  let (first, rest) := split path.toList
  ⟨String.ofList first, rest.map String.ofList⟩

def text (p : FilePath) : String := Text.join "/" (p.first :: p.rest)

def empty : FilePath := ⟨"", []⟩

def root : FilePath := ⟨"", [""]⟩

def isIdle (piece : String) : Bool := piece == "" || piece == "."

/-- **The directory above a path**, without the last piece that leads elsewhere and without idle pieces at its end.
There is none above the root and above the path without a name. -/
def parent? (p : FilePath) : Option FilePath :=
  match p.rest.reverse.dropWhile isIdle with
  | [] => if p.first == "" then none else some empty
  | _ :: above =>
    let kept := (above.dropWhile isIdle).reverse
    some (if p.first == "" && kept.isEmpty then root else ⟨p.first, kept⟩)

theorem split_slash (cs : List Char) : split ('/' :: cs) = ([], (split cs).1 :: (split cs).2) := rfl

theorem split_of_ne {c : Char} (h : c ≠ '/') (cs : List Char) :
    split (c :: cs) = (c :: (split cs).1, (split cs).2) := by
  rw [split]
  simp [h]

theorem join_ofList_cons (c : Char) (piece : List Char) (others : List String) :
    Text.join "/" (String.ofList (c :: piece) :: others) =
      String.ofList [c] ++ Text.join "/" (String.ofList piece :: others) := by
  have h : String.ofList (c :: piece) = String.ofList [c] ++ String.ofList piece := by
    rw [← String.ofList_append]
    rfl
  rw [h]
  exact Text.joinOnto_append "/" _ _ others

/-- **The text of a path gives the path, and the path gives the text back.** -/
theorem text_ofText (path : String) : (ofText path).text = path := by
  suffices h : ∀ cs : List Char,
      Text.join "/" (String.ofList (split cs).1 :: (split cs).2.map String.ofList) = String.ofList cs by
    have := h path.toList
    rwa [String.ofList_toList] at this
  intro cs
  induction cs with
  | nil => rfl
  | cons c cs ih =>
    by_cases hc : c = '/'
    · subst hc
      rw [split_slash, List.map_cons, Text.join_cons_cons, ih, ← String.ofList_append, ← String.ofList_append]
      rfl
    · rw [split_of_ne hc, join_ofList_cons, ih, ← String.ofList_append]
      rfl

theorem parent?_empty : empty.parent? = none := rfl

theorem parent?_root : root.parent? = none := rfl

theorem parent?_name {name : String} (h : name ≠ "") : (⟨name, []⟩ : FilePath).parent? = some empty := by
  simp [parent?, h]

end FilePath

end ProofWalk
