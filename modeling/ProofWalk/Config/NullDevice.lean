import ProofWalk.Config.Files
/-!
# Config.NullDevice — a place that keeps nothing

The one file is the null device `/dev/null`.  It reads as the empty text and takes every text that is written.
Besides it there are the two directories above it and, for relative paths, a directory that is not known and has no
names in it.  Paths are followed piece by piece: idle pieces stay in the directory, two dots lead to the one above,
and the root is above itself.  Behind a path to the null device there is nothing.  No directory can be made, only
those that are there already are.
-/
namespace ProofWalk

/-- **What is there when only the null device is.** -/
inductive Place where
  | root
  /-- The directory of the devices, below the root. -/
  | devices
  | nullDevice
  /-- A directory whose names are not known. -/
  | unknown
deriving DecidableEq, Repr

namespace Place

def isDirectory : Place → Bool
  | nullDevice => false
  | _ => true

def above : Place → Place
  | unknown => unknown
  | _ => root

def child? : Place → String → Option Place
  | root, "dev" => some devices
  | devices, "null" => some nullDevice
  | _, _ => none

def step (place : Place) (piece : String) : Option Place :=
  if !place.isDirectory then none
  else if FilePath.isIdle piece then some place
  else if piece == ".." then some place.above
  else place.child? piece

/-- **The place that a path leads to.**  The path without a name leads nowhere. -/
def ofPath? (p : FilePath) : Option Place :=
  if p.first != "" then (p.first :: p.rest).foldlM step unknown
  else if p.rest.isEmpty then none
  else p.rest.foldlM step root

theorem step_nullDevice (piece : String) : nullDevice.step piece = none := rfl

theorem foldlM_nullDevice (piece : String) (rest : List String) :
    (piece :: rest).foldlM step nullDevice = none := rfl

theorem ofPath?_empty : ofPath? FilePath.empty = none := rfl

theorem ofPath?_root : ofPath? FilePath.root = some root := rfl

end Place

namespace Files

variable {m : Type → Type} [Monad m]

/-- **The files when there is only the null device.**  No directory can be made, only those that are there already are;
the path without a name stands for the one that relative paths start from. -/
def nullDevice : Files m where
  read path := pure (if Place.ofPath? (.ofText path) = some .nullDevice then some "" else none)
  makeDirectory path := pure (path == "" || (Place.ofPath? (.ofText path)).any Place.isDirectory)
  write path _ := pure (Place.ofPath? (.ofText path) = some .nullDevice)

end Files

end ProofWalk
