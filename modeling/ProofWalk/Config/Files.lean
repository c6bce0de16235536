import ProofWalk.Config.Document
import ProofWalk.Config.FilePath
import ProofWalk.Weight.Document
/-!
# Config.Files — configurations and parameters in files

What a file system does is left open: `Files` says how files are read and written, in any monad.  A failure names
the path that it is about.  Configurations and parameters are loaded and saved by the same two functions, `load` and
`storeBelow`, of which the latter makes the directory above a path first.
-/
namespace ProofWalk

/-- **A place where texts are kept.** -/
structure Files (m : Type → Type) where
  /-- The text at a path, if it can be read. -/
  read : String → m (Option String)
  /-- Make a directory with all directories above it; whether it is there now. -/
  makeDirectory : String → m Bool
  /-- Write a text at a path; whether that has succeeded. -/
  write : String → String → m Bool

namespace Files

variable {m : Type → Type} [Monad m]

def load {α : Type} (files : Files m) (path : String) (ofText : String → Except ConfigError α) :
    m (Except ConfigError α) := do
  match ← files.read path with
  | some text => return ofText text
  | none => return .error (.unreadable path)

def store (files : Files m) (path text : String) : m (Except ConfigError Unit) := do
  if ← files.write path text then return .ok () else return .error (.unwritable path)

def storeBelow (files : Files m) (path text : String) : m (Except ConfigError Unit) := do
  match (FilePath.ofText path).parent?.map FilePath.text with
  | none => files.store path text
  | some directory =>
    if ← files.makeDirectory directory then files.store path text else return .error (.unwritable directory)

end Files

variable {m : Type → Type} [Monad m]

def ProverConfig.load (files : Files m) (path : String) : m (Except ConfigError (ProverConfig Float)) :=
  files.load path ProverConfig.ofToml

def ProverConfig.save (files : Files m) (path : String) (c : ProverConfig Float) : m (Except ConfigError Unit) :=
  match c.toToml? with
  | some text => files.storeBelow path text
  | none => return .error .unparsable

def Params.load (files : Files m) (path : String) : m (Except ConfigError (SortedMap String Float)) :=
  files.load path Params.ofText

def Params.save (files : Files m) (path : String) (weights : SortedMap String Float) :
    m (Except ConfigError Unit) :=
  files.store path (Params.toText weights)

end ProofWalk
