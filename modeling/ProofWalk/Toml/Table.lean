import ProofWalk.Config.Setting
/-!
# Toml.Table — tables while a document is read

A document builds its tables piece by piece, and may state each piece once.  A table remembers how it came about:
stated by a header, implied by the header of a table inside it, or begun by a dotted key.  A header may complete a
table that was implied; dotted keys may add to tables that dotted keys began.

All this is decided in `change`, which goes down a path of keys.  Keys without meaning become tables on the way, of
a list of tables the last one is entered, and dotted keys do not enter tables that have been stated.
-/
namespace ProofWalk

namespace Toml

/-- **How a table came about.** -/
inductive Origin
  /-- It has a header or braces of its own. -/
  | stated
  /-- A table inside it has a header. -/
  | implied
  /-- A dotted key goes through it. -/
  | dotted
deriving DecidableEq, Inhabited, Repr

/-- **What a key stands for** while a document is read. -/
inductive Entry
  /-- A value, which nothing can be added to. -/
  | value (v : Setting)
  | table (origin : Origin) (fields : List (String × Entry))
  /-- A list of tables, the last of which is added to. -/
  | tables (items : List Entry)
deriving Inhabited

abbrev Fields := List (String × Entry)

def Fields.put (fields : Fields) (key : String) (e : Entry) : Fields :=
  if (fields.lookup key).isSome then fields.map fun f => if f.1 == key then (key, e) else f
    else fields ++ [(key, e)]

/-- **Change the table at the end of a path** of keys.  Keys without meaning become tables on the way; of a list of
tables the last one is entered.  Dotted keys do not enter tables that have been stated. -/
def change (byDots : Bool) (f : Origin → Fields → Option (Origin × Fields)) :
    List String → Origin → Fields → Option (Origin × Fields)
  | [], origin, fields => f origin fields
  | key :: path, origin, fields =>
    match fields.lookup key with
    | none => do
      let (o, inner) ← change byDots f path (if byDots then .dotted else .implied) []
      return (origin, Fields.put fields key (.table o inner))
    | some (.table o inner) =>
      if byDots && o == .stated then none
      else do
        let (o, inner) ← change byDots f path o inner
        return (origin, Fields.put fields key (.table o inner))
    | some (.tables items) =>
      match items.getLast? with
      | some (.table o inner) => do
        let (o, inner) ← change byDots f path o inner
        return (origin, Fields.put fields key (.tables (items.dropLast ++ [.table o inner])))
      | _ => none
    | some (.value _) => none

def assign (path : List String) (key : String) (v : Setting) : Origin → Fields → Option (Origin × Fields) :=
  change true (fun origin fields =>
    if (origin == .dotted) == path.isEmpty || (fields.lookup key).isSome then none
    else some (origin, fields ++ [(key, .value v)])) path

def openTable (path : List String) (key : String) : Origin → Fields → Option (Origin × Fields) :=
  change false (fun origin fields =>
    match fields.lookup key with
    | none => some (origin, fields ++ [(key, .table .stated [])])
    | some (.table .implied inner) => some (origin, Fields.put fields key (.table .stated inner))
    | _ => none) path

def openItem (path : List String) (key : String) : Origin → Fields → Option (Origin × Fields) :=
  change false (fun origin fields =>
    match fields.lookup key with
    | none => some (origin, fields ++ [(key, .tables [.table .stated []])])
    | some (.tables items) => some (origin, Fields.put fields key (.tables (items ++ [.table .stated []])))
    | _ => none) path

mutual

def Entry.setting : Entry → Setting
  | .value v => v
  | .table _ fields => .record (settings fields)
  | .tables items => .list (itemSettings items)

def settings : List (String × Entry) → List (String × Setting)
  | [] => []
  | (key, e) :: rest => (key, e.setting) :: settings rest

def itemSettings : List Entry → List Setting
  | [] => []
  | e :: rest => e.setting :: itemSettings rest

end

end Toml

end ProofWalk
