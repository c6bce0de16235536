import ProofWalk.Json.Reader
/-!
# Config.Setting — the values that options are given

A configuration is written as a TOML document or as a JSON object.  Either way it is a tree of settings; the two
languages differ in what counts as a choice without a value and in how strictly a list stands for a record, so a
reader of settings is told where they come from.

A number is an integer if it is spelled as one and fits into 64 bits, and an integer stands for the nearest double
where a number is wanted.  A choice is given by its name alone or as the one field of a record, where nothing, or an
empty table or list, follows.  Of fields with one name the last counts.
-/
namespace ProofWalk

inductive Setting
  | null
  | bool (value : Bool)
  | integer (value : Int)
  /-- A number with point or exponent, or one that is out of the range of integers. -/
  | float (value : Float)
  | text (value : String)
  /-- A date or a time of day; no option has such a value. -/
  | date
  | list (items : List Setting)
  | record (fields : List (String × Setting))
deriving Inhabited

/-- **Where settings come from.** -/
inductive SettingSource
  | json
  | toml
deriving DecidableEq, Inhabited, Repr

namespace Setting

def ofNumeral (m : Decimal.Numeral) : Setting :=
  let magnitude := Decimal.digitsValue m.whole
  if m.isInteger && !m.negative && decide (magnitude < Word.bound) then integer magnitude
  else if m.isInteger && m.negative && decide (magnitude ≠ 0 ∧ magnitude ≤ Word.half) then integer (-magnitude)
  else (m.scaled.map float).getD null

mutual

def ofJson : Json → Setting
  | .null => null
  | .bool b => bool b
  | .number spelling => ((Json.number spelling).numeral?.map ofNumeral).getD null
  | .string s => text s
  | .array items => list (ofItems items)
  | .object fields => record (ofFields fields)

def ofItems : List Json → List Setting
  | [] => []
  | j :: rest => ofJson j :: ofItems rest

def ofFields : List (String × Json) → List (String × Setting)
  | [] => []
  | (key, j) :: rest => (key, ofJson j) :: ofFields rest

end

def bool? : Setting → Option Bool
  | bool b => some b
  | _ => none

def text? : Setting → Option String
  | text s => some s
  | _ => none

def texts? : Setting → Option (List String)
  | list items => items.mapM text?
  | _ => none

def number? : Setting → Option Float
  | float x => some x
  | integer n =>
    let magnitude := Decimal.Decadic.toFloat ⟨n.natAbs, 0⟩
    some (if n < 0 then -magnitude else magnitude)
  | _ => none

def natural? : Setting → Option Nat
  | integer n => if 0 ≤ n ∧ n < Word.bound then some n.toNat else none
  | _ => none

def optional? {α : Type} (read : Setting → Option α) : Setting → Option (Option α)
  | null => some none
  | s => (read s).map some

def isUnit : SettingSource → Setting → Bool
  | .json, null => true
  | .toml, record [] => true
  | .toml, list [] => true
  | _, _ => false

/-- **One of several named choices**, given by its name alone or as the one field of a record. -/
def choice? {α : Type} (source : SettingSource) (choices : List α) (name : α → String) : Setting → Option α
  | text t => choices.find? fun a => name a == t
  | record [(t, value)] => if value.isUnit source then choices.find? fun a => name a == t else none
  | _ => none

def field {α : Type} (fields : List (String × Setting)) (key : String) (read : Setting → Option α)
    (default : α) : Option α :=
  match fields.reverse.lookup key with
  | some s => read s
  | none => some default

end Setting

end ProofWalk
