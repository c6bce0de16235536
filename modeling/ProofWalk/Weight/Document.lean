import ProofWalk.Error
import ProofWalk.Json.Reader
import ProofWalk.Weight.Weighter
/-!
# Weight.Document — parameters as documents

The parameters of features are kept in a JSON object: the name of each feature with its number.  Where a name stands
twice the last number counts, and what is written is in ascending order of name.
-/
namespace ProofWalk

namespace Params

def ofFields? (fields : List (String × Json)) : Option (SortedMap String Float) :=
  fields.foldlM (fun m f => f.2.float?.map fun x => m.insert f.1 x) ∅

def ofText (text : String) : Except ConfigError (SortedMap String Float) :=
  match Json.read text with
  | some (.object fields) =>
    match ofFields? fields with
    | some m => .ok m
    | none => .error .unparsable
  | _ => .error .unparsable

def toText (weights : SortedMap String Float) : String :=
  (Json.object (weights.toList.map fun e => (e.1, .number (Json.numberText.render e.2)))).pretty

end Params

end ProofWalk
