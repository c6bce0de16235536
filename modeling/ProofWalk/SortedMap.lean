import Std.Data.ExtTreeMap
/-!
# SortedMap — finite maps that are read out in ascending order of key

Feature dictionaries, parameters, sparse vectors and masses are all read out in ascending order of key, so the order
is part of the type.  A map is a search tree of the standard library up to the shape of the tree: maps in which
every key has the same value are equal (`Std.ExtTreeMap.ext_getElem?`).  All changes are made by `upsert`, which
sets the value of a key to what a function makes of the one that was there, if any.
-/
namespace ProofWalk

abbrev SortedMap (κ ν : Type) [Ord κ] := Std.ExtTreeMap κ ν compare

namespace SortedMap

variable {κ ν : Type} [Ord κ] [Std.TransOrd κ]

def upsert (m : SortedMap κ ν) (k : κ) (f : Option ν → ν) : SortedMap κ ν := m.alter k fun old => some (f old)

@[simp] theorem getElem?_upsert_self (m : SortedMap κ ν) (k : κ) (f : Option ν → ν) :
    (m.upsert k f)[k]? = some (f m[k]?) :=
  Std.ExtTreeMap.getElem?_alter_self

theorem getElem?_upsert_of_ne [Std.LawfulEqOrd κ] (m : SortedMap κ ν) {k k' : κ} (f : Option ν → ν) (h : k' ≠ k) :
    (m.upsert k f)[k']? = m[k']? := by
  rw [upsert, Std.ExtTreeMap.getElem?_alter, if_neg fun he => h (Std.LawfulEqCmp.eq_of_compare he).symm]

end SortedMap

end ProofWalk
