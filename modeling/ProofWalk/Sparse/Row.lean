import ProofWalk.Sparse.Vector
/-!
# Sparse.Row — the edges of one node

A row lists the edges of a node in order, each with the node that it leads to and the vector of its features.  A
node may have several edges to one other; `position?` finds the first of them.
-/
namespace ProofWalk

structure SparseEdge (K : Type) where
  child : Nat
  features : SparseVector K

abbrev SparseRow (K : Type) := List (SparseEdge K)

namespace SparseRow

variable {K : Type}

def push (r : SparseRow K) (child : Nat) (features : SparseVector K) : SparseRow K := r ++ [⟨child, features⟩]

def position? (r : SparseRow K) (child : Nat) : Option Nat := r.findIdx? (·.child == child)

end SparseRow

end ProofWalk
