/-!
# Word — numbers of 64 bits

Numbers are of any size while the library computes with them, but a numeral that does not fit into 64 bits is
refused where numbers are read, and an address or index that lies beyond everything there is keeps its last 64 bits
only (`wrap`).  Natural numbers of 64 bits lie below `bound`, integers below `half` and not below its negative;
`signed` reads the last 64 bits of an integer with the first of them counting negatively.
-/
namespace ProofWalk

namespace Word

def bound : Nat := Nat.pow 2 64

def half : Nat := Nat.pow 2 63

def wrap (n : Nat) : Nat := n % bound

def signed (i : Int) : Int := i.bmod bound

end Word

end ProofWalk
