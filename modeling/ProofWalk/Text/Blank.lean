import ProofWalk.Text.Ranges
/-!
# Text.Blank — white space

The characters with the property White_Space: 25 code points, among them the no-break spaces, but not the byte order
mark.  They separate tokens and are trimmed from numbers and from names of options.  All that the core library
counts as white space is among them, which is what lets numerals be read with its functions.
-/
namespace ProofWalk.Text

def blankRanges : List (Nat × Nat) := [
    (0x9, 0xD), (0x20, 0x20), (0x85, 0x85), (0xA0, 0xA0), (0x1680, 0x1680), (0x2000, 0x200A), (0x2028, 0x2029),
    (0x202F, 0x202F), (0x205F, 0x205F), (0x3000, 0x3000)]

def isBlank (c : Char) : Bool := inRanges blankRanges c.toNat

theorem isBlank_of_isWhitespace {c : Char} (h : c.isWhitespace = true) : isBlank c = true := by
  simp only [Char.isWhitespace, Bool.or_eq_true, decide_eq_true_eq] at h
  rcases h with ((rfl | rfl) | rfl) | rfl <;> decide

end ProofWalk.Text
