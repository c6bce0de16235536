import ProofWalk.Text.Blank
/-!
# Text.Keyword — names of options

A name of an option may be given in either case, with underscores for hyphens and with blanks around it; `keyword`
is the form in which it is looked up.  Only the letters that occur in such names change case.
-/
namespace ProofWalk.Text

def trim (cs : List Char) : List Char := ((cs.dropWhile isBlank).reverse.dropWhile isBlank).reverse

def keyword (name : String) : String :=
  String.ofList ((trim name.toList).map fun c => if c = '_' then '-' else c.toLower)

end ProofWalk.Text
