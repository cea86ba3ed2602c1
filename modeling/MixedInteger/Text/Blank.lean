import MixedInteger.Text.Ranges

/-!
# White space

The characters with the Unicode property White_Space, and the names of options, which are read
without surrounding white space and without regard to the case of ASCII letters.
-/

namespace MixedInteger.Text

/-- The codes of White_Space. -/
def blanks : Ranges where
  bounds :=
    [(0x09, 0x0D), (0x20, 0x20), (0x85, 0x85), (0xA0, 0xA0), (0x1680, 0x1680), (0x2000, 0x200A),
      (0x2028, 0x2029), (0x202F, 0x202F), (0x205F, 0x205F), (0x3000, 0x3000)]

def isBlank (c : Char) : Bool := blanks.covers c

/-- Without white space at either end. -/
def trim (cs : List Char) : List Char :=
  ((cs.dropWhile isBlank).reverse.dropWhile isBlank).reverse

/-- How the name of an option is compared. -/
def optionName (s : String) : String := String.ofList ((trim s.toList).map Char.toLower)

end MixedInteger.Text
