import Descent.Unicode.Ranges

/-!
# White space

The Unicode property `White_Space`, which has been stable over versions: it separates tokens and
means nothing itself.
-/

namespace Descent.Unicode

/-- The code points with the property `White_Space`. -/
def whiteSpace : Ranges := [
  (0x9, 0xD), (0x20, 0x20), (0x85, 0x85), (0xA0, 0xA0), (0x1680, 0x1680), (0x2000, 0x200A),
  (0x2028, 0x2029), (0x202F, 0x202F), (0x205F, 0x205F), (0x3000, 0x3000)]

/-- Whether the character is white space. -/
def isWhiteSpace (c : Char) : Bool := whiteSpace.covers c

end Descent.Unicode
