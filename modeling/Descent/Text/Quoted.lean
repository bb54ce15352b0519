import Descent.Unicode.DefaultIgnorable
import Descent.Unicode.GraphemeExtend
import Descent.Unicode.Invisible

/-!
# Characters in quotes

How a message shows a single character: between single quotes, so that a reader can tell which one
it is. A character that would be lost on paper is written by its code point.
-/

namespace Descent.Text

/-- The code point in hexadecimal, as an escape. -/
def escapeCode (c : Char) : List Char :=
  ['\\', 'u', '{'] ++ Nat.toDigits 16 c.toNat ++ ['}']

/-- The halfwidth voiced and semi-voiced sound marks. They extend the character before them, but
unlike the combining marks they are letters with a width and a shape of their own. -/
def spacingSoundMarks : Unicode.Ranges := [(0xFF9E, 0xFF9F)]

/-- Whether the character melts into the one before it, so that a quote would seem to hold it. -/
def combines (c : Char) : Bool :=
  Unicode.graphemeExtend.covers c && !spacingSoundMarks.covers c

/-- Whether a reader could not tell from its shape between quotes which character it is. -/
def isLost (c : Char) : Bool :=
  combines c || Unicode.invisible.covers c || Unicode.defaultIgnorable.covers c

/-- The character as it stands between single quotes. -/
def escape (c : Char) : List Char :=
  match c with
  | '\x00' => ['\\', '0']
  | '\t' => ['\\', 't']
  | '\r' => ['\\', 'r']
  | '\n' => ['\\', 'n']
  | '\'' => ['\\', '\'']
  | '\\' => ['\\', '\\']
  | c => if isLost c then escapeCode c else [c]

/-- The character between single quotes. -/
def quoted (c : Char) : String := String.ofList (['\''] ++ escape c ++ ['\''])

end Descent.Text
