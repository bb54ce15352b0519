import Descent.Source.Position

/-!
# Carets

A caret stands in a text, between two characters. It knows what lies ahead, how many bytes of UTF-8
lie behind and at which position it is. Carets are values: moving one gives another.
-/

namespace Descent

/-- A place in a text, with the text that follows. -/
structure Caret where
  /-- The text that follows. -/
  ahead : List Char
  /-- The number of bytes that the text behind takes in UTF-8. -/
  byte : Nat := 0
  /-- The position of the caret. -/
  position : Position := {}
deriving DecidableEq, Repr

namespace Caret

/-- The number of bytes that a text takes in UTF-8. -/
def byteLength (t : List Char) : Nat := t.foldl (fun n c => n + c.utf8Size) 0

/-- The caret before the first character of `text`. -/
def ofText (text : List Char) : Caret where
  ahead := text

/-- Whether nothing follows. -/
def atEnd (c : Caret) : Bool := c.ahead.isEmpty

/-- The character `k` places ahead. -/
def peek? (c : Caret) (k : Nat) : Option Char := c.ahead[k]?

/-- The caret after the next `n` characters, or after the last one if fewer follow. -/
def advance (c : Caret) (n : Nat) : Caret where
  ahead := c.ahead.drop n
  byte := c.byte + byteLength (c.ahead.take n)
  position := c.position.afterText (c.ahead.take n)

/-- The length of the shortest beginning of a text that takes at least `n` bytes, or of the whole
text if there is none. -/
def charsOfBytes (n : Nat) : List Char → Nat
  | [] => 0
  | c :: t => if n = 0 then 0 else charsOfBytes (n - c.utf8Size) t + 1

/-- The caret after the next `n` bytes. A character of which only a part is meant is passed whole.
-/
def advanceBytes (c : Caret) (n : Nat) : Caret := c.advance (charsOfBytes n c.ahead)

/-- The text from `c` to a caret `d` further on in the same text; nothing if `d` lies before `c`. -/
def textTo (c d : Caret) : List Char := c.ahead.take (d.position.offset - c.position.offset)

/-- The span from `c` to `d`. -/
def spanTo (c d : Caret) : Span := ⟨c.position, d.position⟩

end Caret

end Descent
