/-!
# Positions and spans in a text

A position counts the characters before it and, beside that, the line and the column that a reader
would name. Positions are ordered by these three numbers in turn. A span is a pair of positions, and
two spans join to the least span that covers both.
-/

namespace Descent

/-- A place in a text. -/
structure Position where
  /-- The number of characters before it. -/
  offset : Nat := 0
  /-- The line, counted from one. -/
  line : Nat := 1
  /-- The column in its line, counted from one. -/
  column : Nat := 1
deriving DecidableEq, Repr

namespace Position

/-- The place before the first character. -/
def start : Position := {}

/-- The place right after the character `c` that stands at `p`. -/
def after (p : Position) (c : Char) : Position :=
  if c = '\n' then ⟨p.offset + 1, p.line + 1, 1⟩ else ⟨p.offset + 1, p.line, p.column + 1⟩

/-- The place right after the text `t` that begins at `p`. -/
def afterText (p : Position) (t : List Char) : Position := t.foldl after p

/-- Positions are ordered by offset, then by line, then by column. -/
instance : LE Position where
  le p q := p.offset < q.offset ∨
    p.offset = q.offset ∧ (p.line < q.line ∨ p.line = q.line ∧ p.column ≤ q.column)

instance (p q : Position) : Decidable (p ≤ q) :=
  inferInstanceAs (Decidable (p.offset < q.offset ∨
    p.offset = q.offset ∧ (p.line < q.line ∨ p.line = q.line ∧ p.column ≤ q.column)))

instance : Min Position := minOfLe

instance : Max Position := maxOfLe

/-- Line and column, as a message names them. -/
instance : ToString Position where
  toString p := s!"{p.line}:{p.column}"

end Position

/-- The part of a text between two positions. -/
structure Span where
  /-- Where it begins. -/
  start : Position := {}
  /-- Where it ends: the position after its last character. -/
  stop : Position := {}
deriving DecidableEq, Repr

namespace Span

/-- The least span that covers both. -/
def join (a b : Span) : Span := ⟨min a.start b.start, max a.stop b.stop⟩

/-- The number of characters in a span that is not reversed. -/
def length (s : Span) : Nat := s.stop.offset - s.start.offset

end Span

end Descent
