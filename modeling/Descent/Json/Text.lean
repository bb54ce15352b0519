/-!
# Strings in JSON

A JSON string is written between quotes, with escapes for what could not stand there. An escape may
give a UTF-16 code unit; two of them give one character if they form a surrogate pair. A string with
half of such a pair is well written but stands for no text, so reading has two steps: `pieces?`
takes the string apart, `decode?` finds the text.
-/

namespace Descent.Json

/-- A part of a string. -/
inductive Piece where
  /-- A character, by itself or behind a backslash. -/
  | char (c : Char)
  /-- A UTF-16 code unit, by its number. -/
  | unit (n : Nat)
deriving DecidableEq, Repr

/-- The character that stands behind a backslash for another. -/
def escaped? : Char → Option Char
  | '"' => some '"'
  | '\\' => some '\\'
  | '/' => some '/'
  | 'b' => some '\x08'
  | 'f' => some '\x0c'
  | 'n' => some '\n'
  | 'r' => some '\r'
  | 't' => some '\t'
  | _ => none

/-- The value of a hexadecimal digit. -/
def hexDigit? (c : Char) : Option Nat :=
  if c.isDigit then some (c.toNat - '0'.toNat)
  else if 'a' ≤ c ∧ c ≤ 'f' then some (c.toNat - 'a'.toNat + 10)
  else if 'A' ≤ c ∧ c ≤ 'F' then some (c.toNat - 'A'.toNat + 10)
  else none

/-- The number with these hexadecimal digits. -/
def hexNumber? (l : List Char) : Option Nat := do
  let digits ← l.mapM hexDigit?
  return digits.foldl (fun n d => 16 * n + d) 0

/-- The parts of a string whose opening quote has been read, and the text behind its closing quote.
-/
def pieces? : List Char → Option (List Piece × List Char)
  | [] => none
  | '"' :: t => some ([], t)
  | '\\' :: 'u' :: a :: b :: c :: d :: t => do
    let n ← hexNumber? [a, b, c, d]
    let (ps, rest) ← pieces? t
    return (.unit n :: ps, rest)
  | '\\' :: c :: t => do
    let e ← escaped? c
    let (ps, rest) ← pieces? t
    return (.char e :: ps, rest)
  | c :: t => do
    guard (' ' ≤ c)
    let (ps, rest) ← pieces? t
    return (.char c :: ps, rest)

/-- Code units that come first in a surrogate pair. -/
def IsHighSurrogate (n : Nat) : Prop := 0xD800 ≤ n ∧ n < 0xDC00

/-- Code units that come second in a surrogate pair. -/
def IsLowSurrogate (n : Nat) : Prop := 0xDC00 ≤ n ∧ n < 0xE000

instance (n : Nat) : Decidable (IsHighSurrogate n) := inferInstanceAs (Decidable (_ ∧ _))

instance (n : Nat) : Decidable (IsLowSurrogate n) := inferInstanceAs (Decidable (_ ∧ _))

/-- The text that the parts of a string stand for. -/
def decode? : List Piece → Option (List Char)
  | [] => some []
  | .char c :: ps => (decode? ps).map (c :: ·)
  | .unit n :: .unit m :: ps =>
    if IsHighSurrogate n then
      if IsLowSurrogate m then
        (decode? ps).map (Char.ofNat (0x10000 + (n - 0xD800) * 0x400 + (m - 0xDC00)) :: ·)
      else none
    else if IsLowSurrogate n then none
    else (decode? (.unit m :: ps)).map (Char.ofNat n :: ·)
  | .unit n :: ps =>
    if IsHighSurrogate n ∨ IsLowSurrogate n then none else (decode? ps).map (Char.ofNat n :: ·)

end Descent.Json
