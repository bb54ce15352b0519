import Descent.Diagnostic.Lexical
import Descent.Token.Basic
import Descent.Unicode.WhiteSpace

/-!
# Lexical classes

A pattern describes a lexical class by what a text that begins with a member looks like, and
`length?` measures the longest member that a text begins with. The `lexicon` lists the patterns of
the language. Where several match, the longest match counts, and of equally long ones the first
listed: that is why keywords stand before identifiers.
-/

namespace Descent.Token

/-- The shape of the members of a lexical class. -/
inductive Pattern where
  /-- This text and no other. -/
  | exactly (text : List Char)
  /-- A character of the first set, then any number of the second. -/
  | run (first later : Char → Bool)
  /-- The opening, then all up to the end of the line, which does not belong to it. -/
  | line (opening : List Char)
  /-- The opening, then all up to the first closing behind it, which belongs to it. -/
  | enclosed (opening closing : List Char)

/-- The number of characters before the first place where `t` begins with `part`. -/
def indexOf? (part : List Char) : List Char → Option Nat
  | [] => if part = [] then some 0 else none
  | c :: t => if part.isPrefixOf (c :: t) then some 0 else (indexOf? part t).map (· + 1)

/-- The length of the longest member of the class that the text begins with. -/
def Pattern.length? : Pattern → List Char → Except LexError.Cause (Option Nat)
  | exactly text, t => .ok (if text.isPrefixOf t then some text.length else none)
  | run _ _, [] => .ok none
  | run first later, c :: t =>
    .ok (if first c then some ((t.takeWhile later).length + 1) else none)
  | line opening, t =>
    .ok (if opening.isPrefixOf t then
      some (opening.length + ((t.drop opening.length).takeWhile (· ≠ '\n')).length)
    else none)
  | enclosed opening closing, t =>
    if opening.isPrefixOf t then
      match indexOf? closing (t.drop opening.length) with
      | some n => .ok (some (opening.length + n + closing.length))
      | none => .error .unclosedComment
    else .ok none

/-- Letters of the basic alphabet and the underscore. -/
def startsIdentifier (c : Char) : Bool := c.isAlpha || c == '_'

/-- Letters and digits of the basic alphabet and the underscore. -/
def continuesIdentifier (c : Char) : Bool := c.isAlphanum || c == '_'

/-- The lexical classes of the language, those listed first preferred. -/
def lexicon : List (Kind × Pattern) := [
  (.whiteSpace, .run Unicode.isWhiteSpace Unicode.isWhiteSpace),
  (.comment, .line ['/', '/']),
  (.comment, .enclosed ['/', '*'] ['*', '/']),
  (.kwLet, .exactly ['l', 'e', 't']),
  (.kwReturn, .exactly ['r', 'e', 't', 'u', 'r', 'n']),
  (.kwFn, .exactly ['f', 'n']),
  (.kwIf, .exactly ['i', 'f']),
  (.kwElse, .exactly ['e', 'l', 's', 'e']),
  (.kwTrue, .exactly ['t', 'r', 'u', 'e']),
  (.kwFalse, .exactly ['f', 'a', 'l', 's', 'e']),
  (.identifier, .run startsIdentifier continuesIdentifier),
  (.integer, .run Char.isDigit Char.isDigit),
  (.equal, .exactly ['=', '=']),
  (.notEqual, .exactly ['!', '=']),
  (.assign, .exactly ['=']),
  (.bang, .exactly ['!']),
  (.plus, .exactly ['+']),
  (.minus, .exactly ['-']),
  (.star, .exactly ['*']),
  (.slash, .exactly ['/']),
  (.less, .exactly ['<']),
  (.greater, .exactly ['>']),
  (.comma, .exactly [',']),
  (.semicolon, .exactly [';']),
  (.openParen, .exactly ['(']),
  (.closeParen, .exactly [')']),
  (.openBrace, .exactly ['{']),
  (.closeBrace, .exactly ['}'])]

/-- A nonempty beginning of a text that belongs to a lexical class. -/
structure Match where
  /-- The class. -/
  kind : Kind
  /-- The number of characters. -/
  length : Nat
  /-- There are some. -/
  length_pos : 0 < length

/-- The longer of two matches, the first if they are equally long. -/
def Match.longer : Option Match → Match → Match
  | none, m => m
  | some best, m => if m.length ≤ best.length then best else m

/-- The best match of the listed classes at the beginning of the text, where `best` was found
before. -/
def bestMatch (t : List Char) :
    List (Kind × Pattern) → Option Match → Except LexError.Cause (Option Match)
  | [], best => .ok best
  | (kind, pattern) :: classes, best =>
    match pattern.length? t with
    | .error e => .error e
    | .ok none => bestMatch t classes best
    | .ok (some n) =>
      if h : 0 < n then bestMatch t classes (some (Match.longer best ⟨kind, n, h⟩))
      else bestMatch t classes best

end Descent.Token
