import Descent.Source.Position
import Descent.Text.Quoted

/-!
# Lexical errors

Why a text cannot be cut into tokens.
-/

namespace Descent

/-- What is wrong with the text. -/
inductive LexError.Cause where
  /-- No token begins with this character. -/
  | strayCharacter
  /-- A comment is opened and nowhere closed. -/
  | unclosedComment
deriving DecidableEq, Repr

/-- The place where a text stops being a sequence of tokens. -/
structure LexError where
  /-- Where the last token before it ends. -/
  position : Position
  /-- The character that stands there. -/
  found : Char
  /-- What is wrong. -/
  cause : LexError.Cause
deriving DecidableEq, Repr

/-- The text of the message. -/
instance : ToString LexError where
  toString e :=
    let fault := match e.cause with
      | .strayCharacter => s!"unexpected character {Text.quoted e.found}"
      | .unclosedComment => "unterminated block comment"
    s!"lex error at {e.position}: {fault}"

end Descent
