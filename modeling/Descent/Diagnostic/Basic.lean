import Descent.Diagnostic.Lexical
import Descent.Diagnostic.Syntactic

/-!
# Diagnostics

All that can be wrong with a source text: it is no sequence of tokens, or its tokens do not match
the grammar.
-/

namespace Descent

/-- What is wrong with a source text. -/
inductive Diagnostic where
  /-- It cannot be cut into tokens. -/
  | lexical (error : LexError)
  /-- Its tokens do not match the grammar. -/
  | syntactic (error : ParseError)
deriving DecidableEq, Repr

/-- The text of the message. -/
instance : ToString Diagnostic where
  toString
    | .lexical e => toString e
    | .syntactic e => toString e

end Descent
