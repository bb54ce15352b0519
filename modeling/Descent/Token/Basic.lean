import Descent.Source.Position

/-!
# Tokens

The kinds of token, in the order in which messages list them, and tokens themselves: a kind, the
characters read, and where they stand.
-/

namespace Descent

/-- A lexical class. -/
inductive Token.Kind where
  | integer
  | identifier
  | kwLet
  | kwReturn
  | kwFn
  | kwIf
  | kwElse
  | kwTrue
  | kwFalse
  | assign
  | equal
  | notEqual
  | bang
  | plus
  | minus
  | star
  | slash
  | less
  | greater
  | comma
  | semicolon
  | openParen
  | closeParen
  | openBrace
  | closeBrace
  | whiteSpace
  | comment
  /-- The end of the input, which has no characters. -/
  | eof
deriving DecidableEq, Repr, Inhabited

namespace Token.Kind

/-- The number of kinds listed before this one. -/
def rank (k : Kind) : Nat := k.ctorIdx

theorem rank_injective {k l : Kind} (h : k.rank = l.rank) : k = l := by
  rw [← ofNat_ctorIdx k, ← ofNat_ctorIdx l]
  exact congrArg ofNat h

/-- Kinds that separate tokens and that no grammar rule sees. -/
def isTrivia : Kind → Bool
  | whiteSpace | comment => true
  | _ => false

/-- What a message calls the kind. -/
def description : Kind → String
  | integer => "integer"
  | identifier => "identifier"
  | kwLet => "'let'"
  | kwReturn => "'return'"
  | kwFn => "'fn'"
  | kwIf => "'if'"
  | kwElse => "'else'"
  | kwTrue => "'true'"
  | kwFalse => "'false'"
  | assign => "'='"
  | equal => "'=='"
  | notEqual => "'!='"
  | bang => "'!'"
  | plus => "'+'"
  | minus => "'-'"
  | star => "'*'"
  | slash => "'/'"
  | less => "'<'"
  | greater => "'>'"
  | comma => "','"
  | semicolon => "';'"
  | openParen => "'('"
  | closeParen => "')'"
  | openBrace => "'\x7b'"
  | closeBrace => "'\x7d'"
  | whiteSpace => "whitespace"
  | comment => "comment"
  | eof => "end of input"

instance : ToString Kind := ⟨description⟩

end Token.Kind

/-- A piece of the source text with its lexical class. -/
structure Token where
  /-- The lexical class. -/
  kind : Token.Kind
  /-- The characters read. -/
  lexeme : List Char
  /-- Where they stand. -/
  span : Span
deriving DecidableEq, Repr

namespace Token

/-- The end of the input at `p`. -/
def eofAt (p : Position) : Token := ⟨.eof, [], ⟨p, p⟩⟩

/-- A token in a message: numerals and identifiers show what was read. -/
instance : ToString Token where
  toString t := match t.kind with
    | .integer | .identifier => s!"{t.kind} '{String.ofList t.lexeme}'"
    | k => k.description

end Token

end Descent
