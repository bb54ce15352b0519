import Descent.Diagnostic.Expectation

/-!
# Syntax errors

Why a sequence of tokens does not match a rule. An error points at a token by its index in the
input; of several errors the one with the greatest index says most, so `join` keeps that one, and
unites what was expected where two errors point at the same token.
-/

namespace Descent

/-- What went wrong at a token. -/
inductive ParseError.Cause where
  /-- The token is none of those expected. -/
  | unexpectedToken
  /-- The token is a literal that stands for no value. -/
  | invalidLiteral
  /-- The token would open one level of nesting too many. -/
  | tooDeep
  /-- A token further ahead was asked for than may be looked at. -/
  | beyondLookahead
  /-- One more token was asked for at the end of the input. -/
  | pastEnd
deriving DecidableEq, Repr, Inhabited

/-- A token at which a rule does not match. -/
structure ParseError where
  /-- Where the token begins. -/
  position : Position
  /-- The number of tokens before it. -/
  index : Nat
  /-- What was expected in its place. -/
  expected : Expectations
  /-- The kind of the token. -/
  found : Token.Kind
  /-- What went wrong. -/
  cause : ParseError.Cause
deriving DecidableEq, Repr

namespace ParseError

/-- The first of two causes that says more than that the token is unexpected. -/
def Cause.orElse : Cause → Cause → Cause
  | unexpectedToken, d => d
  | c, _ => c

/-- Of two errors the one further on; of two at the same token the first, with what either expected
and with the more telling cause. -/
def join (e f : ParseError) : ParseError :=
  if e.index < f.index then f
  else if e.index = f.index then
    { e with expected := e.expected ∪ f.expected, cause := e.cause.orElse f.cause }
  else e

/-- The error joined with a second one, if there is a second. -/
def join? (e : ParseError) : Option ParseError → ParseError
  | none => e
  | some f => e.join f

/-- What went wrong, in words. -/
def fault (e : ParseError) : String :=
  match e.cause with
  | .unexpectedToken =>
    if e.expected.isEmpty then s!"unexpected {e.found}"
    else s!"expected {e.expected.listing}, found {e.found}"
  | .invalidLiteral => s!"invalid {e.found} literal"
  | .tooDeep => "maximum nesting depth exceeded"
  | .beyondLookahead => "lookahead depth exceeded"
  | .pastEnd => "advanced past end of input"

/-- The text of the message. -/
instance : ToString ParseError where
  toString e := s!"parse error at {e.position}: {e.fault}"

end ParseError

end Descent
