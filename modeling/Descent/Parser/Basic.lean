import Descent.Input

/-!
# Parsers

A parser is a function from an input to a value and the input that follows, or to an error. This
module has the parsers for single tokens and those that put parsers one after the other. A parser
never changes the input it is given, so trying another one on the same input needs nothing to be
undone.
-/

namespace Descent

/-- Reads a value off an input. -/
def Parser (α : Type) : Type := Input → Except ParseError (α × Input)

namespace Parser

variable {α β : Type}

/-- The value `a`, with nothing read. -/
protected def pure (a : α) : Parser α := fun s => .ok (a, s)

/-- First `p`, then what `f` makes of its value. -/
protected def bind (p : Parser α) (f : α → Parser β) : Parser β := fun s =>
  match p s with
  | .ok (a, t) => f a t
  | .error e => .error e

instance : Monad Parser where
  pure := Parser.pure
  bind := Parser.bind

/-- Both parsers in turn, for both values. -/
def both (p : Parser α) (q : Parser β) : Parser (α × β) := do
  let a ← p
  let b ← q
  return (a, b)

/-- The token ahead, whatever it is. -/
def any : Parser Token := fun s =>
  match s.advance with
  | .ok t => .ok (s.current, t)
  | .error e => .error e

/-- A token of this kind. -/
def token (kind : Token.Kind) : Parser Token := fun s =>
  if s.current.kind = kind then any s else .error (s.unexpected (.token kind))

/-- The end of the input. -/
def eoi : Parser Unit := fun s =>
  if s.atEnd then .ok ((), s) else .error (s.unexpected (.token .eof))

/-- The token `k` places ahead, with nothing read. -/
def lookahead (k : Nat) : Parser Token := fun s =>
  match s.lookahead k with
  | .ok t => .ok (t, s)
  | .error e => .error e

/-- The position of the token ahead, with nothing read. -/
def here : Parser Position := fun s => .ok (s.current.span.start, s)

/-- No match, for this cause. -/
def fail (cause : ParseError.Cause) : Parser α := fun s => .error (s.error cause)

/-- No match, since something else was expected. -/
def expect (e : Expectation) : Parser α := fun s => .error (s.unexpected e)

/-- Turns the value of `p` into another. If there is none, `p` does not match, and the error is at
the place where `p` began. -/
def refine (f : α → Except ParseError.Cause β) (p : Parser α) : Parser β := fun s =>
  match p s with
  | .ok (a, t) =>
    match f a with
    | .ok b => .ok (b, t)
    | .error cause => .error (s.error cause)
  | .error e => .error e

/-- Gives the phrase that `p` reads a name. An error at its first token says only that this phrase
was expected. -/
def named (name : String) (p : Parser α) : Parser α := fun s =>
  match p s with
  | .ok r => .ok r
  | .error e => .error (if e.index = s.position then { e with expected := {.phrase name} } else e)

/-- Runs `p` one level of nesting deeper. -/
def nest (p : Parser α) : Parser α := fun s =>
  match s.descend with
  | .error e => .error e
  | .ok inner =>
    match p inner with
    | .ok (a, t) => .ok (a, t.atDepth s.depth)
    | .error e => .error e

end Parser

end Descent
