import Descent.Diagnostic.Basic
import Descent.Token.Scan

/-!
# What a parser reads

A `Tape` holds the tokens of a text: those that rules see, the one that marks the end, and apart
from them white space and comments. An `Input` is a place on a tape, with the depth of nesting
reached there and the furthest error of the attempts given up so far. That error serves messages
alone: it never decides how parsing goes on. Inputs are values: an attempt that fails leaves the
input it started from.
-/

namespace Descent

/-- The tokens of a text, sorted for parsing. -/
structure Tape where
  /-- The tokens that rules see, without the end. -/
  tokens : Array Token
  /-- The token that marks the end. -/
  eof : Token
  /-- White space and comments. -/
  trivia : List Token
  /-- Rules see neither trivia nor an end before the end. -/
  tokens_significant : ∀ t ∈ tokens, t.kind ≠ .eof ∧ ¬t.kind.isTrivia
  /-- The end is an end. -/
  eof_kind : eof.kind = .eof
deriving DecidableEq, Repr

namespace Tape

/-- The position after the last token of either list, or the start of the text. -/
def endOf (significant trivia : List Token) : Position :=
  match significant.getLast?, trivia.getLast? with
  | some t, some u => max t.span.stop u.span.stop
  | some t, none => t.span.stop
  | none, some u => u.span.stop
  | none, none => .start

/-- The first end among the tokens, or one after the last of them if they have none. -/
def eofOf (tokens : List Token) : Token :=
  let significant := tokens.filter (!·.kind.isTrivia)
  (significant.find? (·.kind = .eof)).getD
    (.eofAt (endOf significant (tokens.filter (·.kind.isTrivia))))

theorem eofOf_kind (tokens : List Token) : (eofOf tokens).kind = .eof := by
  simp only [eofOf]
  cases h : (tokens.filter (!·.kind.isTrivia)).find? (·.kind = .eof) with
  | none => rfl
  | some t => simpa using List.find?_some h

/-- Sorts tokens. Ends after the first are dropped. -/
def ofTokens (tokens : List Token) : Tape where
  tokens := (tokens.filter fun t => t.kind ≠ .eof && !t.kind.isTrivia).toArray
  eof := eofOf tokens
  trivia := tokens.filter (·.kind.isTrivia)
  tokens_significant t ht := by simp_all
  eof_kind := eofOf_kind tokens

/-- All tokens that rules see, and the end. -/
def toList (tape : Tape) : List Token := tape.tokens.toList ++ [tape.eof]

end Tape

/-- A place on a tape. -/
structure Input where
  /-- The tokens. -/
  tape : Tape
  /-- The settings of the parser. -/
  settings : Settings
  /-- The number of tokens behind. -/
  position : Nat := 0
  /-- The number of nested phrases around this place. -/
  depth : Nat := 0
  /-- The furthest error of the attempts given up. -/
  furthest : Option ParseError := none
  /-- The place is on the tape. -/
  position_le : position ≤ tape.tokens.size := by exact Nat.zero_le _
deriving DecidableEq, Repr

namespace Input

/-- The start of a tape with these tokens. -/
def ofTokens (settings : Settings) (tokens : List Token) : Input where
  tape := .ofTokens tokens
  settings := settings

/-- The start of a text. -/
def ofText (settings : Settings) (text : List Char) : Except LexError Input :=
  match Token.ofText settings text with
  | .ok tokens => .ok (ofTokens settings tokens)
  | .error e => .error e

/-- The number of tokens ahead, without the end. -/
def left (s : Input) : Nat := s.tape.tokens.size - s.position

/-- Whether only the end lies ahead. -/
def atEnd (s : Input) : Bool := s.position == s.tape.tokens.size

/-- The token `k` places ahead, which from the end on is the end. -/
def peek (s : Input) (k : Nat) : Token := s.tape.tokens[s.position + k]?.getD s.tape.eof

/-- The token ahead. -/
def current (s : Input) : Token := s.peek 0

/-- The tokens ahead, with the end. -/
def ahead (s : Input) : List Token := s.tape.tokens.toList.drop s.position ++ [s.tape.eof]

/-- Joins an error with the furthest one, where that one counts. -/
def report (s : Input) (e : ParseError) : ParseError :=
  match s.settings.failureSelection with
  | .furthest => e.join? s.furthest
  | .first => e

/-- The error with this cause at the token ahead. -/
def error (s : Input) (cause : ParseError.Cause) : ParseError :=
  s.report ⟨s.current.span.start, s.position, ∅, s.current.kind, cause⟩

/-- The error that something else was expected than the token ahead. -/
def unexpected (s : Input) (e : Expectation) : ParseError :=
  s.report ⟨s.current.span.start, s.position, {e}, s.current.kind, .unexpectedToken⟩

/-- The token `k` places ahead, if the settings allow to look that far. -/
def lookahead (s : Input) (k : Nat) : Except ParseError Token :=
  if k < s.settings.lookaheadDepth then .ok (s.peek k) else .error (s.error .beyondLookahead)

/-- The place one token further on. -/
def advance (s : Input) : Except ParseError Input :=
  if h : s.position < s.tape.tokens.size then
    .ok { s with position := s.position + 1, position_le := h }
  else
    match s.settings.advancePastEnd with
    | .saturate => .ok s
    | .fail => .error (s.error .pastEnd)

/-- The same place, with this depth of nesting. -/
def atDepth (s : Input) (depth : Nat) : Input := { s with depth }

/-- The same place, one level deeper, if the settings allow it. -/
def descend (s : Input) : Except ParseError Input :=
  if s.settings.maxDepth.any (· < s.depth + 1) then .error (s.error .tooDeep)
  else .ok (s.atDepth (s.depth + 1))

/-- Records the error of an attempt that was given up. Of what is recorded, the furthest is kept; if
the settings select first errors, nothing is. -/
def record (s : Input) (e : ParseError) : Input :=
  match s.settings.failureSelection with
  | .first => s
  | .furthest =>
    match s.furthest with
    | none => { s with furthest := some e }
    | some f => if e.index < f.index then s else { s with furthest := some (e.join f) }

/-- Records an error, if there is one. -/
def record? (s : Input) : Option ParseError → Input
  | none => s
  | some e => s.record e

end Input

end Descent
