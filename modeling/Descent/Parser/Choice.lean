import Descent.Parser.Basic

/-!
# Choice between parsers

`choice` tries parsers on the same input. Which match counts is a setting: that of the first branch
that matches, or the longest. The errors of the branches that do not match become one error; if
another branch matches, that error is recorded on the input that follows.
-/

namespace Descent.Parser

variable {α : Type}

/-- The error of some branches, with that of one more. -/
def blame (selection : FailureSelection) : Option ParseError → ParseError → ParseError
  | none, e => e
  | some first, e =>
    match selection with
    | .first => first
    | .furthest => first.join e

/-- The match that went further, the first if they went equally far. -/
def longer : Option (α × Input) → α × Input → α × Input
  | none, m => m
  | some best, m => if best.2.position < m.2.position then m else best

/-- Tries parsers on `s`, given the error and the longest match of the branches before them. -/
def choiceFrom (s : Input) (failure : Option ParseError) (best : Option (α × Input)) :
    List (Parser α) → Except ParseError (α × Input)
  | [] =>
    match best with
    | some (a, t) => .ok (a, t.record? failure)
    | none => .error (failure.getD (s.error .unexpectedToken))
  | p :: ps =>
    match p s with
    | .error e => choiceFrom s (some (blame s.settings.failureSelection failure e)) best ps
    | .ok (a, t) =>
      match s.settings.tieBreak with
      | .firstMatch => .ok (a, t.record? failure)
      | .longestParse => choiceFrom s failure (some (longer best (a, t))) ps

/-- One of the parsers. -/
def choice (ps : List (Parser α)) : Parser α := fun s => choiceFrom s none none ps

/-- What `p` reads, or nothing. -/
def optional (p : Parser α) : Parser (Option α) := choice [some <$> p, pure none]

end Descent.Parser
