/-!
# Settings

The choices that a user of the parser has: what becomes of comments, how far rules may look ahead
and nest, which of several matches and which of several errors count, and what lies past the end.
-/

namespace Descent

/-- Which match an ordered choice keeps when several branches match. -/
inductive TieBreak where
  /-- That of the first branch that matches. Later branches are not tried. -/
  | firstMatch
  /-- The match that goes furthest, and of those that of the first branch. -/
  | longestParse
deriving DecidableEq, Repr, Inhabited

/-- Which error a choice reports when no branch matches. -/
inductive FailureSelection where
  /-- The one furthest on, abandoned attempts included. -/
  | furthest
  /-- The first. Abandoned attempts leave no trace. -/
  | first
deriving DecidableEq, Repr, Inhabited

/-- What it means to go on at the end of the input. -/
inductive PastEnd where
  /-- To stay there. -/
  | saturate
  /-- An error. -/
  | fail
deriving DecidableEq, Repr, Inhabited

/-- The choices that a user of the parser has. -/
structure Settings where
  /-- Whether white space and comments are kept as tokens. -/
  emitTrivia : Bool := false
  /-- The number of tokens, counted from the current one, that a rule may look at. -/
  lookaheadDepth : Nat := 1
  /-- How deep rules may nest, if there is a limit. -/
  maxDepth : Option Nat := none
  /-- Which match a choice keeps. -/
  tieBreak : TieBreak := .firstMatch
  /-- Which error a choice reports. -/
  failureSelection : FailureSelection := .furthest
  /-- What it means to go on at the end of the input. -/
  advancePastEnd : PastEnd := .saturate
deriving DecidableEq, Repr, Inhabited

/-- Settings under which no rule could look at a token are of no use. -/
def Settings.Usable (s : Settings) : Prop := 0 < s.lookaheadDepth

instance (s : Settings) : Decidable s.Usable := inferInstanceAs (Decidable (0 < s.lookaheadDepth))

end Descent
