import Descent.Parser.Repeat
import Descent.Tree.Basic

/-!
# Rules

A rule is a parser written down as data, so that a statement about all rules can be proved by
induction over how they are built. Rules may refer to phrases of the language by name and so be
recursive; what a name stands for is given only when a rule is run. `Rule.run` reads a rule as a
parser.
-/

namespace Descent

/-- The phrases of the language that rules refer to by name. -/
inductive Phrase where
  | expression
  | unary
  | statement
  | block
deriving DecidableEq, Repr

/-- The type of the trees of a phrase. -/
@[reducible] def Phrase.Value : Phrase → Type
  | expression | unary => Expr
  | statement => Stmt
  | block => Block

/-- A description of how a value is read off an input. -/
inductive Rule : Type → Type 1 where
  /-- The value, with nothing read. -/
  | pure {α : Type} (a : α) : Rule α
  /-- First a rule, then what `f` makes of its value. -/
  | bind {α β : Type} (r : Rule α) (f : α → Rule β) : Rule β
  /-- A token of this kind. -/
  | token (kind : Token.Kind) : Rule Token
  /-- The token ahead, whatever it is. -/
  | any : Rule Token
  /-- The end of the input. -/
  | eoi : Rule Unit
  /-- The token `k` places ahead, with nothing read. -/
  | lookahead (k : Nat) : Rule Token
  /-- The position of the token ahead, with nothing read. -/
  | here : Rule Position
  /-- No match, for this cause. -/
  | fail {α : Type} (cause : ParseError.Cause) : Rule α
  /-- No match, since something else was expected. -/
  | expect {α : Type} (e : Expectation) : Rule α
  /-- Turns the value of a rule into another, or says why there is none. -/
  | refine {α β : Type} (f : α → Except ParseError.Cause β) (r : Rule α) : Rule β
  /-- A phrase with a name for messages. -/
  | named {α : Type} (name : String) (r : Rule α) : Rule α
  /-- One of `n` rules. -/
  | oneOf {α : Type} (n : Nat) (rs : Fin n → Rule α) : Rule α
  /-- A rule one level of nesting deeper. -/
  | nest {α : Type} (r : Rule α) : Rule α
  /-- As many matches of a rule as follow one another, but at least `min`. -/
  | atLeast {α : Type} (min : Nat) (r : Rule α) : Rule (List α)
  /-- What a rule reads, extended by `f` as far as it goes. -/
  | extend {α : Type} (r : Rule α) (f : α → Rule (Option α)) : Rule α
  /-- The phrase of the language with this name. -/
  | call (p : Phrase) : Rule p.Value

namespace Rule

variable {α β : Type}

instance : Monad Rule where
  pure := Rule.pure
  bind := Rule.bind

/-- Both rules in turn, for both values. -/
def both (r : Rule α) (q : Rule β) : Rule (α × β) := do
  let a ← r
  let b ← q
  return (a, b)

/-- One of the rules. -/
def choice (rs : List (Rule α)) : Rule α := oneOf rs.length rs.get

/-- What a rule reads, or nothing. -/
def optional (r : Rule α) : Rule (Option α) := choice [some <$> r, pure none]

/-- Any number of matches of a rule. -/
def many (r : Rule α) : Rule (List α) := atLeast 0 r

/-- One match of a rule or more. -/
def many1 (r : Rule α) : Rule (List α) := atLeast 1 r

/-- Any number of matches of `item`, with one of `separator` between any two. -/
def sepBy (item : Rule α) (separator : Rule β) : Rule (List α) := do
  match ← optional (both item (many (separator *> item))) with
  | some (a, as) => return a :: as
  | none => return []

/-- The rule as a parser, where `parse` reads the phrases that it refers to by name. -/
def run (parse : (p : Phrase) → Parser p.Value) : {α : Type} → Rule α → Parser α
  | _, .pure a => Parser.pure a
  | _, .bind r f => Parser.bind (r.run parse) fun a => (f a).run parse
  | _, .token kind => Parser.token kind
  | _, .any => Parser.any
  | _, .eoi => Parser.eoi
  | _, .lookahead k => Parser.lookahead k
  | _, .here => Parser.here
  | _, .fail cause => Parser.fail cause
  | _, .expect e => Parser.expect e
  | _, .refine f r => Parser.refine f (r.run parse)
  | _, .named name r => Parser.named name (r.run parse)
  | _, .oneOf _ rs => Parser.choice (List.ofFn fun i => (rs i).run parse)
  | _, .nest r => Parser.nest (r.run parse)
  | _, .atLeast min r => Parser.atLeast min (r.run parse)
  | _, .extend r f => Parser.extend (r.run parse) fun a => (f a).run parse
  | _, .call p => parse p

end Rule

end Descent
