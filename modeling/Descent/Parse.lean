import Descent.Grammar

/-!
# Parsing

The rules of the grammar refer to one another, and reading a phrase means running its rule with the
same reading for the phrases in it. That ends because between a phrase and a phrase inside it,
either a token is read or the phrase is simpler: an expression inside a statement, a unary
expression inside an expression. `steps` bounds how often that can happen.
-/

namespace Descent

/-- Reads a phrase in which phrases are nested less than `n` deep. -/
def Phrase.parseWithin : Nat → (p : Phrase) → Parser p.Value
  | 0, _ => Parser.fail .unexpectedToken
  | n + 1, p => p.rule.run (parseWithin n)

/-- More than phrases can be nested in what is left of the input: three at each token. -/
def Input.steps (s : Input) : Nat := 3 * s.left + 3

/-- Reads a phrase. -/
def Phrase.parse (p : Phrase) : Parser p.Value := fun s => p.parseWithin s.steps s

/-- Reads what a rule describes. -/
def Rule.parse {α : Type} (r : Rule α) : Parser α := r.run Phrase.parse

/-- Reads a text that a rule describes from beginning to end. -/
def Rule.parseText {α : Type} (r : Rule α) (settings : Settings) (text : List Char) :
    Except Diagnostic α :=
  match Input.ofText settings text with
  | .error e => .error (.lexical e)
  | .ok s =>
    match r.parse s with
    | .error e => .error (.syntactic e)
    | .ok (a, _) => .ok a

/-- The program that a text is. -/
def Program.parse (settings : Settings) (text : List Char) : Except Diagnostic Program :=
  Grammar.program.parseText settings text

/-- The expression that a text is. -/
def Expr.parse (settings : Settings) (text : List Char) : Except Diagnostic Expr :=
  (Grammar.expression <* Rule.eoi).parseText settings text

end Descent
