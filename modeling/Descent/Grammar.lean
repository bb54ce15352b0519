import Descent.Rule
import Descent.Text.Decimal

/-!
# The grammar of the language

The rules for the phrases of the language:

    program     := statement* end
    statement   := "let" IDENT "=" expression ";"? | "return" expression ";"? | expression ";"?
    block       := "{" statement* "}"
    expression  := comparison (("==" | "!=") comparison)*
    comparison  := sum (("<" | ">") sum)*
    sum         := product (("+" | "-") product)*
    product     := unary (("*" | "/") unary)*
    unary       := ("!" | "-") unary | call
    call        := primary arguments*
    arguments   := "(" (expression ("," expression)*)? ")"
    primary     := INTEGER | "true" | "false" | IDENT | "(" expression ")" | conditional | function
    conditional := "if" "(" expression ")" block ("else" block)?
    function    := "fn" "(" (IDENT ("," IDENT)*)? ")" block

Parentheses and braces nest, and so do operands of unary operators; the parentheses around the
parameters of a function do not.
-/

namespace Descent

namespace Grammar

open Rule

/-- A name. -/
def ident : Rule Ident := do
  let t ← token .identifier
  return ⟨t.lexeme, t.span⟩

/-- The value of a numeral. -/
def integerOf (t : Token) : Except ParseError.Cause Expr :=
  match Text.Decimal.toInt64? t.lexeme with
  | some n => .ok (.integer n t.span)
  | none => .error .invalidLiteral

/-- A numeral. -/
def integer : Rule Expr := refine integerOf (token .integer)

/-- A truth value. -/
def boolean : Rule Expr :=
  choice [
    do
      let t ← token .kwTrue
      return .boolean true t.span,
    do
      let t ← token .kwFalse
      return .boolean false t.span]

/-- An expression in parentheses. -/
def group : Rule Expr := nest do
  let opening ← token .openParen
  let inner ← call .expression
  let closing ← token .closeParen
  return .group inner (opening.span.join closing.span)

/-- A conditional expression. -/
def conditional : Rule Expr := do
  let keyword ← token .kwIf
  let condition ← nest (token .openParen *> call .expression <* token .closeParen)
  let consequence ← call .block
  let alternative ← optional (token .kwElse *> call .block)
  let last := alternative.getD consequence
  return .cond condition consequence alternative (keyword.span.join last.span)

/-- A function. -/
def function : Rule Expr := do
  let keyword ← token .kwFn
  let params ← token .openParen *> sepBy ident (token .comma) <* token .closeParen
  let body ← call .block
  return .function params body (keyword.span.join body.span)

/-- An expression without operators. -/
def primary : Rule Expr :=
  named "expression"
    (choice [integer, boolean, .var <$> ident, group, conditional, function])

/-- The arguments of a call, and the parenthesis that closes them. -/
def arguments : Rule (List Expr × Token) := nest do
  let args ← token .openParen *> sepBy (call .expression) (token .comma)
  let closing ← token .closeParen
  return (args, closing)

/-- A call that begins after `callee`, if one does. -/
def callOf (callee : Expr) : Rule (Option Expr) := do
  let t ← lookahead 0
  if t.kind = .openParen then
    let (args, closing) ← arguments
    return some (.call callee args (callee.span.join closing.span))
  else
    return none

/-- A primary expression, and calls of it. -/
def calls : Rule Expr := extend primary callOf

/-- The operator that a token before an operand is. -/
def unaryOp? : Token.Kind → Option UnaryOp
  | .bang => some .not
  | .minus => some .negate
  | _ => none

/-- An operand with the operators before it. -/
def unary : Rule Expr := do
  let t ← lookahead 0
  match unaryOp? t.kind with
  | none => calls
  | some op =>
    let _ ← any
    let operand ← nest (call .unary)
    return .unary op operand (t.span.join operand.span)

/-- An operator and a right operand after `left`, if they follow. -/
def operationOf (op? : Token.Kind → Option BinaryOp) (operand : Rule Expr) (left : Expr) :
    Rule (Option Expr) := do
  let t ← lookahead 0
  match op? t.kind with
  | none => return none
  | some op =>
    let _ ← any
    let right ← operand
    return some (.binary op left right (left.span.join right.span))

/-- Operands with operators of one level between them, grouped to the left. -/
def operations (op? : Token.Kind → Option BinaryOp) (operand : Rule Expr) : Rule Expr :=
  extend operand (operationOf op? operand)

/-- The operators of products. -/
def productOp? : Token.Kind → Option BinaryOp
  | .star => some .mul
  | .slash => some .div
  | _ => none

/-- The operators of sums. -/
def sumOp? : Token.Kind → Option BinaryOp
  | .plus => some .add
  | .minus => some .sub
  | _ => none

/-- The operators of comparisons. -/
def comparisonOp? : Token.Kind → Option BinaryOp
  | .less => some .less
  | .greater => some .greater
  | _ => none

/-- The operators of equations. -/
def equationOp? : Token.Kind → Option BinaryOp
  | .equal => some .equal
  | .notEqual => some .notEqual
  | _ => none

/-- Unary expressions, multiplied. -/
def product : Rule Expr := operations productOp? (call .unary)

/-- Products, added. -/
def sum : Rule Expr := operations sumOp? product

/-- Sums, compared. -/
def comparison : Rule Expr := operations comparisonOp? sum

/-- Comparisons, equated: any expression. -/
def expression : Rule Expr := operations equationOp? comparison

/-- The span of a statement whose last expression has the span `body`. -/
def terminated (start body : Span) (semicolon : Option Token) : Span :=
  start.join ((semicolon.map Token.span).getD body)

/-- A statement that gives a value a name. -/
def binding : Rule Stmt := do
  let keyword ← token .kwLet
  let i ← ident <* token .assign
  let value ← call .expression
  let semicolon ← optional (token .semicolon)
  return .bind i value (terminated keyword.span value.span semicolon)

/-- A statement that leaves a function. -/
def returning : Rule Stmt := do
  let keyword ← token .kwReturn
  let value ← call .expression
  let semicolon ← optional (token .semicolon)
  return .ret value (terminated keyword.span value.span semicolon)

/-- An expression as a statement. -/
def evaluation : Rule Stmt := do
  let value ← call .expression
  let semicolon ← optional (token .semicolon)
  return .eval value (terminated value.span value.span semicolon)

/-- A statement. -/
def statement : Rule Stmt := choice [binding, returning, evaluation]

/-- Statements in braces. -/
def block : Rule Block := nest do
  let opening ← token .openBrace
  let statements ← many (call .statement)
  let closing ← token .closeBrace
  return .mk statements (opening.span.join closing.span)

/-- A whole program. -/
def program : Rule Program := do
  let start ← here
  let statements ← many (call .statement) <* eoi
  let stop ← here
  return ⟨statements, ⟨start, stop⟩⟩

end Grammar

/-- The rule for a phrase. -/
def Phrase.rule : (p : Phrase) → Rule p.Value
  | expression => Grammar.expression
  | unary => Grammar.unary
  | statement => Grammar.statement
  | block => Grammar.block

end Descent
