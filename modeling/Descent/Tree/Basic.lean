import Descent.Source.Position

/-!
# Syntax trees

The tree of a program. Every node has the span of the tokens it was read from. Parentheses that
group an expression are kept as nodes of their own.
-/

namespace Descent

/-- A name. -/
structure Ident where
  /-- Its characters. -/
  name : List Char
  /-- Where it stands. -/
  span : Span
deriving DecidableEq, Repr

/-- An operator before its operand. -/
inductive UnaryOp where
  | not
  | negate
deriving DecidableEq, Repr

/-- An operator between its operands. -/
inductive BinaryOp where
  | add
  | sub
  | mul
  | div
  | equal
  | notEqual
  | less
  | greater
deriving DecidableEq, Repr

mutual

/-- An expression. -/
inductive Expr where
  /-- A numeral. -/
  | integer (value : Int64) (span : Span)
  /-- A truth value. -/
  | boolean (value : Bool) (span : Span)
  /-- A variable. -/
  | var (ident : Ident)
  /-- An operator and its operand. -/
  | unary (op : UnaryOp) (operand : Expr) (span : Span)
  /-- An operator between two operands. -/
  | binary (op : BinaryOp) (left right : Expr) (span : Span)
  /-- A call of a function. -/
  | call (callee : Expr) (args : List Expr) (span : Span)
  /-- An expression in parentheses, which belong to the span. -/
  | group (inner : Expr) (span : Span)
  /-- The value of one of two blocks. -/
  | cond (condition : Expr) (consequence : Block) (alternative : Option Block) (span : Span)
  /-- A function. -/
  | function (params : List Ident) (body : Block) (span : Span)

/-- A statement, whose span has the semicolon in it if there is one. -/
inductive Stmt where
  /-- Gives a value a name. -/
  | bind (ident : Ident) (value : Expr) (span : Span)
  /-- Leaves the function with a value. -/
  | ret (value : Expr) (span : Span)
  /-- An expression for its own sake. -/
  | eval (value : Expr) (span : Span)

/-- Statements in braces, which belong to the span. -/
inductive Block where
  | mk (statements : List Stmt) (span : Span)

end

/-- A whole program. -/
structure Program where
  /-- Its statements. -/
  statements : List Stmt
  /-- From its first token to the end. -/
  span : Span

/-- Where the expression stands. -/
def Expr.span : Expr → Span
  | integer _ s | boolean _ s | unary _ _ s | binary _ _ _ s | call _ _ s | group _ s | cond _ _ _ s
  | function _ _ s => s
  | var i => i.span

/-- The name of the form of the expression. -/
def Expr.form : Expr → String
  | integer .. => "Integer"
  | boolean .. => "Boolean"
  | var .. => "Variable"
  | unary .. => "Prefix"
  | binary .. => "Binary"
  | call .. => "Call"
  | group .. => "Group"
  | cond .. => "If"
  | function .. => "Function"

/-- The expression inside all grouping parentheses. -/
def Expr.ungrouped : Expr → Expr
  | group inner _ => inner.ungrouped
  | e => e

/-- Where the statement stands. -/
def Stmt.span : Stmt → Span
  | bind _ _ s | ret _ s | eval _ s => s

/-- The statements between the braces. -/
def Block.statements : Block → List Stmt
  | mk statements _ => statements

/-- Where the block stands. -/
def Block.span : Block → Span
  | mk _ s => s

end Descent
