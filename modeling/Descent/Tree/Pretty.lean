import Descent.Text.Decimal
import Descent.Tree.Basic

/-!
# The canonical text of a tree

Every operator stands in parentheses with its operands, so the text shows how the tree is built, and
the parentheses of the source can be left out. Statements stand on lines of their own and end in
semicolons; those of a block are indented by four spaces.
-/

namespace Descent

/-- The characters of an operator before its operand. -/
def UnaryOp.symbol : UnaryOp → List Char
  | not => ['!']
  | negate => ['-']

/-- The characters of an operator between its operands. -/
def BinaryOp.symbol : BinaryOp → List Char
  | add => ['+']
  | sub => ['-']
  | mul => ['*']
  | div => ['/']
  | equal => ['=', '=']
  | notEqual => ['!', '=']
  | less => ['<']
  | greater => ['>']

/-!
The functions below write a tree in front of the text `tail` that follows it, so that each character
is placed once, however deep the tree is.
-/

namespace Pretty

/-- The space before a statement inside `depth` blocks. -/
def indent (depth : Nat) (tail : List Char) : List Char := List.replicate (4 * depth) ' ' ++ tail

/-- A truth value. -/
def boolean : Bool → List Char → List Char
  | true, tail => ['t', 'r', 'u', 'e'] ++ tail
  | false, tail => ['f', 'a', 'l', 's', 'e'] ++ tail

/-- The names behind the first one in a list of parameters. -/
def moreNames : List Ident → List Char → List Char
  | [], tail => tail
  | i :: is, tail => [',', ' '] ++ i.name ++ moreNames is tail

/-- The names in a list of parameters. -/
def names : List Ident → List Char → List Char
  | [], tail => tail
  | i :: is, tail => i.name ++ moreNames is tail

mutual

/-- An expression inside `depth` blocks. -/
def expr (depth : Nat) : Expr → List Char → List Char
  | .integer n _, tail => Text.Decimal.ofInt64 n ++ tail
  | .boolean b _, tail => boolean b tail
  | .var i, tail => i.name ++ tail
  | .unary op e _, tail => ['('] ++ op.symbol ++ expr depth e ([')'] ++ tail)
  | .binary op e f _, tail =>
    ['('] ++ expr depth e ([' '] ++ op.symbol ++ [' '] ++ expr depth f ([')'] ++ tail))
  | .call e args _, tail => expr depth e (['('] ++ exprs depth args ([')'] ++ tail))
  | .group e _, tail => expr depth e tail
  | .cond e b none _, tail =>
    ['i', 'f', ' ', '('] ++ expr depth e ([')', ' '] ++ block depth b tail)
  | .cond e b (some c) _, tail =>
    ['i', 'f', ' ', '('] ++ expr depth e ([')', ' '] ++ block depth b
      ([' ', 'e', 'l', 's', 'e', ' '] ++ block depth c tail))
  | .function params b _, tail =>
    ['f', 'n', '('] ++ names params ([')', ' '] ++ block depth b tail)

/-- The expressions in a list of arguments. -/
def exprs (depth : Nat) : List Expr → List Char → List Char
  | [], tail => tail
  | e :: es, tail => expr depth e (moreExprs depth es tail)

/-- The expressions behind the first one in a list of arguments. -/
def moreExprs (depth : Nat) : List Expr → List Char → List Char
  | [], tail => tail
  | e :: es, tail => [',', ' '] ++ expr depth e (moreExprs depth es tail)

/-- A statement inside `depth` blocks, without the space before it. -/
def stmt (depth : Nat) : Stmt → List Char → List Char
  | .bind i e _, tail =>
    ['l', 'e', 't', ' '] ++ i.name ++ [' ', '=', ' '] ++ expr depth e ([';'] ++ tail)
  | .ret e _, tail => ['r', 'e', 't', 'u', 'r', 'n', ' '] ++ expr depth e ([';'] ++ tail)
  | .eval e _, tail => expr depth e ([';'] ++ tail)

/-- The lines of statements inside `depth` blocks. -/
def stmts (depth : Nat) : List Stmt → List Char → List Char
  | [], tail => tail
  | s :: ss, tail => indent depth (stmt depth s (['\n'] ++ stmts depth ss tail))

/-- A block inside `depth` others. -/
def block (depth : Nat) : Block → List Char → List Char
  | .mk [] _, tail => ['{', '}'] ++ tail
  | .mk (s :: ss) _, tail =>
    ['{', '\n'] ++ stmts (depth + 1) (s :: ss) (indent depth (['}'] ++ tail))

end

end Pretty

/-- The canonical text of an expression. -/
def Expr.pretty (e : Expr) : List Char := Pretty.expr 0 e []

/-- The canonical text of a statement. -/
def Stmt.pretty (s : Stmt) : List Char := Pretty.stmt 0 s []

/-- The canonical text of a block. -/
def Block.pretty (b : Block) : List Char := Pretty.block 0 b []

/-- The canonical text of a program: a line for each statement. -/
def Program.pretty (p : Program) : List Char := Pretty.stmts 0 p.statements []

instance : ToString Expr := ⟨fun e => String.ofList e.pretty⟩

instance : ToString Stmt := ⟨fun s => String.ofList s.pretty⟩

instance : ToString Block := ⟨fun b => String.ofList b.pretty⟩

instance : ToString Program := ⟨fun p => String.ofList p.pretty⟩

end Descent
