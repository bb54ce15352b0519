import Descent.Proofs.Token.Matching
import Descent.Tree.Pretty

/-!
# What the text of a tree shows

The canonical text of a tree shows neither where it was read nor which parentheses stood in the
source. `erase` takes both out of a tree, and the text stays the same (`Program.pretty_erase`).
`words` are the tokens of the text, as kinds with lexemes. A tree is `Printable` if its names are
names and its integers have numerals without a sign: other trees have texts that are read as
something else.
-/

namespace Descent

/-- The name, standing nowhere. -/
def Ident.erase (i : Ident) : Ident := ⟨i.name, {}⟩

mutual

/-- The expression without grouping parentheses, standing nowhere. -/
def Expr.erase : Expr → Expr
  | .integer n _ => .integer n {}
  | .boolean b _ => .boolean b {}
  | .var i => .var i.erase
  | .unary op e _ => .unary op e.erase {}
  | .binary op e f _ => .binary op e.erase f.erase {}
  | .call e es _ => .call e.erase (Expr.eraseAll es) {}
  | .group e _ => e.erase
  | .cond e b none _ => .cond e.erase b.erase none {}
  | .cond e b (some c) _ => .cond e.erase b.erase (some c.erase) {}
  | .function is b _ => .function (is.map Ident.erase) b.erase {}

/-- The expressions without grouping parentheses, standing nowhere. -/
def Expr.eraseAll : List Expr → List Expr
  | [] => []
  | e :: es => e.erase :: Expr.eraseAll es

/-- The statement without grouping parentheses, standing nowhere. -/
def Stmt.erase : Stmt → Stmt
  | .bind i e _ => .bind i.erase e.erase {}
  | .ret e _ => .ret e.erase {}
  | .eval e _ => .eval e.erase {}

/-- The statements without grouping parentheses, standing nowhere. -/
def Stmt.eraseAll : List Stmt → List Stmt
  | [] => []
  | s :: ss => s.erase :: Stmt.eraseAll ss

/-- The block without grouping parentheses, standing nowhere. -/
def Block.erase : Block → Block
  | .mk ss _ => .mk (Stmt.eraseAll ss) {}

end

/-- The program without grouping parentheses, standing nowhere. -/
def Program.erase (p : Program) : Program := ⟨Stmt.eraseAll p.statements, {}⟩

/-! ## Printable trees -/

/-- The name can be read as one. -/
def Ident.Printable (i : Ident) : Prop := Token.IsName i.name

mutual

/-- Names in the expression are names, and no integer has a sign. -/
def Expr.Printable : Expr → Prop
  | .integer n _ => 0 ≤ n.toInt
  | .boolean .. => True
  | .var i => i.Printable
  | .unary _ e _ => e.Printable
  | .binary _ e f _ => e.Printable ∧ f.Printable
  | .call e es _ => e.Printable ∧ Expr.AllPrintable es
  | .group e _ => e.Printable
  | .cond e b none _ => e.Printable ∧ b.Printable
  | .cond e b (some c) _ => e.Printable ∧ b.Printable ∧ c.Printable
  | .function is b _ => (∀ i ∈ is, i.Printable) ∧ b.Printable

/-- All of the expressions are printable. -/
def Expr.AllPrintable : List Expr → Prop
  | [] => True
  | e :: es => e.Printable ∧ Expr.AllPrintable es

/-- Names in the statement are names, and no integer has a sign. -/
def Stmt.Printable : Stmt → Prop
  | .bind i e _ => i.Printable ∧ e.Printable
  | .ret e _ | .eval e _ => e.Printable

/-- All of the statements are printable. -/
def Stmt.AllPrintable : List Stmt → Prop
  | [] => True
  | s :: ss => s.Printable ∧ Stmt.AllPrintable ss

/-- Names in the block are names, and no integer has a sign. -/
def Block.Printable : Block → Prop
  | .mk ss _ => Stmt.AllPrintable ss

end

/-- Names in the program are names, and no integer has a sign. -/
def Program.Printable (p : Program) : Prop := Stmt.AllPrintable p.statements

/-! ## The tokens of the text -/

/-- A kind of token with a lexeme. -/
abbrev Word := Token.Kind × List Char

/-- The operator as a token. -/
def UnaryOp.word : UnaryOp → Word
  | not => (.bang, ['!'])
  | negate => (.minus, ['-'])

/-- The operator as a token. -/
def BinaryOp.word : BinaryOp → Word
  | add => (.plus, ['+'])
  | sub => (.minus, ['-'])
  | mul => (.star, ['*'])
  | div => (.slash, ['/'])
  | equal => (.equal, ['=', '='])
  | notEqual => (.notEqual, ['!', '='])
  | less => (.less, ['<'])
  | greater => (.greater, ['>'])

/-- Words in parentheses. -/
def Word.parens (ws : List Word) : List Word :=
  (.openParen, ['(']) :: (ws ++ [(.closeParen, [')'])])

/-- The name as a token. -/
def Ident.word (i : Ident) : Word := (.identifier, i.name)

/-- The tokens of the names behind the first one in a list of parameters. -/
def Ident.moreWords : List Ident → List Word
  | [] => []
  | i :: is => (.comma, [',']) :: i.word :: moreWords is

/-- The tokens of the names in a list of parameters. -/
def Ident.words : List Ident → List Word
  | [] => []
  | i :: is => i.word :: moreWords is

mutual

/-- The tokens of the text of an expression. -/
def Expr.words : Expr → List Word
  | .integer n _ => [(.integer, Text.Decimal.ofInt64 n)]
  | .boolean b _ =>
    [if b then (.kwTrue, ['t', 'r', 'u', 'e']) else (.kwFalse, ['f', 'a', 'l', 's', 'e'])]
  | .var i => [i.word]
  | .unary op e _ => Word.parens (op.word :: e.words)
  | .binary op e f _ => Word.parens (e.words ++ op.word :: f.words)
  | .call e es _ => e.words ++ Word.parens (Expr.argumentWords es)
  | .group e _ => e.words
  | .cond e b none _ => (.kwIf, ['i', 'f']) :: (Word.parens e.words ++ b.words)
  | .cond e b (some c) _ =>
    (.kwIf, ['i', 'f']) :: (Word.parens e.words ++
      (b.words ++ (.kwElse, ['e', 'l', 's', 'e']) :: c.words))
  | .function is b _ => (.kwFn, ['f', 'n']) :: (Word.parens (Ident.words is) ++ b.words)

/-- The tokens of the expressions in a list of arguments. -/
def Expr.argumentWords : List Expr → List Word
  | [] => []
  | e :: es => e.words ++ Expr.moreWords es

/-- The tokens of the expressions behind the first one in a list of arguments. -/
def Expr.moreWords : List Expr → List Word
  | [] => []
  | e :: es => (.comma, [',']) :: (e.words ++ Expr.moreWords es)

/-- The tokens of the text of a statement. -/
def Stmt.words : Stmt → List Word
  | .bind i e _ =>
    (.kwLet, ['l', 'e', 't']) :: i.word :: (.assign, ['=']) :: (e.words ++ [(.semicolon, [';'])])
  | .ret e _ => (.kwReturn, ['r', 'e', 't', 'u', 'r', 'n']) :: (e.words ++ [(.semicolon, [';'])])
  | .eval e _ => e.words ++ [(.semicolon, [';'])]

/-- The tokens of the text of several statements. -/
def Stmt.allWords : List Stmt → List Word
  | [] => []
  | s :: ss => s.words ++ Stmt.allWords ss

/-- The tokens of the text of a block. -/
def Block.words : Block → List Word
  | .mk ss _ => (.openBrace, ['\x7b']) :: (Stmt.allWords ss ++ [(.closeBrace, ['\x7d'])])

end

/-! ## The text without what it does not show -/

theorem Pretty.moreNames_erase (is : List Ident) (tail : List Char) :
    Pretty.moreNames (is.map Ident.erase) tail = Pretty.moreNames is tail := by
  induction is with
  | nil => rfl
  | cons i is ih => rw [List.map_cons, moreNames, moreNames, ih]; rfl

theorem Pretty.names_erase (is : List Ident) (tail : List Char) :
    Pretty.names (is.map Ident.erase) tail = Pretty.names is tail := by
  cases is with
  | nil => rfl
  | cons i is => rw [List.map_cons, names, names, moreNames_erase]; rfl

mutual

theorem Pretty.expr_erase (depth : Nat) : ∀ (e : Expr) (tail : List Char),
    Pretty.expr depth e.erase tail = Pretty.expr depth e tail
  | .integer .., _ | .boolean .., _ | .var _, _ => rfl
  | .unary op e _, tail => by
    rw [Expr.erase, Pretty.expr, Pretty.expr, expr_erase depth e]
  | .binary op e f _, tail => by
    rw [Expr.erase, Pretty.expr, Pretty.expr, expr_erase depth e, expr_erase depth f]
  | .call e es _, tail => by
    rw [Expr.erase, Pretty.expr, Pretty.expr, expr_erase depth e, exprs_erase depth es]
  | .group e _, tail => by
    rw [Expr.erase, Pretty.expr, expr_erase depth e]
  | .cond e b none _, tail => by
    rw [Expr.erase, Pretty.expr, Pretty.expr, expr_erase depth e, block_erase depth b]
  | .cond e b (some c) _, tail => by
    rw [Expr.erase, Pretty.expr, Pretty.expr, expr_erase depth e, block_erase depth b,
      block_erase depth c]
  | .function is b _, tail => by
    rw [Expr.erase, Pretty.expr, Pretty.expr, names_erase, block_erase depth b]

theorem Pretty.exprs_erase (depth : Nat) : ∀ (es : List Expr) (tail : List Char),
    Pretty.exprs depth (Expr.eraseAll es) tail = Pretty.exprs depth es tail
  | [], _ => rfl
  | e :: es, tail => by
    rw [Expr.eraseAll, Pretty.exprs, Pretty.exprs, expr_erase depth e, moreExprs_erase depth es]

theorem Pretty.moreExprs_erase (depth : Nat) : ∀ (es : List Expr) (tail : List Char),
    Pretty.moreExprs depth (Expr.eraseAll es) tail = Pretty.moreExprs depth es tail
  | [], _ => rfl
  | e :: es, tail => by
    rw [Expr.eraseAll, Pretty.moreExprs, Pretty.moreExprs, expr_erase depth e,
      moreExprs_erase depth es]

theorem Pretty.stmt_erase (depth : Nat) : ∀ (s : Stmt) (tail : List Char),
    Pretty.stmt depth s.erase tail = Pretty.stmt depth s tail
  | .bind i e _, tail => by
    rw [Stmt.erase, Pretty.stmt, Pretty.stmt, expr_erase depth e]
    rfl
  | .ret e _, tail => by rw [Stmt.erase, Pretty.stmt, Pretty.stmt, expr_erase depth e]
  | .eval e _, tail => by rw [Stmt.erase, Pretty.stmt, Pretty.stmt, expr_erase depth e]

theorem Pretty.stmts_erase (depth : Nat) : ∀ (ss : List Stmt) (tail : List Char),
    Pretty.stmts depth (Stmt.eraseAll ss) tail = Pretty.stmts depth ss tail
  | [], _ => rfl
  | s :: ss, tail => by
    rw [Stmt.eraseAll, Pretty.stmts, Pretty.stmts, stmt_erase depth s, stmts_erase depth ss]

theorem Pretty.block_erase (depth : Nat) : ∀ (b : Block) (tail : List Char),
    Pretty.block depth b.erase tail = Pretty.block depth b tail
  | .mk [] _, _ => rfl
  | .mk (s :: ss) _, tail => by
    rw [Block.erase, Stmt.eraseAll, Pretty.block, Pretty.block, ← Stmt.eraseAll,
      stmts_erase (depth + 1) (s :: ss)]

end

/-- The text of an expression shows neither groups nor places. -/
theorem Expr.pretty_erase (e : Expr) : e.erase.pretty = e.pretty := Pretty.expr_erase 0 e []

/-- The text of a program shows neither groups nor places. -/
theorem Program.pretty_erase (p : Program) : p.erase.pretty = p.pretty :=
  Pretty.stmts_erase 0 p.statements []

end Descent
