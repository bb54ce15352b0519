import Descent.Input
import Descent.Tree.Basic

/-!
# The same tree at other places

A `Relocation` sends the positions of a text to positions of another one, in the same order. Tokens,
trees and errors are moved along: all else about them stays. The extreme case is `forget`, which
sends all positions to one place: two trees that it makes equal differ in nothing but their spans.
-/

namespace Descent

/-- Other places for the tokens of a text, behind some more tokens. -/
structure Relocation where
  /-- The new place of what stood at a position. -/
  place : Position → Position
  /-- The number of tokens before the first one. -/
  before : Nat
  /-- The lesser of two positions is sent to the lesser of their places. -/
  place_min : ∀ p q, place (min p q) = min (place p) (place q)
  /-- The greater of two positions is sent to the greater of their places. -/
  place_max : ∀ p q, place (max p q) = max (place p) (place q)

/-- All at one place. -/
def Relocation.forget : Relocation where
  place _ := .start
  before := 0
  place_min _ _ := rfl
  place_max _ _ := rfl

variable (ρ : Relocation)

/-- The span from the new place of its start to that of its end. -/
def Span.move (s : Span) : Span := ⟨ρ.place s.start, ρ.place s.stop⟩

/-- The token at its new place. -/
def Token.move (t : Token) : Token := { t with span := t.span.move ρ }

/-- The error about the token at its new place. -/
def ParseError.move (e : ParseError) : ParseError :=
  { e with position := ρ.place e.position, index := e.index + ρ.before }

/-- The error about the character at its new place. -/
def LexError.move (e : LexError) : LexError := { e with position := ρ.place e.position }

/-- The error at its new place. -/
def Diagnostic.move : Diagnostic → Diagnostic
  | .lexical e => .lexical (e.move ρ)
  | .syntactic e => .syntactic (e.move ρ)

/-- The name at its new place. -/
def Ident.move (i : Ident) : Ident := { i with span := i.span.move ρ }

mutual

/-- The expression at its new place. -/
def Expr.move : Expr → Expr
  | .integer n s => .integer n (s.move ρ)
  | .boolean b s => .boolean b (s.move ρ)
  | .var i => .var (i.move ρ)
  | .unary op e s => .unary op e.move (s.move ρ)
  | .binary op e f s => .binary op e.move f.move (s.move ρ)
  | .call e es s => .call e.move (Expr.moveAll es) (s.move ρ)
  | .group e s => .group e.move (s.move ρ)
  | .cond e b none s => .cond e.move b.move none (s.move ρ)
  | .cond e b (some c) s => .cond e.move b.move (some c.move) (s.move ρ)
  | .function is b s => .function (is.map (Ident.move ρ)) b.move (s.move ρ)

/-- The expressions at their new places. -/
def Expr.moveAll : List Expr → List Expr
  | [] => []
  | e :: es => e.move :: Expr.moveAll es

/-- The statement at its new place. -/
def Stmt.move : Stmt → Stmt
  | .bind i e s => .bind (i.move ρ) e.move (s.move ρ)
  | .ret e s => .ret e.move (s.move ρ)
  | .eval e s => .eval e.move (s.move ρ)

/-- The statements at their new places. -/
def Stmt.moveAll : List Stmt → List Stmt
  | [] => []
  | s :: ss => s.move :: Stmt.moveAll ss

/-- The block at its new place. -/
def Block.move : Block → Block
  | .mk ss s => .mk (Stmt.moveAll ss) (s.move ρ)

end

/-- The program at its new place. -/
def Program.move (p : Program) : Program := ⟨p.statements.map (Stmt.move ρ), p.span.move ρ⟩

theorem Expr.moveAll_eq_map (es : List Expr) : Expr.moveAll ρ es = es.map (Expr.move ρ) := by
  induction es with
  | nil => rfl
  | cons e es ih => rw [moveAll, ih, List.map_cons]

theorem Stmt.moveAll_eq_map (ss : List Stmt) : Stmt.moveAll ρ ss = ss.map (Stmt.move ρ) := by
  induction ss with
  | nil => rfl
  | cons s ss ih => rw [moveAll, ih, List.map_cons]

theorem Expr.move_cond (e : Expr) (b : Block) (o : Option Block) (s : Span) :
    (Expr.cond e b o s).move ρ = .cond (e.move ρ) (b.move ρ) (o.map (Block.move ρ)) (s.move ρ) := by
  cases o <;> rfl

@[simp] theorem Token.kind_move (t : Token) : (t.move ρ).kind = t.kind := rfl

@[simp] theorem Token.span_move (t : Token) : (t.move ρ).span = t.span.move ρ := rfl

@[simp] theorem Expr.span_move (e : Expr) : (e.move ρ).span = e.span.move ρ := by
  cases e with
  | cond e b o s => rw [move_cond]; rfl
  | _ => rfl

@[simp] theorem Block.span_move (b : Block) : (b.move ρ).span = b.span.move ρ := by
  cases b
  rfl

@[simp] theorem Span.join_move (a b : Span) : (a.join b).move ρ = (a.move ρ).join (b.move ρ) := by
  simp only [join, move, ρ.place_min, ρ.place_max]

/-! ## Errors -/

namespace ParseError

variable {ρ} {e f : ParseError}

theorem join_move (e f : ParseError) : (e.join f).move ρ = (e.move ρ).join (f.move ρ) := by
  have hlt : (e.move ρ).index < (f.move ρ).index ↔ e.index < f.index := Nat.add_lt_add_iff_right
  have heq : (e.move ρ).index = (f.move ρ).index ↔ e.index = f.index := Nat.add_right_cancel_iff
  simp only [join, hlt, heq]
  by_cases h : e.index < f.index
  · rw [if_pos h, if_pos h]
  · rw [if_neg h, if_neg h]
    by_cases h' : e.index = f.index
    · rw [if_pos h', if_pos h']
      rfl
    · rw [if_neg h', if_neg h']

theorem join?_move (e : ParseError) (o : Option ParseError) :
    (e.join? o).move ρ = (e.move ρ).join? (o.map (ParseError.move ρ)) := by
  cases o with
  | none => rfl
  | some f => exact join_move e f

end ParseError

end Descent
