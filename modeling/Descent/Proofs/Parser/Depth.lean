import Descent.Proofs.Language.Derivation
import Descent.Proofs.Parser.Passage

/-!
# How deep a tree nests

`need` is the number of levels of nesting that reading a tree takes: one for each pair of
parentheses, each block and each operand of a unary operator on the way to the deepest token. The
parentheses around the parameters of a function are not a level. `prettyNeed` is the number that
reading the canonical text of a tree takes. `Input.Allows` says how many levels the settings leave
at a place.
-/

namespace Descent

mutual

/-- The levels of nesting inside an expression. -/
def Expr.need : Expr → Nat
  | .integer .. | .boolean .. | .var .. => 0
  | .unary _ e _ => 1 + e.need
  | .binary _ e f _ => max e.need f.need
  | .call e args _ => max e.need (1 + Expr.needAll args)
  | .group e _ => 1 + e.need
  | .cond e b none _ => max (1 + e.need) b.need
  | .cond e b (some c) _ => max (1 + e.need) (max b.need c.need)
  | .function _ b _ => b.need

/-- The levels of nesting inside the deepest of several expressions. -/
def Expr.needAll : List Expr → Nat
  | [] => 0
  | e :: es => max e.need (Expr.needAll es)

/-- The levels of nesting inside a statement. -/
def Stmt.need : Stmt → Nat
  | .bind _ e _ | .ret e _ | .eval e _ => e.need

/-- The levels of nesting inside the deepest of several statements. -/
def Stmt.needAll : List Stmt → Nat
  | [] => 0
  | s :: ss => max s.need (Stmt.needAll ss)

/-- The levels of nesting inside a block, with its own. -/
def Block.need : Block → Nat
  | .mk ss _ => 1 + Stmt.needAll ss

end

/-- The levels of nesting inside a program. -/
def Program.need (p : Program) : Nat := Stmt.needAll p.statements

/-!
The canonical text leaves groups out, and puts parentheses around every operation. So it may nest
less than the tree, or deeper.
-/

mutual

/-- The levels of nesting inside the canonical text of an expression. -/
def Expr.prettyNeed : Expr → Nat
  | .integer .. | .boolean .. | .var .. => 0
  | .unary _ e _ => 1 + (1 + e.prettyNeed)
  | .binary _ e f _ => 1 + max e.prettyNeed f.prettyNeed
  | .call e args _ => max e.prettyNeed (1 + Expr.prettyNeedAll args)
  | .group e _ => e.prettyNeed
  | .cond e b none _ => max (1 + e.prettyNeed) b.prettyNeed
  | .cond e b (some c) _ => max (1 + e.prettyNeed) (max b.prettyNeed c.prettyNeed)
  | .function _ b _ => b.prettyNeed

/-- The levels of nesting inside the deepest of several canonical texts of expressions. -/
def Expr.prettyNeedAll : List Expr → Nat
  | [] => 0
  | e :: es => max e.prettyNeed (Expr.prettyNeedAll es)

/-- The levels of nesting inside the canonical text of a statement. -/
def Stmt.prettyNeed : Stmt → Nat
  | .bind _ e _ | .ret e _ | .eval e _ => e.prettyNeed

/-- The levels of nesting inside the deepest of several canonical texts of statements. -/
def Stmt.prettyNeedAll : List Stmt → Nat
  | [] => 0
  | s :: ss => max s.prettyNeed (Stmt.prettyNeedAll ss)

/-- The levels of nesting inside the canonical text of a block, with its own. -/
def Block.prettyNeed : Block → Nat
  | .mk ss _ => 1 + Stmt.prettyNeedAll ss

end

/-- The levels of nesting inside the canonical text of a program. -/
def Program.prettyNeed (p : Program) : Nat := Stmt.prettyNeedAll p.statements

/-- The levels of nesting inside the tree of a sort of phrase. -/
def Part.need : (p : Part) → p.Tree → Nat
  | .expr _, e => e.need
  | .arguments, es | .moreArguments, es => Expr.needAll es
  | .params, _ | .moreParams, _ => 0
  | .stmt, s => s.need
  | .stmts, ss => Stmt.needAll ss
  | .block, b => b.need
  | .program, p => p.need

namespace Input

variable {s t : Input} {n : Nat}

/-- The settings allow `n` more levels of nesting. -/
def Allows (s : Input) (n : Nat) : Prop := ∀ m ∈ s.settings.maxDepth, s.depth + n ≤ m

theorem Allows.mono {k : Nat} (h : s.Allows n) (hk : k ≤ n) : s.Allows k :=
  fun m hm => Nat.le_trans (Nat.add_le_add_left hk _) (h m hm)

theorem allows_max {k : Nat} : s.Allows (max n k) ↔ s.Allows n ∧ s.Allows k := by
  constructor
  · exact fun h => ⟨h.mono (Nat.le_max_left n k), h.mono (Nat.le_max_right n k)⟩
  · intro h m hm
    have := h.1 m hm
    have := h.2 m hm
    omega

theorem Passes.allows {ts : List Token} (h : s.Passes ts t) : t.Allows n ↔ s.Allows n := by
  rw [Allows, Allows, h.settings, h.depth]

/-- The settings allow a level of nesting, and inside it what they allow with it outside. -/
theorem allows_of_descend {inner : Input} (h : s.descend = .ok inner) :
    inner.Allows 0 ∧ (inner.Allows n ↔ s.Allows (1 + n)) := by
  unfold descend at h
  split at h
  · cases h
  · next hmax =>
    cases h
    constructor
    · intro m hm
      replace hm : s.settings.maxDepth = some m := hm
      simp only [hm, Option.any_some, decide_eq_true_eq] at hmax
      simp only [atDepth]
      omega
    · simp only [Allows, atDepth, Nat.add_assoc]

/-- Where the settings allow a level of nesting, the input can go one level down. -/
theorem descend_of_allows (h : s.Allows 1) : s.descend = .ok (s.atDepth (s.depth + 1)) := by
  unfold descend
  rw [if_neg]
  intro hmax
  obtain ⟨m, hm, hlt⟩ := (Option.any_eq_true _ _).1 hmax
  have := h m hm
  simp only [decide_eq_true_eq] at hlt
  omega

end Input

end Descent
