import Mathlib.Data.List.Basic
import Descent.Proofs.Parser.Depth

/-!
# The nodes of a tree

A node is an expression, a statement, a block or a name, in whatever place of a tree. Its children
are the nodes right below it, in the order of the source. `Program.Has` says which nodes a program
has; `Node.Spelled` which tokens spell a node. The children of a node are spelled by parts of its
tokens, one after another (`Node.Spelled.inOrder`), so all nodes of a program are spelled by parts
of the tokens of the program (`Program.Has.spelled`).
-/

namespace Descent

/-- A part of a tree. -/
inductive Node where
  | expr (e : Expr)
  | stmt (s : Stmt)
  | block (b : Block)
  | name (i : Ident)

/-- The nodes right below an expression. -/
def Expr.children : Expr → List Node
  | integer .. | boolean .. | var _ => []
  | unary _ e _ | group e _ => [.expr e]
  | binary _ e f _ => [.expr e, .expr f]
  | call e es _ => .expr e :: es.map .expr
  | cond e b o _ => .expr e :: .block b :: (o.map Node.block).toList
  | function is b _ => is.map .name ++ [.block b]

/-- The nodes right below a statement. -/
def Stmt.children : Stmt → List Node
  | bind i e _ => [.name i, .expr e]
  | ret e _ | eval e _ => [.expr e]

/-- The nodes right below a block. -/
def Block.children (b : Block) : List Node := b.statements.map .stmt

/-- The nodes right below a program. -/
def Program.children (p : Program) : List Node := p.statements.map .stmt

namespace Node

/-- The nodes right below a node. -/
def children : Node → List Node
  | expr e => e.children
  | stmt s => s.children
  | block b => b.children
  | name _ => []

/-- Where the node stands. -/
def span : Node → Span
  | expr e => e.span
  | stmt s => s.span
  | block b => b.span
  | name i => i.span

/-- The levels of nesting inside the node. -/
def need : Node → Nat
  | expr e => e.need
  | stmt s => s.need
  | block b => b.need
  | name _ => 0

/-- The tokens spell the node. -/
inductive Spelled : Node → List Token → Prop where
  | expr {l : Layer} {ts : List Token} {e : Expr} (h : Spells (.expr l) ts e) : Spelled (.expr e) ts
  | stmt {ts : List Token} {s : Stmt} (h : Spells .stmt ts s) : Spelled (.stmt s) ts
  | block {ts : List Token} {b : Block} (h : Spells .block ts b) : Spelled (.block b) ts
  | name {t : Token} (h : t.kind = .identifier) : Spelled (.name ⟨t.lexeme, t.span⟩) [t]

/-- The nodes are spelled by parts of the tokens, one after another. -/
inductive InOrder : List Node → List Token → Prop where
  | nil {ts : List Token} : InOrder [] ts
  | cons (before after : List Token) {n : Node} {ns : List Node} {ts us : List Token}
      (hn : n.Spelled ts) (h : InOrder ns after) (hus : us = before ++ ts ++ after) :
      InOrder (n :: ns) us

end Node

/-- A node of the program: one of its statements, or a child of one of its nodes. -/
inductive Program.Has (p : Program) : Node → Prop where
  | stmt {s : Stmt} (h : s ∈ p.statements) : Has p (.stmt s)
  | child {n m : Node} (h : Has p n) (hm : m ∈ n.children) : Has p m

/-! ## Nesting -/

theorem Expr.need_le_needAll {e : Expr} {es : List Expr} (h : e ∈ es) :
    e.need ≤ Expr.needAll es := by
  induction h with
  | head => exact Nat.le_max_left ..
  | tail _ _ ih => exact Nat.le_trans ih (Nat.le_max_right ..)

theorem Stmt.need_le_needAll {s : Stmt} {ss : List Stmt} (h : s ∈ ss) :
    s.need ≤ Stmt.needAll ss := by
  induction h with
  | head => exact Nat.le_max_left ..
  | tail _ _ ih => exact Nat.le_trans ih (Nat.le_max_right ..)

theorem Expr.need_le_of_mem_children {e : Expr} {n : Node} (h : n ∈ e.children) :
    n.need ≤ e.need := by
  cases e with
  | integer | boolean | var => cases h
  | unary _ e | group e =>
    obtain rfl := List.mem_singleton.1 h
    exact Nat.le_add_left ..
  | binary _ e f =>
    rcases List.mem_pair.1 h with rfl | rfl
    · exact Nat.le_max_left ..
    · exact Nat.le_max_right ..
  | call e es =>
    rcases List.mem_cons.1 h with rfl | h
    · exact Nat.le_max_left ..
    · obtain ⟨f, hf, rfl⟩ := List.mem_map.1 h
      have hle : f.need ≤ Expr.needAll es := Expr.need_le_needAll hf
      show f.need ≤ max e.need (1 + Expr.needAll es)
      omega
  | cond e b o =>
    cases o with
    | none =>
      rcases List.mem_pair.1 h with rfl | rfl
      · show e.need ≤ max (1 + e.need) b.need
        omega
      · exact Nat.le_max_right ..
    | some c =>
      simp only [children, Option.map_some, Option.toList_some, List.mem_cons, List.not_mem_nil,
        or_false] at h
      rcases h with rfl | rfl | rfl
      · show e.need ≤ max (1 + e.need) (max b.need c.need)
        omega
      · show b.need ≤ max (1 + e.need) (max b.need c.need)
        omega
      · show c.need ≤ max (1 + e.need) (max b.need c.need)
        omega
  | function is b =>
    rcases List.mem_append.1 h with h | h
    · obtain ⟨i, -, rfl⟩ := List.mem_map.1 h
      exact Nat.zero_le _
    · obtain rfl := List.mem_singleton.1 h
      exact Nat.le_refl _

/-- A child of a node nests no deeper than the node. -/
theorem Node.need_le_of_mem_children {n m : Node} (h : m ∈ n.children) : m.need ≤ n.need := by
  cases n with
  | expr e => exact Expr.need_le_of_mem_children h
  | stmt s =>
    cases s with
    | bind i e =>
      rcases List.mem_pair.1 h with rfl | rfl
      · exact Nat.zero_le _
      · exact Nat.le_refl _
    | ret e | eval e =>
      obtain rfl := List.mem_singleton.1 h
      exact Nat.le_refl _
  | block b =>
    obtain ⟨ss, span⟩ := b
    obtain ⟨s, hs, rfl⟩ := List.mem_map.1 h
    exact Nat.le_trans (Stmt.need_le_needAll hs) (Nat.le_add_left ..)
  | name => cases h

/-- No node of a program nests deeper than the program. -/
theorem Program.Has.need_le {p : Program} {n : Node} (h : p.Has n) : n.need ≤ p.need := by
  induction h with
  | stmt h => exact Stmt.need_le_needAll h
  | child _ hm ih => exact Nat.le_trans (Node.need_le_of_mem_children hm) ih

/-! ## The tokens of a node -/

namespace Node

variable {n : Node} {ns ms : List Node} {ts us : List Token}

/-- More tokens on both sides make no difference. -/
theorem InOrder.extend (before after : List Token) (h : InOrder ns ts)
    (hus : us = before ++ ts ++ after) : InOrder ns us := by
  induction h generalizing before us with
  | nil => exact .nil
  | @cons first last n ns ts all hn _ hall ih =>
    have hrest : InOrder ns (last ++ after) := ih [] rfl
    have hsplit : us = (before ++ first) ++ ts ++ (last ++ after) := by simp [hus, hall]
    exact .cons _ _ hn hrest hsplit

theorem InOrder.append (h : InOrder ns ts) (h' : InOrder ms us) : InOrder (ns ++ ms) (ts ++ us) := by
  induction h with
  | @nil ts => exact h'.extend ts [] (List.append_nil _).symm
  | @cons before after n ns ts all hn _ hall ih =>
    have hsplit : all ++ us = before ++ ts ++ (after ++ us) := by simp [hall]
    exact .cons _ _ hn ih hsplit

theorem InOrder.of_mem (h : InOrder ns us) (hn : n ∈ ns) :
    ∃ before ts after, us = before ++ ts ++ after ∧ n.Spelled ts := by
  induction h with
  | nil => cases hn
  | @cons before after m ns ts us hm _ hus ih =>
    rcases List.mem_cons.1 hn with rfl | hn
    · exact ⟨before, ts, after, hus, hm⟩
    · obtain ⟨first, vs, last, rfl, hspelled⟩ := ih hn
      exact ⟨before ++ ts ++ first, vs, last, by simp [hus], hspelled⟩

end Node

/-- The nodes right below the tree of a sort of phrase. -/
def Part.children : (p : Part) → p.Tree → List Node
  | expr _, e => e.children
  | arguments, es | moreArguments, es => es.map .expr
  | params, is | moreParams, is => is.map .name
  | stmt, s => s.children
  | stmts, ss => ss.map .stmt
  | block, b => b.children
  | program, p => p.children

/-- What is right below a tree is spelled by parts of its tokens, one after another. -/
theorem Spells.inOrder {p : Part} {ts : List Token} {a : p.Tree} (h : Spells p ts a) :
    Node.InOrder (p.children a) ts := by
  induction h with
  | integer | boolean | var => exact .nil
  | @group o c _ _ _ he => exact .cons [o] [c] (.expr he) .nil (by simp)
  | @conditional i o c _ us _ b _ _ he _ hb =>
    have hblock : Node.InOrder [.block b] (c :: us) := .cons [c] [] (.block hb) .nil (by simp)
    exact .cons [i, o] (c :: us) (.expr he) hblock (by simp)
  | @alternative i o c l _ us vs _ b d _ _ he _ hb _ hd =>
    have helse : Node.InOrder [.block d] (l :: vs) := .cons [l] [] (.block hd) .nil (by simp)
    have hblock : Node.InOrder [.block b, .block d] (c :: (us ++ l :: vs)) :=
      .cons [c] (l :: vs) (.block hb) helse (by simp)
    exact .cons [i, o] (c :: (us ++ l :: vs)) (.expr he) hblock (by simp)
  | @function f o c _ us _ b _ _ _ _ hb ihp =>
    have hblock : Node.InOrder [.block b] (c :: us) := .cons [c] [] (.block hb) .nil (by simp)
    exact (ihp.append hblock).extend [f, o] [] (by simp)
  | @call o c _ us _ _ he _ _ _ _ iha =>
    exact .cons [] (o :: (us ++ [c])) (.expr he) (iha.extend [o] [c] (by simp)) (by simp)
  | @unary t _ _ _ _ he => exact .cons [t] [] (.expr he) .nil (by simp)
  | @binary _ t _ us _ _ _ he _ hf =>
    exact .cons [] (t :: us) (.expr he) (.cons [t] [] (.expr hf) .nil (by simp)) (by simp)
  | tighter _ ih => exact ih
  | noArguments | noMoreArguments | noParams | noMoreParams | noStmts => exact .nil
  | @arguments _ us _ _ he _ _ ihs => exact .cons [] us (.expr he) ihs (by simp)
  | @moreArguments c _ us _ _ _ he _ _ ihs => exact .cons [c] us (.expr he) ihs (by simp)
  | @params _ us _ ht _ ih => exact .cons [] us (.name ht) ih (by simp)
  | @moreParams c _ us _ _ ht _ ih => exact .cons [c] us (.name ht) ih (by simp)
  | @binding k _ a ts e o _ hi _ he =>
    have hvalue : Node.InOrder [.expr e] (a :: (ts ++ o.toList)) :=
      .cons [a] o.toList (.expr he) .nil (by simp)
    exact .cons [k] (a :: (ts ++ o.toList)) (.name hi) hvalue (by simp)
  | @returning k _ _ o _ he => exact .cons [k] o.toList (.expr he) .nil (by simp)
  | evaluation o he => exact .cons [] o.toList (.expr he) .nil (by simp)
  | @stmts _ us _ _ h _ _ _ ihs => exact .cons [] us (.stmt h) ihs (by simp)
  | @block o c _ _ _ _ _ ih => exact ih.extend [o] [c] (by simp)
  | @program t _ _ _ _ ih => exact ih.extend [] [t] (by simp)

/-- The children of a node are spelled by parts of its tokens, one after another. -/
theorem Node.Spelled.inOrder {n : Node} {ts : List Token} (h : n.Spelled ts) :
    Node.InOrder n.children ts := by
  cases h with
  | expr h => exact h.inOrder
  | stmt h => exact h.inOrder
  | block h => exact h.inOrder
  | name => exact .nil

/-- Every node of a program is spelled by a part of its tokens. -/
theorem Program.Has.spelled {p : Program} {n : Node} {tokens : List Token} (h : p.Has n)
    (hp : Spells .stmts tokens p.statements) : ∃ before ts after, tokens = before ++ ts ++ after ∧
      n.Spelled ts := by
  induction h with
  | stmt h => exact hp.inOrder.of_mem (List.mem_map_of_mem h)
  | child _ hm ih =>
    obtain ⟨before, ts, after, rfl, hspelled⟩ := ih
    obtain ⟨first, us, last, rfl, hchild⟩ := hspelled.inOrder.of_mem hm
    exact ⟨before ++ first, us, last ++ after, by simp, hchild⟩

end Descent
