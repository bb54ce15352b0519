import Descent.Grammar
import Descent.Proofs.Language.Automaton

/-!
# Derivations with trees

`Spells p ts a` says that the tokens `ts` spell the tree `a` as a phrase of the sort `p`: each token
is used once, in order, binary operators bind by layers and group to the left, and every node has
the span of its tokens. What the productions leave open is settled: after a statement without a
semicolon comes neither a parenthesis nor an operator, which would be read as part of it.

Main statement: what spells a tree is derivable by the productions (`Spells.derives`).
-/

namespace Descent

open Automaton (Continues)

/-- The layers of expressions, from those whose operators bind least to those without any. -/
inductive Layer where
  | equation
  | comparison
  | sum
  | product
  | unary
  | call
  | primary
deriving DecidableEq, Repr

namespace Layer

/-- The layer of the operands of a layer. -/
def tighter : Layer → Layer
  | equation => comparison
  | comparison => sum
  | sum => product
  | product => unary
  | unary => call
  | call => primary
  | primary => primary

/-- The binary operator that a kind of token stands for in a layer. -/
def op? : Layer → Token.Kind → Option BinaryOp
  | equation => Grammar.equationOp?
  | comparison => Grammar.comparisonOp?
  | sum => Grammar.sumOp?
  | product => Grammar.productOp?
  | _ => fun _ => none

/-- The symbol for a layer. -/
def symbol : Layer → Symbol
  | equation => .equation
  | comparison => .comparison
  | sum => .sum
  | product => .product
  | unary => .unary
  | call => .call
  | primary => .primary

end Layer

/-- The sorts of phrases that have trees. -/
inductive Part where
  | expr (l : Layer)
  | arguments
  /-- Arguments behind the first one, each with the comma before it. -/
  | moreArguments
  | params
  /-- Parameters behind the first one, each with the comma before it. -/
  | moreParams
  | stmt
  | stmts
  | block
  | program
deriving DecidableEq, Repr

/-- The type of the trees of a sort. -/
@[reducible] def Part.Tree : Part → Type
  | expr _ => Expr
  | arguments | moreArguments => List Expr
  | params | moreParams => List Ident
  | stmt => Stmt
  | stmts => List Stmt
  | block => Block
  | program => Program

/-- A statement of the tokens `ts` may end where `us` follows: with a semicolon, or before a token
that does not go on with an expression. -/
def Boundary (ts us : List Token) : Prop :=
  (∃ t, ts.getLast? = some t ∧ t.kind = .semicolon) ∨ ∀ u, us.head? = some u → ¬Continues u.kind

/-- The tokens spell the tree. -/
inductive Spells : (p : Part) → List Token → p.Tree → Prop where
  | integer {t : Token} {n : Int64} (ht : t.kind = .integer)
      (hn : Text.Decimal.toInt64? t.lexeme = some n) :
    Spells (.expr .primary) [t] (.integer n t.span)
  | boolean {t : Token} (b : Bool) (ht : t.kind = if b then .kwTrue else .kwFalse) :
    Spells (.expr .primary) [t] (.boolean b t.span)
  | var {t : Token} (ht : t.kind = .identifier) :
    Spells (.expr .primary) [t] (.var ⟨t.lexeme, t.span⟩)
  | group {o c : Token} {ts : List Token} {e : Expr} (ho : o.kind = .openParen)
      (he : Spells (.expr .equation) ts e) (hc : c.kind = .closeParen) :
    Spells (.expr .primary) (o :: (ts ++ [c])) (.group e (o.span.join c.span))
  | conditional {i o c : Token} {ts us : List Token} {e : Expr} {b : Block} (hi : i.kind = .kwIf)
      (ho : o.kind = .openParen) (he : Spells (.expr .equation) ts e) (hc : c.kind = .closeParen)
      (hb : Spells .block us b) :
    Spells (.expr .primary) (i :: o :: (ts ++ c :: us)) (.cond e b none (i.span.join b.span))
  | alternative {i o c l : Token} {ts us vs : List Token} {e : Expr} {b d : Block}
      (hi : i.kind = .kwIf) (ho : o.kind = .openParen) (he : Spells (.expr .equation) ts e)
      (hc : c.kind = .closeParen) (hb : Spells .block us b) (hl : l.kind = .kwElse)
      (hd : Spells .block vs d) :
    Spells (.expr .primary) (i :: o :: (ts ++ c :: (us ++ l :: vs)))
      (.cond e b (some d) (i.span.join d.span))
  | function {f o c : Token} {ts us : List Token} {is : List Ident} {b : Block}
      (hf : f.kind = .kwFn) (ho : o.kind = .openParen) (hp : Spells .params ts is)
      (hc : c.kind = .closeParen) (hb : Spells .block us b) :
    Spells (.expr .primary) (f :: o :: (ts ++ c :: us)) (.function is b (f.span.join b.span))
  | call {o c : Token} {ts us : List Token} {e : Expr} {es : List Expr}
      (he : Spells (.expr .call) ts e) (ho : o.kind = .openParen) (ha : Spells .arguments us es)
      (hc : c.kind = .closeParen) :
    Spells (.expr .call) (ts ++ o :: (us ++ [c])) (.call e es (e.span.join c.span))
  | unary {t : Token} {ts : List Token} {op : UnaryOp} {e : Expr}
      (ht : Grammar.unaryOp? t.kind = some op) (he : Spells (.expr .unary) ts e) :
    Spells (.expr .unary) (t :: ts) (.unary op e (t.span.join e.span))
  | binary {l : Layer} {t : Token} {ts us : List Token} {op : BinaryOp} {e f : Expr}
      (he : Spells (.expr l) ts e) (ht : l.op? t.kind = some op)
      (hf : Spells (.expr l.tighter) us f) :
    Spells (.expr l) (ts ++ t :: us) (.binary op e f (e.span.join f.span))
  | tighter {l : Layer} {ts : List Token} {e : Expr} (he : Spells (.expr l.tighter) ts e) :
    Spells (.expr l) ts e
  | noArguments : Spells .arguments [] []
  | arguments {ts us : List Token} {e : Expr} {es : List Expr}
      (he : Spells (.expr .equation) ts e) (hs : Spells .moreArguments us es) :
    Spells .arguments (ts ++ us) (e :: es)
  | noMoreArguments : Spells .moreArguments [] []
  | moreArguments {c : Token} {ts us : List Token} {e : Expr} {es : List Expr}
      (hc : c.kind = .comma) (he : Spells (.expr .equation) ts e)
      (hs : Spells .moreArguments us es) :
    Spells .moreArguments (c :: (ts ++ us)) (e :: es)
  | noParams : Spells .params [] []
  | params {t : Token} {us : List Token} {is : List Ident} (ht : t.kind = .identifier)
      (hs : Spells .moreParams us is) :
    Spells .params (t :: us) (⟨t.lexeme, t.span⟩ :: is)
  | noMoreParams : Spells .moreParams [] []
  | moreParams {c t : Token} {us : List Token} {is : List Ident} (hc : c.kind = .comma)
      (ht : t.kind = .identifier) (hs : Spells .moreParams us is) :
    Spells .moreParams (c :: t :: us) (⟨t.lexeme, t.span⟩ :: is)
  | binding {k i a : Token} {ts : List Token} {e : Expr} (semicolon : Option Token)
      (hk : k.kind = .kwLet) (hi : i.kind = .identifier) (ha : a.kind = .assign)
      (he : Spells (.expr .equation) ts e) (hs : ∀ t ∈ semicolon, t.kind = .semicolon) :
    Spells .stmt (k :: i :: a :: (ts ++ semicolon.toList))
      (.bind ⟨i.lexeme, i.span⟩ e (Grammar.terminated k.span e.span semicolon))
  | returning {k : Token} {ts : List Token} {e : Expr} (semicolon : Option Token)
      (hk : k.kind = .kwReturn) (he : Spells (.expr .equation) ts e)
      (hs : ∀ t ∈ semicolon, t.kind = .semicolon) :
    Spells .stmt (k :: (ts ++ semicolon.toList))
      (.ret e (Grammar.terminated k.span e.span semicolon))
  | evaluation {ts : List Token} {e : Expr} (semicolon : Option Token)
      (he : Spells (.expr .equation) ts e) (hs : ∀ t ∈ semicolon, t.kind = .semicolon) :
    Spells .stmt (ts ++ semicolon.toList)
      (.eval e (Grammar.terminated e.span e.span semicolon))
  | noStmts : Spells .stmts [] []
  | stmts {ts us : List Token} {s : Stmt} {ss : List Stmt} (h : Spells .stmt ts s)
      (hb : Boundary ts us) (hs : Spells .stmts us ss) :
    Spells .stmts (ts ++ us) (s :: ss)
  | block {o c : Token} {ts : List Token} {ss : List Stmt} (ho : o.kind = .openBrace)
      (hs : Spells .stmts ts ss) (hc : c.kind = .closeBrace) :
    Spells .block (o :: (ts ++ [c])) (.mk ss (o.span.join c.span))
  | program {t : Token} {ts : List Token} {ss : List Stmt} (hs : Spells .stmts ts ss)
      (ht : t.kind = .eof) :
    Spells .program (ts ++ [t]) ⟨ss, ⟨(ts.head?.getD t).span.start, t.span.start⟩⟩

namespace Spells

variable {ts : List Token} {e : Expr} {l : Layer}

/-- An expression that calls may follow may stand wherever one stands that operators follow. -/
theorem of_call (h : Spells (.expr .call) ts e) (hl : l ≠ .primary) : Spells (.expr l) ts e := by
  have hunary : Spells (.expr .unary) ts e := .tighter h
  cases l with
  | call => exact h
  | unary => exact hunary
  | product => exact .tighter hunary
  | sum => exact .tighter (.tighter hunary)
  | comparison => exact .tighter (.tighter (.tighter hunary))
  | equation => exact .tighter (.tighter (.tighter (.tighter hunary)))
  | primary => exact absurd rfl hl

theorem equation (h : Spells (.expr l) ts e) : Spells (.expr .equation) ts e := by
  cases l with
  | equation => exact h
  | comparison => exact .tighter h
  | sum => exact .tighter (.tighter h)
  | product => exact .tighter (.tighter (.tighter h))
  | unary => exact .tighter (.tighter (.tighter (.tighter h)))
  | call => exact of_call h nofun
  | primary => exact of_call (.tighter h) nofun

end Spells

/-! ## Trees are derivable -/

/-- The phrases of a sort, as a form of the productions. -/
def Part.form : Part → Form
  | expr l => .symbol l.symbol
  | arguments => .opt (.symbol .arguments)
  | moreArguments => .many (.kind .comma ++ .symbol .expression)
  | params => .opt (.kind .identifier ++ .many (.kind .comma ++ .kind .identifier))
  | moreParams => .many (.kind .comma ++ .kind .identifier)
  | stmt => .symbol .statement
  | stmts => .many (.symbol .statement)
  | block => .symbol .block
  | program => .symbol .program

namespace Form

variable {a b : Form} {t : Token} {u v w : List Token.Kind} {k : Token.Kind}

theorem Derives.of_eq (h : a.Derives u) (hw : u = w) : a.Derives w := hw ▸ h

theorem Derives.kind_of_eq (ht : t.kind = k) : (Form.kind k).Derives [t.kind] := by
  rw [ht]
  exact .kind

/-- A phrase that ends with a repetition may be extended by one more phrase of it. -/
theorem Derives.extend {n : Symbol} (hn : n.production = a ++ b.many)
    (h : (Form.symbol n).Derives u) (hv : b.Derives v) : (Form.symbol n).Derives (u ++ v) := by
  cases h with
  | symbol h =>
    rw [hn] at h
    refine .symbol ?_
    rw [hn]
    cases h with
    | seq ha hb =>
      rw [List.append_assoc]
      exact .seq ha (hb.snoc hv)

theorem Derives.expression (h : (Form.symbol .equation).Derives w) :
    (Form.symbol .expression).Derives w := .symbol h

theorem Derives.opt_semicolon {o : Option Token} (ho : ∀ t ∈ o, t.kind = .semicolon) :
    (Form.opt (.kind .semicolon)).Derives (o.toList.map Token.kind) := by
  cases o with
  | none => exact .absent
  | some t => exact .present (.kind_of_eq (ho t rfl))

end Form

/-- What a layer's operands are derivable from, the layer is. -/
theorem Layer.derives_of_tighter (l : Layer) {w : List Token.Kind}
    (h : (Form.symbol l.tighter.symbol).Derives w) : (Form.symbol l.symbol).Derives w := by
  cases l with
  | unary => exact .symbol (.right h)
  | primary => exact h
  | _ =>
    rw [← List.append_nil w]
    exact .symbol (.seq h .none)

/-- An operator of a layer and an operand go on with a phrase of the layer. -/
theorem Layer.derives_operation {l : Layer} {t : Token} {op : BinaryOp} {u v : List Token.Kind}
    (ht : l.op? t.kind = some op) (hu : (Form.symbol l.symbol).Derives u)
    (hv : (Form.symbol l.tighter.symbol).Derives v) :
    (Form.symbol l.symbol).Derives (u ++ t.kind :: v) := by
  generalize t.kind = k at ht
  cases l <;> cases k <;> first
    | exact .extend rfl hu (.seq (.left .kind) hv)
    | exact .extend rfl hu (.seq (.right .kind) hv)
    | cases ht

theorem derives_unaryOp {t : Token} {op : UnaryOp} (ht : Grammar.unaryOp? t.kind = some op) :
    (Form.kind .bang ||| .kind .minus).Derives [t.kind] := by
  generalize t.kind = k at ht
  cases k <;> first
    | exact .left .kind
    | exact .right .kind
    | cases ht

/-- What spells a tree is derivable by the productions. -/
theorem Spells.derives {p : Part} {ts : List Token} {a : p.Tree} (h : Spells p ts a) :
    p.form.Derives (ts.map Token.kind) := by
  induction h with
  | integer ht =>
    exact .symbol (.left (.left (.left (.left (.left (.left (.kind_of_eq ht)))))))
  | boolean b ht =>
    refine .symbol (.left (.left (.left (.left ?_))))
    cases b with
    | true => exact .left (.right (.kind_of_eq ht))
    | false => exact .right (.kind_of_eq ht)
  | var ht => exact .symbol (.left (.left (.left (.right (.kind_of_eq ht)))))
  | group ho he hc ih =>
    refine .symbol (.left (.left (.right (.symbol ?_))))
    exact .of_eq (.seq (.seq (.kind_of_eq ho) (.expression ih)) (.kind_of_eq hc)) (by simp)
  | conditional hi ho he hc hb ihe ihb =>
    refine .symbol (.left (.right (.symbol ?_)))
    have hopen := Form.Derives.seq (.kind_of_eq hi) (.kind_of_eq ho)
    have hcondition := Form.Derives.seq (.seq hopen (.expression ihe)) (.kind_of_eq hc)
    exact .of_eq (.seq (.seq hcondition ihb) .absent) (by simp)
  | alternative hi ho he hc hb hl hd ihe ihb ihd =>
    refine .symbol (.left (.right (.symbol ?_)))
    have hopen := Form.Derives.seq (.kind_of_eq hi) (.kind_of_eq ho)
    have hcondition := Form.Derives.seq (.seq hopen (.expression ihe)) (.kind_of_eq hc)
    exact .of_eq (.seq (.seq hcondition ihb) (.present (.seq (.kind_of_eq hl) ihd))) (by simp)
  | function hf ho hp hc hb ihp ihb =>
    refine .symbol (.right (.symbol ?_))
    have hopen := Form.Derives.seq (.kind_of_eq hf) (.kind_of_eq ho)
    exact .of_eq (.seq (.seq (.seq hopen ihp) (.kind_of_eq hc)) ihb) (by simp)
  | call he ho ha hc ihe iha =>
    have hcall := Form.Derives.seq (.seq (.kind_of_eq ho) iha) (.kind_of_eq hc)
    exact .of_eq (.extend rfl ihe hcall) (by simp)
  | unary ht he ih => exact .symbol (.left (.seq (derives_unaryOp ht) ih))
  | binary he ht hf ihe ihf =>
    rw [List.map_append, List.map_cons]
    exact Layer.derives_operation ht ihe ihf
  | tighter he ih => exact Layer.derives_of_tighter _ ih
  | noArguments => exact .absent
  | arguments he hs ihe ihs =>
    rw [List.map_append]
    exact .present (.symbol (.seq (.expression ihe) ihs))
  | noMoreArguments => exact .none
  | moreArguments hc he hs ihe ihs =>
    exact .of_eq (.more (.seq (.kind_of_eq hc) (.expression ihe)) ihs) (by simp)
  | noParams => exact .absent
  | params ht hs ih => exact .present (.seq (.kind_of_eq ht) ih)
  | noMoreParams => exact .none
  | moreParams hc ht hs ih => exact .more (.seq (.kind_of_eq hc) (.kind_of_eq ht)) ih
  | binding o hk hi ha he hs ih =>
    refine .symbol (.left (.left (.symbol ?_)))
    have hopen := Form.Derives.seq (.seq (.kind_of_eq hk) (.kind_of_eq hi)) (.kind_of_eq ha)
    exact .of_eq (.seq (.seq hopen (.expression ih)) (.opt_semicolon hs)) (by simp)
  | returning o hk he hs ih =>
    refine .symbol (.left (.right (.symbol ?_)))
    exact .of_eq (.seq (.seq (.kind_of_eq hk) (.expression ih)) (.opt_semicolon hs)) (by simp)
  | evaluation o he hs ih =>
    refine .symbol (.right (.symbol ?_))
    exact .of_eq (.seq (.expression ih) (.opt_semicolon hs)) (by simp)
  | noStmts => exact .none
  | stmts h hb hs ih ihs =>
    rw [List.map_append]
    exact .more ih ihs
  | block ho hs hc ih =>
    exact .symbol (.of_eq (.seq (.seq (.kind_of_eq ho) ih) (.kind_of_eq hc)) (by simp))
  | program hs ht ih => exact .symbol (.of_eq (.seq ih (.kind_of_eq ht)) (by simp))

end Descent
