import Descent.Proofs.Parser.Branches

/-!
# What is spelled is read

If the tokens ahead spell a tree, and what comes behind them cannot be taken for a part of it, then
the parser reads that tree (`Spells.parses`), unless the settings forbid to nest as deep as the tree
does. Neither the preference among matches nor that among errors has a part in this: on such tokens
at most one branch of each choice matches.

The proof follows the derivation of the tree. A layer of operators is read by a loop, which builds
from the left what the derivation takes apart from the right. So what is shown of an expression of a
layer is that the loop of the layer, begun at the first operand, comes to this expression.
-/

namespace Descent

open Automaton (Continues)

/-! ## Layers as rules -/

namespace Layer

open Grammar

/-- The rule for a layer. -/
def rule : Layer → Rule Expr
  | equation => Grammar.expression
  | comparison => Grammar.comparison
  | sum => Grammar.sum
  | product => Grammar.product
  | unary => Grammar.unary
  | call => calls
  | primary => Grammar.primary

/-- The rule for the operands of a layer. -/
def operand : Layer → Rule Expr
  | equation => Grammar.comparison
  | comparison => Grammar.sum
  | sum => Grammar.product
  | product => .call .unary
  | unary => calls
  | call | primary => Grammar.primary

/-- The rule for what may follow an expression of a layer. -/
def more : Layer → Expr → Rule (Option Expr)
  | call => callOf
  | l => operationOf l.op? l.operand

/-- What the loop of a layer makes of an expression and what follows it. -/
def loop (l : Layer) : Expr → Parser Expr := Parser.extendFrom fun e => (l.more e).parse

theorem operand_parse (l : Layer) : l.operand.parse = l.tighter.rule.parse := by
  cases l with
  | product => exact funext fun s => Phrase.parse_eq .unary s
  | _ => rfl

variable {l : Layer} {s t : Input} {e : Expr} {k : Token.Kind}

theorem op_eq_none_of_goesOn (h : l.GoesOn k = false) : l.op? k = none := by
  cases l <;> cases k <;> first | rfl | cases h

/-- Where nothing goes on with the layer, its loop ends. -/
theorem loop_of_goesOn (hs : s.settings.Usable) (h : l.GoesOn s.current.kind = false) :
    l.loop e s = .ok (e, s) := by
  refine Parser.extendFrom_of_none ?_
  cases l with
  | call =>
    refine Rule.bind_eq_ok.2 ⟨_, _, Rule.lookahead_of_usable hs, ?_⟩
    rw [if_neg (of_decide_eq_false h)]
    rfl
  | _ =>
    refine Rule.bind_eq_ok.2 ⟨_, _, Rule.lookahead_of_usable hs, ?_⟩
    rw [op_eq_none_of_goesOn h]
    rfl

theorem goesOn_of_tighter (h : l.GoesOn k = false) : l.tighter.GoesOn k = false := by
  cases l <;> cases k <;> first | rfl | cases h

/-- The operators of a layer do not go on with its operands. -/
theorem goesOn_of_op {op : BinaryOp} (h : l.op? k = some op) : l.tighter.GoesOn k = false := by
  cases l <;> cases k <;> first | rfl | cases h

end Layer

/-! ## Where phrases are read -/

/-- The kind of the token that comes before the tokens `us` end a tape. -/
def Tape.next (tape : Tape) (us : List Token) : Token.Kind := (us.head?.getD tape.eof).kind

/-- The tokens `ts` are ahead and then `us`, and the settings allow `n` levels of nesting. -/
structure Input.Offers (s : Input) (n : Nat) (ts us : List Token) : Prop where
  usable : s.settings.Usable
  allows : s.Allows n
  rest : s.rest = ts ++ us

namespace Input.Offers

variable {s t : Input} {n k : Nat} {ts us vs ws : List Token}

theorem mono (h : s.Offers n ts us) (hk : k ≤ n) : s.Offers k ts us :=
  ⟨h.usable, h.allows.mono hk, h.rest⟩

theorem of_eq (h : s.Offers n ts us) (hts : ts ++ us = vs ++ ws) : s.Offers n vs ws :=
  ⟨h.usable, h.allows, h.rest.trans hts⟩

theorem past (h : s.Offers n (ts ++ us) vs) (hp : s.Passes ts t) : t.Offers n us vs := by
  refine ⟨hp.settings ▸ h.usable, hp.allows.2 h.allows, ?_⟩
  have := hp.rest.symm.trans (h.rest.trans (List.append_assoc ts us vs))
  exact List.append_cancel_left this

theorem next (h : s.Offers n ts us) (hp : s.Passes ts t) : t.current.kind = s.tape.next us := by
  have hrest : t.rest = us := List.append_cancel_left (hp.rest.symm.trans h.rest)
  rw [Input.peek_zero, hrest, hp.tape]
  rfl

/-- One level of nesting deeper, the same tokens are ahead. -/
theorem descend (h : s.Offers (1 + n) ts us) :
    ∃ inner, s.descend = .ok inner ∧ inner.Offers n ts us ∧ inner.tape = s.tape := by
  have hinner := descend_of_allows (h.allows.mono (Nat.le_add_right 1 n))
  exact ⟨_, hinner, ⟨h.usable, (allows_of_descend hinner).2.2 h.allows, h.rest⟩, rfl⟩

theorem token {x : Token} {k : Token.Kind} (h : s.Offers n (x :: ts) us) (hx : x.kind = k) :
    ∃ t, (Rule.token k).parse s = .ok (x, t) ∧ s.Passes [x] t ∧ t.Offers n ts us := by
  obtain ⟨t, ht, hp⟩ := Rule.token_of_rest h.rest hx
  exact ⟨t, ht, hp, past h hp⟩

/-- Between two tokens, one level of nesting deeper, the tokens that stand there are ahead. -/
theorem enclosed {o c : Token} {k k' : Token.Kind} (h : s.Offers (1 + n) (o :: (ts ++ [c])) us)
    (ho : o.kind = k) (hc : c.kind = k') :
    ∃ inner u, s.descend = .ok inner ∧ (Rule.token k).parse inner = .ok (o, u) ∧
      u.Offers n ts (c :: us) ∧
      ∀ v, u.Passes ts v → ∃ w, (Rule.token k').parse v = .ok (c, w) ∧
        s.Passes (o :: (ts ++ [c])) (w.atDepth s.depth) := by
  obtain ⟨inner, hi, hinner, -⟩ := h.descend
  obtain ⟨u, hu, hpu, hoffers⟩ := hinner.token ho
  refine ⟨inner, u, hi, hu, hoffers.of_eq (by simp), fun v hv => ?_⟩
  obtain ⟨w, hw, hpw, -⟩ := (hoffers.past hv).token hc
  exact ⟨w, hw, ((hpu.trans (hv.trans hpw)).of_eq (by simp)).outside hi⟩

end Input.Offers

/-- What may come behind the tokens of a phrase, so that it is not taken for a part of it. An
expression may still be gone on with by an operator of its layer, and behind a semicolon anything
may come. -/
def Part.Follows (ts : List Token) (k : Token.Kind) : Part → Prop
  | expr l => l.tighter.GoesOn k = false ∧ k ≠ .kwElse
  | arguments | moreArguments | params | moreParams => k = .closeParen
  | stmt =>
    (∃ x, ts.getLast? = some x ∧ x.kind = .semicolon) ∨
      k ≠ .kwElse ∧ k ≠ .semicolon ∧ ¬Continues k
  | stmts => k = .closeBrace ∨ k = .eof
  | block | program => True

open Grammar in
/-- The parser makes the tree `a` of what lies between `s` and `t`. -/
def Part.Parses (s t : Input) : (p : Part) → p.Tree → Prop
  | expr l, e => l.rule.parse s = l.loop e t
  | arguments, es => (Rule.sepBy (.call .expression) (.token .comma)).parse s = .ok (es, t)
  | moreArguments, es => (Rule.many (.token .comma *> .call .expression)).parse s = .ok (es, t)
  | params, is => (Rule.sepBy ident (.token .comma)).parse s = .ok (is, t)
  | moreParams, is => (Rule.many (.token .comma *> ident)).parse s = .ok (is, t)
  | stmt, a => statement.parse s = .ok (a, t)
  | stmts, as => (Rule.many (.call .statement)).parse s = .ok (as, t)
  | block, b => Grammar.block.parse s = .ok (b, t)
  | program, a => Grammar.program.parse s = .ok (a, t)

/-- Wherever the tokens are ahead, the parser makes the tree of them. -/
def Part.Complete (p : Part) (ts : List Token) (a : p.Tree) : Prop :=
  ∀ s us, s.Offers (p.need a) ts us → p.Follows ts (s.tape.next us) →
    ∃ t, s.Passes ts t ∧ p.Parses s t a

namespace Part.Complete

variable {s t : Input} {l : Layer} {ts us vs : List Token} {e f : Expr} {n : Nat}

/-- Where an operator of the layer does not follow either, the loop of the layer ends. -/
theorem rule_parse (h : Complete (.expr l) ts e) (hs : s.Offers e.need ts us)
    (hgo : l.GoesOn (s.tape.next us) = false) (helse : s.tape.next us ≠ .kwElse) :
    ∃ t, l.rule.parse s = .ok (e, t) ∧ s.Passes ts t := by
  obtain ⟨t, hp, ht⟩ := h s us hs ⟨Layer.goesOn_of_tighter hgo, helse⟩
  refine ⟨t, ?_, hp⟩
  rw [show l.rule.parse s = l.loop e t from ht]
  exact Layer.loop_of_goesOn (hp.settings ▸ hs.usable) (by rw [hs.next hp, hgo])

/-- An expression before a token that goes on with none. -/
theorem expression_parse (h : Complete (.expr .equation) ts e) (hs : s.Offers e.need ts us)
    (hgo : ¬Continues (s.tape.next us)) (helse : s.tape.next us ≠ .kwElse) :
    ∃ t, (Rule.call .expression).parse s = .ok (e, t) ∧ s.Passes ts t := by
  rw [← Layer.goesOn_equation, Bool.not_eq_true] at hgo
  obtain ⟨t, ht, hp⟩ := h.rule_parse hs hgo helse
  exact ⟨t, (Phrase.parse_eq .expression s).trans ht, hp⟩

theorem tighter (h : Complete (.expr l.tighter) ts e) (hb : Spells (.expr l.tighter) ts e) :
    Complete (.expr l) ts e := by
  intro s us hs hf
  by_cases hl : l = .primary
  · subst hl
    exact h s us hs hf
  obtain ⟨t, ht, hp⟩ := h.rule_parse hs hf.1 hf.2
  refine ⟨t, hp, ?_⟩
  rw [← Layer.operand_parse] at ht
  cases l with
  | unary =>
    -- No operator stands before a call.
    obtain ⟨x, vs, rfl, hx⟩ := hb.begins
    have hnone : Grammar.unaryOp? s.current.kind = none := by
      rw [Input.current_of_rest hs.rest]
      generalize x.kind = k at hx
      cases k <;> first | rfl | cases hx
    have hloop : Layer.unary.loop e t = .ok (e, t) :=
      Layer.loop_of_goesOn (hp.settings ▸ hs.usable) (by rw [hs.next hp]; exact hf.1)
    refine Eq.trans ?_ hloop.symm
    refine Rule.bind_eq_ok.2 ⟨_, s, Rule.lookahead_of_usable hs.usable, ?_⟩
    rw [hnone]
    exact ht
  | primary => exact absurd rfl hl
  | _ => exact Parser.bind_of_ok ht

/-! ## Operators and calls -/

theorem binary {x : Token} {op : BinaryOp} (he : Complete (.expr l) ts e)
    (hx : l.op? x.kind = some op) (hf : Complete (.expr l.tighter) us f) :
    Complete (.expr l) (ts ++ x :: us) (.binary op e f (e.span.join f.span)) := by
  intro s vs hs hfol
  have helse : x.kind ≠ .kwElse := fun h => by
    rw [h] at hx
    cases l <;> cases hx
  have heof : x.kind ≠ .eof := fun h => by
    rw [h] at hx
    cases l <;> cases hx
  have hmore : l.more e = Grammar.operationOf l.op? l.operand e := by
    cases l <;> first | rfl | cases hx
  obtain ⟨t, hpt, ht⟩ := he s (x :: (us ++ vs))
    ((hs.mono (Nat.le_max_left _ _)).of_eq (by simp)) ⟨Layer.goesOn_of_op hx, helse⟩
  have hst : t.Offers (max e.need f.need) (x :: us) vs := hs.past hpt
  obtain ⟨u, hu, hpu, -⟩ := Parser.any_of_rest hst.rest
  have hsu : u.Offers f.need us vs := ((hst.past hpu).mono (Nat.le_max_right _ _))
  have htape : u.tape = s.tape := hpu.tape.trans hpt.tape
  obtain ⟨v, hv, hpv⟩ := hf.rule_parse hsu (htape ▸ hfol.1) (htape ▸ hfol.2)
  have hoperation : (l.more e).parse t = .ok (some (.binary op e f (e.span.join f.span)), v) := by
    rw [hmore]
    refine Rule.bind_eq_ok.2 ⟨_, t, Rule.lookahead_of_usable hst.usable, ?_⟩
    rw [Input.current_of_rest hst.rest, hx]
    refine Rule.bind_eq_ok.2 ⟨x, u, hu, Rule.bind_eq_ok.2 ⟨f, v, ?_, rfl⟩⟩
    exact (congrFun l.operand_parse u).trans hv
  have hlt := (hpu.trans hpv).left_lt (List.cons_ne_nil _ _)
  refine ⟨v, (hpt.trans (hpu.trans hpv)).of_eq (by simp), Eq.trans ht ?_⟩
  exact Parser.extendFrom_of_some hoperation hlt

theorem unary {x : Token} {op : UnaryOp} (hx : Grammar.unaryOp? x.kind = some op)
    (he : Complete (.expr .unary) ts e) :
    Complete (.expr .unary) (x :: ts) (.unary op e (x.span.join e.span)) := by
  intro s us hs hfol
  obtain ⟨u, hu, hpu, -⟩ := Parser.any_of_rest hs.rest
  have hsu : u.Offers (1 + e.need) ts us := hs.past hpu
  obtain ⟨inner, hi, hinner, htape⟩ := hsu.descend
  have htape : inner.tape = s.tape := htape.trans hpu.tape
  obtain ⟨v, hv, hpv⟩ := he.rule_parse hinner (htape ▸ hfol.1) (htape ▸ hfol.2)
  have hp : s.Passes (x :: ts) (v.atDepth u.depth) := hpu.trans (hpv.outside hi)
  refine ⟨v.atDepth u.depth, hp, ?_⟩
  have hloop (e) : Layer.unary.loop e (v.atDepth u.depth) = .ok (e, v.atDepth u.depth) :=
    Layer.loop_of_goesOn (hp.settings ▸ hs.usable) (by rw [hs.next hp]; exact hfol.1)
  refine Eq.trans ?_ (hloop _).symm
  refine Rule.bind_eq_ok.2 ⟨_, s, Rule.lookahead_of_usable hs.usable, ?_⟩
  rw [Input.current_of_rest hs.rest, hx]
  have hoperand : (Rule.nest (.call .unary)).parse u = .ok (e, v.atDepth u.depth) :=
    Parser.nest_eq_ok.2 ⟨inner, v, hi, (Phrase.parse_eq .unary inner).trans hv, rfl⟩
  exact Rule.bind_eq_ok.2 ⟨x, u, hu, Rule.bind_eq_ok.2 ⟨e, _, hoperand, rfl⟩⟩

theorem call {o c : Token} {es : List Expr} (he : Complete (.expr .call) ts e)
    (ho : o.kind = .openParen) (ha : Complete .arguments us es) (hc : c.kind = .closeParen) :
    Complete (.expr .call) (ts ++ o :: (us ++ [c])) (.call e es (e.span.join c.span)) := by
  intro s vs hs _
  obtain ⟨t, hpt, ht⟩ := he s (o :: (us ++ c :: vs))
    ((hs.mono (Nat.le_max_left _ _)).of_eq (by simp)) ⟨rfl, fun h => by cases ho.symm.trans h⟩
  have hst : t.Offers (1 + Expr.needAll es) (o :: (us ++ [c])) vs :=
    (hs.past hpt).mono (Nat.le_max_right _ _)
  obtain ⟨inner, u, hi, hu, hsu, hclose⟩ := hst.enclosed ho hc
  obtain ⟨v, hpv, hv⟩ := ha u (c :: vs) hsu hc
  obtain ⟨w, hw, hpw⟩ := hclose v hpv
  have harguments : Grammar.arguments.parse t = .ok ((es, c), w.atDepth t.depth) :=
    Parser.nest_eq_ok.2 ⟨inner, w, hi, Rule.bind_eq_ok.2 ⟨es, v,
      Rule.seqRight_eq_ok.2 ⟨o, u, hu, hv⟩, Rule.bind_eq_ok.2 ⟨c, w, hw, rfl⟩⟩, rfl⟩
  have hcall : (Grammar.callOf e).parse t =
      .ok (some (.call e es (e.span.join c.span)), w.atDepth t.depth) := by
    refine Rule.bind_eq_ok.2 ⟨_, t, Rule.lookahead_of_usable hst.usable, ?_⟩
    rw [Input.current_of_rest hst.rest, if_pos ho]
    exact Rule.bind_eq_ok.2 ⟨(es, c), _, harguments, rfl⟩
  refine ⟨w.atDepth t.depth, hpt.trans hpw, Eq.trans ht ?_⟩
  exact Parser.extendFrom_of_some hcall (hpw.left_lt (List.cons_ne_nil _ _))

/-! ## Primary expressions -/

theorem of_branch {r : Rule Expr} (hs : s.settings.Usable)
    (hr : Grammar.primaryOf? s.current.kind = some r) (h : r.parse s = .ok (e, t))
    (hp : s.Passes ts t) : ∃ t, s.Passes ts t ∧ (Part.expr .primary).Parses s t e := by
  obtain ⟨u, hu, hpu⟩ := Grammar.primary_of_branch hr h
  have hpass := (hp.trans hpu).of_eq (List.append_nil ts)
  refine ⟨u, hpass, Eq.trans hu (Eq.symm ?_)⟩
  exact Layer.loop_of_goesOn (hpass.settings ▸ hs) rfl

theorem integer {x : Token} {i : Int64} (hx : x.kind = .integer)
    (hi : Text.Decimal.toInt64? x.lexeme = some i) :
    Complete (.expr .primary) [x] (.integer i x.span) := by
  intro s us hs _
  obtain ⟨t, ht, hp, -⟩ := hs.token hx
  refine of_branch hs.usable (by rw [Input.current_of_rest hs.rest, hx]; rfl) (t := t) ?_ hp
  refine Parser.refine_eq_ok.2 ⟨x, ht, ?_⟩
  rw [Grammar.integerOf, hi]

theorem boolean {x : Token} (b : Bool) (hx : x.kind = if b then .kwTrue else .kwFalse) :
    Complete (.expr .primary) [x] (.boolean b x.span) := by
  intro s us hs _
  obtain ⟨t, ht, hp, -⟩ := hs.token hx
  have hcurrent : s.current.kind = if b then .kwTrue else .kwFalse := by
    rw [Input.current_of_rest hs.rest, hx]
  suffices ∃ u, Grammar.boolean.parse s = .ok (.boolean b x.span, u) ∧ t.Passes [] u by
    obtain ⟨u, hu, hpu⟩ := this
    exact of_branch hs.usable (by rw [hcurrent]; cases b <;> rfl) hu (hp.trans hpu)
  have hok {k : Token.Kind} (ht : (Rule.token k).parse s = .ok (x, t)) :
      (Rule.token k >>= fun y => pure (Expr.boolean b y.span)).parse s =
        .ok (.boolean b x.span, t) := Rule.bind_eq_ok.2 ⟨x, t, ht, rfl⟩
  cases b with
  | true =>
    refine Rule.choice_of_agree (fun q hq => ?_) ⟨_, List.mem_cons_self, hok ht⟩
    simp only [List.mem_cons, List.not_mem_nil, or_false] at hq
    rcases hq with rfl | rfl
    · exact .inr (hok ht)
    · exact .inl (Rule.token_bind_error (by rw [hcurrent]; decide))
  | false =>
    refine Rule.choice_of_agree (fun q hq => ?_)
      ⟨_, List.mem_cons_of_mem _ List.mem_cons_self, hok ht⟩
    simp only [List.mem_cons, List.not_mem_nil, or_false] at hq
    rcases hq with rfl | rfl
    · exact .inl (Rule.token_bind_error (by rw [hcurrent]; decide))
    · exact .inr (hok ht)

theorem var {x : Token} (hx : x.kind = .identifier) :
    Complete (.expr .primary) [x] (.var ⟨x.lexeme, x.span⟩) := by
  intro s us hs _
  obtain ⟨t, ht, hp, -⟩ := hs.token hx
  refine of_branch hs.usable (by rw [Input.current_of_rest hs.rest, hx]; rfl) (t := t) ?_ hp
  exact Rule.map_eq_ok.2 ⟨_, Rule.bind_eq_ok.2 ⟨x, t, ht, rfl⟩, rfl⟩

theorem group {o c : Token} (ho : o.kind = .openParen) (he : Complete (.expr .equation) ts e)
    (hc : c.kind = .closeParen) :
    Complete (.expr .primary) (o :: (ts ++ [c])) (.group e (o.span.join c.span)) := by
  intro s us hs _
  obtain ⟨inner, u, hi, hu, hsu, hclose⟩ := hs.enclosed ho hc
  have hnext : u.tape.next (c :: us) = .closeParen := hc
  obtain ⟨v, hv, hpv⟩ := he.expression_parse hsu (by rw [hnext]; decide) (by rw [hnext]; decide)
  obtain ⟨w, hw, hpw⟩ := hclose v hpv
  refine of_branch hs.usable (by rw [Input.current_of_rest hs.rest, ho]; rfl)
    (t := w.atDepth s.depth) ?_ hpw
  exact Parser.nest_eq_ok.2 ⟨inner, w, hi, Rule.bind_eq_ok.2 ⟨o, u, hu,
    Rule.bind_eq_ok.2 ⟨e, v, hv, Rule.bind_eq_ok.2 ⟨c, w, hw, rfl⟩⟩⟩, rfl⟩

theorem block_parse {b : Block} (h : Complete .block ts b) (hs : s.Offers b.need ts us) :
    ∃ t, (Rule.call .block).parse s = .ok (b, t) ∧ s.Passes ts t := by
  obtain ⟨t, hp, ht⟩ := h s us hs trivial
  exact ⟨t, (Phrase.parse_eq .block s).trans ht, hp⟩

/-- The part of a conditional up to its consequence. -/
theorem consequence_parse {i o c : Token} {b : Block} (hi : i.kind = .kwIf)
    (ho : o.kind = .openParen) (he : Complete (.expr .equation) ts e) (hc : c.kind = .closeParen)
    (hb : Complete .block us b)
    (hs : s.Offers (max (1 + e.need) b.need) (i :: o :: (ts ++ c :: us)) vs) :
    ∃ t u v, (Rule.token .kwIf).parse s = .ok (i, t) ∧
      (Rule.nest (.token .openParen *> .call .expression <* .token .closeParen)).parse t =
        .ok (e, u) ∧
      (Rule.call .block).parse u = .ok (b, v) ∧ s.Passes (i :: o :: (ts ++ c :: us)) v := by
  obtain ⟨t, ht, hpt, hst⟩ := hs.token hi
  have hcondition : t.Offers (1 + e.need) (o :: (ts ++ [c])) (us ++ vs) :=
    (hst.mono (Nat.le_max_left _ _)).of_eq (by simp)
  obtain ⟨inner, x, hinner, hx, hsx, hclose⟩ := hcondition.enclosed ho hc
  have hnext : x.tape.next (c :: (us ++ vs)) = .closeParen := hc
  obtain ⟨y, hy, hpy⟩ := he.expression_parse hsx (by rw [hnext]; decide) (by rw [hnext]; decide)
  obtain ⟨z, hz, hpz⟩ := hclose y hpy
  have hpre : s.Passes (i :: o :: (ts ++ [c])) (z.atDepth t.depth) := hpt.trans hpz
  have hblock : (z.atDepth t.depth).Offers b.need us vs :=
    ((hs.mono (Nat.le_max_right _ _)).of_eq (by simp)).past hpre
  obtain ⟨v, hv, hpv⟩ := hb.block_parse hblock
  refine ⟨t, z.atDepth t.depth, v, ht, ?_, hv, (hpre.trans hpv).of_eq (by simp)⟩
  exact Parser.nest_eq_ok.2 ⟨inner, z, hinner,
    Rule.seqLeft_eq_ok.2 ⟨y, c, Rule.seqRight_eq_ok.2 ⟨o, x, hx, hy⟩, hz⟩, rfl⟩

theorem conditional {i o c : Token} {b : Block} (hi : i.kind = .kwIf) (ho : o.kind = .openParen)
    (he : Complete (.expr .equation) ts e) (hc : c.kind = .closeParen)
    (hb : Complete .block us b) :
    Complete (.expr .primary) (i :: o :: (ts ++ c :: us))
      (.cond e b none (i.span.join b.span)) := by
  intro s vs hs hfol
  obtain ⟨t, u, v, ht, hu, hv, hpv⟩ := consequence_parse hi ho he hc hb hs
  have helse : v.current.kind ≠ .kwElse := by
    rw [hs.next hpv]
    exact hfol.2
  have herror : ∃ e, (Rule.token .kwElse *> Rule.call .block).parse v = .error e :=
    Rule.token_bind_error helse
  obtain ⟨_, herror⟩ := herror
  obtain ⟨w, hw, hpw⟩ := Rule.optional_of_error herror
  refine of_branch hs.usable (by rw [Input.current_of_rest hs.rest, hi]; rfl) (t := w) ?_
    ((hpv.trans hpw).of_eq (List.append_nil _))
  exact Rule.bind_eq_ok.2 ⟨i, t, ht, Rule.bind_eq_ok.2 ⟨e, u, hu,
    Rule.bind_eq_ok.2 ⟨b, v, hv, Rule.bind_eq_ok.2 ⟨none, w, hw, rfl⟩⟩⟩⟩

theorem alternative {i o c x : Token} {b d : Block} (hi : i.kind = .kwIf)
    (ho : o.kind = .openParen) (he : Complete (.expr .equation) ts e) (hc : c.kind = .closeParen)
    (hb : Complete .block us b) (hx : x.kind = .kwElse) (hd : Complete .block vs d) :
    Complete (.expr .primary) (i :: o :: (ts ++ c :: (us ++ x :: vs)))
      (.cond e b (some d) (i.span.join d.span)) := by
  intro s ws hs _
  have hneed : max (1 + e.need) b.need ≤ (Expr.cond e b (some d) (i.span.join d.span)).need := by
    simp only [Expr.need]
    omega
  obtain ⟨t, u, v, ht, hu, hv, hpv⟩ := consequence_parse hi ho he hc hb
    ((hs.mono hneed).of_eq (by simp) : s.Offers _ _ (x :: (vs ++ ws)))
  have hsv : v.Offers d.need (x :: vs) ws := by
    refine ((hs.mono ?_).of_eq (by simp)).past hpv
    simp only [Part.need, Expr.need]
    omega
  obtain ⟨y, hy, hpy, hsy⟩ := hsv.token hx
  obtain ⟨z, hz, hpz⟩ := hd.block_parse hsy
  have hpass := hpy.trans hpz
  have hlt : v.position < z.position := by
    rw [hpass.position]
    simp
  obtain ⟨w, hw, hpw⟩ := Rule.optional_of_ok (Rule.seqRight_eq_ok.2 ⟨x, y, hy, hz⟩) hlt
  refine of_branch hs.usable (by rw [Input.current_of_rest hs.rest, hi]; rfl) (t := w) ?_
    ((hpv.trans (hpass.trans hpw)).of_eq (by simp))
  exact Rule.bind_eq_ok.2 ⟨i, t, ht, Rule.bind_eq_ok.2 ⟨e, u, hu,
    Rule.bind_eq_ok.2 ⟨b, v, hv, Rule.bind_eq_ok.2 ⟨some d, w, hw, rfl⟩⟩⟩⟩

theorem function {f o c : Token} {is : List Ident} {b : Block} (hf : f.kind = .kwFn)
    (ho : o.kind = .openParen) (his : Complete .params ts is) (hc : c.kind = .closeParen)
    (hb : Complete .block us b) :
    Complete (.expr .primary) (f :: o :: (ts ++ c :: us))
      (.function is b (f.span.join b.span)) := by
  intro s vs hs _
  obtain ⟨t, ht, hpt, hst⟩ := hs.token hf
  obtain ⟨u, hu, hpu, hsu⟩ := hst.token ho
  have hparams : u.Offers 0 ts (c :: (us ++ vs)) := (hsu.mono (Nat.zero_le _)).of_eq (by simp)
  obtain ⟨v, hpv, hv⟩ := his u _ hparams hc
  have hsv : v.Offers b.need (c :: us) vs := (hsu.of_eq (by simp)).past hpv
  obtain ⟨w, hw, hpw, hsw⟩ := hsv.token hc
  obtain ⟨x, hx, hpx⟩ := hb.block_parse hsw
  refine of_branch hs.usable (by rw [Input.current_of_rest hs.rest, hf]; rfl) (t := x) ?_
    ((hpt.trans (hpu.trans (hpv.trans (hpw.trans hpx)))).of_eq (by simp))
  exact Rule.bind_eq_ok.2 ⟨f, t, ht, Rule.bind_eq_ok.2 ⟨is, w,
    Rule.seqLeft_eq_ok.2 ⟨v, c, Rule.seqRight_eq_ok.2 ⟨o, u, hu, hv⟩, hw⟩,
    Rule.bind_eq_ok.2 ⟨b, x, hx, rfl⟩⟩⟩

/-! ## Lists -/

/-- A repetition of what begins with a comma ends before a closing parenthesis. -/
theorem many_comma_parse {α : Type} {r : Rule α} (hs : s.Offers n [] us)
    (hnext : s.tape.next us = .closeParen) :
    ∃ t, s.Passes [] t ∧ (Rule.many (.token .comma *> r)).parse s = .ok ([], t) := by
  have hcomma : s.current.kind ≠ .comma := by
    rw [hs.next (.refl s), hnext]
    decide
  have herror : ∃ e, (Rule.token .comma *> r).parse s = .error e := Rule.token_bind_error hcomma
  obtain ⟨e, he⟩ := herror
  obtain ⟨t, ht, hp⟩ := Rule.many_of_error he
  exact ⟨t, hp, ht⟩

theorem noMoreParams : Complete .moreParams [] [] := fun _ _ hs hnext => many_comma_parse hs hnext

theorem noMoreArguments : Complete .moreArguments [] [] :=
  fun _ _ hs hnext => many_comma_parse hs hnext

theorem noParams : Complete .params [] [] := by
  intro s us hs hnext
  have hident : s.current.kind ≠ .identifier := by
    rw [hs.next (.refl s), hnext]
    decide
  have herror : ∃ e, Grammar.ident.parse s = .error e := Rule.token_bind_error hident
  obtain ⟨e, he⟩ := herror
  obtain ⟨t, ht, hp⟩ := Rule.sepBy_of_error (q := .token .comma) he
  exact ⟨t, hp, ht⟩

theorem noArguments : Complete .arguments [] [] := by
  intro s us hs hnext
  have hstarts : ¬Layer.equation.Starts s.current.kind := by
    rw [hs.next (.refl s), hnext]
    nofun
  obtain ⟨e, he⟩ := Grammar.begins_expression.fails hstarts
  obtain ⟨t, ht, hp⟩ := Rule.sepBy_of_error (q := .token .comma) he
  exact ⟨t, hp, ht⟩

theorem params {x : Token} {is : List Ident} (hx : x.kind = .identifier)
    (his : Complete .moreParams us is) :
    Complete .params (x :: us) (⟨x.lexeme, x.span⟩ :: is) := by
  intro s vs hs hnext
  obtain ⟨t, ht, hpt, hst⟩ := hs.token hx
  obtain ⟨u, hpu, hu⟩ := his t vs hst (hpt.tape ▸ hnext)
  have hlt : s.position < u.position := by
    rw [(hpt.trans hpu).position]
    simp
  have hident : Grammar.ident.parse s = .ok (⟨x.lexeme, x.span⟩, t) :=
    Rule.bind_eq_ok.2 ⟨x, t, ht, rfl⟩
  obtain ⟨v, hv, hpv⟩ := Rule.sepBy_of_ok hident hu hlt
  exact ⟨v, (hpt.trans (hpu.trans hpv)).of_eq (by simp), hv⟩

theorem moreParams {c x : Token} {is : List Ident} (hc : c.kind = .comma)
    (hx : x.kind = .identifier) (his : Complete .moreParams us is) :
    Complete .moreParams (c :: x :: us) (⟨x.lexeme, x.span⟩ :: is) := by
  intro s vs hs hnext
  obtain ⟨t, ht, hpt, hst⟩ := hs.token hc
  obtain ⟨u, hu, hpu, hsu⟩ := hst.token hx
  have hpass := hpt.trans hpu
  obtain ⟨v, hpv, hv⟩ := his u vs hsu (hpass.tape ▸ hnext)
  refine ⟨v, hpass.trans hpv, Rule.many_of_ok ?_ (hpass.left_lt (List.cons_ne_nil _ _)) hv⟩
  exact Rule.seqRight_eq_ok.2 ⟨c, t, ht, Rule.bind_eq_ok.2 ⟨x, u, hu, rfl⟩⟩

/-- What may come behind an argument: another one, or the end of the arguments. -/
theorem next_moreArguments {tape : Tape} {es : List Expr} (hs : Spells .moreArguments us es)
    (hnext : tape.next vs = .closeParen) :
    ¬Continues (tape.next (us ++ vs)) ∧ tape.next (us ++ vs) ≠ .kwElse := by
  cases hs with
  | noMoreArguments =>
    rw [List.nil_append, hnext]
    decide
  | moreArguments hc =>
    rw [List.cons_append, Tape.next, List.head?_cons, Option.getD_some, hc]
    decide

theorem arguments {es : List Expr} (he : Complete (.expr .equation) ts e)
    (hne : ts ≠ []) (hes : Complete .moreArguments us es) (hs : Spells .moreArguments us es) :
    Complete .arguments (ts ++ us) (e :: es) := by
  intro s vs hoffers hnext
  obtain ⟨hgo, helse⟩ := next_moreArguments hs hnext
  obtain ⟨t, ht, hpt⟩ := he.expression_parse
    ((hoffers.mono (Nat.le_max_left _ _)).of_eq (List.append_assoc _ _ _)) hgo helse
  obtain ⟨u, hpu, hu⟩ := hes t vs ((hoffers.past hpt).mono (Nat.le_max_right _ _))
    (hpt.tape ▸ hnext)
  have hlt : s.position < u.position := by
    have := List.length_pos_iff.2 hne
    rw [(hpt.trans hpu).position, List.length_append]
    omega
  obtain ⟨v, hv, hpv⟩ := Rule.sepBy_of_ok ht hu hlt
  exact ⟨v, (hpt.trans (hpu.trans hpv)).of_eq (by simp), hv⟩

theorem moreArguments {c : Token} {es : List Expr} (hc : c.kind = .comma)
    (he : Complete (.expr .equation) ts e) (hes : Complete .moreArguments us es)
    (hs : Spells .moreArguments us es) : Complete .moreArguments (c :: (ts ++ us)) (e :: es) := by
  intro s vs hoffers hnext
  obtain ⟨t, ht, hpt, hst⟩ := hoffers.token hc
  rw [← hpt.tape] at hnext
  obtain ⟨hgo, helse⟩ := next_moreArguments hs hnext
  obtain ⟨u, hu, hpu⟩ := he.expression_parse
    ((hst.mono (Nat.le_max_left _ _)).of_eq (List.append_assoc _ _ _)) hgo helse
  obtain ⟨v, hpv, hv⟩ := hes u vs ((hst.past hpu).mono (Nat.le_max_right _ _))
    (hpu.tape ▸ hnext)
  have hpass := hpt.trans hpu
  refine ⟨v, (hpass.trans hpv).of_eq (by simp),
    Rule.many_of_ok ?_ (hpass.left_lt (List.cons_ne_nil _ _)) hv⟩
  exact Rule.seqRight_eq_ok.2 ⟨c, t, ht, hu⟩

/-! ## Statements, blocks and programs -/

/-- What may come behind a statement does not go on with its expression, and no semicolon is left
out where one follows. -/
theorem next_semicolon {tape : Tape} {o : Option Token} (hts : (Part.expr l).Finishes ts)
    (ho : ∀ x ∈ o, x.kind = .semicolon)
    (h : Part.stmt.Follows (vs ++ (ts ++ o.toList)) (tape.next us)) :
    ¬Continues (tape.next (o.toList ++ us)) ∧ tape.next (o.toList ++ us) ≠ .kwElse ∧
      (o = none → tape.next us ≠ .semicolon) := by
  cases o with
  | some x =>
    rw [Tape.next, Option.toList_some, List.cons_append, List.head?_cons, Option.getD_some,
      ho x rfl]
    exact ⟨by decide, by decide, nofun⟩
  | none =>
    have hlast : ¬∃ x, (vs ++ (ts ++ (none : Option Token).toList)).getLast? = some x ∧
        x.kind = .semicolon := by
      rintro ⟨x, hx, hk⟩
      obtain ⟨ws, y, rfl, hy⟩ := hts
      simp only [Option.toList_none, List.append_nil, ← List.append_assoc,
        List.getLast?_concat, Option.some.injEq] at hx
      exact hy (hx ▸ hk)
    obtain ⟨helse, hsemicolon, hgo⟩ := h.resolve_left hlast
    exact ⟨hgo, helse, fun _ => hsemicolon⟩

theorem semicolon_parse {o : Option Token} (ho : ∀ x ∈ o, x.kind = .semicolon)
    (hs : s.Offers n o.toList us) (hnext : o = none → s.tape.next us ≠ .semicolon) :
    ∃ t, (Rule.optional (.token .semicolon)).parse s = .ok (o, t) ∧ s.Passes o.toList t := by
  cases o with
  | some x =>
    obtain ⟨t, ht, hp, -⟩ := hs.token (ho x rfl)
    have hlt : s.position < t.position := by
      rw [hp.position]
      simp
    obtain ⟨u, hu, hpu⟩ := Rule.optional_of_ok ht hlt
    exact ⟨u, hu, hp.trans hpu⟩
  | none =>
    have hk : s.current.kind ≠ .semicolon := by
      rw [hs.next (.refl s)]
      exact hnext rfl
    have herror : (Rule.token .semicolon).parse s = .error _ := Parser.token_error hk
    exact Rule.optional_of_error herror

/-- The end of a statement: its expression, and a semicolon if there is one. -/
theorem ending_parse (vs : List Token) {o : Option Token}
    (he : Complete (.expr .equation) ts e) (hts : (Part.expr .equation).Finishes ts)
    (ho : ∀ x ∈ o, x.kind = .semicolon) (hs : s.Offers e.need (ts ++ o.toList) us)
    (hfol : Part.stmt.Follows (vs ++ (ts ++ o.toList)) (s.tape.next us)) :
    ∃ t u, (Rule.call .expression).parse s = .ok (e, t) ∧
      (Rule.optional (.token .semicolon)).parse t = .ok (o, u) ∧ s.Passes (ts ++ o.toList) u := by
  obtain ⟨hgo, helse, hsemicolon⟩ := next_semicolon hts ho hfol
  obtain ⟨t, ht, hpt⟩ := he.expression_parse (hs.of_eq (List.append_assoc _ _ _)) hgo helse
  obtain ⟨u, hu, hpu⟩ := semicolon_parse ho (hs.past hpt) (hpt.tape ▸ hsemicolon)
  exact ⟨t, u, ht, hu, hpt.trans hpu⟩

theorem of_statement {a : Stmt} (h : (Grammar.statementOf s.current.kind).parse s = .ok (a, t))
    (hp : s.Passes ts t) : ∃ t, s.Passes ts t ∧ Part.stmt.Parses s t a := by
  obtain ⟨u, hu, hpu⟩ := Grammar.statement_of_branch h
  exact ⟨u, (hp.trans hpu).of_eq (List.append_nil ts), hu⟩

theorem binding {k i a : Token} {o : Option Token} (hk : k.kind = .kwLet)
    (hi : i.kind = .identifier) (ha : a.kind = .assign) (he : Complete (.expr .equation) ts e)
    (hts : (Part.expr .equation).Finishes ts) (ho : ∀ x ∈ o, x.kind = .semicolon) :
    Complete .stmt (k :: i :: a :: (ts ++ o.toList))
      (.bind ⟨i.lexeme, i.span⟩ e (Grammar.terminated k.span e.span o)) := by
  intro s us hs hfol
  obtain ⟨t, ht, hpt, hst⟩ := hs.token hk
  obtain ⟨u, hu, hpu, hsu⟩ := hst.token hi
  obtain ⟨v, hv, hpv, hsv⟩ := hsu.token ha
  have hpre := hpt.trans (hpu.trans hpv)
  obtain ⟨w, x, hw, hx, hpx⟩ := he.ending_parse [k, i, a] hts ho hsv (hpre.tape ▸ hfol)
  refine of_statement (t := x) ?_ (hpre.trans hpx)
  rw [Input.current_of_rest hs.rest, hk]
  exact Rule.bind_eq_ok.2 ⟨k, t, ht, Rule.bind_eq_ok.2 ⟨_, v,
    Rule.seqLeft_eq_ok.2 ⟨u, a, Rule.bind_eq_ok.2 ⟨i, u, hu, rfl⟩, hv⟩,
    Rule.bind_eq_ok.2 ⟨e, w, hw, Rule.bind_eq_ok.2 ⟨o, x, hx, rfl⟩⟩⟩⟩

theorem returning {k : Token} {o : Option Token} (hk : k.kind = .kwReturn)
    (he : Complete (.expr .equation) ts e) (hts : (Part.expr .equation).Finishes ts)
    (ho : ∀ x ∈ o, x.kind = .semicolon) :
    Complete .stmt (k :: (ts ++ o.toList))
      (.ret e (Grammar.terminated k.span e.span o)) := by
  intro s us hs hfol
  obtain ⟨t, ht, hpt, hst⟩ := hs.token hk
  obtain ⟨u, v, hu, hv, hpv⟩ := he.ending_parse [k] hts ho hst (hpt.tape ▸ hfol)
  refine of_statement (t := v) ?_ (hpt.trans hpv)
  rw [Input.current_of_rest hs.rest, hk]
  exact Rule.bind_eq_ok.2 ⟨k, t, ht, Rule.bind_eq_ok.2 ⟨e, u, hu,
    Rule.bind_eq_ok.2 ⟨o, v, hv, rfl⟩⟩⟩

theorem evaluation {o : Option Token} (he : Complete (.expr .equation) ts e)
    (hbegins : (Part.expr .equation).Begins ts) (hts : (Part.expr .equation).Finishes ts)
    (ho : ∀ x ∈ o, x.kind = .semicolon) :
    Complete .stmt (ts ++ o.toList) (.eval e (Grammar.terminated e.span e.span o)) := by
  intro s us hs hfol
  obtain ⟨t, u, ht, hu, hpu⟩ := he.ending_parse [] hts ho hs hfol
  refine of_statement (t := u) ?_ hpu
  obtain ⟨x, ws, rfl, hx⟩ := hbegins
  have hevaluation : Grammar.statementOf s.current.kind = Grammar.evaluation := by
    rw [Input.current_of_rest hs.rest]
    generalize x.kind = k at hx
    cases k <;> first | rfl | cases hx
  rw [hevaluation]
  exact Rule.bind_eq_ok.2 ⟨e, t, ht, Rule.bind_eq_ok.2 ⟨o, u, hu, rfl⟩⟩

theorem noStmts : Complete .stmts [] [] := by
  intro s us hs hnext
  have hstarts : ¬StartsStatement s.current.kind := by
    rw [hs.next (.refl s)]
    rcases hnext with h | h <;> rw [h] <;> nofun
  obtain ⟨e, he⟩ := Grammar.begins_statement.fails hstarts
  obtain ⟨t, ht, hp⟩ := Rule.many_of_error he
  exact ⟨t, hp, ht⟩

/-- What comes behind a statement of several: the next one, or what comes behind them all. -/
theorem follows_stmts {tape : Tape} {as : List Stmt} (hb : Boundary ts us)
    (hs : Spells .stmts us as) (hnext : us = [] → Part.stmt.Follows ts (tape.next vs)) :
    Part.stmt.Follows ts (tape.next (us ++ vs)) := by
  cases hs with
  | noStmts => exact hnext rfl
  | stmts h =>
    obtain ⟨x, ws, rfl, hx⟩ := h.begins
    refine hb.imp_right fun hgo => ⟨fun h => ?_, fun h => ?_, hgo x rfl⟩
    · rw [show x.kind = .kwElse from h] at hx
      cases hx
    · rw [show x.kind = .semicolon from h] at hx
      cases hx

theorem stmts {a : Stmt} {as : List Stmt} (ha : Complete .stmt ts a)
    (hbegins : Part.stmt.Begins ts) (hb : Boundary ts us) (has : Complete .stmts us as)
    (hs : Spells .stmts us as) : Complete .stmts (ts ++ us) (a :: as) := by
  intro s vs hoffers hnext
  have hend : Part.stmt.Follows ts (s.tape.next vs) := by
    right
    rcases hnext with h | h <;> rw [h] <;> decide
  obtain ⟨t, hpt, ht⟩ := ha s (us ++ vs)
    ((hoffers.mono (Nat.le_max_left _ _)).of_eq (List.append_assoc _ _ _))
    (follows_stmts hb hs fun _ => hend)
  obtain ⟨u, hpu, hu⟩ := has t vs ((hoffers.past hpt).mono (Nat.le_max_right _ _))
    (hpt.tape ▸ hnext)
  obtain ⟨x, ws, rfl, -⟩ := hbegins
  refine ⟨u, hpt.trans hpu, Rule.many_of_ok ?_ (hpt.left_lt (List.cons_ne_nil _ _)) hu⟩
  exact (Phrase.parse_eq .statement s).trans ht

theorem block {o c : Token} {as : List Stmt} (ho : o.kind = .openBrace)
    (has : Complete .stmts ts as) (hc : c.kind = .closeBrace) :
    Complete .block (o :: (ts ++ [c])) (.mk as (o.span.join c.span)) := by
  intro s us hs _
  obtain ⟨inner, u, hi, hu, hsu, hclose⟩ := hs.enclosed ho hc
  obtain ⟨v, hpv, hv⟩ := has u (c :: us) hsu (.inl hc)
  obtain ⟨w, hw, hpw⟩ := hclose v hpv
  exact ⟨w.atDepth s.depth, hpw, Parser.nest_eq_ok.2 ⟨inner, w, hi, Rule.bind_eq_ok.2 ⟨o, u, hu,
    Rule.bind_eq_ok.2 ⟨as, v, hv, Rule.bind_eq_ok.2 ⟨c, w, hw, rfl⟩⟩⟩, rfl⟩⟩

/-- The end of the input never comes before the end. -/
theorem not_offers_eof {x : Token} (hx : x.kind = .eof) : ¬s.Offers n (ts ++ [x]) us :=
  fun h => Input.ne_eof_of_rest (s := s) (a := x) (by rw [h.rest]; simp) hx

end Part.Complete

/-- Where tokens that spell a tree are ahead, the parser reads that tree, if the settings allow its
levels of nesting and what comes behind cannot be taken for a part of it. -/
theorem Spells.complete {p : Part} {ts : List Token} {a : p.Tree} (h : Spells p ts a) :
    p.Complete ts a := by
  induction h with
  | integer ht hn => exact .integer ht hn
  | boolean b ht => exact .boolean b ht
  | var ht => exact .var ht
  | group ho _ hc ih => exact .group ho ih hc
  | conditional hi ho _ hc _ ihe ihb => exact .conditional hi ho ihe hc ihb
  | alternative hi ho _ hc _ hl _ ihe ihb ihd => exact .alternative hi ho ihe hc ihb hl ihd
  | function hf ho _ hc _ ihp ihb => exact .function hf ho ihp hc ihb
  | call _ ho _ hc ihe iha => exact .call ihe ho iha hc
  | unary ht _ ih => exact .unary ht ih
  | binary _ ht _ ihe ihf => exact .binary ihe ht ihf
  | tighter he ih => exact .tighter ih he
  | noArguments => exact .noArguments
  | arguments he hs ihe ihs =>
    obtain ⟨x, us, rfl, -⟩ := he.begins
    exact .arguments ihe (List.cons_ne_nil x us) ihs hs
  | noMoreArguments => exact .noMoreArguments
  | moreArguments hc _ hs ihe ihs => exact .moreArguments hc ihe ihs hs
  | noParams => exact .noParams
  | params ht _ ih => exact .params ht ih
  | noMoreParams => exact .noMoreParams
  | moreParams hc ht _ ih => exact .moreParams hc ht ih
  | binding o hk hi ha he hs ih => exact .binding hk hi ha ih he.finishes hs
  | returning o hk he hs ih => exact .returning hk ih he.finishes hs
  | evaluation o he hs ih => exact .evaluation ih he.begins he.finishes hs
  | noStmts => exact .noStmts
  | stmts h hb hs ih ihs => exact .stmts ih h.begins hb ihs hs
  | block ho _ hc ih => exact .block ho ih hc
  | program _ ht => exact fun _ _ hs => absurd hs (Part.Complete.not_offers_eof ht)

/-- A program that all tokens ahead spell is read. -/
theorem Spells.program_parse {s : Input} {a : Program} (h : Spells .program s.ahead a)
    (hs : s.settings.Usable) (ha : s.Allows a.need) :
    ∃ t, Grammar.program.parse s = .ok (a, t) := by
  generalize hw : s.ahead = w at h
  cases h with
  | @program x ts as has hx =>
    obtain ⟨hrest, heof⟩ := List.append_inj' (hw : s.rest ++ [s.tape.eof] = ts ++ [x]) rfl
    replace hrest : s.rest = ts := hrest
    cases heof
    have hoffers : s.Offers (Stmt.needAll as) ts [] := ⟨hs, ha, by rw [hrest, List.append_nil]⟩
    obtain ⟨t, hp, ht⟩ := has.complete s [] hoffers (.inr hx)
    have hend : t.rest = [] := List.append_cancel_left (hp.rest.symm.trans hoffers.rest)
    have heoi : Rule.eoi.parse t = .ok ((), t) := Parser.eoi_eq_ok.2 ⟨hend, rfl⟩
    refine ⟨t, Rule.bind_eq_ok.2 ⟨_, s, rfl, Rule.bind_eq_ok.2 ⟨as, t,
      Rule.seqLeft_eq_ok.2 ⟨t, (), ht, heoi⟩, Rule.bind_eq_ok.2 ⟨_, t, rfl, ?_⟩⟩⟩⟩
    rw [Input.current_of_rest_nil hend, hp.tape, Input.peek_zero, hrest]
    rfl

/-- An expression that all tokens ahead spell, but the end, is read. -/
theorem Spells.expression_parse {s : Input} {e : Expr} (h : Spells (.expr .equation) s.rest e)
    (hs : s.settings.Usable) (ha : s.Allows e.need) :
    ∃ t, (Grammar.expression <* Rule.eoi).parse s = .ok (e, t) := by
  have hoffers : s.Offers e.need s.rest [] := ⟨hs, ha, (List.append_nil _).symm⟩
  have hnext : s.tape.next [] = .eof := s.tape.eof_kind
  obtain ⟨t, ht, hp⟩ := h.complete.rule_parse hoffers (hnext ▸ rfl) (by rw [hnext]; decide)
  have hend : t.rest = [] := List.append_cancel_left (hp.rest.symm.trans hoffers.rest)
  exact ⟨t, Rule.seqLeft_eq_ok.2 ⟨t, (), ht, Parser.eoi_eq_ok.2 ⟨hend, rfl⟩⟩⟩

end Descent
