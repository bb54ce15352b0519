import Descent.Proofs.Parser.Depth
import Descent.Proofs.Parser.Matches
import Descent.Proofs.Parser.Recursion

/-!
# What is read is spelled

If the parser reads a phrase, then the tokens it passes spell the tree it returns
(`Phrase.sound_parse`). The same induction shows two more things: an expression is read as far as it
reaches, so that no operator and no call follow it, and a reading within a limit on nesting has a
tree that the limit allows. Errors have no part in this, so it holds under all settings.
-/

namespace Descent

open Automaton (Continues)

/-- Kinds of token that go on with a phrase of a layer. -/
def Layer.GoesOn : Layer → Token.Kind → Bool
  | primary, _ => false
  | call, k | unary, k => k = .openParen
  | product, k => k = .openParen || (Grammar.productOp? k).isSome
  | sum, k => k = .openParen || (Grammar.productOp? k).isSome || (Grammar.sumOp? k).isSome
  | comparison, k =>
    k = .openParen || (Grammar.productOp? k).isSome || (Grammar.sumOp? k).isSome ||
      (Grammar.comparisonOp? k).isSome
  | equation, k =>
    k = .openParen || (Grammar.productOp? k).isSome || (Grammar.sumOp? k).isSome ||
      (Grammar.comparisonOp? k).isSome || (Grammar.equationOp? k).isSome

theorem Layer.goesOn_equation (k : Token.Kind) : equation.GoesOn k = true ↔ Continues k := by
  cases k <;> decide

namespace Input

variable {s t u : Input} {p : Part} {ts us : List Token} {a : p.Tree}

/-- From `s` to `t`, the tokens `ts` spell the tree `a`, which the settings allow. -/
structure Reads (s : Input) (p : Part) (ts : List Token) (a : p.Tree) (t : Input) : Prop where
  passes : s.Passes ts t
  spells : Spells p ts a
  allows : s.Allows 0 → s.Allows (p.need a)

/-- A phrase of the tokens `ts` that ends before `t` reaches as far as it can. -/
def Ends (ts : List Token) (t : Input) : Part → Prop
  | .expr l => l.GoesOn t.current.kind = false
  | .stmt => (∃ x, ts.getLast? = some x ∧ x.kind = .semicolon) ∨ ¬Continues t.current.kind
  | _ => True

/-- What a phrase reads off an input. -/
def Yields (s : Input) (p : Part) (a : p.Tree) (t : Input) : Prop :=
  ∃ ts, s.Reads p ts a t ∧ t.Ends ts p

/-- A phrase between two tokens, one level of nesting deeper. -/
theorem Reads.enclosed {inner v : Input} {o c : Token} (h : t.Reads p ts a u)
    (hi : s.descend = .ok inner) (ho : inner.Passes [o] t) (hc : u.Passes [c] v) :
    s.Passes (o :: (ts ++ [c])) (v.atDepth s.depth) ∧ s.Allows (1 + p.need a) := by
  obtain ⟨hzero, hneed⟩ := allows_of_descend (n := p.need a) hi
  constructor
  · exact ((ho.trans (h.passes.trans hc)).of_eq (by simp)).outside hi
  · exact hneed.1 (ho.allows.1 (h.allows (ho.allows.2 hzero)))

end Input

/-- The sort of phrase that a name stands for. -/
def Phrase.part : Phrase → Part
  | expression => .expr .equation
  | unary => .expr .unary
  | statement => .stmt
  | block => .block

/-- The tree that a reading of a phrase returns, as one of its sort. -/
def Phrase.tree : (p : Phrase) → p.Value → p.part.Tree
  | expression, e | unary, e => e
  | statement, s => s
  | block, b => b

namespace Grammar

open Rule Input

/-- The readings of phrases are right. -/
def Sound (parse : (p : Phrase) → Parser p.Value) : Prop :=
  ∀ (p : Phrase) (s : Input) (a : p.Value) (t : Input),
    parse p s = .ok (a, t) → s.Yields p.part (p.tree a) t

variable {parse : (p : Phrase) → Parser p.Value} {s t : Input}

/-! ## Rules that refer to no phrase -/

theorem sound_ident {i : Ident} (h : ident.run parse s = .ok (i, t)) :
    ∃ x : Token, x.kind = .identifier ∧ i = ⟨x.lexeme, x.span⟩ ∧ s.Passes [x] t := by
  obtain ⟨x, u, hx, hi⟩ := bind_eq_ok.1 h
  obtain ⟨rfl, rfl⟩ := pure_eq_ok.1 hi
  obtain ⟨hk, hpass⟩ := token_ok hx nofun
  exact ⟨x, hk, rfl, hpass⟩

theorem sound_integer {e : Expr} (h : integer.run parse s = .ok (e, t)) :
    ∃ ts, s.Reads (.expr .primary) ts e t := by
  obtain ⟨x, hx, he⟩ := Parser.refine_eq_ok.1 h
  obtain ⟨hk, hpass⟩ := Parser.token_ok hx nofun
  unfold integerOf at he
  cases hn : Text.Decimal.toInt64? x.lexeme with
  | none =>
    rw [hn] at he
    cases he
  | some n =>
    rw [hn] at he
    cases he
    exact ⟨[x], hpass, .integer hk hn, id⟩

theorem sound_boolean {e : Expr} (h : boolean.run parse s = .ok (e, t)) :
    ∃ ts, s.Reads (.expr .primary) ts e t := by
  obtain ⟨r, hr, u, hu, hut⟩ := choice_ok h
  simp only [List.mem_cons, List.not_mem_nil, or_false] at hr
  rcases hr with rfl | rfl
  · obtain ⟨x, v, hx, hv⟩ := bind_eq_ok.1 hu
    obtain ⟨rfl, rfl⟩ := pure_eq_ok.1 hv
    obtain ⟨hk, hpass⟩ := token_ok hx nofun
    exact ⟨[x], hpass.trans hut, .boolean true hk, id⟩
  · obtain ⟨x, v, hx, hv⟩ := bind_eq_ok.1 hu
    obtain ⟨rfl, rfl⟩ := pure_eq_ok.1 hv
    obtain ⟨hk, hpass⟩ := token_ok hx nofun
    exact ⟨[x], hpass.trans hut, .boolean false hk, id⟩

theorem sound_semicolon {o : Option Token}
    (h : (optional (token .semicolon)).run parse s = .ok (o, t)) :
    (∀ x ∈ o, x.kind = .semicolon) ∧ s.Passes o.toList t := by
  rcases optional_ok h with ⟨rfl, hs⟩ | ⟨x, u, rfl, hx, hu⟩
  · exact ⟨nofun, hs⟩
  · obtain ⟨hk, hpass⟩ := token_ok hx nofun
    refine ⟨fun y hy => ?_, hpass.trans hu⟩
    cases hy
    exact hk

/-- A statement that ends with an expression and perhaps a semicolon reaches as far as it can. -/
theorem ends_semicolon (ts : List Token) {o : Option Token} {u : Input}
    (ho : ∀ x ∈ o, x.kind = .semicolon) (hpass : u.Passes o.toList t)
    (hu : ¬Continues u.current.kind) : t.Ends (ts ++ o.toList) .stmt := by
  cases o with
  | none => exact .inr (hpass.current ▸ hu)
  | some x => exact .inl ⟨x, by simp, ho x rfl⟩

theorem sound_moreParams {is : List Ident}
    (h : (many (token .comma *> ident)).run parse s = .ok (is, t)) :
    ∃ ts, s.Passes ts t ∧ Spells .moreParams ts is := by
  refine Parser.atLeast_ok (M := fun s is t => ∃ ts, s.Passes ts t ∧ Spells .moreParams ts is)
    (fun s t hp => ⟨[], hp, .noMoreParams⟩) ?_ h
  rintro s i u is t hi ⟨ts, hp, hs⟩
  obtain ⟨c, v, hc, hi⟩ := seqRight_eq_ok.1 hi
  obtain ⟨hck, hcp⟩ := token_ok hc nofun
  obtain ⟨x, hx, rfl, hxp⟩ := sound_ident hi
  exact ⟨c :: x :: ts, hcp.trans (hxp.trans hp), .moreParams hck hx hs⟩

theorem sound_params {is : List Ident}
    (h : (sepBy ident (token .comma)).run parse s = .ok (is, t)) :
    ∃ ts, s.Passes ts t ∧ Spells .params ts is := by
  rcases sepBy_ok h with ⟨rfl, hp⟩ | ⟨i, is, u, v, rfl, hi, his, hv⟩
  · exact ⟨[], hp, .noParams⟩
  · obtain ⟨x, hx, rfl, hxp⟩ := sound_ident hi
    obtain ⟨ts, hp, hs⟩ := sound_moreParams his
    exact ⟨x :: ts, (hxp.trans (hp.trans hv)).of_eq (by simp), .params hx hs⟩

/-! ## Layers of operators -/

theorem sound_operationOf {op? : Token.Kind → Option BinaryOp} {r : Rule Expr} {l : Layer}
    {s₀ : Input} {ts : List Token} {e f : Expr} (hop : l.op? = op?) (heof : op? .eof = none)
    (hr : ∀ s e t, r.run parse s = .ok (e, t) → s.Yields (.expr l.tighter) e t)
    (he : s₀.Reads (.expr l) ts e s) (h : (operationOf op? r e).run parse s = .ok (some f, t)) :
    (∃ us, s₀.Reads (.expr l) us f t ∧ t.Ends us (.expr l.tighter)) ∧ t.left < s.left := by
  obtain ⟨x, u, hx, h⟩ := bind_eq_ok.1 h
  obtain ⟨-, rfl, rfl⟩ := Parser.lookahead_eq_ok.1 hx
  cases ho : op? s.current.kind with
  | none =>
    simp only [ho] at h
    cases (pure_eq_ok.1 h).1
  | some op =>
    simp only [ho] at h
    obtain ⟨y, v, hy, h⟩ := bind_eq_ok.1 h
    obtain ⟨g, w, hg, h⟩ := bind_eq_ok.1 h
    obtain ⟨hf, rfl⟩ := pure_eq_ok.1 h
    cases hf
    have hk : s.current.kind ≠ .eof := fun hk => by
      rw [hk, heof] at ho
      cases ho
    obtain ⟨rfl, hyp⟩ := Parser.any_ok hk hy
    obtain ⟨us, hg, hend⟩ := hr _ _ _ hg
    have hpre := he.passes.trans hyp
    have hlt := (hyp.trans hg.passes).left_lt (List.cons_ne_nil _ _)
    refine ⟨⟨ts ++ s.current :: us, ⟨(hpre.trans hg.passes).of_eq (by simp),
      .binary he.spells (by rw [hop, ho]) hg.spells, fun h => ?_⟩, hend⟩, hlt⟩
    exact Input.allows_max.2 ⟨he.allows h, hpre.allows.1 (hg.allows (hpre.allows.2 h))⟩

/-- A layer of binary operators over a layer that is read right is read right. -/
theorem sound_operations {op? : Token.Kind → Option BinaryOp} {r : Rule Expr} {l : Layer}
    (hop : l.op? = op?) (heof : op? .eof = none)
    (hgo : ∀ k, l.GoesOn k = (l.tighter.GoesOn k || (op? k).isSome))
    (hr : ∀ s e t, r.run parse s = .ok (e, t) → s.Yields (.expr l.tighter) e t)
    {s : Input} {e : Expr} {t : Input} (h : (operations op? r).run parse s = .ok (e, t)) :
    s.Yields (.expr l) e t := by
  obtain ⟨e₀, u, he₀, h⟩ := Parser.bind_eq_ok.1 h
  obtain ⟨ts, he₀, hend₀⟩ := hr _ _ _ he₀
  obtain ⟨v, ⟨us, he, hend⟩, hnone⟩ := Parser.extendFrom_ok
    (I := fun e v => ∃ ts, s.Reads (.expr l) ts e v ∧ v.Ends ts (.expr l.tighter))
    (fun e v f w ⟨ts, he, _⟩ hf => sound_operationOf hop heof hr he hf)
    ⟨ts, ⟨he₀.passes, .tighter he₀.spells, he₀.allows⟩, hend₀⟩ h
  obtain ⟨x, w, hx, hnone⟩ := bind_eq_ok.1 hnone
  obtain ⟨-, rfl, rfl⟩ := Parser.lookahead_eq_ok.1 hx
  cases ho : op? v.current.kind with
  | none =>
    simp only [ho] at hnone
    obtain ⟨-, rfl⟩ := pure_eq_ok.1 hnone
    refine ⟨us, he, ?_⟩
    have htighter : l.tighter.GoesOn v.current.kind = false := hend
    rw [Input.Ends, hgo, htighter, ho]
    rfl
  | some op =>
    simp only [ho] at hnone
    obtain ⟨y, v, -, h⟩ := bind_eq_ok.1 hnone
    obtain ⟨g, w, -, h⟩ := bind_eq_ok.1 h
    cases (pure_eq_ok.1 h).1

/-! ## Rules around phrases -/

variable (hp : Sound parse)

include hp

theorem sound_expression {e : Expr} (h : (call .expression).run parse s = .ok (e, t)) :
    (∃ ts, s.Reads (.expr .equation) ts e t) ∧ ¬Continues t.current.kind := by
  obtain ⟨ts, hr, he⟩ := hp .expression s e t h
  refine ⟨⟨ts, hr⟩, fun hc => ?_⟩
  rw [← Layer.goesOn_equation] at hc
  exact absurd (hc.symm.trans he) (by decide)

theorem sound_group {e : Expr} (h : group.run parse s = .ok (e, t)) :
    ∃ ts, s.Reads (.expr .primary) ts e t := by
  obtain ⟨inner, u, hi, hu, rfl⟩ := Parser.nest_eq_ok.1 h
  obtain ⟨o, u₁, ho, hu⟩ := Parser.bind_eq_ok.1 hu
  obtain ⟨f, u₂, hf, hu⟩ := bind_eq_ok.1 hu
  obtain ⟨c, u₃, hc, hu⟩ := bind_eq_ok.1 hu
  obtain ⟨rfl, rfl⟩ := pure_eq_ok.1 hu
  obtain ⟨hok, hop⟩ := token_ok ho nofun
  obtain ⟨⟨ts, hf⟩, -⟩ := sound_expression hp hf
  obtain ⟨hck, hcp⟩ := token_ok hc nofun
  obtain ⟨hpass, hallows⟩ := hf.enclosed hi hop hcp
  exact ⟨_, hpass, .group hok hf.spells hck, fun _ => hallows⟩

theorem sound_condition {e : Expr}
    (h : (nest (token .openParen *> call .expression <* token .closeParen)).run parse s =
      .ok (e, t)) :
    ∃ (o c : Token) (ts : List Token), o.kind = .openParen ∧ Spells (.expr .equation) ts e ∧
      c.kind = .closeParen ∧ s.Passes (o :: (ts ++ [c])) t ∧ s.Allows (1 + e.need) := by
  obtain ⟨inner, u, hi, hu, rfl⟩ := Parser.nest_eq_ok.1 h
  obtain ⟨u₂, c, hu, hc⟩ := seqLeft_eq_ok.1 hu
  obtain ⟨o, u₁, ho, hf⟩ := seqRight_eq_ok.1 hu
  obtain ⟨hok, hop⟩ := token_ok ho nofun
  obtain ⟨⟨ts, hf⟩, -⟩ := sound_expression hp hf
  obtain ⟨hck, hcp⟩ := token_ok hc nofun
  obtain ⟨hpass, hallows⟩ := hf.enclosed hi hop hcp
  exact ⟨o, c, ts, hok, hf.spells, hck, hpass, hallows⟩

theorem sound_conditional {e : Expr} (h : conditional.run parse s = .ok (e, t)) :
    ∃ ts, s.Reads (.expr .primary) ts e t := by
  obtain ⟨i, u₁, hi, h⟩ := bind_eq_ok.1 h
  obtain ⟨f, u₂, hf, h⟩ := bind_eq_ok.1 h
  obtain ⟨b, u₃, hb, h⟩ := bind_eq_ok.1 h
  obtain ⟨a, u₄, ha, h⟩ := bind_eq_ok.1 h
  obtain ⟨rfl, rfl⟩ := pure_eq_ok.1 h
  obtain ⟨hik, hip⟩ := token_ok hi nofun
  obtain ⟨o, c, ts, hok, hf, hck, hfp, hfa⟩ := sound_condition hp hf
  obtain ⟨us, hb, -⟩ := hp .block _ _ _ hb
  have hpre : s.Passes (i :: o :: (ts ++ c :: us)) u₃ :=
    (hip.trans (hfp.trans hb.passes)).of_eq (by simp)
  -- What the settings allow is the same at every place on the way.
  have hcondition : s.Allows (1 + f.need) := hip.allows.1 hfa
  have hconsequence (h : s.Allows 0) : s.Allows b.need :=
    (hip.trans hfp).allows.1 (hb.allows ((hip.trans hfp).allows.2 h))
  rcases optional_ok ha with ⟨rfl, hpass⟩ | ⟨d, v, rfl, hd, hv⟩
  · exact ⟨_, (hpre.trans hpass).of_eq (List.append_nil _),
      .conditional hik hok hf hck hb.spells,
      fun h => Input.allows_max.2 ⟨hcondition, hconsequence h⟩⟩
  · obtain ⟨l, w, hl, hd⟩ := seqRight_eq_ok.1 hd
    obtain ⟨hlk, hlp⟩ := token_ok hl nofun
    obtain ⟨vs, hd, -⟩ := hp .block _ _ _ hd
    have halternative (h : s.Allows 0) : s.Allows d.need :=
      (hpre.trans hlp).allows.1 (hd.allows ((hpre.trans hlp).allows.2 h))
    refine ⟨_, (hpre.trans (hlp.trans (hd.passes.trans hv))).of_eq (by simp),
      .alternative hik hok hf hck hb.spells hlk hd.spells,
      fun h => Input.allows_max.2 ⟨hcondition, Input.allows_max.2 ⟨hconsequence h, ?_⟩⟩⟩
    exact halternative h

theorem sound_function {e : Expr} (h : function.run parse s = .ok (e, t)) :
    ∃ ts, s.Reads (.expr .primary) ts e t := by
  obtain ⟨f, u₁, hf, h⟩ := bind_eq_ok.1 h
  obtain ⟨is, u₂, his, h⟩ := bind_eq_ok.1 h
  obtain ⟨b, u₃, hb, h⟩ := bind_eq_ok.1 h
  obtain ⟨rfl, rfl⟩ := pure_eq_ok.1 h
  obtain ⟨hfk, hfp⟩ := token_ok hf nofun
  obtain ⟨v, c, his, hc⟩ := seqLeft_eq_ok.1 his
  obtain ⟨o, w, ho, his⟩ := seqRight_eq_ok.1 his
  obtain ⟨hok, hop⟩ := token_ok ho nofun
  obtain ⟨ts, hps, his⟩ := sound_params his
  obtain ⟨hck, hcp⟩ := token_ok hc nofun
  obtain ⟨us, hb, -⟩ := hp .block _ _ _ hb
  have hpre : s.Passes (f :: o :: (ts ++ [c])) u₂ :=
    (hfp.trans (hop.trans (hps.trans hcp))).of_eq (by simp)
  exact ⟨_, (hpre.trans hb.passes).of_eq (by simp), .function hfk hok his hck hb.spells,
    fun h => hpre.allows.1 (hb.allows (hpre.allows.2 h))⟩

theorem sound_primary {e : Expr} (h : primary.run parse s = .ok (e, t)) :
    ∃ ts, s.Reads (.expr .primary) ts e t := by
  obtain ⟨r, hr, u, hu, hut⟩ := choice_ok (Parser.named_eq_ok.1 h)
  suffices ∃ ts, s.Reads (.expr .primary) ts e u by
    obtain ⟨ts, hs⟩ := this
    exact ⟨ts, (hs.passes.trans hut).of_eq (List.append_nil ts), hs.spells, hs.allows⟩
  simp only [List.mem_cons, List.not_mem_nil, or_false] at hr
  rcases hr with rfl | rfl | rfl | rfl | rfl | rfl
  · exact sound_integer hu
  · exact sound_boolean hu
  · obtain ⟨i, hi, rfl⟩ := map_eq_ok.1 hu
    obtain ⟨x, hx, rfl, hxp⟩ := sound_ident hi
    exact ⟨[x], hxp, .var hx, id⟩
  · exact sound_group hp hu
  · exact sound_conditional hp hu
  · exact sound_function hp hu

/-! ## Calls -/

theorem sound_moreArguments {es : List Expr}
    (h : (many (token .comma *> call .expression)).run parse s = .ok (es, t)) :
    ∃ ts, s.Reads .moreArguments ts es t := by
  refine Parser.atLeast_ok (M := fun s es t => ∃ ts, s.Reads .moreArguments ts es t)
    (fun s t hp => ⟨[], hp, .noMoreArguments, id⟩) ?_ h
  rintro s e u es t he ⟨us, hes⟩
  obtain ⟨c, v, hc, he⟩ := seqRight_eq_ok.1 he
  obtain ⟨hck, hcp⟩ := token_ok hc nofun
  obtain ⟨⟨ts, he⟩, -⟩ := sound_expression hp he
  have hpre := hcp.trans he.passes
  refine ⟨c :: (ts ++ us), (hpre.trans hes.passes).of_eq (by simp),
    .moreArguments hck he.spells hes.spells, fun h => Input.allows_max.2 ⟨?_, ?_⟩⟩
  · exact hcp.allows.1 (he.allows (hcp.allows.2 h))
  · exact hpre.allows.1 (hes.allows (hpre.allows.2 h))

theorem sound_arguments {es : List Expr}
    (h : (sepBy (call .expression) (token .comma)).run parse s = .ok (es, t)) :
    ∃ ts, s.Reads .arguments ts es t := by
  rcases sepBy_ok h with ⟨rfl, hpass⟩ | ⟨e, es, u, v, rfl, he, hes, hv⟩
  · exact ⟨[], hpass, .noArguments, id⟩
  · obtain ⟨⟨ts, he⟩, -⟩ := sound_expression hp he
    obtain ⟨us, hes⟩ := sound_moreArguments hp hes
    refine ⟨ts ++ us, (he.passes.trans (hes.passes.trans hv)).of_eq (by simp),
      .arguments he.spells hes.spells, fun h => Input.allows_max.2 ⟨he.allows h, ?_⟩⟩
    exact he.passes.allows.1 (hes.allows (he.passes.allows.2 h))

/-- One more call is one of what has been read before. -/
theorem sound_callOf {s₀ : Input} {ts : List Token} {e f : Expr}
    (he : s₀.Reads (.expr .call) ts e s) (h : (callOf e).run parse s = .ok (some f, t)) :
    (∃ us, s₀.Reads (.expr .call) us f t) ∧ t.left < s.left := by
  obtain ⟨x, u, hx, h⟩ := bind_eq_ok.1 h
  by_cases hk : x.kind = .openParen
  · rw [if_pos hk] at h
    obtain ⟨⟨es, c⟩, v, ha, h⟩ := bind_eq_ok.1 h
    obtain ⟨hf, rfl⟩ := pure_eq_ok.1 h
    cases hf
    obtain ⟨-, -, rfl⟩ := Parser.lookahead_eq_ok.1 hx
    obtain ⟨inner, w, hi, hw, rfl⟩ := Parser.nest_eq_ok.1 ha
    obtain ⟨es', w₂, hes, hw⟩ := bind_eq_ok.1 hw
    obtain ⟨c', w₃, hc, hw⟩ := bind_eq_ok.1 hw
    obtain ⟨heq, rfl⟩ := pure_eq_ok.1 hw
    cases heq
    obtain ⟨o, w₁, ho, hes⟩ := seqRight_eq_ok.1 hes
    obtain ⟨hok, hop⟩ := token_ok ho nofun
    obtain ⟨us, hes⟩ := sound_arguments hp hes
    obtain ⟨hck, hcp⟩ := token_ok hc nofun
    obtain ⟨hpass, hallows⟩ := hes.enclosed hi hop hcp
    refine ⟨⟨ts ++ o :: (us ++ [c]), he.passes.trans hpass,
      .call he.spells hok hes.spells hck, fun h => Input.allows_max.2 ⟨he.allows h, ?_⟩⟩,
      hpass.left_lt (List.cons_ne_nil _ _)⟩
    exact he.passes.allows.1 hallows
  · rw [if_neg hk] at h
    cases (pure_eq_ok.1 h).1

theorem sound_calls {e : Expr} (h : calls.run parse s = .ok (e, t)) :
    (∃ ts, s.Reads (.expr .call) ts e t) ∧ t.current.kind ≠ .openParen := by
  obtain ⟨e₀, u, he₀, h⟩ := Parser.bind_eq_ok.1 h
  obtain ⟨ts, he₀⟩ := sound_primary hp he₀
  obtain ⟨v, he, hnone⟩ := Parser.extendFrom_ok (I := fun e v => ∃ ts, s.Reads (.expr .call) ts e v)
    (fun e v f w ⟨ts, he⟩ hf => sound_callOf hp he hf)
    ⟨ts, he₀.passes, .tighter he₀.spells, he₀.allows⟩ h
  obtain ⟨x, w, hx, hnone⟩ := bind_eq_ok.1 hnone
  obtain ⟨-, rfl, rfl⟩ := Parser.lookahead_eq_ok.1 hx
  by_cases hk : v.current.kind = .openParen
  · rw [if_pos hk] at hnone
    obtain ⟨ec, w, -, hnone⟩ := bind_eq_ok.1 hnone
    cases (pure_eq_ok.1 hnone).1
  · rw [if_neg hk] at hnone
    obtain ⟨-, rfl⟩ := pure_eq_ok.1 hnone
    exact ⟨he, hk⟩

/-! ## Unary operators and expressions -/

theorem sound_unary {e : Expr} (h : unary.run parse s = .ok (e, t)) :
    s.Yields (.expr .unary) e t := by
  obtain ⟨x, u, hx, h⟩ := bind_eq_ok.1 h
  obtain ⟨-, rfl, rfl⟩ := Parser.lookahead_eq_ok.1 hx
  cases hop : unaryOp? s.current.kind with
  | none =>
    simp only [hop] at h
    obtain ⟨⟨ts, he⟩, hk⟩ := sound_calls hp h
    exact ⟨ts, ⟨he.passes, .tighter he.spells, he.allows⟩, decide_eq_false hk⟩
  | some op =>
    simp only [hop] at h
    obtain ⟨y, v, hy, h⟩ := bind_eq_ok.1 h
    obtain ⟨f, w, hf, h⟩ := bind_eq_ok.1 h
    obtain ⟨rfl, rfl⟩ := pure_eq_ok.1 h
    have heof : s.current.kind ≠ .eof := fun he => by
      rw [he] at hop
      cases hop
    obtain ⟨rfl, hyp⟩ := Parser.any_ok heof hy
    obtain ⟨inner, z, hi, hz, rfl⟩ := Parser.nest_eq_ok.1 hf
    obtain ⟨ts, hr, hend⟩ := hp .unary _ _ _ hz
    obtain ⟨hzero, hneed⟩ := Input.allows_of_descend (n := f.need) hi
    refine ⟨s.current :: ts, ⟨hyp.trans (hr.passes.outside hi), .unary hop hr.spells, fun h => ?_⟩,
      hend⟩
    exact hyp.allows.1 (hneed.1 (hr.allows hzero))

theorem sound_expression_rule {e : Expr} (h : expression.run parse s = .ok (e, t)) :
    s.Yields (.expr .equation) e t := by
  have hunary (s e t) (h : (call .unary).run parse s = .ok (e, t)) : s.Yields (.expr .unary) e t :=
    hp .unary s e t h
  have hproduct (s e t) (h : product.run parse s = .ok (e, t)) : s.Yields (.expr .product) e t :=
    sound_operations rfl rfl (by intro k; cases k <;> rfl) hunary h
  have hsum (s e t) (h : sum.run parse s = .ok (e, t)) : s.Yields (.expr .sum) e t :=
    sound_operations rfl rfl (by intro k; cases k <;> rfl) hproduct h
  have hcomparison (s e t) (h : comparison.run parse s = .ok (e, t)) :
      s.Yields (.expr .comparison) e t :=
    sound_operations rfl rfl (by intro k; cases k <;> rfl) hsum h
  exact sound_operations rfl rfl (by intro k; cases k <;> rfl) hcomparison h

/-! ## Statements and blocks -/

theorem sound_binding {a : Stmt} (h : binding.run parse s = .ok (a, t)) : s.Yields .stmt a t := by
  obtain ⟨k, u₁, hk, h⟩ := bind_eq_ok.1 h
  obtain ⟨i, u₂, hi, h⟩ := bind_eq_ok.1 h
  obtain ⟨e, u₃, he, h⟩ := bind_eq_ok.1 h
  obtain ⟨o, u₄, ho, h⟩ := bind_eq_ok.1 h
  obtain ⟨rfl, rfl⟩ := pure_eq_ok.1 h
  obtain ⟨hkk, hkp⟩ := token_ok hk nofun
  obtain ⟨v, q, hi, hq⟩ := seqLeft_eq_ok.1 hi
  obtain ⟨x, hx, rfl, hxp⟩ := sound_ident hi
  obtain ⟨hqk, hqp⟩ := token_ok hq nofun
  obtain ⟨⟨ts, he⟩, hend⟩ := sound_expression hp he
  obtain ⟨hok, hop⟩ := sound_semicolon ho
  have hpre := hkp.trans (hxp.trans hqp)
  have hends := ends_semicolon (k :: x :: q :: ts) hok hop hend
  refine ⟨k :: x :: q :: (ts ++ o.toList), ⟨(hpre.trans (he.passes.trans hop)).of_eq (by simp),
    .binding o hkk hx hqk he.spells hok, fun h => ?_⟩, hends⟩
  exact hpre.allows.1 (he.allows (hpre.allows.2 h))

theorem sound_returning {a : Stmt} (h : returning.run parse s = .ok (a, t)) :
    s.Yields .stmt a t := by
  obtain ⟨k, u₁, hk, h⟩ := bind_eq_ok.1 h
  obtain ⟨e, u₂, he, h⟩ := bind_eq_ok.1 h
  obtain ⟨o, u₃, ho, h⟩ := bind_eq_ok.1 h
  obtain ⟨rfl, rfl⟩ := pure_eq_ok.1 h
  obtain ⟨hkk, hkp⟩ := token_ok hk nofun
  obtain ⟨⟨ts, he⟩, hend⟩ := sound_expression hp he
  obtain ⟨hok, hop⟩ := sound_semicolon ho
  refine ⟨k :: (ts ++ o.toList), ⟨(hkp.trans (he.passes.trans hop)).of_eq (by simp),
    .returning o hkk he.spells hok, fun h => ?_⟩, ends_semicolon (k :: ts) hok hop hend⟩
  exact hkp.allows.1 (he.allows (hkp.allows.2 h))

theorem sound_evaluation {a : Stmt} (h : evaluation.run parse s = .ok (a, t)) :
    s.Yields .stmt a t := by
  obtain ⟨e, u₁, he, h⟩ := bind_eq_ok.1 h
  obtain ⟨o, u₂, ho, h⟩ := bind_eq_ok.1 h
  obtain ⟨rfl, rfl⟩ := pure_eq_ok.1 h
  obtain ⟨⟨ts, he⟩, hend⟩ := sound_expression hp he
  obtain ⟨hok, hop⟩ := sound_semicolon ho
  exact ⟨ts ++ o.toList, ⟨he.passes.trans hop, .evaluation o he.spells hok, he.allows⟩,
    ends_semicolon ts hok hop hend⟩

theorem sound_statement {a : Stmt} (h : statement.run parse s = .ok (a, t)) :
    s.Yields .stmt a t := by
  obtain ⟨r, hr, u, hu, hut⟩ := choice_ok h
  suffices s.Yields .stmt a u by
    obtain ⟨ts, hs, hend⟩ := this
    refine ⟨ts, ⟨(hs.passes.trans hut).of_eq (List.append_nil ts), hs.spells, hs.allows⟩, ?_⟩
    rw [Input.Ends, hut.current]
    exact hend
  simp only [List.mem_cons, List.not_mem_nil, or_false] at hr
  rcases hr with rfl | rfl | rfl
  · exact sound_binding hp hu
  · exact sound_returning hp hu
  · exact sound_evaluation hp hu

theorem sound_statements {as : List Stmt} (h : (many (call .statement)).run parse s = .ok (as, t)) :
    ∃ ts, s.Reads .stmts ts as t := by
  refine Parser.atLeast_ok (M := fun s as t => ∃ ts, s.Reads .stmts ts as t)
    (fun s t hp => ⟨[], hp, .noStmts, id⟩) ?_ h
  rintro s a u as t ha ⟨us, has⟩
  obtain ⟨ts, ha, hend⟩ := hp .statement _ _ _ ha
  have hboundary : Boundary ts us := by
    refine hend.imp id fun hu x hx => ?_
    cases us with
    | nil => cases hx
    | cons y us =>
      cases hx
      rwa [Input.current_of_rest has.passes.rest] at hu
  refine ⟨ts ++ us, ha.passes.trans has.passes, .stmts ha.spells hboundary has.spells,
    fun h => Input.allows_max.2 ⟨ha.allows h, ?_⟩⟩
  exact ha.passes.allows.1 (has.allows (ha.passes.allows.2 h))

theorem sound_block {b : Block} (h : block.run parse s = .ok (b, t)) : s.Yields .block b t := by
  obtain ⟨inner, u, hi, hu, rfl⟩ := Parser.nest_eq_ok.1 h
  obtain ⟨o, u₁, ho, hu⟩ := Parser.bind_eq_ok.1 hu
  obtain ⟨as, u₂, has, hu⟩ := bind_eq_ok.1 hu
  obtain ⟨c, u₃, hc, hu⟩ := bind_eq_ok.1 hu
  obtain ⟨rfl, rfl⟩ := pure_eq_ok.1 hu
  obtain ⟨hok, hop⟩ := token_ok ho nofun
  obtain ⟨ts, has⟩ := sound_statements hp has
  obtain ⟨hck, hcp⟩ := token_ok hc nofun
  obtain ⟨hpass, hallows⟩ := has.enclosed hi hop hcp
  exact ⟨_, ⟨hpass, .block hok has.spells hck, fun _ => hallows⟩, trivial⟩

/-- A program that is read is spelled by all tokens ahead, with the end. -/
theorem sound_program {a : Program} (h : program.run parse s = .ok (a, t)) :
    Spells .program s.ahead a ∧ (s.Allows 0 → s.Allows a.need) := by
  obtain ⟨start, u₁, hstart, h⟩ := bind_eq_ok.1 h
  obtain ⟨as, u₂, has, h⟩ := bind_eq_ok.1 h
  obtain ⟨stop, u₃, hstop, h⟩ := bind_eq_ok.1 h
  obtain ⟨rfl, rfl⟩ := pure_eq_ok.1 h
  obtain ⟨rfl, rfl⟩ := Parser.here_eq_ok.1 hstart
  obtain ⟨rfl, rfl⟩ := Parser.here_eq_ok.1 hstop
  obtain ⟨v, x, hmany, heoi⟩ := seqLeft_eq_ok.1 has
  obtain ⟨hend, rfl⟩ := Parser.eoi_eq_ok.1 heoi
  obtain ⟨ts, has⟩ := sound_statements hp hmany
  have hrest : s.rest = ts := by rw [has.passes.rest, hend, List.append_nil]
  refine ⟨?_, has.allows⟩
  rw [Input.current_of_rest_nil hend, has.passes.tape, Input.peek_zero, hrest]
  exact (show s.ahead = ts ++ [s.tape.eof] from hrest ▸ rfl) ▸ .program has.spells s.tape.eof_kind

/-- If readings are right, running the rules with them is right. -/
theorem sound_rule : Sound fun p => p.rule.run parse := by
  intro p s a t h
  cases p with
  | expression => exact sound_expression_rule hp h
  | unary => exact sound_unary hp h
  | statement => exact sound_statement hp h
  | block => exact sound_block hp h

end Grammar

/-! ## The parser -/

theorem Phrase.sound_parseWithin (n : Nat) : Grammar.Sound (Phrase.parseWithin n) := by
  induction n with
  | zero => exact fun _ _ _ _ h => by cases h
  | succ n ih => exact Grammar.sound_rule ih

/-- The tokens that the parser passes when it reads a phrase spell the tree it returns. -/
theorem Phrase.sound_parse : Grammar.Sound Phrase.parse :=
  fun p s a t h => Phrase.sound_parseWithin s.steps p s a t h

end Descent
