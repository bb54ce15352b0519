import Descent.Proofs.Parser.Branches
import Descent.Proofs.Parser.Tracking

/-!
# Where a parse fails

Each rule of the grammar tracks the automaton: begun where the automaton is at one state, it ends
where the automaton is at another. By induction on the number of tokens left, the error of a program
that is not read is justified and decisive when the furthest errors are selected
(`Grammar.program_error`): it points at the token where the automaton stops.
-/

namespace Descent

open Automaton (State Context Continues IsOperator)

namespace Automaton.Context

/-- The context has no unary operators in front of the expression. -/
def Plain : Context → Prop
  | .operand _ => False
  | _ => True

variable {k : Context} {t : Token.Kind} {c : State}

theorem Plain.base (h : k.Plain) : k.base = k := by
  cases k <;> first | rfl | exact h.elim

theorem Plain.level (h : k.Plain) (control : Control) : State.level ⟨control, k⟩ = k.depth := by
  cases k <;> cases control <;> first | rfl | exact h.elim

theorem Body.plain (h : k.Body) : k.Plain := by
  cases k <;> trivial

/-- In a body, what begins an operand begins a statement in the same way. -/
theorem startStatement_of_startOperand (hk : k.Body) (h : k.startOperand t = some c) :
    k.startStatement t = some c := by
  cases k with
  | program => cases t <;> first | exact h | cases h
  | block b k => cases t <;> first | exact h | cases h
  | _ => exact hk.elim

theorem proceed_of_not_continues (h : ¬Continues t) (k : Context) : k.proceed t = k.resume t := by
  rw [proceed, if_neg fun ht => h (.inl ht), if_neg fun ht => h (.inr ht)]

end Automaton.Context

namespace Rule

/-- Begun at `c`, where all of `A` is expected, the rule ends at `d`, where all of `B` is. -/
def Leads (tape : Tape) (settings : Settings) (m n : Nat) {α : Type} (r : Rule α) (c : State)
    (A : Token.Kind → Prop) (d : State) (B : Token.Kind → Prop) : Prop :=
  r.Tracked tape settings m n (·.Tracks tape settings c) (·.Sure tape settings A)
    (·.Tracks tape settings d) (·.Sure tape settings B)

end Rule

/-- All phrases track the automaton where fewer than `m` tokens are left. -/
structure Tape.Below (tape : Tape) (settings : Settings) (m : Nat) : Prop where
  expression : ∀ l : Context, l.Plain → (Rule.call .expression).Leads tape settings m l.depth
    ⟨.operand, l⟩ (State.Accepts ⟨.operand, l⟩) ⟨.ended, l⟩ (State.Accepts ⟨.ended, l⟩)
  unary : ∀ l : Context, (Rule.call .unary).Leads tape settings m l.depth
    ⟨.operand, l⟩ (State.Accepts ⟨.operand, l⟩) ⟨.operandEnd, l⟩ (State.Accepts ⟨.operandEnd, l⟩)
  statement : ∀ l : Context, l.Body → (Rule.call .statement).Leads tape settings m l.depth
    ⟨.statements, l⟩ (fun k => StartsStatement k) ⟨.statements, l⟩ (State.Accepts ⟨.statements, l⟩)
  block : ∀ (b : Bool) (l : Context), (Rule.call .block).Leads tape settings m l.depth
    ⟨.blockOpen b, l⟩ (State.Accepts ⟨.blockOpen b, l⟩)
    ⟨if b then .consequenceEnd else .operandEnd, l⟩
    (State.Accepts ⟨if b then .consequenceEnd else .operandEnd, l⟩)

namespace Grammar

open Rule hiding pure

variable {tape : Tape} {settings : Settings} {m n : Nat} {c d : State} {l : Context}
  {A B : Token.Kind → Prop} {α β : Type}

theorem leads_ident (hc : c.step .identifier = some d) (hd : d.level ≤ n)
    (hA : ∀ k, A k → k = .identifier) : ident.Leads tape settings m n c A d d.Accepts :=
  .bind (.token nofun nofun hc hd hA) fun x =>
    .leave (⟨x.lexeme, x.span⟩ : Ident)

/-- Items with separators between them, where the tokens say how many there are. -/
theorem tracked_sepBy {r : Rule α} {k : Token.Kind}
    (hs : settings.failureSelection = .furthest) (hk : k ≠ .eof)
    (hfirst : ∀ s a t, r.parse s = .ok (a, t) → A s.current.kind)
    (hitem : r.Leads tape settings m n c A d fun k' => k' = k ∨ B k')
    (hmore : (token k *> r).Leads tape settings m n d (· = k) d fun k' => k' = k ∨ B k') :
    (sepBy r (token k)).Tracked tape settings m n (·.Tracks tape settings c)
      (·.Sure tape settings fun k' => A k' ∨ B k')
      (fun t => t.Tracks tape settings d ∨ t.Tracks tape settings c) (·.Sure tape settings B) := by
  have hmany : (many (token k *> r)).Leads tape settings m n d (fun k' => k' = k ∨ B k') d B := by
    have hbegins : (token k *> r).Begins (· = k) := .bind (.token hk)
    exact .many hs hbegins.ok hmore
  have hboth : (both r (many (token k *> r))).Leads tape settings m n c A d B :=
    .bind hitem fun a => .bind hmany fun as => .leave (a, as)
  refine .bind (.optional hs (fun s p t h => ?_) hboth) fun o => ?_
  · obtain ⟨a, u, ha, -⟩ := bind_eq_ok.1 h
    exact hfirst s a u ha
  · cases o with
    | none => exact .leave []
    | some p => exact .leave (p.1 :: p.2)

theorem leads_boolean (hs : settings.failureSelection = .furthest) (hl : l.depth ≤ n) :
    boolean.Leads tape settings m n ⟨.operand, l⟩ (fun k => k = .kwTrue ∨ k = .kwFalse)
      ⟨.operandEnd, l⟩ (State.Accepts ⟨.operandEnd, l⟩) := by
  have branch (b : Bool) (k : Token.Kind) (hk : k ≠ .eof) (hi : k ≠ .integer)
      (hc : State.step ⟨.operand, l⟩ k = some ⟨.operandEnd, l⟩) :
      (token k >>= fun x => pure (Expr.boolean b x.span)).Leads tape settings m n ⟨.operand, l⟩
        (· = k) ⟨.operandEnd, l⟩ (State.Accepts ⟨.operandEnd, l⟩) :=
    .bind (.token hk hi hc hl fun _ h => h) fun x =>
      .leave (Expr.boolean b x.span)
  have hbegins (b : Bool) (k : Token.Kind) (hk : k ≠ .eof) :
      (token k >>= fun x => pure (Expr.boolean b x.span)).Begins (· = k) := .bind (.token hk)
  refine .choice hs [(_, (· = .kwTrue)), (_, (· = .kwFalse))] (List.cons_ne_nil _ _) ?_ ?_
  · simp only [List.forall_mem_cons, List.not_mem_nil, false_implies, implies_true, and_true]
    exact ⟨⟨(hbegins true .kwTrue nofun).first, branch true _ nofun nofun rfl⟩,
      (hbegins false .kwFalse nofun).first, branch false _ nofun nofun rfl⟩
  · simp only [List.mem_cons, List.not_mem_nil, or_false, exists_eq_or_imp, exists_eq_left,
      imp_self, implies_true]

/-- An expression in parentheses, which are a level of nesting of their own. -/
theorem leads_group (below : tape.Below settings m) :
    group.Leads tape settings (m + 1) l.depth ⟨.operand, l⟩ (· = .openParen) ⟨.operandEnd, l⟩
      (State.Accepts ⟨.operandEnd, l⟩) := by
  have hclose : (token .closeParen).Leads tape settings m (l.depth + 1) ⟨.ended, .group l⟩
      (State.Accepts ⟨.ended, .group l⟩) ⟨.operandEnd, l⟩ (State.Accepts ⟨.operandEnd, l⟩) := by
    refine .token nofun nofun rfl (Nat.le_succ _) fun k hk => ?_
    cases k <;> first | rfl | cases hk
  refine .nest ?_ ?_
  · refine .token_bind nofun nofun (d := ⟨.operand, .group l⟩) rfl (Nat.le_refl _) (fun _ h => h)
      fun o => ?_
    refine .bind (below.expression (.group l) trivial) fun e => ?_
    refine .bind hclose fun x => ?_
    exact .leave _
  · rintro k rfl
    exact ⟨_, rfl, Nat.lt_succ_self _⟩

theorem leads_condition (below : tape.Below settings m) :
    (nest (token .openParen *> call .expression <* token .closeParen)).Leads tape settings m l.depth
      ⟨.keywordIf, l⟩ (State.Accepts ⟨.keywordIf, l⟩) ⟨.blockOpen true, l⟩
      (State.Accepts ⟨.blockOpen true, l⟩) := by
  have haccepts (k : Token.Kind) (hk : State.Accepts ⟨.keywordIf, l⟩ k) : k = .openParen := by
    cases k <;> first | rfl | cases hk
  have hopen : (token .openParen).Leads tape settings m (l.depth + 1) ⟨.keywordIf, l⟩
      (State.Accepts ⟨.keywordIf, l⟩) ⟨.operand, .condition l⟩
      (State.Accepts ⟨.operand, .condition l⟩) :=
    .token nofun nofun rfl (Nat.le_refl _) haccepts
  have hclose : (token .closeParen).Leads tape settings m (l.depth + 1) ⟨.ended, .condition l⟩
      (State.Accepts ⟨.ended, .condition l⟩) ⟨.blockOpen true, l⟩
      (State.Accepts ⟨.blockOpen true, l⟩) := by
    refine .token nofun nofun rfl (Nat.le_succ _) fun k hk => ?_
    cases k <;> first | rfl | cases hk
  refine .nest (.seqLeft (.seqRight hopen (below.expression (.condition l) trivial)) hclose) ?_
  intro k hk
  rw [haccepts k hk]
  exact ⟨_, rfl, Nat.lt_succ_self _⟩

theorem leads_alternative (hs : settings.failureSelection = .furthest)
    (below : tape.Below settings m) :
    (optional (token .kwElse *> call .block)).Leads tape settings m l.depth ⟨.consequenceEnd, l⟩
      (State.Accepts ⟨.consequenceEnd, l⟩) ⟨.operandEnd, l⟩
      (State.Accepts ⟨.operandEnd, l⟩) := by
  have helse : (token .kwElse).Leads tape settings m l.depth ⟨.consequenceEnd, l⟩ (· = .kwElse)
      ⟨.blockOpen false, l⟩ (State.Accepts ⟨.blockOpen false, l⟩) :=
    .token nofun nofun rfl (Nat.le_refl _) fun _ h => h
  -- Behind the consequence, all can follow that can follow an operand, and an alternative.
  have hsame {k : Token.Kind} (hk : k ≠ .kwElse) :
      State.step ⟨.consequenceEnd, l⟩ k = State.step ⟨.operandEnd, l⟩ k := by
    cases k <;> first | rfl | exact absurd rfl hk
  have hbegins : (token .kwElse *> call .block).Begins (· = .kwElse) := .bind (.token nofun)
  have hblock := Tracked.seqRight helse (below.block false l)
  have hoptional := Tracked.optional hs hbegins.first hblock
  refine (hoptional.mono_before fun k hk => ?_).behind (fun t ht => ?_) fun _ _ h => h
  · by_cases helse : k = .kwElse
    · exact .inl helse
    · rw [State.Accepts, hsame helse] at hk
      exact .inr hk
  · rcases ht with ht | ht
    · exact ht
    · refine ht.weaken (.operandEndConsequenceEnd l) fun r hr => ?_
      by_cases helse : t.current.kind = .kwElse
      · rw [helse] at hr
        cases (show (none : Option State) = some r from (l.resume_kwElse).symm.trans hr)
      · rw [hsame helse, hr]

theorem leads_conditional (hs : settings.failureSelection = .furthest)
    (below : tape.Below settings m) :
    conditional.Leads tape settings (m + 1) l.depth ⟨.operand, l⟩ (· = .kwIf) ⟨.operandEnd, l⟩
      (State.Accepts ⟨.operandEnd, l⟩) := by
  refine .token_bind nofun nofun (d := ⟨.keywordIf, l⟩) rfl (Nat.le_refl _) (fun _ h => h)
    fun i => ?_
  refine .bind (leads_condition below) fun e => ?_
  refine .bind (below.block true l) fun b => ?_
  refine .bind (leads_alternative hs below) fun o => ?_
  exact .leave _

theorem leads_params (hs : settings.failureSelection = .furthest) :
    (token .openParen *> sepBy ident (token .comma) <* token .closeParen).Leads tape settings m
      l.depth ⟨.keywordFn, l⟩ (State.Accepts ⟨.keywordFn, l⟩) ⟨.blockOpen false, l⟩
      (State.Accepts ⟨.blockOpen false, l⟩) := by
  have hopen : (token .openParen).Leads tape settings m l.depth ⟨.keywordFn, l⟩
      (State.Accepts ⟨.keywordFn, l⟩) ⟨.paramsOpen, l⟩ (State.Accepts ⟨.paramsOpen, l⟩) := by
    refine .token nofun nofun rfl (Nat.le_refl _) fun k hk => ?_
    cases k <;> first | rfl | cases hk
  have hparam (k : Token.Kind) (hk : State.Accepts ⟨.param, l⟩ k) :
      k = .comma ∨ k = .closeParen := by
    cases k <;> first | exact .inl rfl | exact .inr rfl | cases hk
  have hitem : ident.Leads tape settings m l.depth ⟨.paramsOpen, l⟩ (· = .identifier) ⟨.param, l⟩
      fun k => k = .comma ∨ k = .closeParen :=
    (leads_ident rfl (Nat.le_refl _) fun _ h => h).mono_behind hparam
  have hmore : (token .comma *> ident).Leads tape settings m l.depth ⟨.param, l⟩ (· = .comma)
      ⟨.param, l⟩ fun k => k = .comma ∨ k = .closeParen := by
    have hcomma : (token .comma).Leads tape settings m l.depth ⟨.param, l⟩ (· = .comma)
        ⟨.paramComma, l⟩ (State.Accepts ⟨.paramComma, l⟩) :=
      .token nofun nofun rfl (Nat.le_refl _) fun _ h => h
    have hident : ident.Leads tape settings m l.depth ⟨.paramComma, l⟩
        (State.Accepts ⟨.paramComma, l⟩) ⟨.param, l⟩ (State.Accepts ⟨.param, l⟩) := by
      refine leads_ident rfl (Nat.le_refl _) fun k hk => ?_
      cases k <;> first | rfl | cases hk
    exact .seqRight hcomma (hident.mono_behind hparam)
  have hsep := tracked_sepBy (k := .comma) (B := (· = .closeParen)) hs nofun
    begins_ident.first hitem hmore
  have hclose (c : State) (hc : c.step .closeParen = some ⟨.blockOpen false, l⟩) :
      (token .closeParen).Leads tape settings m l.depth c (· = .closeParen) ⟨.blockOpen false, l⟩
        (State.Accepts ⟨.blockOpen false, l⟩) :=
    .token nofun nofun hc (Nat.le_refl _) fun _ h => h
  refine .seqLeft (.seqRight hopen (hsep.mono_before fun k hk => ?_))
    (.or (hclose _ rfl) (hclose _ rfl))
  cases k <;> first | exact .inl rfl | exact .inr rfl | cases hk

theorem leads_function (hs : settings.failureSelection = .furthest)
    (below : tape.Below settings m) :
    function.Leads tape settings (m + 1) l.depth ⟨.operand, l⟩ (· = .kwFn) ⟨.operandEnd, l⟩
      (State.Accepts ⟨.operandEnd, l⟩) := by
  refine .token_bind nofun nofun (d := ⟨.keywordFn, l⟩) rfl (Nat.le_refl _) (fun _ h => h)
    fun f => ?_
  refine .bind (leads_params hs) fun is => ?_
  refine .bind (below.block false l) fun b => ?_
  exact .leave _

theorem leads_var (hl : l.depth ≤ n) :
    (Expr.var <$> ident).Leads tape settings m n ⟨.operand, l⟩ (· = .identifier) ⟨.operandEnd, l⟩
      (State.Accepts ⟨.operandEnd, l⟩) :=
  .map _ (leads_ident rfl hl fun _ h => h)

/-- Of the branches of a primary expression, the one that the token ahead selects decides. -/
theorem leads_primary (hs : settings.failureSelection = .furthest)
    (below : tape.Below settings m) :
    primary.Leads tape settings (m + 1) l.depth ⟨.operand, l⟩ (fun k => StartsPrimary k)
      ⟨.operandEnd, l⟩ (State.Accepts ⟨.operandEnd, l⟩) := by
  refine .named (.choice hs [(integer, (· = .integer)),
    (boolean, fun k => k = .kwTrue ∨ k = .kwFalse), (.var <$> ident, (· = .identifier)),
    (group, (· = .openParen)), (conditional, (· = .kwIf)), (function, (· = .kwFn))]
    (List.cons_ne_nil _ _) ?_ ?_)
  · simp only [List.forall_mem_cons, List.not_mem_nil, false_implies, implies_true, and_true]
    exact ⟨⟨begins_integer.first, .integer (Nat.le_refl _)⟩,
      ⟨begins_boolean.first, leads_boolean hs (Nat.le_refl _)⟩,
      ⟨begins_var.first, leads_var (Nat.le_refl _)⟩, ⟨begins_group.first, leads_group below⟩,
      ⟨begins_conditional.first, leads_conditional hs below⟩,
      begins_function.first, leads_function hs below⟩
  · intro k hk
    simp only [List.mem_cons, List.not_mem_nil, or_false, exists_eq_or_imp, exists_eq_left]
    cases k <;> first | (simp; done) | cases hk

/-- The arguments of a call, behind the operand that is called. -/
theorem leads_arguments (hs : settings.failureSelection = .furthest)
    (below : tape.Below settings m) :
    arguments.Leads tape settings (m + 1) l.depth ⟨.operandEnd, l⟩ (· = .openParen)
      ⟨.operandEnd, l⟩ (State.Accepts ⟨.operandEnd, l⟩) := by
  have haccepts (k : Token.Kind) (hk : State.Accepts ⟨.ended, .arguments l⟩ k) :
      k = .comma ∨ k = .closeParen := by
    cases k <;> first | exact .inl rfl | exact .inr rfl | cases hk
  have hexpr := below.expression (.arguments l) trivial
  have hitem : (call .expression).Leads tape settings m (l.depth + 1)
      ⟨.argumentsOpen, .arguments l⟩ (fun k => Layer.equation.Starts k) ⟨.ended, .arguments l⟩
      fun k => k = .comma ∨ k = .closeParen := by
    refine (hexpr.before (fun s hT => ?_) fun s _ hS => hS.mono fun k hk => ?_).mono_behind haccepts
    · refine hT.weaken (.operandArgumentsOpen _) fun r hr => ?_
      generalize s.current.kind = k at hr
      cases k <;> first | exact hr | cases hr
    · cases k <;> first | rfl | cases hk
  have hmore : (token .comma *> call .expression).Leads tape settings m (l.depth + 1)
      ⟨.ended, .arguments l⟩ (· = .comma) ⟨.ended, .arguments l⟩
      fun k => k = .comma ∨ k = .closeParen := by
    have hcomma : (token .comma).Leads tape settings m (l.depth + 1) ⟨.ended, .arguments l⟩
        (· = .comma) ⟨.operand, .arguments l⟩ (State.Accepts ⟨.operand, .arguments l⟩) :=
      .token nofun nofun rfl (Nat.le_refl _) fun _ h => h
    exact .seqRight hcomma (hexpr.mono_behind haccepts)
  have hsep := tracked_sepBy (k := .comma) (B := (· = .closeParen)) hs nofun
    begins_expression.first hitem hmore
  have hopen : (token .openParen *> sepBy (call .expression) (token .comma)).Tracked tape settings
      (m + 1) (l.depth + 1) (·.Tracks tape settings ⟨.operandEnd, l⟩)
      (·.Sure tape settings (· = .openParen))
      (fun t => t.Tracks tape settings ⟨.ended, .arguments l⟩ ∨
        t.Tracks tape settings ⟨.argumentsOpen, .arguments l⟩)
      (·.Sure tape settings (· = .closeParen)) := by
    refine .token_bind nofun nofun (d := ⟨.argumentsOpen, .arguments l⟩) rfl (Nat.le_refl _)
      (fun _ h => h) fun _ => hsep.mono_before fun k hk => ?_
    cases k <;> first | exact .inl rfl | exact .inr rfl | cases hk
  have hclose (c : State) (hc : c.step .closeParen = some ⟨.operandEnd, l⟩) :
      (token .closeParen).Leads tape settings (m + 1) (l.depth + 1) c (· = .closeParen)
        ⟨.operandEnd, l⟩ (State.Accepts ⟨.operandEnd, l⟩) :=
    .token nofun nofun hc (Nat.le_succ _) fun _ h => h
  refine .nest ?_ ?_
  · refine .bind hopen fun es => ?_
    refine .bind (.or (hclose _ rfl) (hclose _ rfl)) fun x => ?_
    exact .leave _
  · rintro k rfl
    exact ⟨_, rfl, Nat.lt_succ_self _⟩

theorem leads_callOf (hs : settings.failureSelection = .furthest) (hu : settings.Usable)
    (below : tape.Below settings m) (e : Expr) :
    (callOf e).Leads tape settings (m + 1) l.depth ⟨.operandEnd, l⟩
      (State.Accepts ⟨.operandEnd, l⟩) ⟨.operandEnd, l⟩ (State.Accepts ⟨.operandEnd, l⟩) := by
  refine .lookahead_bind hu fun x => ?_
  by_cases hx : x.kind = .openParen
  · rw [if_pos hx]
    have hargs : arguments.Tracked tape settings (m + 1) l.depth
        (fun s => s.Tracks tape settings ⟨.operandEnd, l⟩ ∧ s.current = x)
        (·.Sure tape settings (State.Accepts ⟨.operandEnd, l⟩))
        (·.Tracks tape settings ⟨.operandEnd, l⟩)
        (·.Sure tape settings (State.Accepts ⟨.operandEnd, l⟩)) :=
      (leads_arguments hs below).before (fun s h => h.1) fun s h _ => .of_mem (by rw [h.2, hx])
    exact .bind hargs fun p => .leave _
  · rw [if_neg hx]
    exact .pure none (fun _ h => h.1) fun _ _ h => h

theorem leads_calls (hs : settings.failureSelection = .furthest) (hu : settings.Usable)
    (below : tape.Below settings m) :
    calls.Leads tape settings (m + 1) l.depth ⟨.operand, l⟩ (fun k => StartsPrimary k)
      ⟨.operandEnd, l⟩ (State.Accepts ⟨.operandEnd, l⟩) :=
  .extend (leads_primary hs below) (leads_callOf hs hu below)

/-- The operand of a unary operator, one level below the operator. -/
theorem leads_operand (below : tape.Below settings m) :
    (nest (call .unary)).Leads tape settings m l.depth ⟨.operand, .operand l⟩
      (State.Accepts ⟨.operand, .operand l⟩) ⟨.operandEnd, l⟩
      (State.Accepts ⟨.operandEnd, l⟩) := by
  have hsame {k : Token.Kind} (hk : k ≠ .openParen) :
      State.step ⟨.operandEnd, .operand l⟩ k = State.step ⟨.operandEnd, l⟩ k := by
    show Context.proceed _ k = Context.proceed _ k
    rw [Context.proceed, Context.proceed, if_neg hk, if_neg hk]
    rfl
  have hend (s : Input) (e : Expr) (t : Input) (h : (nest (call .unary)).parse s = .ok (e, t)) :
      t.current.kind ≠ .openParen := by
    obtain ⟨inner, u, hi, hu, rfl⟩ := Parser.nest_eq_ok.1 h
    obtain ⟨ts, -, hend⟩ := Phrase.sound_parse .unary inner e u hu
    exact of_decide_eq_false hend
  have hnest := Tracked.nest (below.unary (.operand l)) fun k hk => by
    cases k <;> first
      | exact ⟨_, rfl, Nat.lt_succ_self _⟩
      | exact ⟨_, rfl, Nat.lt_succ_of_lt (Nat.lt_succ_self _)⟩
      | cases hk
  refine (hnest.and_ok hend).behind (fun t ht => ?_) fun t ht hR d hd hstep =>
    (hR d hd hstep).imp_left fun hk => ?_
  · refine ht.1.weaken (.context _ (.operandRight (.refl l))) fun r hr => ?_
    rwa [hsame ht.2]
  · rwa [State.Accepts, ← hsame ht.2]

theorem leads_unary (hs : settings.failureSelection = .furthest) (hu : settings.Usable)
    (below : tape.Below settings m) :
    unary.Leads tape settings (m + 1) l.depth ⟨.operand, l⟩ (State.Accepts ⟨.operand, l⟩)
      ⟨.operandEnd, l⟩ (State.Accepts ⟨.operandEnd, l⟩) := by
  refine .lookahead_bind hu fun x => ?_
  cases hop : unaryOp? x.kind with
  | none =>
    refine (leads_calls hs hu below).before (fun s h => h.1) fun s h hS d hd hstep => ?_
    refine (hS d hd hstep).imp_left fun hk => ?_
    rw [h.2] at hk ⊢
    generalize x.kind = k at hop hk
    cases k <;> first | rfl | (cases hk; done) | cases hop
  | some op =>
    have hk : x.kind = .bang ∨ x.kind = .minus := by
      generalize x.kind = k at hop
      cases k <;> first | exact .inl rfl | exact .inr rfl | cases hop
    have hstep : State.step ⟨.operand, l⟩ x.kind = some ⟨.operand, .operand l⟩ := by
      rcases hk with hk | hk <;> rw [hk] <;> rfl
    refine .any_bind ?_ ?_ hstep (Nat.le_refl _) fun y =>
      .bind (leads_operand below) fun e => .leave _
    · rcases hk with hk | hk <;> rw [hk] <;> nofun
    · rcases hk with hk | hk <;> rw [hk] <;> nofun

/-- Operands with operators between them, where each operand leads back to where operators are. -/
theorem leads_operations (op? : Token.Kind → Option BinaryOp) {r : Rule Expr}
    (hu : settings.Usable) (hl : l.Plain) (hop : ∀ k op, op? k = some op → IsOperator k)
    (h : r.Leads tape settings (m + 1) l.depth ⟨.operand, l⟩ (State.Accepts ⟨.operand, l⟩)
      ⟨.operandEnd, l⟩ (State.Accepts ⟨.operandEnd, l⟩)) :
    (operations op? r).Leads tape settings (m + 1) l.depth ⟨.operand, l⟩
      (State.Accepts ⟨.operand, l⟩) ⟨.operandEnd, l⟩ (State.Accepts ⟨.operandEnd, l⟩) := by
  refine .extend h fun e => .lookahead_bind hu fun x => ?_
  cases hx : op? x.kind with
  | none => exact .pure none (fun _ h => h.1) fun _ _ h => h
  | some op =>
    have hoperator := hop _ _ hx
    have hstep : State.step ⟨.operandEnd, l⟩ x.kind = some ⟨.operand, l⟩ := by
      generalize x.kind = k at hoperator
      have hbase : some (State.mk .operand l.base) = some ⟨.operand, l⟩ := by rw [hl.base]
      cases k <;> first | exact hbase | cases hoperator
    refine .any_bind ?_ ?_ hstep (Nat.le_of_eq (hl.level _)) fun y =>
      .bind h.fewer fun f => .leave _
    · intro hk
      rw [hk] at hoperator
      cases hoperator
    · intro hk
      rw [hk] at hoperator
      cases hoperator

theorem leads_expression (hu : settings.Usable) (hl : l.Plain)
    (h : (call .unary).Leads tape settings (m + 1) l.depth ⟨.operand, l⟩
      (State.Accepts ⟨.operand, l⟩) ⟨.operandEnd, l⟩ (State.Accepts ⟨.operandEnd, l⟩)) :
    (call .expression).Leads tape settings (m + 1) l.depth ⟨.operand, l⟩
      (State.Accepts ⟨.operand, l⟩) ⟨.ended, l⟩ (State.Accepts ⟨.ended, l⟩) := by
  have hproduct := leads_operations productOp? hu hl
    (fun k op hk => by cases k <;> first | rfl | cases hk) h
  have hsum := leads_operations sumOp? hu hl
    (fun k op hk => by cases k <;> first | rfl | cases hk) hproduct
  have hcomparison := leads_operations comparisonOp? hu hl
    (fun k op hk => by cases k <;> first | rfl | cases hk) hsum
  have hequation := leads_operations equationOp? hu hl
    (fun k op hk => by cases k <;> first | rfl | cases hk) hcomparison
  have hend (s : Input) (e : Expr) (t : Input) (hr : (call .expression).parse s = .ok (e, t)) :
      ¬Continues t.current.kind := (sound_expression Phrase.sound_parse hr).2
  have hcall := Tracked.of_rule (p := .expression) hequation
  refine (hcall.and_ok hend).behind (fun t ht => ?_) fun t ht hR d hd hstep =>
    (hR d hd hstep).imp_left fun hk => ?_
  · refine ht.1.weaken (.endedOperandEnd l (.refl l)) fun r hr => ?_
    exact (l.proceed_of_not_continues ht.2).trans hr
  · show (l.resume t.current.kind).isSome
    rw [← l.proceed_of_not_continues ht.2]
    exact hk

/-- The end of a statement, with a semicolon or without. -/
theorem leads_semicolon (hs : settings.failureSelection = .furthest) (hl : l.Body) :
    (optional (token .semicolon)).Leads tape settings m l.depth ⟨.ended, l⟩
      (State.Accepts ⟨.ended, l⟩) ⟨.statements, l⟩ (State.Accepts ⟨.statements, l⟩) := by
  have hstep : State.step ⟨.ended, l⟩ .semicolon = some ⟨.statements, l⟩ := by
    cases l <;> first | rfl | exact hl.elim
  have haccepts (k : Token.Kind) (hk : State.Accepts ⟨.ended, l⟩ k) :
      k = .semicolon ∨ State.Accepts ⟨.statements, l⟩ k := by
    by_cases hsemi : k = .semicolon
    · exact .inl hsemi
    · refine .inr ?_
      cases l with
      | program => cases k <;> first | exact hk | exact absurd rfl hsemi
      | block b l => cases k <;> first | exact hk | exact absurd rfl hsemi
      | _ => exact hl.elim
  have htoken : (token .semicolon).Leads tape settings m l.depth ⟨.ended, l⟩ (· = .semicolon)
      ⟨.statements, l⟩ (State.Accepts ⟨.statements, l⟩) :=
    .token nofun nofun hstep (Nat.le_of_eq (hl.plain.level _)) fun _ h => h
  have hbegins : (token .semicolon).Begins (· = .semicolon) := .token nofun
  refine ((Tracked.optional hs hbegins.first htoken).mono_before haccepts).behind (fun t ht => ?_)
    fun _ _ h => h
  rcases ht with ht | ht
  · exact ht
  · exact ht.weaken (.statementsEnded hl) fun r hr => Context.resume_of_startStatement hl hr

theorem leads_binding (hs : settings.failureSelection = .furthest) (hl : l.Body)
    (below : tape.Below settings m) :
    binding.Leads tape settings (m + 1) l.depth ⟨.statements, l⟩ (· = .kwLet) ⟨.statements, l⟩
      (State.Accepts ⟨.statements, l⟩) := by
  have hstep : State.step ⟨.statements, l⟩ .kwLet = some ⟨.keywordLet, l⟩ := by
    cases l <;> first | rfl | exact hl.elim
  have hlevel (control : Automaton.Control) : State.level ⟨control, l⟩ ≤ l.depth :=
    Nat.le_of_eq (hl.plain.level control)
  have hname : (ident <* token .assign).Leads tape settings m l.depth ⟨.keywordLet, l⟩
      (State.Accepts ⟨.keywordLet, l⟩) ⟨.operand, l⟩ (State.Accepts ⟨.operand, l⟩) := by
    refine .seqLeft (leads_ident (d := ⟨.name, l⟩) rfl (hlevel _) fun k hk => ?_)
      (.token nofun nofun rfl (hlevel _) fun k hk => ?_)
    · cases k <;> first | rfl | cases hk
    · cases k <;> first | rfl | cases hk
  refine .token_bind nofun nofun hstep (hlevel _) (fun _ h => h) fun x => ?_
  refine .bind hname fun i => ?_
  refine .bind (below.expression l hl.plain) fun e => ?_
  refine .bind (leads_semicolon hs hl) fun o => ?_
  exact .leave _

theorem leads_returning (hs : settings.failureSelection = .furthest) (hl : l.Body)
    (below : tape.Below settings m) :
    returning.Leads tape settings (m + 1) l.depth ⟨.statements, l⟩ (· = .kwReturn)
      ⟨.statements, l⟩ (State.Accepts ⟨.statements, l⟩) := by
  have hstep : State.step ⟨.statements, l⟩ .kwReturn = some ⟨.operand, l⟩ := by
    cases l <;> first | rfl | exact hl.elim
  have hlevel : State.level ⟨.operand, l⟩ ≤ l.depth := Nat.le_of_eq (hl.plain.level _)
  refine .token_bind nofun nofun hstep hlevel (fun _ h => h) fun x => ?_
  refine .bind (below.expression l hl.plain) fun e => ?_
  refine .bind (leads_semicolon hs hl) fun o => ?_
  exact .leave _

theorem leads_evaluation (hs : settings.failureSelection = .furthest) (hl : l.Body)
    (h : (call .expression).Leads tape settings m l.depth ⟨.operand, l⟩
      (State.Accepts ⟨.operand, l⟩) ⟨.ended, l⟩ (State.Accepts ⟨.ended, l⟩)) :
    evaluation.Leads tape settings m l.depth ⟨.statements, l⟩ (fun k => Layer.equation.Starts k)
      ⟨.statements, l⟩ (State.Accepts ⟨.statements, l⟩) := by
  have hexpr : (call .expression).Leads tape settings m l.depth ⟨.statements, l⟩
      (fun k => Layer.equation.Starts k) ⟨.ended, l⟩ (State.Accepts ⟨.ended, l⟩) :=
    h.before (fun s hT => hT.weaken (.operandStatements l) fun r hr =>
        Context.startStatement_of_startOperand hl hr)
      fun s _ hS => hS.mono fun k hk => by cases k <;> first | rfl | cases hk
  refine .bind hexpr fun e => ?_
  refine .bind (leads_semicolon hs hl) fun o => ?_
  exact .leave _

theorem leads_statement (hs : settings.failureSelection = .furthest) (hl : l.Body)
    (below : tape.Below settings m)
    (h : (call .expression).Leads tape settings (m + 1) l.depth ⟨.operand, l⟩
      (State.Accepts ⟨.operand, l⟩) ⟨.ended, l⟩ (State.Accepts ⟨.ended, l⟩)) :
    statement.Leads tape settings (m + 1) l.depth ⟨.statements, l⟩ (fun k => StartsStatement k)
      ⟨.statements, l⟩ (State.Accepts ⟨.statements, l⟩) := by
  refine .choice hs [(binding, (· = .kwLet)), (returning, (· = .kwReturn)),
    (evaluation, fun k => Layer.equation.Starts k)] (List.cons_ne_nil _ _) ?_ ?_
  · simp only [List.forall_mem_cons, List.not_mem_nil, false_implies, implies_true, and_true]
    exact ⟨⟨begins_binding.first, leads_binding hs hl below⟩,
      ⟨begins_returning.first, leads_returning hs hl below⟩,
      begins_evaluation.first, leads_evaluation hs hl h⟩
  · intro k hk
    simp only [List.mem_cons, List.not_mem_nil, or_false, exists_eq_or_imp, exists_eq_left]
    cases k <;> first | (simp; done) | exact .inr (.inr rfl) | cases hk

theorem leads_block (hs : settings.failureSelection = .furthest) (below : tape.Below settings m)
    (b : Bool) :
    block.Leads tape settings (m + 1) l.depth ⟨.blockOpen b, l⟩ (State.Accepts ⟨.blockOpen b, l⟩)
      ⟨if b then .consequenceEnd else .operandEnd, l⟩
      (State.Accepts ⟨if b then .consequenceEnd else .operandEnd, l⟩) := by
  have haccepts (k : Token.Kind) (hk : State.Accepts ⟨.blockOpen b, l⟩ k) : k = .openBrace := by
    cases k <;> first | rfl | cases hk
  have hstatements : (many (call .statement)).Leads tape settings m (l.depth + 1)
      ⟨.statements, .block b l⟩ (State.Accepts ⟨.statements, .block b l⟩)
      ⟨.statements, .block b l⟩ (· = .closeBrace) := by
    have hmore (k : Token.Kind) (hk : State.Accepts ⟨.statements, .block b l⟩ k) :
        StartsStatement k ∨ k = .closeBrace := by
      cases k <;> first | exact .inl rfl | exact .inr rfl | cases hk
    have hstatement := (below.statement (.block b l) trivial).mono_behind hmore
    exact (Tracked.many hs begins_statement.ok hstatement).mono_before hmore
  have hclose : (token .closeBrace).Leads tape settings (m + 1) (l.depth + 1)
      ⟨.statements, .block b l⟩ (· = .closeBrace)
      ⟨if b then .consequenceEnd else .operandEnd, l⟩
      (State.Accepts ⟨if b then .consequenceEnd else .operandEnd, l⟩) := by
    refine .token nofun nofun rfl ?_ fun _ h => h
    cases b <;> exact Nat.le_succ _
  refine .nest ?_ fun k hk => ?_
  · refine .token_bind nofun nofun (d := ⟨.statements, .block b l⟩) rfl (Nat.le_refl _) haccepts
      fun o => ?_
    refine .bind hstatements fun as => ?_
    refine .bind hclose.fewer fun x => ?_
    exact .leave _
  · rw [haccepts k hk]
    exact ⟨_, rfl, Nat.lt_succ_self _⟩

end Grammar

/-- However many tokens are left, all phrases track the automaton. -/
theorem Tape.below (tape : Tape) {settings : Settings}
    (hs : settings.failureSelection = .furthest) (hu : settings.Usable) (m : Nat) :
    tape.Below settings m := by
  induction m with
  | zero =>
    have nowhere {α : Type} {r : Rule α} {n : Nat} {P S Q R : Input → Prop} :
        r.Tracked tape settings 0 n P S Q R :=
      ⟨fun s _ _ hw => absurd hw.left_lt (Nat.not_lt_zero _),
        fun s _ hw => absurd hw.left_lt (Nat.not_lt_zero _)⟩
    exact ⟨fun _ _ => nowhere, fun _ => nowhere, fun _ _ => nowhere, fun _ _ => nowhere⟩
  | succ m ih =>
    have hunary (l : Context) := Rule.Tracked.of_rule (p := .unary)
      (Grammar.leads_unary (l := l) hs hu ih)
    have hexpr (l : Context) (hl : l.Plain) := Grammar.leads_expression hu hl (hunary l)
    exact ⟨hexpr, hunary, fun l hl => .of_rule (p := .statement)
      (Grammar.leads_statement hs hl ih (hexpr l hl.plain)),
      fun b l => .of_rule (p := .block) (Grammar.leads_block hs ih b)⟩

open Rule Grammar in
/-- The error of a program that is not read is justified, and the automaton stops where it says. -/
theorem Grammar.program_error {settings : Settings} {tokens : List Token} {e : ParseError}
    (hs : settings.failureSelection = .furthest) (hu : settings.Usable)
    (h : Grammar.program.parse (.ofTokens settings tokens) = .error e) :
    (Tape.ofTokens tokens).Justifies settings e ∧ (Tape.ofTokens tokens).Decides settings e := by
  let s := Input.ofTokens settings tokens
  have below := s.tape.below hs hu (s.left + 1)
  have hmore (k : Token.Kind) (hk : State.Accepts State.start k) :
      StartsStatement k ∨ k = .eof := by
    cases k <;> first | exact .inl rfl | exact .inr rfl | cases hk
  have hstatements : (many (call .statement)).Leads s.tape settings (s.left + 1) 0 State.start
      (State.Accepts State.start) State.start (· = .eof) := by
    have hstatement := (below.statement .program trivial).mono_behind hmore
    exact (Tracked.many hs begins_statement.ok hstatement).mono_before hmore
  have hprogram : program.Leads s.tape settings (s.left + 1) 0 State.start
      (State.Accepts State.start) State.start (· = .eof) :=
    .bind .here fun start => .bind (.seqLeft hstatements (.eoi rfl fun _ h => h)) fun as =>
      .bind .here fun stop => .leave _
  have hstate : s.tape.state settings.maxDepth 0 = some State.start := rfl
  have hw : s.Within (s.left + 1) 0 := ⟨Nat.lt_succ_self _, rfl, fun max _ => Nat.zero_le max⟩
  have ht : s.Tracks s.tape settings State.start :=
    ⟨rfl, rfl, ⟨_, hstate, .refl _, fun _ h => h⟩, fun e he => by cases he⟩
  obtain ⟨hj, hd⟩ := hprogram.error s e hw ht h
  refine ⟨hj, hd fun d hd hstep => .inl ?_⟩
  cases hstate.symm.trans hd
  exact hstep

end Descent
