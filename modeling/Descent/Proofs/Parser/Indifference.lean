import Descent.Proofs.Parser.Alike
import Descent.Proofs.Token.Partition

/-!
# Settings on which nothing depends

Main statement: what a text is read as, and what is reported if it is not read, depends on no
settings but the limit on nesting and which errors are selected (`parse_indifferent`). The
branches of a choice in the grammar begin with different tokens, so that at most one of them
matches, and whether the others are tried behind it shows only in errors that are behind.

The one attempt of the grammar that is given up after it has read something that nothing else can
read is that at an alternative. So all phrases are run where an error further on is recorded only
before the keyword of one, and they lead there again.
-/

namespace Descent

open Input (Calm Settled)

open Rule hiding pure

/-- All phrases do the same on inputs that are alike where fewer than `m` tokens are left. A block
ends with a token, behind which all is settled. -/
structure Phrase.EvenBelow (m : Nat) : Prop where
  expression : (call .expression).Even m (Calm (· = .kwElse)) (Calm (· = .kwElse))
  unary : (call .unary).Even m (Calm (· = .kwElse)) (Calm (· = .kwElse))
  statement : (call .statement).Even m (Calm (· = .kwElse)) (Calm (· = .kwElse))
  block : (call .block).Even m (Calm (· = .kwElse)) Settled

namespace Grammar

variable {m : Nat} {A : Token.Kind → Prop}

theorem even_ident (hA : ¬A .identifier) : ident.Even m (Calm A) Settled :=
  .bind (.token nofun hA) fun x => .leave (⟨x.lexeme, x.span⟩ : Ident)

theorem even_integer (hA : ¬A .integer) : integer.Even m (Calm A) Settled := by
  refine .refine (.token nofun hA) fun x cause h => ?_
  unfold integerOf at h
  cases hn : Text.Decimal.toInt64? x.lexeme with
  | some n =>
    rw [hn] at h
    cases h
  | none =>
    rw [hn] at h
    cases h
    exact ⟨nofun, nofun⟩

theorem even_boolean (htrue : ¬A .kwTrue) (hfalse : ¬A .kwFalse) :
    boolean.Even m (Calm A) (Calm A) := by
  let literal (k : Token.Kind) (b : Bool) : Rule Expr :=
    token k >>= fun x => pure (.boolean b x.span)
  have heven (k : Token.Kind) (b : Bool) (hk : k ≠ .eof) (hA : ¬A k) :
      (literal k b).Even m (Calm A) (Calm A) :=
    (Even.bind (.token hk hA) fun x => .leave (Expr.boolean b x.span)).calm
  refine .choice (fun k => some (literal k (k = .kwTrue))) ?_
  simp only [List.forall_mem_cons, List.not_mem_nil, false_implies, implies_true, and_true]
  refine ⟨⟨.mono (.bind (.token nofun)) ?_, heven .kwTrue true nofun htrue⟩,
    .mono (.bind (.token nofun)) ?_, heven .kwFalse false nofun hfalse⟩
  · rintro k rfl
    exact ⟨rfl, htrue⟩
  · rintro k rfl
    exact ⟨rfl, hfalse⟩

theorem even_group (below : Phrase.EvenBelow m) :
    group.Even (m + 1) (Calm (· = .kwElse)) Settled := by
  refine .nest (.token_bind nofun nofun fun o => ?_) fun _ _ h => h
  refine .bind below.expression.settled fun e => ?_
  exact .bind (.token nofun nofun) fun c => .leave _

theorem even_condition (below : Phrase.EvenBelow m) :
    (nest (token .openParen *> call .expression <* token .closeParen)).Even m (Calm (· = .kwElse))
      Settled := by
  refine .nest ?_ fun _ _ h => h
  exact .seqLeft (.seqRight (.token nofun nofun) below.expression.settled) (.token nofun nofun)

/-- Where the keyword of an alternative is ahead and no block follows it, parsing does not go on. -/
theorem even_alternative (below : Phrase.EvenBelow m) :
    (optional (token .kwElse *> call .block)).Even m Settled (Calm (· = .kwElse)) := by
  have hblock : (token .kwElse *> call .block).Even m (Calm fun _ => False)
      (Calm (· = .kwElse)) :=
    .seqRight (.token nofun id) below.block.settled.calm
  have hbegins : (token .kwElse *> call .block).Begins (· = .kwElse) := .bind (.token nofun)
  exact (Even.optional hblock (fun _ => False.elim) hbegins.prompt).settled

theorem even_conditional (below : Phrase.EvenBelow m) :
    conditional.Even (m + 1) (Calm (· = .kwElse)) (Calm (· = .kwElse)) := by
  refine .token_bind nofun nofun fun i => ?_
  refine .bind (even_condition below).settled fun c => ?_
  refine .bind below.block.settled fun b => ?_
  exact .bind (even_alternative below) fun o => .leave _

theorem even_params :
    (token .openParen *> sepBy ident (token .comma) <* token .closeParen).Even m
      Settled Settled := by
  have hopen : (token .openParen).Even m (Calm fun _ => False) Settled := .token nofun id
  have hitem : ident.Even m (Calm fun _ => False) Settled := even_ident id
  have hsep :=
    Even.sepBy (A := fun _ => False) (k := .comma) nofun id hitem.settled.calm begins_ident
  refine .seqLeft (.seqRight hopen.settled hsep) (.token nofun ?_)
  rintro (h | h | h) <;> cases h

theorem even_function (below : Phrase.EvenBelow m) :
    function.Even (m + 1) (Calm (· = .kwElse)) Settled := by
  refine .token_bind nofun nofun fun f => ?_
  refine .bind even_params fun is => ?_
  exact .bind below.block.settled fun b => .leave _

theorem even_primary (below : Phrase.EvenBelow m) :
    primary.Even (m + 1) (Calm (· = .kwElse)) (Calm (· = .kwElse)) := by
  have hvar : (Expr.var <$> ident).Even (m + 1) (Calm (· = .kwElse)) Settled :=
    .map _ (even_ident nofun)
  have heven : ∀ r ∈ [integer, boolean, .var <$> ident, group, conditional, function],
      r.Even (m + 1) (Calm (· = .kwElse)) (Calm (· = .kwElse)) := by
    simp only [List.forall_mem_cons, List.not_mem_nil, false_implies, implies_true, and_true]
    exact ⟨(even_integer nofun).calm, even_boolean nofun nofun, hvar.calm, (even_group below).calm,
      even_conditional below, (even_function below).calm⟩
  refine .named (.choice primaryOf? fun r hr => ⟨(begins_primaryOf? r hr).mono ?_, heven r hr⟩)
  intro k hk
  refine ⟨hk, ?_⟩
  rintro rfl
  cases hk

/-- The arguments of a call, behind the operand that is called. -/
theorem even_arguments (below : Phrase.EvenBelow m) :
    arguments.Even (m + 1) (Calm (· = .kwElse)) Settled := by
  have hsep := Even.sepBy (k := .comma) nofun nofun below.expression.settled begins_expression
  refine .nest ?_ fun _ _ h => h
  refine .bind (.token_bind nofun nofun fun _ => hsep) fun es => ?_
  refine .bind (.token nofun ?_) fun c => .leave _
  rintro (h | h | h) <;> cases h

theorem even_callOf (below : Phrase.EvenBelow m) (e : Expr) :
    (callOf e).Even (m + 1) (Calm (· = .kwElse)) (Calm (· = .kwElse)) := by
  refine .lookahead_bind fun x => ?_
  by_cases hx : x.kind = .openParen
  · rw [if_pos hx]
    have hargs := (even_arguments below).before fun s (hs : s.Calm _ ∧ s.current = x) => hs.1
    exact .bind hargs fun p => (Even.leave _).calm
  · rw [if_neg hx]
    exact (Even.leave _).behind fun s hs => hs.1

theorem even_calls (below : Phrase.EvenBelow m) :
    calls.Even (m + 1) (Calm (· = .kwElse)) (Calm (· = .kwElse)) :=
  .extend (even_primary below) (even_callOf below)

theorem even_unary (below : Phrase.EvenBelow m) :
    unary.Even (m + 1) (Calm (· = .kwElse)) (Calm (· = .kwElse)) := by
  refine .lookahead_bind fun x => ?_
  cases hop : unaryOp? x.kind with
  | none => exact (even_calls below).before fun s hs => hs.1
  | some op =>
    have hne (k : Token.Kind) (hk : unaryOp? k = none) : x.kind ≠ k := by
      rintro rfl
      cases hk.symm.trans hop
    have hoperand : (nest (call .unary)).Even m (Calm (· = .kwElse)) (Calm (· = .kwElse)) :=
      .nest below.unary fun _ _ h => h
    exact .any_bind (hne .eof rfl) (hne .kwElse rfl) fun y =>
      .bind hoperand.settled fun e => .leave _

/-- Operands with operators between them, none of which ends the input or begins an alternative. -/
theorem even_operations {op? : Token.Kind → Option BinaryOp} {r : Rule Expr}
    (heof : op? .eof = none) (helse : op? .kwElse = none)
    (h : r.Even (m + 1) (Calm (· = .kwElse)) (Calm (· = .kwElse))) :
    (operations op? r).Even (m + 1) (Calm (· = .kwElse)) (Calm (· = .kwElse)) := by
  refine .extend h fun e => .lookahead_bind fun x => ?_
  cases hop : op? x.kind with
  | none => exact (Even.leave _).behind fun s hs => hs.1
  | some op =>
    have hne (k : Token.Kind) (hk : op? k = none) : x.kind ≠ k := by
      rintro rfl
      cases hk.symm.trans hop
    exact .any_bind (hne .eof heof) (hne .kwElse helse) fun y =>
      .bind h.fewer.settled fun f => .leave _

theorem even_expression (h : (call .unary).Even (m + 1) (Calm (· = .kwElse)) (Calm (· = .kwElse))) :
    expression.Even (m + 1) (Calm (· = .kwElse)) (Calm (· = .kwElse)) := by
  have hproduct : product.Even (m + 1) (Calm (· = .kwElse)) (Calm (· = .kwElse)) :=
    even_operations rfl rfl h
  have hsum : sum.Even (m + 1) (Calm (· = .kwElse)) (Calm (· = .kwElse)) :=
    even_operations rfl rfl hproduct
  have hcomparison : comparison.Even (m + 1) (Calm (· = .kwElse)) (Calm (· = .kwElse)) :=
    even_operations rfl rfl hsum
  exact even_operations rfl rfl hcomparison

/-- The end of a statement, with a semicolon or without. -/
theorem even_semicolon :
    (optional (token .semicolon)).Even m (Calm (· = .kwElse)) (Calm (· = .kwElse)) := by
  have htoken : (token .semicolon).Even m (Calm (· = .kwElse)) Settled := .token nofun nofun
  exact .optional htoken.calm (fun _ h => h) (prompt_token nofun)

theorem even_binding (below : Phrase.EvenBelow m) :
    binding.Even (m + 1) (Calm (· = .kwElse)) (Calm (· = .kwElse)) := by
  have hassign : (token .assign).Even m (Calm fun _ => False) Settled := .token nofun id
  have hname : (ident <* token .assign).Even m (Calm (· = .kwElse)) Settled :=
    .seqLeft (even_ident nofun) hassign.settled
  refine .token_bind nofun nofun fun x => ?_
  refine .bind hname.settled fun i => ?_
  refine .bind below.expression.settled fun e => ?_
  exact .bind even_semicolon fun o => .leave _

theorem even_returning (below : Phrase.EvenBelow m) :
    returning.Even (m + 1) (Calm (· = .kwElse)) (Calm (· = .kwElse)) := by
  refine .token_bind nofun nofun fun x => ?_
  refine .bind below.expression.settled fun e => ?_
  exact .bind even_semicolon fun o => .leave _

theorem even_evaluation (h : (call .expression).Even m (Calm (· = .kwElse)) (Calm (· = .kwElse))) :
    evaluation.Even m (Calm (· = .kwElse)) (Calm (· = .kwElse)) := by
  refine .bind h fun e => ?_
  exact .bind even_semicolon fun o => .leave _

theorem even_statement (below : Phrase.EvenBelow m)
    (h : (call .expression).Even (m + 1) (Calm (· = .kwElse)) (Calm (· = .kwElse))) :
    statement.Even (m + 1) (Calm (· = .kwElse)) (Calm (· = .kwElse)) := by
  refine .choice (fun k => some (statementOf k)) ?_
  simp only [List.forall_mem_cons, List.not_mem_nil, false_implies, implies_true, and_true]
  refine ⟨⟨begins_binding.mono ?_, even_binding below⟩,
    ⟨begins_returning.mono ?_, even_returning below⟩,
    begins_evaluation.mono ?_, even_evaluation h⟩
  · rintro k rfl
    exact ⟨rfl, nofun⟩
  · rintro k rfl
    exact ⟨rfl, nofun⟩
  · intro k hk
    cases k <;> first | (cases hk; done) | exact ⟨rfl, nofun⟩

theorem even_statements (h : (call .statement).Even m (Calm (· = .kwElse)) (Calm (· = .kwElse))) :
    (many (call .statement)).Even m (Calm (· = .kwElse))
      (Calm fun k => StartsStatement k ∨ k = .kwElse) :=
  .many h (fun _ => .inr) (begins_statement.prompt.mono fun _ => .inl)

theorem even_block (below : Phrase.EvenBelow m) :
    block.Even (m + 1) (Calm (· = .kwElse)) Settled := by
  refine .nest ?_ fun _ _ h => h
  refine .token_bind nofun nofun fun o => ?_
  refine .bind (even_statements below.statement).settled fun as => ?_
  refine .bind (.token nofun ?_) fun x => .leave _
  rintro (h | h) <;> cases h

end Grammar

/-- However many tokens are left, all phrases do the same on inputs that are alike. -/
theorem Phrase.evenBelow (m : Nat) : Phrase.EvenBelow m := by
  induction m with
  | zero =>
    have nowhere {α : Type} {r : Rule α} {P Q : Input → Prop} : r.Even 0 P Q :=
      fun s _ hm => absurd hm (Nat.not_lt_zero _)
    exact ⟨nowhere, nowhere, nowhere, nowhere⟩
  | succ m ih =>
    have hunary := Even.of_rule (p := .unary) (Grammar.even_unary ih)
    have hexpression := Even.of_rule (p := .expression) (Grammar.even_expression hunary)
    exact ⟨hexpression, hunary, .of_rule (p := .statement) (Grammar.even_statement ih hexpression),
      .of_rule (p := .block) (Grammar.even_block ih)⟩

theorem Grammar.even_program (m : Nat) :
    program.Even m Settled (Calm fun k => StartsStatement k ∨ k = .kwElse) := by
  have hstatements := (even_statements (Phrase.evenBelow m).statement).settled
  refine .bind .here fun start => ?_
  refine .bind (.seqLeft hstatements .eoi) fun as => ?_
  exact .bind .here fun stop => .leave _

theorem Grammar.even_whole_expression (m : Nat) :
    (expression <* eoi).Even m Settled (Calm (· = .kwElse)) :=
  .seqLeft ((even_expression (Phrase.evenBelow (m + 1)).unary).fewer).settled .eoi

/-! ## Texts -/

/-- Trivia make no difference to what rules see of a tape, if it has an end of its own. -/
theorem Tape.ofTokens_significant {ts : List Token} (h : ∃ t ∈ ts, t.kind = .eof) :
    (ofTokens (ts.filter (!·.kind.isTrivia))).tokens = (ofTokens ts).tokens ∧
      (ofTokens (ts.filter (!·.kind.isTrivia))).eof = (ofTokens ts).eof := by
  have htwice : (ts.filter (!·.kind.isTrivia)).filter (!·.kind.isTrivia) =
      ts.filter (!·.kind.isTrivia) := by
    simp [List.filter_filter]
  refine ⟨?_, ?_⟩
  · simp only [ofTokens, List.filter_filter]
    congr 2
    funext t
    cases t.kind.isTrivia <;> simp
  · obtain ⟨t, ht, hkind⟩ := h
    have hmem : t ∈ ts.filter (!·.kind.isTrivia) := List.mem_filter.2 ⟨ht, by rw [hkind]; rfl⟩
    show eofOf _ = eofOf ts
    simp only [eofOf, htwice]
    cases hfind : (ts.filter (!·.kind.isTrivia)).find? (·.kind = .eof) with
    | some x => rfl
    | none => exact absurd (by simpa using hkind) (List.find?_eq_none.1 hfind t hmem)

/-- Whatever the settings, a text is cut at the same places, and rules see the same of its
tokens. -/
theorem Token.ofText_indifferent (settings settings' : Settings) (text : List Char) :
    (∃ e, ofText settings text = .error e ∧ ofText settings' text = .error e) ∨
    ∃ ts us, ofText settings text = .ok ts ∧ ofText settings' text = .ok us ∧
      (Tape.ofTokens us).tokens = (Tape.ofTokens ts).tokens ∧
      (Tape.ofTokens us).eof = (Tape.ofTokens ts).eof := by
  have hfalse := (Caret.ofText text).tokens_false
  cases htrue : (Caret.ofText text).tokens true with
  | error e =>
    have herror (settings : Settings) : ofText settings text = .error e := by
      unfold ofText
      cases settings.emitTrivia with
      | true => exact htrue
      | false => rw [hfalse, htrue]; rfl
    exact .inl ⟨e, herror settings, herror settings'⟩
  | ok all =>
    obtain ⟨ts, hts, -⟩ := (Caret.tiles_of_tokens htrue).last (Caret.in_ofText text)
    have hend : ∃ t ∈ all, t.kind = .eof := by
      rw [hts]
      exact ⟨_, List.mem_append_right ts List.mem_cons_self, rfl⟩
    have hok (settings : Settings) : ∃ us, ofText settings text = .ok us ∧
        (Tape.ofTokens us).tokens = (Tape.ofTokens all).tokens ∧
        (Tape.ofTokens us).eof = (Tape.ofTokens all).eof := by
      unfold ofText
      cases settings.emitTrivia with
      | true => exact ⟨all, htrue, rfl, rfl⟩
      | false =>
        refine ⟨all.filter (!·.kind.isTrivia), ?_, Tape.ofTokens_significant hend⟩
        rw [hfalse, htrue]
        rfl
    obtain ⟨us, hus, htokens, heof⟩ := hok settings
    obtain ⟨vs, hvs, htokens', heof'⟩ := hok settings'
    exact .inr ⟨us, vs, hus, hvs, htokens'.trans htokens.symm, heof'.trans heof.symm⟩

/-- A rule that does the same on inputs that are alike reads the same off a text. -/
theorem Rule.parseText_of_even {α : Type} {r : Rule α} {Q : Input → Prop}
    (hr : ∀ m, r.Even m Settled Q) {settings settings' : Settings} (hu : settings.Usable)
    (hu' : settings'.Usable) (hd : settings'.maxDepth = settings.maxDepth)
    (hs : settings'.failureSelection = settings.failureSelection) (text : List Char) :
    r.parseText settings' text = r.parseText settings text ∧
      ∀ e, r.parseText settings text = .error (.syntactic e) → e.cause.Ordinary := by
  unfold parseText Input.ofText
  rcases Token.ofText_indifferent settings settings' text with
    ⟨e, he, he'⟩ | ⟨ts, us, hts, hus, htokens, heof⟩
  · rw [he, he']
    exact ⟨rfl, fun e h => by cases h⟩
  · rw [hts, hus]
    dsimp only
    have halike : (Input.ofTokens settings ts).Alike (.ofTokens settings' us) :=
      ⟨htokens, heof, rfl, rfl, hu, hu', hd, hs, rfl, nofun⟩
    rcases hr _ _ _ (Nat.lt_succ_self _) halike (Nat.le_refl 0) with
      ⟨a, u, v, hu, hv, -⟩ | ⟨e, f, he, hf, rfl, hcause⟩
    · rw [hu, hv]
      exact ⟨rfl, fun e h => by cases h⟩
    · rw [he, hf]
      refine ⟨rfl, fun e h => ?_⟩
      cases h
      exact hcause

/-- Two settings that agree on the limit on nesting and on which errors are selected read the same
off a text: the same program and the same expression with the same spans, or the same error. Which
match of a choice counts, whether trivia are kept, what lies past the end and how far rules may look
ahead make no difference, as long as they may look at the token ahead, and no error ever says that a
token past the end or too far ahead was asked for. -/
theorem parse_indifferent {settings settings' : Settings} (hu : settings.Usable)
    (hu' : settings'.Usable) (hd : settings'.maxDepth = settings.maxDepth)
    (hs : settings'.failureSelection = settings.failureSelection) (text : List Char) :
    Program.parse settings' text = Program.parse settings text ∧
      Expr.parse settings' text = Expr.parse settings text ∧
      ∀ e, (Program.parse settings text = .error (.syntactic e) ∨
        Expr.parse settings text = .error (.syntactic e)) →
        e.cause ≠ .pastEnd ∧ e.cause ≠ .beyondLookahead := by
  have hprogram := Rule.parseText_of_even Grammar.even_program hu hu' hd hs text
  have hexpr := Rule.parseText_of_even Grammar.even_whole_expression hu hu' hd hs text
  exact ⟨hprogram.1, hexpr.1, fun e he => he.elim (hprogram.2 e) (hexpr.2 e)⟩

/-- The attempt at an alternative that has no block goes further than the parser does, whichever
match counts. -/
theorem parse_indifferent_else :
    Program.parse ⟨true, 2, none, .longestParse, .furthest, .fail⟩ "if (x) \x7b\x7d else y".toList =
      Program.parse {} "if (x) \x7b\x7d else y".toList ∧
    Expr.parse ⟨true, 2, none, .longestParse, .furthest, .fail⟩ "if (x) \x7b\x7d else y".toList =
      Expr.parse {} "if (x) \x7b\x7d else y".toList ∧
    ∀ e, (Program.parse {} "if (x) \x7b\x7d else y".toList = .error (.syntactic e) ∨
      Expr.parse {} "if (x) \x7b\x7d else y".toList = .error (.syntactic e)) →
      e.cause ≠ .pastEnd ∧ e.cause ≠ .beyondLookahead := by
  have hu : ({} : Settings).Usable := by decide
  have hu' : Settings.Usable ⟨true, 2, none, .longestParse, .furthest, .fail⟩ := by decide
  exact parse_indifferent hu hu' rfl rfl _

end Descent
