import Descent.Proofs.Parser.Layout
import Descent.Proofs.Parser.Limits
import Descent.Proofs.Token.Slices

/-!
# Spans describe the nodes

Main statement: each node of a program that is read from a text stands exactly where its tokens do,
with its children inside it, one behind another, and the part of the text that the span of an
expression or of a statement covers is read as this expression or statement again
(`Program.spans_of_parse`).

The part is cut into the same words (`Token.Pieces.slice`); these spell the node, so the parser
reads it off a tape with the very tokens of the node, and then off the tokens of the part as well,
which are the same but for their places (`Rule.Natural.parseText_of_words`).
-/

namespace Descent

/-! ## Settings under which something is read -/

namespace Rule

variable {α β : Type} {r : Rule α}

/-- The rule reads nothing unless rules may look at the token ahead. -/
def Looks (r : Rule α) : Prop := ∀ s a t, r.parse s = .ok (a, t) → s.settings.Usable

theorem looks_lookahead : (lookahead 0).Looks := by
  intro s a t h
  obtain ⟨hk, -⟩ := Parser.lookahead_eq_ok.1 h
  exact hk

theorem Looks.bind_left {f : α → Rule β} (hr : r.Looks) : (r >>= f).Looks := by
  intro s b t h
  obtain ⟨a, u, ha, -⟩ := bind_eq_ok.1 h
  exact hr s a u ha

theorem Looks.bind_right {f : α → Rule β} (hf : ∀ a, (f a).Looks) : (r >>= f).Looks := by
  intro s b t h
  obtain ⟨a, u, ha, hb⟩ := bind_eq_ok.1 h
  obtain ⟨ts, hp⟩ := forward_run Phrase.forward_parse r s a u ha
  rw [← hp.settings]
  exact hf a u b t hb

theorem Looks.extend {f : α → Rule (Option α)} (hr : r.Looks) : (Rule.extend r f).Looks := by
  intro s b t h
  obtain ⟨a, u, ha, -⟩ := Parser.bind_eq_ok.1 h
  exact hr s a u ha

theorem looks_call (p : Phrase) (hp : p.rule.Looks) : (call p).Looks := by
  intro s a t h
  exact hp s a t ((p.parse_eq s).symm.trans h)

end Rule

namespace Grammar

open Rule

theorem looks_expression : expression.Looks := by
  have hunary : unary.Looks := looks_lookahead.bind_left
  have hoperand : (call .unary).Looks := looks_call .unary hunary
  exact hoperand.extend.extend.extend.extend

theorem looks_statement : statement.Looks := by
  have hexpression : (call .expression).Looks := looks_call .expression looks_expression
  intro s a t h
  obtain ⟨r, hr, u, hu, -⟩ := choice_ok h
  simp only [List.mem_cons, List.not_mem_nil, or_false] at hr
  rcases hr with rfl | rfl | rfl
  · have hbinding : binding.Looks := .bind_right fun _ => .bind_right fun _ => hexpression.bind_left
    exact hbinding s a u hu
  · have hreturning : returning.Looks := .bind_right fun _ => hexpression.bind_left
    exact hreturning s a u hu
  · have hevaluation : evaluation.Looks := hexpression.bind_left
    exact hevaluation s a u hu

/-- A program with statements is read only if rules may look at the token ahead. -/
theorem usable_of_program_parse {s t : Input} {p : Program} (h : program.parse s = .ok (p, t))
    (hp : p.statements ≠ []) : s.settings.Usable := by
  obtain ⟨start, u₁, hstart, h⟩ := bind_eq_ok.1 h
  obtain ⟨as, u₂, has, h⟩ := bind_eq_ok.1 h
  obtain ⟨stop, u₃, -, h⟩ := bind_eq_ok.1 h
  obtain ⟨rfl, -⟩ := pure_eq_ok.1 h
  obtain ⟨-, rfl⟩ := Parser.here_eq_ok.1 hstart
  obtain ⟨v, x, hmany, -⟩ := seqLeft_eq_ok.1 has
  cases hs : (call .statement).parse s with
  | error e =>
    obtain ⟨w, hw, -⟩ := many_of_error hs
    cases hw.symm.trans hmany
    exact absurd rfl hp
  | ok m => exact looks_call .statement looks_statement s m.1 m.2 hs

end Grammar

/-! ## Parts of a text -/

section

variable {settings : Settings} {text : List Char} {ts : List Token} {d : Nat}

/-- What a rule that does not look at positions reads off some tokens, it reads off a text with the
same words, apart from positions. -/
theorem Rule.Natural.parseText_of_words {α : Type} {φ : α → α} {r : Rule α}
    (hr : Rule.Natural .forget Phrase.parse φ r r)
    (hts : ∀ t ∈ ts, t.kind ≠ .eof ∧ t.kind.isTrivia = false) {a : α} {u : Input}
    (h : r.parse (.ofTokens settings (ts ++ [.eofAt .start])) = .ok (a, u)) {tokens : List Token}
    (htokens : Token.ofText settings text = .ok tokens)
    (hwords : (Tape.ofTokens tokens).tokens.toList.map Token.word = ts.map Token.word) :
    ∃ b, r.parseText settings text = .ok b ∧ φ b = φ a := by
  obtain ⟨hkept, heof⟩ := Tape.ofTokens_concat (x := .eofAt .start) (fun t ht => (hts t ht).1) rfl
  rw [List.filter_eq_self.2 fun t ht => by simp [hts t ht]] at hkept
  have hsame : (Input.ofTokens settings (ts ++ [.eofAt .start])).forget =
      (Input.ofTokens settings tokens).forget := by
    apply Input.forget_congr
    · rw [Tape.words, Tape.words, hkept, hwords]
    · rw [heof, Token.word_eof_ofText htokens]
      rfl
  rcases hr.parse_forget hsame with ⟨b, c, v, w, hb, hc, hbc⟩ | ⟨e, f, he, -⟩
  · cases h.symm.trans hb
    exact ⟨c, Rule.parseText_eq_ok.2 ⟨tokens, htokens, w, hc⟩, hbc.symm⟩
  · cases h.symm.trans he

theorem Grammar.natural_whole_expression :
    Rule.Natural .forget Phrase.parse (Expr.move .forget) (expression <* Rule.eoi)
      (expression <* Rule.eoi) :=
  .seqLeft (natural_expression Phrase.natural_parse) .eoi

/-- An expression is read off a text that has the words of its tokens. -/
theorem Expr.parse_of_words {e : Expr} {l : Layer} (h : Spells (.expr l) ts e)
    (hts : ∀ t ∈ ts, t.kind ≠ .eof ∧ t.kind.isTrivia = false) (hu : settings.Usable)
    (hneed : ∀ d ∈ settings.maxDepth, e.need ≤ d) {tokens : List Token}
    (htokens : Token.ofText settings text = .ok tokens)
    (hwords : (Tape.ofTokens tokens).tokens.toList.map Token.word = ts.map Token.word) :
    ∃ f, parse settings text = .ok f ∧ f.move .forget = e.move .forget := by
  have hrest : (Input.ofTokens settings (ts ++ [.eofAt .start])).rest = ts := by
    have hlist := Tape.toList_ofTokens hts (show (Token.eofAt .start).kind = .eof from rfl)
    exact List.append_inj_left' hlist rfl
  obtain ⟨t, ht⟩ : ∃ t, (Grammar.expression <* Rule.eoi).parse
      (.ofTokens settings (ts ++ [.eofAt .start])) = .ok (e, t) := by
    apply Spells.expression_parse
    · rw [hrest]
      exact h.equation
    · exact hu
    · intro d hd
      exact (Nat.zero_add e.need).symm ▸ hneed d hd
  exact Grammar.natural_whole_expression.parseText_of_words hts ht htokens hwords

/-- A statement is read off a text that has the words of its tokens, as all of a program. -/
theorem Program.parse_of_words {a : Stmt} (h : Spells .stmt ts a)
    (hts : ∀ t ∈ ts, t.kind ≠ .eof ∧ t.kind.isTrivia = false) (hu : settings.Usable)
    (hneed : ∀ d ∈ settings.maxDepth, a.need ≤ d) {tokens : List Token}
    (htokens : Token.ofText settings text = .ok tokens)
    (hwords : (Tape.ofTokens tokens).tokens.toList.map Token.word = ts.map Token.word) :
    ∃ q b, parse settings text = .ok q ∧ q.statements = [b] ∧
      b.move .forget = a.move .forget := by
  have hlist := Tape.toList_ofTokens hts (show (Token.eofAt .start).kind = .eof from rfl)
  have hstmts : Spells .stmts (ts ++ []) [a] := .stmts h (.inr nofun) .noStmts
  rw [List.append_nil] at hstmts
  have hprogram := Spells.program hstmts (show (Token.eofAt .start).kind = .eof from rfl)
  have hallows : (Input.ofTokens settings (ts ++ [.eofAt .start])).Allows (max a.need 0) := by
    intro d hd
    have := hneed d hd
    show 0 + max a.need 0 ≤ d
    omega
  rw [← hlist] at hprogram
  have hahead : Spells .program (Input.ofTokens settings (ts ++ [.eofAt .start])).ahead _ := hprogram
  obtain ⟨t, ht⟩ := hahead.program_parse hu hallows
  obtain ⟨q, hq, hmove⟩ := (Grammar.natural_program Phrase.natural_parse).parseText_of_words hts ht
    htokens hwords
  obtain ⟨b, hb, hba⟩ := List.map_eq_singleton_iff.1 (congrArg Program.statements hmove)
  exact ⟨q, b, hq, hb, hba⟩

end

/-! ## Programs -/

/-- The node is spelled by consecutive tokens, starts where the first of them starts and ends where
the last of them ends. -/
def Node.StandsOn (tokens : List Token) (n : Node) : Prop :=
  ∃ before ts after, tokens = before ++ ts ++ after ∧ n.Spelled ts ∧ Token.Covers ts n.span

/-- All nodes of a program stand on its tokens, and their children stand inside them. -/
theorem Program.Has.standsOn {p : Program} {n : Node} {tokens : List Token} (h : p.Has n)
    (hp : Spells .stmts tokens p.statements) (htokens : Token.Ascending tokens) :
    n.StandsOn tokens ∧ Node.Nests n.span n.children := by
  obtain ⟨before, ts, after, hsplit, hspelled⟩ := h.spelled hp
  have hts : Token.Ascending ts := htokens.middle before after hsplit
  exact ⟨⟨before, ts, after, hsplit, hspelled, hspelled.covers hts⟩, hspelled.nests hts⟩

theorem Program.Has.ne_nil {p : Program} {n : Node} (h : p.Has n) : p.statements ≠ [] := by
  induction h with
  | stmt h => exact List.ne_nil_of_mem h
  | child _ _ ih => exact ih

namespace Tape

variable {tape : Tape} {p : Program}

/-- The tokens of a program spell its statements, and it reaches from the first of them, or the end,
to the end. -/
theorem stmts_of_program (h : Spells .program tape.toList p) :
    Spells .stmts tape.tokens.toList p.statements ∧
      ∃ first, tape.toList.head? = some first ∧
        p.span = ⟨first.span.start, tape.eof.span.start⟩ := by
  generalize hw : tape.toList = w at h
  cases h with
  | @program x ts as has hx =>
    obtain ⟨rfl, hend⟩ := List.append_inj' (hw : tape.tokens.toList ++ [tape.eof] = ts ++ [x]) rfl
    obtain rfl : tape.eof = x := List.singleton_inj.1 hend
    refine ⟨has, _, ?_, rfl⟩
    rw [List.head?_append]
    cases tape.tokens.toList.head? <;> rfl

/-- The statements of a program stand inside it, one behind another. -/
theorem nests_of_program (h : Spells .program tape.toList p) (hascending : Token.Ascending tape.toList)
    (heof : tape.eof.span.stop = tape.eof.span.start) : Node.Nests p.span p.children := by
  obtain ⟨hstmts, first, hfirst, hspan⟩ := stmts_of_program h
  have hcovers : Token.Covers tape.toList p.span := by
    refine ⟨first, tape.eof, hfirst, List.getLast?_concat, ?_⟩
    rw [hspan, heof]
  have horder : Node.InOrder p.children tape.toList := hstmts.inOrder.extend [] [tape.eof] rfl
  refine ⟨fun n hn => ?_, horder.apart hascending⟩
  obtain ⟨before, ts, after, hsplit, hspelled⟩ := horder.of_mem hn
  exact hspelled.inside hascending hcovers hsplit

end Tape

/-- If a text is read as a program, the program reaches from the first token to the end of the text,
its statements stand inside it, and all its nodes stand where their tokens do, with their children
inside them. The part of the text that the span of an expression covers is read as this expression,
and the part that the span of a statement covers as a program of this statement alone, apart from
positions. -/
theorem Program.spans_of_parse {settings : Settings} {text : List Char} {p : Program}
    (h : parse settings text = .ok p) :
    (∃ tokens, Token.ofText settings text = .ok tokens ∧
      (∃ first, (Tape.ofTokens tokens).toList.head? = some first ∧
        p.span = ⟨first.span.start, (Tape.ofTokens tokens).eof.span.start⟩) ∧
      Node.Nests p.span p.children ∧
      ∀ n, p.Has n → n.StandsOn (Tape.ofTokens tokens).tokens.toList ∧
        Node.Nests n.span n.children) ∧
    (∀ e, p.Has (.expr e) → ∃ f, Expr.parse settings (e.span.textIn text) = .ok f ∧
      f.move .forget = e.move .forget) ∧
    ∀ a, p.Has (.stmt a) → ∃ q b, parse settings (a.span.textIn text) = .ok q ∧
      q.statements = [b] ∧ b.move .forget = a.move .forget := by
  obtain ⟨tokens, htokens, t, hparse⟩ := parse_eq_ok.1 h
  obtain ⟨us, hus⟩ := Token.exists_pieces htokens
  have hspells := Grammar.spells_of_program_parse hparse
  obtain ⟨hstmts, hspan⟩ := Tape.stmts_of_program hspells
  have heof : (Tape.ofTokens tokens).eof.span.stop = (Tape.ofTokens tokens).eof.span.start := by
    rw [hus.eof]
    rfl
  have hascending : Token.Ascending (Tape.ofTokens tokens).tokens.toList :=
    hus.ascending.middle [] [(Tape.ofTokens tokens).eof] rfl
  have hstands (n : Node) (hn : p.Has n) := hn.standsOn hstmts hascending
  have hsignificant {before ts after : List Token}
      (hsplit : (Tape.ofTokens tokens).tokens.toList = before ++ ts ++ after) :
      ∀ t ∈ ts, t.kind ≠ .eof ∧ t.kind.isTrivia = false := by
    intro t ht
    have hmem : t ∈ (Tape.ofTokens tokens).tokens := by
      rw [← Array.mem_toList_iff, hsplit]
      simp [ht]
    simpa using (Tape.ofTokens tokens).tokens_significant t hmem
  have hsettings {n : Node} (hn : p.Has n) :
      settings.Usable ∧ ∀ d ∈ settings.maxDepth, n.need ≤ d := by
    have hu : settings.Usable := Grammar.usable_of_program_parse hparse hn.ne_nil
    obtain ⟨-, hneed⟩ := (Grammar.program_parse_limited hu settings.maxDepth).1 ⟨t, hparse⟩
    exact ⟨hu, fun d hd => Nat.le_trans hn.need_le (hneed d hd)⟩
  refine ⟨⟨tokens, htokens, hspan, Tape.nests_of_program hspells hus.ascending heof, hstands⟩,
    fun e he => ?_, fun a ha => ?_⟩
  · obtain ⟨⟨before, ts, after, hsplit, hspelled, hcovers⟩, -⟩ := hstands _ he
    obtain ⟨tokens', htokens', hwords⟩ := hus.slice hsplit hcovers settings
    obtain ⟨hu, hneed⟩ := hsettings he
    cases hspelled with
    | expr hspelled =>
      exact Expr.parse_of_words hspelled (hsignificant hsplit) hu hneed htokens' hwords
  · obtain ⟨⟨before, ts, after, hsplit, hspelled, hcovers⟩, -⟩ := hstands _ ha
    obtain ⟨tokens', htokens', hwords⟩ := hus.slice hsplit hcovers settings
    obtain ⟨hu, hneed⟩ := hsettings ha
    cases hspelled with
    | stmt hspelled =>
      exact Program.parse_of_words hspelled (hsignificant hsplit) hu hneed htokens' hwords

/-- The span of a negation begins with the sign and ends with the operand; that of the statement has
the semicolon in it, too. -/
theorem Program.spans_of_parse_not :
    let e : Expr := .unary .not (.var ⟨['a'], ⟨⟨2, 1, 3⟩, ⟨3, 1, 4⟩⟩⟩) ⟨⟨0, 1, 1⟩, ⟨3, 1, 4⟩⟩
    let a : Stmt := .eval e ⟨⟨0, 1, 1⟩, ⟨5, 1, 6⟩⟩
    parse {} ['!', ' ', 'a', ' ', ';', ' '] = .ok ⟨[a], ⟨⟨0, 1, 1⟩, ⟨6, 1, 7⟩⟩⟩ ∧
      (∃ f, Expr.parse {} ['!', ' ', 'a'] = .ok f ∧ f.move .forget = e.move .forget) ∧
      ∃ q b, parse {} ['!', ' ', 'a', ' ', ';'] = .ok q ∧ q.statements = [b] ∧
        b.move .forget = a.move .forget := by
  intro e a
  have htokens : Token.ofText {} ['!', ' ', 'a', ' ', ';', ' '] = .ok [
      ⟨.bang, ['!'], ⟨⟨0, 1, 1⟩, ⟨1, 1, 2⟩⟩⟩, ⟨.identifier, ['a'], ⟨⟨2, 1, 3⟩, ⟨3, 1, 4⟩⟩⟩,
      ⟨.semicolon, [';'], ⟨⟨4, 1, 5⟩, ⟨5, 1, 6⟩⟩⟩, .eofAt ⟨6, 1, 7⟩] := by
    rw [Token.ofText, Caret.tokens_of_kept _ (m := ⟨.bang, 1, by decide⟩) rfl rfl,
      Caret.tokens_of_dropped (m := ⟨.whiteSpace, 1, by decide⟩) rfl rfl,
      Caret.tokens_of_kept _ (m := ⟨.identifier, 1, by decide⟩) rfl rfl,
      Caret.tokens_of_dropped (m := ⟨.whiteSpace, 1, by decide⟩) rfl rfl,
      Caret.tokens_of_kept _ (m := ⟨.semicolon, 1, by decide⟩) rfl rfl,
      Caret.tokens_of_dropped (m := ⟨.whiteSpace, 1, by decide⟩) rfl rfl, Caret.tokens_of_atEnd rfl]
    rfl
  have hvar : Spells (.expr .primary) [⟨.identifier, ['a'], ⟨⟨2, 1, 3⟩, ⟨3, 1, 4⟩⟩⟩] _ := .var rfl
  have hunary : Spells (.expr .unary)
      [⟨.bang, ['!'], ⟨⟨0, 1, 1⟩, ⟨1, 1, 2⟩⟩⟩, ⟨.identifier, ['a'], ⟨⟨2, 1, 3⟩, ⟨3, 1, 4⟩⟩⟩] e :=
    .unary rfl (.tighter (.tighter hvar))
  have hstmt := Spells.evaluation (some ⟨.semicolon, [';'], ⟨⟨4, 1, 5⟩, ⟨5, 1, 6⟩⟩⟩)
    hunary.equation fun x hx => by cases hx; rfl
  have hstmts := Spells.stmts hstmt (.inl ⟨_, rfl, rfl⟩) .noStmts
  have hprogram := Spells.program hstmts (show (Token.eofAt ⟨6, 1, 7⟩).kind = .eof from rfl)
  have hu : ({} : Settings).Usable := by decide
  have hparse : parse {} ['!', ' ', 'a', ' ', ';', ' '] = .ok ⟨[a], ⟨⟨0, 1, 1⟩, ⟨6, 1, 7⟩⟩⟩ :=
    parse_eq_ok.2 ⟨_, htokens,
      (Grammar.program_parse_limited hu none).2 ⟨hprogram, fun d hd => by cases hd⟩⟩
  obtain ⟨-, hexpr, hstmt⟩ := spans_of_parse hparse
  have ha : Has ⟨[a], ⟨⟨0, 1, 1⟩, ⟨6, 1, 7⟩⟩⟩ (.stmt a) := .stmt List.mem_cons_self
  exact ⟨hparse, hexpr e (.child ha List.mem_cons_self), hstmt a ha⟩

end Descent
