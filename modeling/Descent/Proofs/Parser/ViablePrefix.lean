import Descent.Proofs.Parser.Acceptance
import Descent.Proofs.Token.Cutting

/-!
# What an error says

Main statement: where the furthest errors are selected and nesting is not limited, an error is exact
(`Program.exact_of_parse`). It points at the first token that no program has at its place, it calls
that token a bad literal only if the place is one for an expression, and what it lists as expected
could follow there.

All this is said in terms of sentences and their prefixes. The automaton is between the two: it is
deterministic and what it has read can be completed, so the tokens it reads are those that some
sentence begins with.
-/

namespace Descent

open Automaton (State Context)

/-- The tokens begin some sentence. -/
def Viable (ts : List Token) : Prop := ∃ us, Sentence (ts ++ us)

/-- An expression may stand behind the tokens: some tokens complete the program whatever expression
stands there. -/
def AdmitsExpression (ts : List Token) : Prop :=
  ∃ vs, ∀ us, Symbol.expression.Derives (us.map Token.kind) → (∀ x ∈ us, x.Readable) →
    Sentence (ts ++ us ++ vs)

/-- What the error says about the tokens is exact. -/
structure ParseError.Exact (ts : List Token) (e : ParseError) : Prop where
  /-- It points at one of the tokens. -/
  index_lt : e.index < ts.length
  /-- Those before it begin a program. -/
  viable : Viable (ts.take e.index)
  /-- With it, they do not. -/
  not_viable : ¬Viable (ts.take (e.index + 1))
  position : e.position = ts[e.index].span.start
  found : e.found = ts[e.index].kind
  /-- A bad literal is a numeral without a value where an expression may stand. -/
  invalidLiteral : e.cause = .invalidLiteral ↔ ts[e.index].kind = .integer ∧
    Text.Decimal.toInt64? ts[e.index].lexeme = none ∧ AdmitsExpression (ts.take e.index)
  /-- All else is an unexpected token in place of some that are listed. -/
  unexpectedToken : e.cause ≠ .invalidLiteral → e.cause = .unexpectedToken ∧ ∃ x, x ∈ e.expected
  /-- A kind that is listed could follow. -/
  token : ∀ k, .token k ∈ e.expected → ∃ x : Token, x.kind = k ∧ Viable (ts.take e.index ++ [x])
  /-- An expression is listed only where one may stand. -/
  phrase : ∀ name, .phrase name ∈ e.expected →
    name = "expression" ∧ AdmitsExpression (ts.take e.index)

section

variable {ts us : List Token} {w : List Token.Kind} {c : State} {k : Token.Kind}

/-- What the automaton reads up to the end is a sentence, with samples in place of mere kinds. -/
theorem sentence_of_run (hr : ∀ x ∈ ts, x.Readable)
    (h : (State.start.run (ts.map Token.kind ++ (w ++ [.eof]))).isSome) :
    Sentence (ts ++ (w ++ [Token.Kind.eof]).map Token.sample) := by
  constructor
  · rw [List.map_append, Token.map_kind_sample, ← List.append_assoc]
    rw [← List.append_assoc] at h
    exact Automaton.derives_of_run h
  · intro x hx
    rcases List.mem_append.1 hx with hx | hx
    · exact hr x hx
    · obtain ⟨k, -, rfl⟩ := List.mem_map.1 hx
      exact Token.readable_sample k

/-- Tokens that the automaton reads begin a sentence. -/
theorem viable_of_run (hr : ∀ x ∈ ts, x.Readable) (hts : ∀ x ∈ ts, x.kind ≠ .eof)
    (h : State.start.run (ts.map Token.kind) = some c) : Viable ts := by
  refine ⟨_, sentence_of_run hr (Automaton.run_append_closing h fun hmem => ?_)⟩
  obtain ⟨x, hx, hk⟩ := List.mem_map.1 hmem
  exact hts x hx hk

/-- Tokens that begin a sentence are read by the automaton, and so is each one of them. -/
theorem Viable.run (h : Viable (ts ++ us)) :
    ∃ c, State.start.run (ts.map Token.kind) = some c ∧ (c.run (us.map Token.kind)).isSome ∧
      ∀ x ∈ ts, x.Readable := by
  obtain ⟨vs, hsentence⟩ := h
  obtain ⟨d, hd⟩ := Option.isSome_iff_exists.1 (Automaton.run_of_derives_program hsentence.derives)
  rw [List.append_assoc, List.map_append, Automaton.State.run_append,
    Option.bind_eq_some_iff] at hd
  obtain ⟨c, hc, hd⟩ := hd
  rw [List.map_append, Automaton.State.run_append, Option.bind_eq_some_iff] at hd
  obtain ⟨c', hc', -⟩ := hd
  exact ⟨c, hc, by rw [hc']; rfl, fun x hx => hsentence.readable x (by simp [hx])⟩

/-- Where a token of the kind can follow, some sentence goes on with one. -/
theorem viable_of_step (hr : ∀ x ∈ ts, x.Readable) (hts : ∀ x ∈ ts, x.kind ≠ .eof)
    (h : State.start.run (ts.map Token.kind) = some c) (hk : (c.step k).isSome) :
    ∃ x : Token, x.kind = k ∧ Viable (ts ++ [x]) := by
  refine ⟨Token.sample k, rfl, ?_⟩
  have hread : (State.start.run (ts.map Token.kind ++ [k])).isSome := by
    rw [Automaton.State.run_concat, h]
    exact hk
  by_cases heof : k = .eof
  · subst heof
    exact ⟨[], (List.append_nil _).symm ▸ sentence_of_run (w := []) hr hread⟩
  · obtain ⟨d, hd⟩ := Option.isSome_iff_exists.1 hread
    refine viable_of_run (List.forall_mem_append.2 ⟨hr, ?_⟩) (List.forall_mem_append.2 ⟨hts, ?_⟩)
      (by rw [List.map_append]; exact hd)
    · exact List.forall_mem_singleton.2 (Token.readable_sample k)
    · exact List.forall_mem_singleton.2 heof

/-- Where the automaton is at a state no less than one before an operand, an expression may stand.
The tokens that close what is open around that operand complete the program. -/
theorem admitsExpression_of_le {l : Context} (hr : ∀ x ∈ ts, x.Readable)
    (h : State.start.run (ts.map Token.kind) = some c) (hle : State.Le ⟨.operand, l⟩ c) :
    AdmitsExpression ts := by
  refine ⟨(l.closing ++ [Token.Kind.eof]).map Token.sample, fun us hus hread => ?_⟩
  refine sentence_of_run (List.forall_mem_append.2 ⟨hr, hread⟩) ?_
  have hexpr : State.Leads c (us.map Token.kind) ⟨.operandEnd, l⟩ :=
    .of_le hle (Automaton.Read.of_derives hus l)
  have hclosing : State.Leads ⟨.operandEnd, l⟩ (l.closing ++ [.eof]) .done :=
    Automaton.leads_of_ended false (Automaton.leads_closing_of_ended l)
  obtain ⟨d, hd, -⟩ := hexpr.append hclosing
  rw [List.map_append, List.append_assoc, Automaton.State.run_append, h]
  exact Option.isSome_iff_exists.2 ⟨d, hd⟩

/-- Where an expression may stand, a numeral may. -/
theorem AdmitsExpression.step_integer (h : AdmitsExpression ts)
    (hc : State.start.run (ts.map Token.kind) = some c) : (c.step .integer).isSome := by
  obtain ⟨vs, hvs⟩ := h
  have hsample : Text.Decimal.toInt64? (Token.sample .integer).lexeme = some 0 := by decide
  have he := (Spells.integer (t := Token.sample .integer) rfl hsample).equation
  have hviable : Viable (ts ++ [Token.sample .integer]) :=
    ⟨vs, hvs _ (Form.Derives.expression he.derives) he.readable⟩
  obtain ⟨c', hc', hstep, -⟩ := hviable.run
  cases hc.symm.trans hc'
  rw [List.map_singleton, Automaton.State.run_cons] at hstep
  cases hs : c.step .integer with
  | none =>
    rw [show (Token.sample .integer).kind = .integer from rfl, hs] at hstep
    cases hstep
  | some d => rfl

end

/-- What an error says about a tape is exact if it is justified and decisive. -/
theorem ParseError.exact_of_justifies {tape : Tape} {settings : Settings} {e : ParseError}
    (hd : settings.maxDepth = none) (hj : tape.Justifies settings e)
    (hdecides : tape.Decides settings e) : e.Exact tape.toList := by
  have hlt : e.index < tape.toList.length := by
    rw [Tape.length_toList]
    exact Nat.lt_succ_of_le hj.index_le
  have htoken : tape.toList[e.index] = tape.token e.index := Tape.getElem_toList hlt
  obtain ⟨c, hc, hexpected, hcause⟩ := hj.state
  rw [Tape.Decides, hd] at hdecides
  rw [hd] at hc
  obtain ⟨hrun, hr⟩ := Automaton.State.run_of_follow hc
  have hts : ∀ x ∈ tape.toList.take e.index, x.kind ≠ .eof := by
    intro x hx
    rw [Tape.toList, List.take_append_of_le_length (by simpa using hj.index_le)] at hx
    exact (tape.tokens_significant x (by simpa using List.mem_of_mem_take hx)).1
  -- Only a numeral without a value may stop the automaton where its kind could follow.
  have hstop : tape.state none (e.index + 1) = none ∧
      (e.cause = .unexpectedToken → c.step (tape.token e.index).kind = none) := by
    rcases hdecides with h | ⟨h, hunexpected⟩
    · cases h.symm.trans hc
    · exact ⟨h, fun hcause => hunexpected hcause c hc⟩
  have hbad : ¬(tape.token e.index).Readable ↔ (tape.token e.index).kind = .integer ∧
      Text.Decimal.toInt64? (tape.token e.index).lexeme = none := by
    simp [Token.Readable]
  constructor
  case index_lt => exact hlt
  case viable => exact viable_of_run hr hts hrun
  case not_viable =>
    intro h
    rw [← List.append_nil (tape.toList.take (e.index + 1))] at h
    obtain ⟨d, hd, -, hread⟩ := h.run
    have hstate : tape.state none (e.index + 1) = some d := by
      rw [Tape.state, Automaton.State.follow_of_readable hread, hd]
    cases hstop.1.symm.trans hstate
  case position => rw [hj.position, htoken]
  case found => rw [hj.found, htoken]
  case invalidLiteral =>
    rw [htoken, ← and_assoc, ← hbad]
    constructor
    · intro h
      rw [h] at hcause
      obtain ⟨hread, l, hle⟩ := hcause
      exact ⟨hread, admitsExpression_of_le hr hrun hle⟩
    · rintro ⟨hread, hadmits⟩
      cases hkind : e.cause with
      | invalidLiteral => rfl
      | unexpectedToken =>
        have hnone := hstop.2 hkind
        rw [(hbad.1 hread).1] at hnone
        cases hnone ▸ hadmits.step_integer hrun
      | tooDeep =>
        rw [hkind] at hcause
        exact absurd hd hcause
      | beyondLookahead | pastEnd =>
        rw [hkind] at hcause
        exact hcause.elim
  case unexpectedToken =>
    intro hne
    cases hkind : e.cause with
    | invalidLiteral => exact absurd hkind hne
    | unexpectedToken =>
      rw [hkind] at hcause
      exact ⟨rfl, hcause⟩
    | tooDeep =>
      rw [hkind] at hcause
      exact absurd hd hcause
    | beyondLookahead | pastEnd =>
      rw [hkind] at hcause
      exact hcause.elim
  case token => exact fun k hk => viable_of_step hr hts hrun (hexpected _ hk)
  case phrase =>
    intro name hname
    obtain ⟨hexpression, l, hle⟩ := hexpected _ hname
    exact ⟨hexpression, admitsExpression_of_le hr hrun hle⟩

/-- Where nesting is not limited and the furthest errors are selected, the error of a text that is
cut into tokens is exact. -/
theorem Program.exact_of_parse (settings : Settings) (hs : settings.failureSelection = .furthest)
    (hd : settings.maxDepth = none) (hu : settings.Usable) (text : List Char) (e : ParseError)
    (h : parse settings text = .error (.syntactic e)) :
    ∃ tokens, Token.ofText settings text = .ok tokens ∧ e.Exact (Tape.ofTokens tokens).toList := by
  obtain ⟨tokens, htokens, hparse⟩ := parse_eq_syntactic.1 h
  obtain ⟨hjustifies, hdecides⟩ := Grammar.program_error hs hu hparse
  exact ⟨tokens, htokens, ParseError.exact_of_justifies hd hjustifies hdecides⟩

/-- The error of a parenthesis that nothing opened is that of the first token. -/
theorem Program.exact_of_parse_closeParen : ∃ e tokens,
    parse {} [')'] = .error (.syntactic e) ∧ Token.ofText {} [')'] = .ok tokens ∧
      e.Exact (Tape.ofTokens tokens).toList ∧ e.index = 0 := by
  have hcut : Token.Cut [')'] [(.closeParen, [')'])] := .symbol rfl rfl .nil
  obtain ⟨tokens, htokens, hwords⟩ := hcut.ofText {}
  obtain ⟨x, hx, hword⟩ := List.map_eq_singleton_iff.1 hwords
  have hkind : x.kind = .closeParen := congrArg Prod.fst hword
  have htape : (Tape.ofTokens tokens).toList = [x, (Tape.ofTokens tokens).eof] := by
    rw [Tape.toList, hx]
    rfl
  have hnot (us : List Token) : ¬Viable (x :: us) := by
    intro h
    obtain ⟨c, hc, -⟩ := Viable.run (show Viable ([x] ++ us) from h)
    rw [List.map_singleton, hkind] at hc
    cases hc
  cases hparse : Grammar.program.parse (.ofTokens {} tokens) with
  | ok r =>
    have hsentence := (Grammar.spells_of_program_parse (a := r.1) (t := r.2) hparse).sentence
    rw [htape] at hsentence
    exact absurd ⟨[], by rwa [List.append_nil]⟩ (hnot _)
  | error e =>
    have herror := parse_eq_syntactic.2 ⟨tokens, htokens, hparse⟩
    obtain ⟨_, htokens', hexact⟩ := exact_of_parse {} rfl rfl (by decide) [')'] e herror
    cases htokens.symm.trans htokens'
    refine ⟨e, tokens, herror, htokens, hexact, ?_⟩
    have hviable := hexact.viable
    rw [htape] at hviable
    cases hindex : e.index with
    | zero => rfl
    | succ n =>
      rw [hindex] at hviable
      exact absurd hviable (hnot _)

end Descent
