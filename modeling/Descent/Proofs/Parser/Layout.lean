import Descent.Proofs.Parser.Acceptance
import Descent.Proofs.Parser.Naturality
import Descent.Proofs.Token.Gaps

/-!
# Layout does not matter

Main statement: two texts with the same significant words are parsed alike, to trees that differ in
spans alone or to errors that differ in positions alone, and the words of a text may be written with
any other gaps between them (`Program.parse_layout`).

The first part holds since a rule that does not look at positions does on a tape what it does on the
tape with all tokens at one place (`Rule.Natural.parse_forget`), and that tape has nothing but the
words left (`Tape.forget_congr`).
-/

namespace Descent

/-! ## Tapes without places -/

/-- The words of the tokens that rules see. -/
def Tape.words (tape : Tape) : List (Token.Kind × List Char) := tape.tokens.toList.map Token.word

/-- The tape with all tokens at one place. -/
def Tape.forget (tape : Tape) : Tape where
  tokens := tape.tokens.map (Token.move .forget)
  eof := tape.eof.move .forget
  trivia := []
  tokens_significant t ht := by
    obtain ⟨u, hu, rfl⟩ := Array.mem_map.1 ht
    exact tape.tokens_significant u hu
  eof_kind := tape.eof_kind

/-- Nothing but the words is left. -/
theorem Tape.forget_congr {tape tape' : Tape} (h : tape.words = tape'.words)
    (heof : tape.eof.word = tape'.eof.word) : tape.forget = tape'.forget := by
  let ofWord (w : Token.Kind × List Char) : Token := ⟨w.1, w.2, ⟨.start, .start⟩⟩
  have hmove : Token.move .forget = ofWord ∘ Token.word := rfl
  have htokens : tape.tokens.map (Token.move .forget) = tape'.tokens.map (Token.move .forget) := by
    rw [← Array.toList_inj, Array.toList_map, Array.toList_map, hmove, ← List.map_map,
      ← List.map_map]
    exact congrArg (List.map ofWord) h
  have hend : tape.eof.move .forget = tape'.eof.move .forget := congrArg ofWord heof
  simp only [forget, htokens, hend]

/-- The input on the tape with all tokens at one place. -/
def Input.forget (s : Input) : Input where
  tape := s.tape.forget
  settings := s.settings
  position := s.position
  depth := s.depth
  furthest := s.furthest.map (ParseError.move .forget)
  position_le := by simpa [Tape.forget] using s.position_le

theorem Input.moves_forget (s : Input) : s.Moves .forget s.forget where
  tape := ⟨by simp [forget, Tape.forget, Relocation.forget],
    by simp [forget, Tape.forget, Relocation.forget], rfl⟩
  settings := rfl
  position := rfl
  depth := rfl
  furthest := rfl

/-! ## The same words -/

/-- What a rule that does not look at positions reads off two inputs that have the same words. -/
theorem Rule.Natural.parse_forget {α : Type} {φ : α → α} {r : Rule α}
    (hr : Rule.Natural .forget Phrase.parse φ r r) {s s' : Input} (h : s.forget = s'.forget) :
    (∃ a b t t', r.parse s = .ok (a, t) ∧ r.parse s' = .ok (b, t') ∧ φ a = φ b) ∨
      ∃ e f, r.parse s = .error e ∧ r.parse s' = .error f ∧ e.move .forget = f.move .forget := by
  have hs : Parser.Moved .forget φ (r.parse s) (r.parse s.forget) := hr s _ s.moves_forget
  have hs' : Parser.Moved .forget φ (r.parse s') (r.parse s.forget) :=
    hr s' _ (h ▸ s'.moves_forget)
  cases hp : r.parse s with
  | error e =>
    rw [hp] at hs
    have he : r.parse s.forget = .error (e.move .forget) := hs
    cases hp' : r.parse s' with
    | error f =>
      rw [hp'] at hs'
      have hf : r.parse s.forget = .error (f.move .forget) := hs'
      exact .inr ⟨e, f, rfl, rfl, Except.error.inj (he.symm.trans hf)⟩
    | ok m =>
      rw [hp'] at hs'
      obtain ⟨t, ht, -⟩ := hs'
      cases he.symm.trans ht
  | ok m =>
    obtain ⟨a, u⟩ := m
    rw [hp] at hs
    obtain ⟨t, ht, -⟩ := hs
    cases hp' : r.parse s' with
    | error f =>
      rw [hp'] at hs'
      cases ht.symm.trans hs'
    | ok m =>
      obtain ⟨b, u'⟩ := m
      rw [hp'] at hs'
      obtain ⟨t', ht', -⟩ := hs'
      have hab : (φ a, t) = (φ b, t') := Except.ok.inj (ht.symm.trans ht')
      exact .inl ⟨a, b, u, u', rfl, rfl, congrArg Prod.fst hab⟩

/-- Inputs with the same words are the same without places. -/
theorem Input.forget_congr {tokens tokens' : List Token} (settings : Settings)
    (h : (Tape.ofTokens tokens).words = (Tape.ofTokens tokens').words)
    (heof : (Tape.ofTokens tokens).eof.word = (Tape.ofTokens tokens').eof.word) :
    (Input.ofTokens settings tokens).forget = (Input.ofTokens settings tokens').forget := by
  simp only [forget, ofTokens, Tape.forget_congr h heof]

/-- The end of a text has no characters. -/
theorem Token.word_eof_ofText {settings : Settings} {text : List Char} {tokens : List Token}
    (h : ofText settings text = .ok tokens) : (Tape.ofTokens tokens).eof.word = (.eof, []) := by
  obtain ⟨us, hus⟩ := exists_pieces h
  rw [hus.eof]
  rfl

/-- Two results of parsing that differ in positions alone: trees with other spans, or errors about
the same token of which all is the same but the place. -/
inductive Program.Resembles : Except Diagnostic Program → Except Diagnostic Program → Prop where
  | ok {p q : Program} (h : p.move .forget = q.move .forget) : Resembles (.ok p) (.ok q)
  | error {e f : ParseError} (hindex : e.index = f.index) (hexpected : e.expected = f.expected)
      (hfound : e.found = f.found) (hcause : e.cause = f.cause) :
      Resembles (.error (.syntactic e)) (.error (.syntactic f))

/-- Layout does not change what a text means. Two texts that are cut into tokens and have the same
significant words are parsed to results that differ in positions alone. If a text is cut into tokens
and its words are laid out in any other way, the text that results is cut into the same words. -/
theorem Program.parse_layout (settings : Settings) :
    (∀ text text' tokens tokens', Token.ofText settings text = .ok tokens →
      Token.ofText settings text' = .ok tokens' →
      (Tape.ofTokens tokens).words = (Tape.ofTokens tokens').words →
      Resembles (parse settings text) (parse settings text')) ∧
    ∀ text tokens text', Token.ofText settings text = .ok tokens →
      Token.Laid (Tape.ofTokens tokens).words text' → ∃ tokens',
        Token.ofText settings text' = .ok tokens' ∧
        (Tape.ofTokens tokens').words = (Tape.ofTokens tokens).words := by
  refine ⟨fun text text' tokens tokens' h h' hwords => ?_, fun text tokens text' h hlaid => ?_⟩
  · have heof : (Tape.ofTokens tokens).eof.word = (Tape.ofTokens tokens').eof.word := by
      rw [Token.word_eof_ofText h, Token.word_eof_ofText h']
    rcases (Grammar.natural_program Phrase.natural_parse).parse_forget
      (Input.forget_congr settings hwords heof) with
      ⟨p, q, t, t', hp, hq, hmove⟩ | ⟨e, f, he, hf, hmove⟩
    · rw [parse_eq_ok.2 ⟨tokens, h, t, hp⟩, parse_eq_ok.2 ⟨tokens', h', t', hq⟩]
      exact .ok hmove
    · rw [parse_eq_syntactic.2 ⟨tokens, h, he⟩, parse_eq_syntactic.2 ⟨tokens', h', hf⟩]
      obtain ⟨hindex, hexpected, hfound, hcause⟩ :
          e.index + 0 = f.index + 0 ∧ e.expected = f.expected ∧ e.found = f.found ∧
            e.cause = f.cause := by
        simpa [ParseError.move, Relocation.forget] using hmove
      exact .error hindex hexpected hfound hcause
  · exact hlaid.ofText h

/-- A quotient is the same with space around it and a comment behind the slash. -/
theorem Program.parse_layout_slash : ∃ tokens tokens',
    Token.ofText {} ['a', '/', 'b'] = .ok tokens ∧
    Token.ofText {} [' ', 'a', ' ', '/', ' ', '/', '*', '*', '/', 'b'] = .ok tokens' ∧
    (Tape.ofTokens tokens').words = (Tape.ofTokens tokens).words ∧
    Resembles (parse {} ['a', '/', 'b'])
      (parse {} [' ', 'a', ' ', '/', ' ', '/', '*', '*', '/', 'b']) := by
  have htokens : Token.ofText {} ['a', '/', 'b'] = .ok [
      ⟨.identifier, ['a'], ⟨⟨0, 1, 1⟩, ⟨1, 1, 2⟩⟩⟩, ⟨.slash, ['/'], ⟨⟨1, 1, 2⟩, ⟨2, 1, 3⟩⟩⟩,
      ⟨.identifier, ['b'], ⟨⟨2, 1, 3⟩, ⟨3, 1, 4⟩⟩⟩, .eofAt ⟨3, 1, 4⟩] := by
    rw [Token.ofText, Caret.tokens_of_kept _ (m := ⟨.identifier, 1, by decide⟩) rfl rfl,
      Caret.tokens_of_kept _ (m := ⟨.slash, 1, by decide⟩) rfl rfl,
      Caret.tokens_of_kept _ (m := ⟨.identifier, 1, by decide⟩) rfl rfl, Caret.tokens_of_atEnd rfl]
    rfl
  have hspace : Token.ofText { emitTrivia := true } [' '] =
      .ok ([] ++ [⟨.whiteSpace, [' '], ⟨⟨0, 1, 1⟩, ⟨1, 1, 2⟩⟩⟩, .eofAt ⟨1, 1, 2⟩]) := by
    rw [Token.ofText, Caret.tokens_of_kept _ (m := ⟨.whiteSpace, 1, by decide⟩) rfl rfl,
      Caret.tokens_of_atEnd rfl]
    rfl
  have hcomment : Token.ofText { emitTrivia := true } [' ', '/', '*', '*', '/'] =
      .ok ([⟨.whiteSpace, [' '], ⟨⟨0, 1, 1⟩, ⟨1, 1, 2⟩⟩⟩] ++
        [⟨.comment, ['/', '*', '*', '/'], ⟨⟨1, 1, 2⟩, ⟨5, 1, 6⟩⟩⟩, .eofAt ⟨5, 1, 6⟩]) := by
    rw [Token.ofText, Caret.tokens_of_kept _ (m := ⟨.whiteSpace, 1, by decide⟩) rfl rfl,
      Caret.tokens_of_kept _ (m := ⟨.comment, 4, by decide⟩) rfl rfl, Caret.tokens_of_atEnd rfl]
    rfl
  have hnothing : Token.IsGap [] :=
    ⟨_, by rw [Token.ofText, Caret.tokens_of_atEnd rfl], by simp [Token.eofAt]⟩
  have hgap : Token.IsGap [' '] := ⟨_, hspace, by simp [Token.eofAt, Token.Kind.isTrivia]⟩
  have hgap' : Token.IsGap [' ', '/', '*', '*', '/'] :=
    ⟨_, hcomment, by simp [Token.eofAt, Token.Kind.isTrivia]⟩
  have hclosed : ¬Token.EndsOpen [' '] := Token.not_endsOpen hspace rfl
  have hclosed' : ¬Token.EndsOpen [' ', '/', '*', '*', '/'] := Token.not_endsOpen hcomment rfl
  have hlaid : Token.Laid [(.identifier, ['a']), (.slash, ['/']), (.identifier, ['b'])]
      [' ', 'a', ' ', '/', ' ', '/', '*', '*', '/', 'b'] := by
    have hlast : Token.Behind [] [] := .last hnothing fun c hc => by cases hc
    have hslash : Token.Behind [(.identifier, ['b'])] [' ', '/', '*', '*', '/', 'b'] :=
      .word hgap' ⟨' ', rfl, rfl⟩ hclosed' hlast
    have hname : Token.Behind [(.slash, ['/']), (.identifier, ['b'])]
        [' ', '/', ' ', '/', '*', '*', '/', 'b'] := .word hgap ⟨' ', rfl, rfl⟩ hclosed hslash
    exact .word hgap hclosed hname
  obtain ⟨hsame, hrelaid⟩ := parse_layout {}
  obtain ⟨tokens', htokens', hwords⟩ := hrelaid _ _ _ htokens hlaid
  exact ⟨_, tokens', htokens, htokens', hwords, hsame _ _ _ _ htokens htokens' hwords.symm⟩

end Descent
