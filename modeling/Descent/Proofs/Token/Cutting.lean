import Descent.Input
import Descent.Proofs.Token.Matching

/-!
# Cutting a text

What tokens a text is cut into depends on the text alone, apart from their places. `Token.Cut` says
what the significant ones are, as words: kinds with lexemes. A text is cut word by word
(`Cut.word`), and white space between words makes no difference (`Cut.space`). The other way round,
each token of a text is the best match where it stands (`Token.matched_of_ofText`).
-/

namespace Descent

/-- What a token is, apart from its place. -/
def Token.word (t : Token) : Token.Kind × List Char := (t.kind, t.lexeme)

/-- A tape has the tokens before the first end, without trivia, and that end. -/
theorem Tape.ofTokens_concat {ts : List Token} {x : Token} (hts : ∀ t ∈ ts, t.kind ≠ .eof)
    (hx : x.kind = .eof) : (ofTokens (ts ++ [x])).tokens.toList = ts.filter (!·.kind.isTrivia) ∧
      (ofTokens (ts ++ [x])).eof = x := by
  have hkept : (!x.kind.isTrivia) = true := by rw [hx]; rfl
  refine ⟨?_, ?_⟩
  · show ((ts ++ [x]).filter fun t => t.kind ≠ .eof && !t.kind.isTrivia).toArray.toList = _
    rw [List.toList_toArray, List.filter_append, List.filter_cons_of_neg (by simp [hx]),
      List.filter_nil, List.append_nil]
    exact List.filter_congr fun t ht => by simp [hts t ht]
  · have hnone : (ts.filter (!·.kind.isTrivia)).find? (·.kind = .eof) = none :=
      List.find?_eq_none.2 fun t ht => by simpa using hts t (List.mem_filter.1 ht).1
    have hlast : [x].filter (!·.kind.isTrivia) = [x] := List.filter_cons_of_pos hkept
    show eofOf (ts ++ [x]) = x
    simp only [eofOf, List.filter_append, hlast, List.find?_append, hnone]
    simp [hx]

namespace Caret

variable {trivia : Bool} {c d : Caret} {m : Token.Match} {ts : List Token}
  {ws : List (Token.Kind × List Char)}

theorem offset_afterText (p : Position) (t : List Char) :
    (p.afterText t).offset = p.offset + t.length := by
  induction t generalizing p with
  | nil => rfl
  | cons c t ih =>
    have hoffset : (p.after c).offset = p.offset + 1 := by
      unfold Position.after
      split <;> rfl
    rw [Position.afterText, List.foldl_cons, ← Position.afterText, ih, hoffset, List.length_cons]
    omega

/-- The token between a caret and a later one is the text between them. -/
theorem lexeme_tokenTo (c : Caret) (n : Nat) (kind : Token.Kind) :
    (c.tokenTo (c.advance n) kind).lexeme = c.ahead.take n := by
  show c.ahead.take ((c.position.afterText (c.ahead.take n)).offset - c.position.offset) = _
  rw [offset_afterText, Nat.add_sub_cancel_left, List.length_take, List.take_eq_take_iff]
  omega

theorem bestMatch_eq_ok (h : Token.bestMatch c.ahead Token.lexicon none = .ok (some m)) :
    c.bestMatch = .ok m := by
  rw [bestMatch, h]

theorem not_atEnd_of_bestMatch
    (h : Token.bestMatch c.ahead Token.lexicon none = .ok (some m)) : ¬c.atEnd := by
  intro hend
  rw [List.isEmpty_iff.1 hend] at h
  cases h

theorem token_of_bestMatch (h : Token.bestMatch c.ahead Token.lexicon none = .ok (some m))
    (hm : (m.kind.isTrivia && !trivia) = false) :
    c.token trivia = .ok (c.tokenTo (c.advance m.length) m.kind, c.advance m.length) := by
  rw [token, if_neg (not_atEnd_of_bestMatch h), bestMatch_eq_ok h]
  simp [hm]

theorem token_of_trivia (h : Token.bestMatch c.ahead Token.lexicon none = .ok (some m))
    (hm : m.kind.isTrivia) : c.token false = (c.advance m.length).token false := by
  rw [token, if_neg (not_atEnd_of_bestMatch h), bestMatch_eq_ok h]
  simp [hm]

theorem tokens_eq (trivia : Bool) (c : Caret) : c.tokens trivia =
    match c.token trivia with
    | .error e => .error e
    | .ok (t, d) =>
      if t.kind = .eof then .ok [t]
      else
        match d.tokens trivia with
        | .error e => .error e
        | .ok ts => .ok (t :: ts) := by
  rw [tokens]
  split
  · next h => exact h ▸ rfl
  · next h => exact h ▸ rfl

/-- From the caret on, the text is cut into these words, with trivia between them, and the end. -/
def Cuts (trivia : Bool) (c : Caret) (ws : List (Token.Kind × List Char)) : Prop :=
  ∃ ts x, c.tokens trivia = .ok (ts ++ [x]) ∧ x.kind = .eof ∧ (∀ t ∈ ts, t.kind ≠ .eof) ∧
    (ts.filter (!·.kind.isTrivia)).map Token.word = ws

theorem Cuts.nil (h : c.ahead = []) : c.Cuts trivia [] := by
  refine ⟨[], .eofAt c.position, ?_, rfl, nofun, rfl⟩
  rw [tokens_eq, token, if_pos (show c.atEnd from List.isEmpty_iff.2 h)]
  rfl

theorem Cuts.word (h : Token.bestMatch c.ahead Token.lexicon none = .ok (some m))
    (hm : m.kind.isTrivia = false) (hrest : (c.advance m.length).Cuts trivia ws) :
    c.Cuts trivia ((m.kind, c.ahead.take m.length) :: ws) := by
  obtain ⟨ts, x, hts, hx, hne, hws⟩ := hrest
  have heof : m.kind ≠ .eof := Token.ne_eof_of_bestMatch h
  refine ⟨c.tokenTo (c.advance m.length) m.kind :: ts, x, ?_, hx,
    List.forall_mem_cons.2 ⟨heof, hne⟩, ?_⟩
  · rw [tokens_eq, token_of_bestMatch h (by rw [hm]; rfl)]
    simp only [hts]
    exact if_neg heof
  · have hkept : (c.tokenTo (c.advance m.length) m.kind).kind.isTrivia = false := hm
    have hword : (c.tokenTo (c.advance m.length) m.kind).word = (m.kind, c.ahead.take m.length) :=
      congrArg (m.kind, ·) (lexeme_tokenTo c m.length m.kind)
    simp [hkept, hword, hws]

theorem Cuts.skip (h : Token.bestMatch c.ahead Token.lexicon none = .ok (some m))
    (hm : m.kind.isTrivia) (hrest : (c.advance m.length).Cuts trivia ws) : c.Cuts trivia ws := by
  obtain ⟨ts, x, hts, hx, hne, hws⟩ := hrest
  cases trivia with
  | false =>
    refine ⟨ts, x, ?_, hx, hne, hws⟩
    rw [tokens_eq, token_of_trivia h hm, ← tokens_eq, hts]
  | true =>
    have heof : m.kind ≠ .eof := Token.ne_eof_of_bestMatch h
    refine ⟨c.tokenTo (c.advance m.length) m.kind :: ts, x, ?_, hx,
      List.forall_mem_cons.2 ⟨heof, hne⟩, ?_⟩
    · rw [tokens_eq, token_of_bestMatch h (by rw [hm]; rfl)]
      simp only [hts]
      exact if_neg heof
    · have hdropped : (c.tokenTo (c.advance m.length) m.kind).kind.isTrivia := hm
      simpa [hdropped] using hws

/-- What is cut into words has tokens with these words, without trivia and the end. -/
theorem Cuts.ofText {settings : Settings} {text : List Char}
    (h : (Caret.ofText text).Cuts settings.emitTrivia ws) : ∃ tokens,
      Token.ofText settings text = .ok tokens ∧
      (Tape.ofTokens tokens).tokens.toList.map Token.word = ws := by
  obtain ⟨ts, x, hts, hx, hne, rfl⟩ := h
  exact ⟨ts ++ [x], hts, congrArg (List.map Token.word) (Tape.ofTokens_concat hne hx).1⟩

/-- White space at the caret makes no difference. -/
theorem Cuts.of_dropWhile
    (h : ∀ d : Caret, d.ahead = c.ahead.dropWhile Unicode.isWhiteSpace → d.Cuts trivia ws) :
    c.Cuts trivia ws := by
  cases hahead : c.ahead with
  | nil => exact h c (by rw [hahead]; rfl)
  | cons a t =>
    by_cases ha : Unicode.isWhiteSpace a
    · have hmatch := Token.bestMatch_whiteSpace (t := t) ha
      rw [← hahead] at hmatch
      refine .skip hmatch rfl (h _ ?_)
      show c.ahead.drop _ = _
      rw [hahead, List.dropWhile_cons_of_pos ha, List.drop_succ_cons]
      have hsplit := List.takeWhile_append_dropWhile (p := Unicode.isWhiteSpace) (l := t)
      exact (congrArg _ hsplit.symm).trans List.drop_left
    · exact h c (by rw [hahead, List.dropWhile_cons_of_neg ha])

end Caret

/-! ## Texts -/

namespace Token

/-- The text is cut into these words, whatever caret it lies ahead of, if one passes over the white
space that it begins with. -/
def Cut (t : List Char) (ws : List (Kind × List Char)) : Prop :=
  ∀ (trivia : Bool) (c : Caret), c.ahead.dropWhile Unicode.isWhiteSpace =
    t.dropWhile Unicode.isWhiteSpace → c.Cuts trivia ws

variable {t : List Char} {ws : List (Kind × List Char)} {c : Char} {m : Match}

theorem Cut.nil : Cut [] [] := fun _ _ h => .of_dropWhile fun _ hd => .nil (hd.trans h)

theorem Cut.space (hc : Unicode.isWhiteSpace c) (h : Cut t ws) : Cut (c :: t) ws :=
  fun trivia d hd => h trivia d (hd.trans (List.dropWhile_cons_of_pos hc))

theorem Cut.word (h : bestMatch t lexicon none = .ok (some m)) (hm : m.kind.isTrivia = false)
    (hrest : Cut (t.drop m.length) ws) : Cut t ((m.kind, t.take m.length) :: ws) := by
  intro trivia c hc
  refine .of_dropWhile fun d hd => ?_
  have hsolid : t.dropWhile Unicode.isWhiteSpace = t := by
    cases t with
    | nil => rfl
    | cons a t =>
      refine List.dropWhile_cons_of_neg fun ha => ?_
      rw [bestMatch_whiteSpace ha] at h
      cases h
      cases hm
  have hahead : d.ahead = t := hd.trans (hc.trans hsolid)
  rw [← hahead]
  refine .word (hahead ▸ h) hm (hrest trivia _ ?_)
  show (d.ahead.drop m.length).dropWhile _ = _
  rw [hahead]

theorem Cut.symbol {kind : Kind}
    (h : bestMatch (c :: t) lexicon none = .ok (some ⟨kind, 1, Nat.one_pos⟩))
    (hk : kind.isTrivia = false) (hrest : Cut t ws) : Cut (c :: t) ((kind, [c]) :: ws) :=
  .word h hk hrest

theorem Cut.name {w : List Char} (hw : IsName w) (ht : EndsWord t) (h : Cut t ws) :
    Cut (w ++ t) ((.identifier, w) :: ws) := by
  have hcut : Cut (w ++ t) ((.identifier, (w ++ t).take w.length) :: ws) :=
    .word (bestMatch_name hw ht) rfl (by simpa using h)
  rwa [List.take_left] at hcut

theorem Cut.keyword {w : List Char} {kind : Kind} (hw : (kind, w) ∈ reserved) (ht : EndsWord t)
    (h : Cut t ws) : Cut (w ++ t) ((kind, w) :: ws) := by
  have hkind : kind.isTrivia = false := by
    have hnone : ∀ q ∈ reserved, q.1.isTrivia = false := by decide
    exact hnone _ hw
  have hcut : Cut (w ++ t) ((kind, (w ++ t).take w.length) :: ws) :=
    .word (bestMatch_keyword hw ht) hkind (by simpa using h)
  rwa [List.take_left] at hcut

theorem Cut.integer {w : List Char} (hw : w ≠ []) (hdigits : ∀ c ∈ w, c.isDigit)
    (ht : EndsWord t) (h : Cut t ws) : Cut (w ++ t) ((.integer, w) :: ws) := by
  have hend : ∀ c ∈ t.head?, c.isDigit = false := by
    intro c hc
    have := ht c hc
    simp only [continuesIdentifier, Char.isAlphanum, Bool.or_eq_false_iff] at this
    exact this.1.2
  have hcut : Cut (w ++ t) ((.integer, (w ++ t).take w.length) :: ws) :=
    .word (bestMatch_integer hw hdigits hend) rfl (by simpa using h)
  rwa [List.take_left] at hcut

/-- A text that is cut into words has tokens with these words, without trivia and the end. -/
theorem Cut.ofText {text : List Char} {ws : List (Kind × List Char)} (h : Cut text ws)
    (settings : Settings) : ∃ tokens, Token.ofText settings text = .ok tokens ∧
      (Tape.ofTokens tokens).tokens.toList.map Token.word = ws :=
  (h settings.emitTrivia (.ofText text) rfl).ofText

/-! ## Tokens -/

/-- The token is the best match where it stands: of its lexeme and what follows that. -/
def Matched (x : Token) : Prop :=
  ∃ t m, bestMatch (x.lexeme ++ t) lexicon none = .ok (some m) ∧ m.kind = x.kind ∧
    m.length = x.lexeme.length

end Token

namespace Caret

variable {trivia : Bool} {c d : Caret} {x : Token} {ts : List Token}

theorem bestMatch_of_caret {m : Token.Match} (h : c.bestMatch = .ok m) :
    Token.bestMatch c.ahead Token.lexicon none = .ok (some m) := by
  unfold bestMatch at h
  split at h
  · next hm =>
    cases h
    exact hm
  · cases h
  · cases h

theorem matched_of_token (h : c.token trivia = .ok (x, d)) (hx : x.kind ≠ .eof) : x.Matched := by
  fun_induction token trivia c with
  | case1 c hc =>
    cases h
    exact absurd rfl hx
  | case2 => cases h
  | case3 c hc m hm htrivia ih => exact ih h
  | case4 c hc m hm htrivia =>
    cases h
    have hmatch := bestMatch_of_caret hm
    have hle : m.length ≤ c.ahead.length := by
      rcases Token.of_bestMatch hmatch with hnone | ⟨pattern, -, hlength⟩
      · cases hnone
      · exact Token.Pattern.length?_le hlength
    have hlexeme := lexeme_tokenTo c m.length m.kind
    have hlength : (c.ahead.take m.length).length = m.length := by
      rw [List.length_take, Nat.min_eq_left hle]
    refine ⟨c.ahead.drop m.length, m, ?_, rfl, by rw [hlexeme, hlength]⟩
    rw [hlexeme, List.take_append_drop]
    exact hmatch

/-- All tokens of a text but the end are matched where they stand. -/
theorem matched_of_tokens (h : c.tokens trivia = .ok ts) : ∀ x ∈ ts, x.kind ≠ .eof → x.Matched := by
  fun_induction tokens trivia c generalizing ts with
  | case1 => cases h
  | case2 c x d hx heof =>
    cases h
    exact List.forall_mem_singleton.2 fun hne => absurd heof hne
  | case3 => cases h
  | case4 c x d hx heof ts' hts ih =>
    cases h
    exact List.forall_mem_cons.2 ⟨fun hne => matched_of_token hx hne, ih hts⟩

end Caret

namespace Token

variable {x : Token}

theorem Matched.exists_pattern (h : x.Matched) : ∃ c w t pattern, x.lexeme = c :: w ∧
    (x.kind, pattern) ∈ lexicon ∧ pattern.length? (c :: w ++ t) = .ok (some (c :: w).length) ∧
    ∃ m, bestMatch (c :: w ++ t) lexicon none = .ok (some m) ∧ m.kind = x.kind := by
  obtain ⟨t, m, hmatch, hkind, hlength⟩ := h
  obtain ⟨c, w, hw⟩ := List.exists_cons_of_length_pos (hlength ▸ m.length_pos)
  rw [hw] at hmatch hlength
  rcases of_bestMatch hmatch with hnone | ⟨pattern, hmem, hpattern⟩
  · cases hnone
  · exact ⟨c, w, t, pattern, hw, hkind ▸ hmem, hlength ▸ hpattern, m, hmatch, hkind⟩

/-- An identifier of a text is a name: if it were reserved, it would be matched as a keyword. -/
theorem Matched.isName (h : x.Matched) (hx : x.kind = .identifier) : IsName x.lexeme := by
  obtain ⟨c, w, t, pattern, hw, hmem, hlength, m, hmatch, hkind⟩ := h.exists_pattern
  rw [hx] at hmem hkind
  have hpattern : pattern = namePattern := by simpa [lexicon, namePattern] using hmem
  rw [hpattern] at hlength
  obtain ⟨hc, hcs, ht⟩ := of_length?_run hlength
  rw [hw]
  refine ⟨Bool.and_eq_true_iff.2 ⟨hc, List.all_eq_true.2 hcs⟩, fun q hq hqw => ?_⟩
  have hreserved : (q.1, c :: w) ∈ reserved := hqw ▸ hq
  have hkeyword := bestMatch_keyword hreserved ht
  rw [hmatch] at hkeyword
  cases hkeyword
  have hnone : ∀ q ∈ reserved, q.1 ≠ .identifier := by decide
  exact hnone q hq hkind

/-- A numeral of a text is a sequence of digits. -/
theorem Matched.isDigit (h : x.Matched) (hx : x.kind = .integer) :
    x.lexeme ≠ [] ∧ ∀ c ∈ x.lexeme, c.isDigit := by
  obtain ⟨c, w, t, pattern, hw, hmem, hlength, -⟩ := h.exists_pattern
  rw [hx] at hmem
  have hpattern : pattern = .run Char.isDigit Char.isDigit := by simpa [lexicon] using hmem
  rw [hpattern] at hlength
  obtain ⟨hc, hcs, -⟩ := of_length?_run hlength
  rw [hw]
  exact ⟨List.cons_ne_nil _ _, List.forall_mem_cons.2 ⟨hc, hcs⟩⟩

end Token

end Descent
