import Descent.Proofs.Parser.Indifference
import Descent.Proofs.Token.Locality
import Descent.Proofs.Tree.Relocation

/-!
# One text below another

A text that is cut below another one has the tokens of that text first and then its own, only at
other places (`Token.ofText_below`). Nothing is read across the line break between them: white space
and comments aside, no token reaches over white space, a comment to the end of the line ends before
it, and an enclosed comment that is still open is an error of the first text. Just the white space
before the line break becomes one with what follows it, which nobody sees where trivia are dropped.
-/

namespace Descent

namespace Position

/-- The position below a text and a line break. -/
def below (text : List Char) (p : Position) : Position :=
  ⟨p.offset + (text.length + 1), p.line + (text.count '\n' + 1), p.column⟩

theorem below_le_below {text : List Char} {p q : Position} :
    p.below text ≤ q.below text ↔ p ≤ q := by
  have hle {p q : Position} : p ≤ q ↔ p.offset < q.offset ∨
    p.offset = q.offset ∧ (p.line < q.line ∨ p.line = q.line ∧ p.column ≤ q.column) := Iff.rfl
  rw [hle, hle]
  simp only [below]
  omega

theorem below_after (text : List Char) (p : Position) (c : Char) :
    (p.after c).below text = (p.below text).after c := by
  unfold after
  split
  · simp only [below, mk.injEq, and_true]
    omega
  · simp only [below, mk.injEq, and_true]
    omega

/-- The start comes right behind the text and the line break. -/
theorem below_start (text : List Char) : start.below text = start.afterText (text ++ ['\n']) := by
  rw [start_afterText]
  simp [below, start]

end Position

namespace Relocation

/-- Below a text with `n` tokens, a line break between. -/
def below (text : List Char) (n : Nat) : Relocation where
  place := Position.below text
  before := n
  place_min p q := by
    show Position.below text (if p ≤ q then p else q) =
      if p.below text ≤ q.below text then p.below text else q.below text
    simp only [Position.below_le_below]
    split <;> rfl
  place_max p q := by
    show Position.below text (if p ≤ q then q else p) =
      if p.below text ≤ q.below text then q.below text else p.below text
    simp only [Position.below_le_below]
    split <;> rfl

/-- Characters are passed alike at the new places. -/
def Steps (ρ : Relocation) : Prop := ∀ p c, ρ.place (p.after c) = (ρ.place p).after c

theorem Steps.afterText {ρ : Relocation} (h : ρ.Steps) (p : Position) (t : List Char) :
    ρ.place (p.afterText t) = (ρ.place p).afterText t := by
  induction t generalizing p with
  | nil => rfl
  | cons c t ih =>
    show ρ.place ((p.after c).afterText t) = ((ρ.place p).after c).afterText t
    rw [ih, h]

end Relocation

/-! ## Before a line break -/

namespace Token

variable {t u : List Char} {o : Option Match}

theorem isWhiteSpace_newline : Unicode.isWhiteSpace '\n' := rfl

/-- Unless it begins with white space, a text has the same best match before a line break. -/
theorem bestMatch_newline (ht : t ≠ []) (hwhite : ∀ c ∈ t.head?, Unicode.isWhiteSpace c = false)
    (h : bestMatch t lexicon none = .ok o) : bestMatch (t ++ '\n' :: u) lexicon none = .ok o := by
  have hu : ∀ c ∈ ('\n' :: u).head?, Unicode.isWhiteSpace c := by
    simp [isWhiteSpace_newline]
  rw [← h]
  apply bestMatch_congr
  intro q hq
  cases htrivia : q.1.isTrivia with
  | false => exact (solid_of_mem q hq htrivia).length?_append ht hu
  | true =>
    have hmem : q ∈ lexicon.filter (·.1.isTrivia) := List.mem_filter.2 ⟨hq, htrivia⟩
    rw [filter_isTrivia] at hmem
    simp only [List.mem_cons, List.not_mem_nil, or_false] at hmem
    have hopening {d : Char} (hd : Unicode.isWhiteSpace d = false) :
        ['/', d].isPrefixOf (t ++ '\n' :: u) = ['/', d].isPrefixOf t :=
      isPrefixOf_append_space (by simp [hd, not_isWhiteSpace]) hu
    rcases hmem with rfl | rfl | rfl
    · obtain ⟨c, t, rfl⟩ := List.exists_cons_of_ne_nil ht
      simp [Pattern.length?, hwhite c rfl]
    · rw [Pattern.length?, Pattern.length?, hopening (not_isWhiteSpace (by decide) (by decide))]
      by_cases hbegins : ['/', '/'].isPrefixOf t
      · obtain ⟨v, rfl⟩ := List.isPrefixOf_iff_prefix.1 hbegins
        have hline : (v ++ '\n' :: u).takeWhile (· ≠ '\n') = v.takeWhile (· ≠ '\n') :=
          takeWhile_append_of_head (by simp)
        rw [List.append_assoc, List.drop_left, List.drop_left, hline]
      · rw [if_neg hbegins, if_neg hbegins]
    · obtain ⟨n, hn⟩ := length?_of_bestMatch h _ hq
      rw [Pattern.length?] at hn
      rw [Pattern.length?, Pattern.length?, hopening (not_isWhiteSpace (by decide) (by decide))]
      by_cases hbegins : ['/', '*'].isPrefixOf t
      · obtain ⟨v, rfl⟩ := List.isPrefixOf_iff_prefix.1 hbegins
        rw [List.append_assoc, List.drop_left, List.drop_left]
        rw [if_pos hbegins, List.drop_left] at hn
        cases hindex : indexOf? ['*', '/'] v with
        | none =>
          rw [hindex] at hn
          cases hn
        | some k => rw [(indexOf?_append (indexOf?_le hindex) _).2 hindex]
      · rw [if_neg hbegins, if_neg hbegins]

end Token

namespace Caret

variable {ρ : Relocation} {c d : Caret} {m : Token.Match} {e : LexError} {t u : List Char} {x : Char}
  {n : Nat} {ts : List Token} {y : Token}

/-- White space at the caret makes no difference to the tokens without trivia. -/
theorem tokens_space (hx : Unicode.isWhiteSpace x) (h : c.ahead = x :: t) :
    c.tokens false = (c.advance 1).tokens false := by
  have hmatch := bestMatch_eq_ok (h ▸ Token.bestMatch_whiteSpace (t := t) hx)
  rw [tokens_of_dropped hmatch rfl]
  have hahead : (c.advance 1).ahead = t := congrArg (List.drop 1) h
  cases t with
  | nil => rfl
  | cons y t =>
    by_cases hy : Unicode.isWhiteSpace y
    · have hmatch' := bestMatch_eq_ok (hahead ▸ Token.bestMatch_whiteSpace (t := t) hy)
      rw [tokens_of_dropped hmatch' rfl, advance_advance, List.takeWhile_cons_of_pos hy]
      simp [Nat.add_comm]
    · rw [List.takeWhile_cons_of_neg hy]
      rfl

/-- Induction along the tokens without trivia: white space is passed character by character. -/
theorem induct_space {P : Caret → Prop} (atEnd : ∀ c : Caret, c.ahead = [] → P c)
    (error : ∀ (c : Caret) (e : LexError), c.ahead ≠ [] → c.bestMatch = .error e → P c)
    (space : ∀ (c : Caret) (x : Char) (t : List Char), Unicode.isWhiteSpace x → c.ahead = x :: t →
      P (c.advance 1) → P c)
    (piece : ∀ (c : Caret) (x : Char) (t : List Char) (m : Token.Match),
      Unicode.isWhiteSpace x = false → c.ahead = x :: t → c.bestMatch = .ok m →
      P (c.advance m.length) → P c)
    (c : Caret) : P c := by
  have hless {n : Nat} (hn : 0 < n) (h : c.ahead ≠ []) :
      (c.advance n).ahead.length < c.ahead.length :=
    length_ahead_advance_lt hn fun hc => h (List.isEmpty_iff.1 hc)
  cases hahead : c.ahead with
  | nil => exact atEnd c hahead
  | cons x t =>
    have hne : c.ahead ≠ [] := hahead ▸ List.cons_ne_nil x t
    cases hx : Unicode.isWhiteSpace x with
    | true =>
      have := hless Nat.one_pos hne
      exact space c x t hx hahead (induct_space atEnd error space piece (c.advance 1))
    | false =>
      cases hm : c.bestMatch with
      | error e => exact error c e hne hm
      | ok m =>
        have := hless m.length_pos hne
        exact piece c x t m hx hahead hm (induct_space atEnd error space piece (c.advance m.length))
termination_by c.ahead.length

/-! ### The same text at another place -/

/-- The second caret has the same text ahead, at its new place. -/
structure Moves (ρ : Relocation) (c d : Caret) : Prop where
  ahead : d.ahead = c.ahead
  position : d.position = ρ.place c.position

namespace Moves

theorem advance (h : c.Moves ρ d) (hρ : ρ.Steps) (n : Nat) :
    (c.advance n).Moves ρ (d.advance n) where
  ahead := congrArg (List.drop n) h.ahead
  position := by
    show d.position.afterText (d.ahead.take n) = ρ.place (c.position.afterText (c.ahead.take n))
    rw [h.ahead, h.position, hρ.afterText]

theorem bestMatch (h : c.Moves ρ d) :
    d.bestMatch = c.bestMatch.mapError (LexError.move ρ) := by
  have hlex (cause : LexError.Cause) : d.lexError cause = (c.lexError cause).move ρ := by
    unfold lexError peek?
    rw [h.ahead, h.position]
    rfl
  unfold Caret.bestMatch
  rw [h.ahead, hlex]
  cases Token.bestMatch c.ahead Token.lexicon none with
  | error cause => exact congrArg Except.error (hlex cause)
  | ok o => cases o <;> rfl

theorem tokenTo (h : c.Moves ρ d) (hρ : ρ.Steps) (n : Nat) (kind : Token.Kind) :
    d.tokenTo (d.advance n) kind = (c.tokenTo (c.advance n) kind).move ρ := by
  have hlexeme : (d.tokenTo (d.advance n) kind).lexeme = (c.tokenTo (c.advance n) kind).lexeme := by
    rw [lexeme_tokenTo, lexeme_tokenTo, h.ahead]
  have hspan : (d.tokenTo (d.advance n) kind).span = (c.spanTo (c.advance n)).move ρ := by
    show (⟨d.position, (d.advance n).position⟩ : Span) = _
    rw [h.position, (h.advance hρ n).position]
    rfl
  exact congrArg₂ (Token.mk kind) hlexeme hspan

/-- The tokens are the same at their new places, and so is an error. -/
theorem tokens (h : c.Moves ρ d) (hρ : ρ.Steps) : d.tokens false =
    ((c.tokens false).map (List.map (Token.move ρ))).mapError (LexError.move ρ) := by
  induction c using induct generalizing d with
  | atEnd c hend =>
    rw [tokens_of_atEnd hend, tokens_of_atEnd (h.ahead.trans hend), h.position]
    rfl
  | error c e hend hm =>
    have hm' : d.bestMatch = .error (e.move ρ) := by rw [h.bestMatch, hm]; rfl
    rw [tokens_of_error hm hend, tokens_of_error hm' (h.ahead ▸ hend)]
    rfl
  | piece c m hm ih =>
    have hm' : d.bestMatch = .ok m := by rw [h.bestMatch, hm]; rfl
    have hrest := ih (h.advance hρ m.length)
    cases htrivia : m.kind.isTrivia with
    | true => rw [tokens_of_dropped hm htrivia, tokens_of_dropped hm' htrivia, hrest]
    | false =>
      rw [tokens_of_kept false hm (by simp [htrivia]), tokens_of_kept false hm' (by simp [htrivia]),
        hrest, h.tokenTo hρ]
      cases (c.advance m.length).tokens false <;> rfl

end Moves

/-! ### More text behind -/

/-- The second caret is at the same position, and `u` comes behind the text that is ahead of the
first one. -/
structure Extends (u : List Char) (c d : Caret) : Prop where
  ahead : d.ahead = c.ahead ++ u
  position : d.position = c.position

namespace Extends

theorem advance (h : c.Extends u d) (hn : n ≤ c.ahead.length) :
    (c.advance n).Extends u (d.advance n) where
  ahead := by
    show d.ahead.drop n = c.ahead.drop n ++ u
    rw [h.ahead, List.drop_append_of_le_length hn]
  position := by
    show d.position.afterText (d.ahead.take n) = c.position.afterText (c.ahead.take n)
    rw [h.ahead, h.position, List.take_append_of_le_length hn]

theorem tokenTo (h : c.Extends u d) (hn : n ≤ c.ahead.length) (kind : Token.Kind) :
    d.tokenTo (d.advance n) kind = c.tokenTo (c.advance n) kind := by
  have hlexeme : (d.tokenTo (d.advance n) kind).lexeme = (c.tokenTo (c.advance n) kind).lexeme := by
    rw [lexeme_tokenTo, lexeme_tokenTo, h.ahead, List.take_append_of_le_length hn]
  have hspan : (d.tokenTo (d.advance n) kind).span = c.spanTo (c.advance n) := by
    show (⟨d.position, (d.advance n).position⟩ : Span) = _
    rw [h.position, (h.advance hn).position]
    rfl
  exact congrArg₂ (Token.mk kind) hlexeme hspan

theorem bestMatch (h : c.Extends ('\n' :: u) d) (hx : Unicode.isWhiteSpace x = false)
    (hahead : c.ahead = x :: t) (hm : c.bestMatch = .ok m) : d.bestMatch = .ok m := by
  apply bestMatch_eq_ok
  rw [h.ahead]
  refine Token.bestMatch_newline ?_ ?_ (bestMatch_of_caret hm)
  · rw [hahead]
    exact List.cons_ne_nil x t
  · rw [hahead]
    simpa using hx

/-- If a line break comes behind all that is ahead of a caret, the tokens there stay the same up to
the end, and those behind the line break follow. -/
theorem tokens (h : c.Extends ('\n' :: u) d) (hts : c.tokens false = .ok (ts ++ [y])) :
    d.tokens false = ((d.advance (c.ahead.length + 1)).tokens false).map (ts ++ ·) := by
  have hadvance {c d : Caret} {n : Nat} (hn : n ≤ c.ahead.length) : (d.advance n).advance
      ((c.advance n).ahead.length + 1) = d.advance (c.ahead.length + 1) := by
    have hlength : (c.advance n).ahead.length = c.ahead.length - n := List.length_drop
    rw [advance_advance, hlength]
    congr 1
    omega
  induction c using induct_space generalizing d ts with
  | atEnd c hend =>
    have hd : d.ahead = '\n' :: u := by rw [h.ahead, hend]; rfl
    have hnil : ts = [] := by
      rw [tokens_of_atEnd hend] at hts
      exact (List.append_inj' ((Except.ok.inj hts).symm.trans (List.nil_append _).symm) rfl).1
    rw [tokens_space Token.isWhiteSpace_newline hd, hend, hnil]
    cases (d.advance 1).tokens false <;> rfl
  | error c e hend hm => cases (tokens_of_error hm hend).symm.trans hts
  | space c x t hx hahead ih =>
    have hd : d.ahead = x :: (t ++ '\n' :: u) := by rw [h.ahead, hahead]; rfl
    have hle : 1 ≤ c.ahead.length := by simp [hahead]
    rw [tokens_space hx hahead] at hts
    rw [tokens_space hx hd, ih (h.advance hle) hts, hadvance hle]
  | piece c x t m hx hahead hm ih =>
    have hm' := h.bestMatch hx hahead hm
    have hle := length_le_of_bestMatch hm
    cases htrivia : m.kind.isTrivia with
    | true =>
      rw [tokens_of_dropped hm htrivia] at hts
      rw [tokens_of_dropped hm' htrivia, ih (h.advance hle) hts, hadvance hle]
    | false =>
      obtain ⟨us, hus, heq⟩ := tokens_eq_ok_of_kept hm (by simp [htrivia]) hts
      obtain ⟨vs, p, rfl, -⟩ := tokens_eq_concat hus
      obtain ⟨rfl, hy⟩ := List.append_inj' (heq.trans (List.cons_append ..).symm) rfl
      cases hy
      rw [tokens_of_kept false hm' (by simp [htrivia]), ih (h.advance hle) hus, h.tokenTo hle,
        hadvance hle]
      cases (d.advance (c.ahead.length + 1)).tokens false <;> rfl

end Extends

end Caret

/-! ## Texts -/

namespace Token

variable {settings : Settings} {text : List Char} {tokens us : List Token} {e : LexError} {y : Token}

theorem ofText_error (settings' : Settings) (h : ofText settings text = .error e) :
    ofText settings' text = .error e := by
  rcases ofText_indifferent settings settings' text with ⟨f, hf, hf'⟩ | ⟨us, vs, hus, -⟩
  · cases hf.symm.trans h
    exact hf'
  · cases hus.symm.trans h

theorem ofText_ok (settings' : Settings) (h : ofText settings text = .ok us) :
    ∃ vs, ofText settings' text = .ok vs ∧
      (Tape.ofTokens vs).tokens = (Tape.ofTokens us).tokens ∧
      (Tape.ofTokens vs).eof = (Tape.ofTokens us).eof := by
  rcases ofText_indifferent settings settings' text with ⟨f, hf, -⟩ | ⟨_, vs, hus, hvs, hsame⟩
  · cases hf.symm.trans h
  · cases hus.symm.trans h
    exact ⟨vs, hvs, hsame⟩

/-- Without trivia, a text that is cut below another one has the same tokens at their new places
behind those of the other text, or it has the same error at its new place. -/
theorem ofText_below_plain (h : ofText {} text = .ok (us ++ [y])) (text' : List Char) (n : Nat) :
    ofText {} (text ++ '\n' :: text') = ((ofText {} text').map fun vs =>
      us ++ vs.map (Token.move (.below text n))).mapError (LexError.move (.below text n)) := by
  let d := Caret.ofText (text ++ '\n' :: text')
  have hextends : (Caret.ofText text).Extends ('\n' :: text') d := ⟨rfl, rfl⟩
  have hmoves : (Caret.ofText text').Moves (.below text n) (d.advance (text.length + 1)) := by
    have hsplit : text ++ '\n' :: text' = (text ++ ['\n']) ++ text' := by simp
    have hlength : text.length + 1 = (text ++ ['\n']).length := by simp
    constructor
    · show (text ++ '\n' :: text').drop (text.length + 1) = text'
      rw [hsplit, hlength, List.drop_left]
    · show Position.start.afterText ((text ++ '\n' :: text').take (text.length + 1)) = _
      rw [hsplit, hlength, List.take_left]
      exact (Position.below_start text).symm
  calc d.tokens false
    _ = ((d.advance (text.length + 1)).tokens false).map (us ++ ·) := hextends.tokens h
    _ = _ := by
      rw [hmoves.tokens (Position.below_after text)]
      show _ = (((Caret.ofText text').tokens false).map _).mapError _
      cases (Caret.ofText text').tokens false <;> rfl

/-- Cut below another text, a text has the same tokens at their new places behind those of the other
text, and the same end, or it has the same error at its new place. -/
theorem ofText_below (h : ofText settings text = .ok tokens) (text' : List Char) (n : Nat) :
    (∃ e, ofText settings text' = .error e ∧
      ofText settings (text ++ '\n' :: text') = .error (e.move (.below text n))) ∨
    ∃ us vs, ofText settings text' = .ok us ∧ ofText settings (text ++ '\n' :: text') = .ok vs ∧
      (Tape.ofTokens vs).tokens.toList = (Tape.ofTokens tokens).tokens.toList ++
        (Tape.ofTokens us).tokens.toList.map (Token.move (.below text n)) ∧
      (Tape.ofTokens vs).eof = (Tape.ofTokens us).eof.move (.below text n) := by
  obtain ⟨_, hts, htokens, -⟩ := ofText_ok {} h
  obtain ⟨ts, p, rfl, hne⟩ := Caret.tokens_eq_concat hts
  have hbelow := ofText_below_plain hts text' n
  cases hplain : ofText {} text' with
  | error e =>
    rw [hplain] at hbelow
    exact .inl ⟨e, ofText_error settings hplain, ofText_error settings hbelow⟩
  | ok us =>
    rw [hplain] at hbelow
    obtain ⟨us, q, rfl, hne'⟩ := Caret.tokens_eq_concat hplain
    have hlist : ts ++ (us ++ [eofAt q]).map (Token.move (.below text n)) =
        (ts ++ us.map (Token.move (.below text n))) ++ [(eofAt q).move (.below text n)] := by simp
    replace hbelow := hbelow.trans (congrArg Except.ok hlist)
    obtain ⟨us', hus', htokens', heof'⟩ := ofText_ok settings hplain
    obtain ⟨vs, hvs, htokens'', heof''⟩ := ofText_ok settings hbelow
    have hall : ∀ t ∈ ts ++ us.map (Token.move (.below text n)), t.kind ≠ .eof := by
      intro t ht
      rcases List.mem_append.1 ht with ht | ht
      · exact hne t ht
      · obtain ⟨u, hu, rfl⟩ := List.mem_map.1 ht
        exact hne' u hu
    obtain ⟨hfirst, -⟩ := Tape.ofTokens_concat hne (x := .eofAt p) rfl
    obtain ⟨hsecond, hend⟩ := Tape.ofTokens_concat hne' (x := .eofAt q) rfl
    obtain ⟨hboth, hend'⟩ :=
      Tape.ofTokens_concat hall (x := (eofAt q).move (.below text n)) rfl
    refine .inr ⟨us', vs, hus', hvs, ?_, ?_⟩
    · rw [htokens'', ← htokens, htokens', hfirst, hsecond]
      refine hboth.trans ?_
      rw [List.filter_append, List.filter_map]
      rfl
    · rw [heof'', heof', hend]
      exact hend'

end Token

end Descent
