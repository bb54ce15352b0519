import Descent.Proofs.Token.LongestMatch

/-!
# Texts as sequences of longest tokens

Main statement: a text is read token by token, each time the longest that the rest of the text
begins with and, of the kinds that it belongs to, the first; and reading fails exactly where a
comment is opened and not closed or where no token begins (`Token.munch_ofText`).

`Munched` says what sequences of tokens a text begins with, and `Fault` where it cannot be read on.
Cutting a text fails with the fault behind such a sequence (`Caret.tokens_eq_error_iff`), and each
token that is read is the next of such a sequence (`Caret.munched_of_token`).
-/

namespace Descent.Token

variable {t w r : List Char} {kind : Kind} {cause : LexError.Cause} {found : Char}
  {ws : List (Kind × List Char)}

/-- From its beginning on, the text is made of these tokens, each the one to take where it stands,
and `r` follows them. -/
def Munched : List Char → List (Kind × List Char) → List Char → Prop
  | t, [], r => t = r
  | t, (kind, w) :: ws, r => ¬Unclosed t ∧ Munch t kind w ∧ Munched (t.drop w.length) ws r

/-- The text does not begin with a token: why, and the character that stands there. -/
inductive Fault : List Char → LexError.Cause → Char → Prop where
  | unclosed {r : List Char} (h : Unclosed r) : Fault r .unclosedComment '/'
  | stray {c : Char} {r : List Char} (h : ∀ kind w, ¬Lexeme kind (c :: w)) :
    Fault (c :: r) .strayCharacter c

theorem Munched.eq_append (h : Munched t ws r) : t = (ws.map Prod.snd).flatten ++ r := by
  induction ws generalizing t with
  | nil => exact h
  | cons q ws ih =>
    obtain ⟨-, hq, hrest⟩ := h
    obtain ⟨s, rfl⟩ := hq.isPrefix
    rw [List.drop_left] at hrest
    rw [ih hrest, List.map_cons, List.flatten_cons, List.append_assoc]

/-- Where a token is to be taken, there is no fault. -/
theorem Munch.not_fault (hclosed : ¬Unclosed t) (h : Munch t kind w) : ¬Fault t cause found := by
  rintro (hunclosed | hstray)
  · exact hclosed hunclosed
  · obtain ⟨s, hs⟩ := h.isPrefix
    cases w with
    | nil => exact h.lexeme.ne_nil rfl
    | cons a w =>
      cases hs
      exact hstray _ _ h.lexeme

theorem Fault.ne_nil (h : Fault t cause found) : t ≠ [] := by
  rcases h with ⟨-, rfl, -⟩ | - <;> exact List.cons_ne_nil _ _

/-- A text has one fault at most. -/
theorem Fault.unique {cause' : LexError.Cause} {found' : Char} (h : Fault t cause found)
    (h' : Fault t cause' found') : cause = cause' ∧ found = found' := by
  -- An open comment begins with a slash, which is a token.
  have hslash : Lexeme .slash ['/'] := .symbol (by decide)
  have hnot {c : Char} {r : List Char} (h : Unclosed (c :: r))
      (hstray : ∀ kind w, ¬Lexeme kind (c :: w)) : False := by
    obtain ⟨_, heq, -⟩ := h
    cases heq
    exact hstray _ _ hslash
  cases h with
  | unclosed h =>
    cases h' with
    | unclosed => exact ⟨rfl, rfl⟩
    | stray h' => exact (hnot h h').elim
  | stray h =>
    cases h' with
    | unclosed h' => exact (hnot h' h).elim
    | stray => exact ⟨rfl, rfl⟩

end Descent.Token

namespace Descent.Caret

open Token (Munch Munched Fault Unclosed)

variable {c d : Caret} {m : Token.Match} {e : LexError} {x : Token} {trivia : Bool}

/-- The caret stands before the longest token. -/
theorem munch_of_bestMatch (h : c.bestMatch = .ok m) :
    ¬Unclosed c.ahead ∧ Munch c.ahead m.kind (c.ahead.take m.length) :=
  ⟨Token.not_unclosed_of_bestMatch (bestMatch_of_caret h),
    Token.munch_of_bestMatch (bestMatch_of_caret h)⟩

/-- The caret stands before a fault. -/
theorem fault_of_bestMatch (h : c.bestMatch = .error e) (hend : c.ahead ≠ []) :
    Fault c.ahead e.cause e.found ∧ e.position = c.position := by
  unfold bestMatch at h
  split at h
  · cases h
  · next hnone =>
    cases h
    obtain ⟨a, r, hahead⟩ := List.exists_cons_of_ne_nil hend
    rw [hahead] at hnone
    have hfound : (c.peek? 0).getD '\x00' = a := by rw [peek?, hahead]; rfl
    refine ⟨?_, rfl⟩
    rw [lexError, hfound, hahead]
    refine .stray fun kind w hw => ?_
    obtain ⟨k, hk⟩ := hw.exists_singleton
    exact Token.not_lexeme_of_bestMatch hnone ⟨r, rfl⟩ hk
  · next cause hcause =>
    cases h
    obtain ⟨rfl, r, hahead, hr⟩ := Token.unclosed_of_bestMatch hcause
    have hfound : (c.peek? 0).getD '\x00' = '/' := by rw [peek?, hahead]; rfl
    refine ⟨?_, rfl⟩
    rw [lexError, hfound]
    exact .unclosed ⟨r, hahead, hr⟩

/-- Behind a piece, cutting the text fails exactly if it fails before it, with the same error. -/
theorem tokens_eq_error_of_bestMatch (trivia : Bool) (h : c.bestMatch = .ok m) :
    c.tokens trivia = .error e ↔ (c.advance m.length).tokens trivia = .error e := by
  cases hdropped : m.kind.isTrivia && !trivia with
  | true =>
    obtain ⟨htrivia, rfl⟩ : m.kind.isTrivia = true ∧ trivia = false := by simpa using hdropped
    rw [tokens_of_dropped h htrivia]
  | false =>
    rw [tokens_of_kept trivia h hdropped]
    cases (c.advance m.length).tokens trivia <;> simp [Except.map]

/-- Cutting a text fails exactly where, behind tokens, there is a fault. -/
theorem tokens_eq_error_iff (trivia : Bool) (c : Caret) (e : LexError) :
    c.tokens trivia = .error e ↔ ∃ ws r, Munched c.ahead ws r ∧ Fault r e.cause e.found ∧
      e.position = c.position.afterText (ws.map Prod.snd).flatten := by
  induction c using induct with
  | atEnd c hend =>
    rw [tokens_of_atEnd hend]
    refine iff_of_false nofun ?_
    rintro ⟨ws, r, hws, hr, -⟩
    rw [hend] at hws
    have hnil : r = [] := (List.append_eq_nil_iff.1 hws.eq_append.symm).2
    exact hr.ne_nil hnil
  | error c e' hend hm =>
    obtain ⟨hfault, hposition⟩ := fault_of_bestMatch hm hend
    rw [tokens_of_error hm hend]
    constructor
    · intro h
      cases h
      exact ⟨[], c.ahead, rfl, hfault, hposition⟩
    · rintro ⟨ws, r, hws, hr, hplace⟩
      cases ws with
      | nil =>
        cases hws
        obtain ⟨hcause, hfound⟩ := hfault.unique hr
        have heq : e' = e := by
          cases e
          cases e'
          cases hcause
          cases hfound
          cases hposition
          cases hplace
          rfl
        rw [heq]
      | cons q ws => exact absurd hfault (hws.2.1.not_fault hws.1)
  | piece c m hm ih =>
    obtain ⟨hclosed, hmunch⟩ := munch_of_bestMatch hm
    rw [tokens_eq_error_of_bestMatch trivia hm, ih]
    have hlength : (c.ahead.take m.length).length = m.length := by
      rw [List.length_take, Nat.min_eq_left (length_le_of_bestMatch hm)]
    constructor
    · rintro ⟨ws, r, hws, hr, hplace⟩
      refine ⟨(m.kind, c.ahead.take m.length) :: ws, r, ⟨hclosed, hmunch, ?_⟩, hr, ?_⟩
      · rw [hlength]
        exact hws
      · rw [hplace, List.map_cons, List.flatten_cons, Position.afterText_append]
        rfl
    · rintro ⟨ws, r, hws, hr, hplace⟩
      cases ws with
      | nil =>
        cases hws
        exact absurd hr (hmunch.not_fault hclosed)
      | cons q ws =>
        obtain ⟨kind, w⟩ := q
        obtain ⟨-, hq, hrest⟩ := hws
        have hw : w = c.ahead.take m.length := hq.eq hmunch
        subst hw
        rw [hlength] at hrest
        refine ⟨ws, r, hrest, hr, ?_⟩
        rw [hplace, List.map_cons, List.flatten_cons, Position.afterText_append]
        rfl

/-- The next token that is kept is the longest where it stands, and what is dropped before it is
trivia, of which each piece is the longest, too. -/
theorem munched_of_token (h : c.token trivia = .ok (x, d)) :
    ∃ skipped rest, Munched c.ahead skipped rest ∧
      (∀ q ∈ skipped, q.1.isTrivia ∧ trivia = false) ∧
      (x.kind = .eof ∧ rest = [] ∧ d.ahead = [] ∨
        Munch rest x.kind x.lexeme ∧ ¬Unclosed rest ∧ rest = x.lexeme ++ d.ahead ∧
          (x.kind.isTrivia → trivia)) := by
  fun_induction token trivia c with
  | case1 c hc =>
    obtain ⟨rfl, rfl⟩ : _ = x ∧ c = d := Prod.mk.inj (Except.ok.inj h)
    have hend : c.ahead = [] := List.isEmpty_iff.1 hc
    exact ⟨[], c.ahead, rfl, List.forall_mem_nil _, .inl ⟨rfl, hend, hend⟩⟩
  | case2 => cases h
  | case3 c hc m hm hdropped ih =>
    obtain ⟨htrivia, hskip⟩ : m.kind.isTrivia = true ∧ trivia = false := by simpa using hdropped
    obtain ⟨hclosed, hmunch⟩ := munch_of_bestMatch hm
    obtain ⟨skipped, rest, hskipped, hall, hx⟩ := ih h
    refine ⟨(m.kind, c.ahead.take m.length) :: skipped, rest, ⟨hclosed, hmunch, ?_⟩,
      List.forall_mem_cons.2 ⟨⟨htrivia, hskip⟩, hall⟩, hx⟩
    rw [List.length_take, Nat.min_eq_left (length_le_of_bestMatch hm)]
    exact hskipped
  | case4 c hc m hm hkept =>
    cases h
    obtain ⟨hclosed, hmunch⟩ := munch_of_bestMatch hm
    refine ⟨[], c.ahead, rfl, List.forall_mem_nil _, .inr ?_⟩
    rw [lexeme_tokenTo]
    refine ⟨hmunch, hclosed, (List.take_append_drop m.length c.ahead).symm, fun htrivia => ?_⟩
    have htrivia : m.kind.isTrivia = true := htrivia
    simpa [htrivia] using hkept

end Descent.Caret

namespace Descent.Token

/-- A text is read token by token, each the longest lexeme that the rest of the text begins with,
and of the kinds that it belongs to the one declared first. So a word of the shape of a name is a
keyword exactly if it is spelled like one. Reading fails exactly if, behind some tokens, a comment
is opened that is nowhere closed or a character stands with which no lexeme begins, and the error
names that place, that character and that fault. An open comment is no place for a token, although
it begins with a slash. -/
theorem munch_ofText (settings : Settings) (text : List Char) :
    (∀ c d x, Caret.token settings.emitTrivia c = .ok (x, d) →
      ∃ skipped rest, Munched c.ahead skipped rest ∧
        (∀ q ∈ skipped, q.1.isTrivia ∧ settings.emitTrivia = false) ∧
        (x.kind = .eof ∧ rest = [] ∧ d.ahead = [] ∨
          Munch rest x.kind x.lexeme ∧ ¬Unclosed rest ∧ rest = x.lexeme ++ d.ahead ∧
            (x.kind.isTrivia → settings.emitTrivia) ∧
            ∀ q ∈ reserved, IsWord x.lexeme → (x.kind = q.1 ↔ x.lexeme = q.2))) ∧
    ∀ e, ofText settings text = .error e ↔ ∃ ws r, Munched text ws r ∧
      text = (ws.map Prod.snd).flatten ++ r ∧ Fault r e.cause e.found ∧
      e.position = .inText text (ws.map Prod.snd).flatten.length := by
  refine ⟨fun c d x h => ?_, fun e => ?_⟩
  · obtain ⟨skipped, rest, hskipped, hall, hx⟩ := Caret.munched_of_token h
    refine ⟨skipped, rest, hskipped, hall, hx.imp_right ?_⟩
    rintro ⟨hmunch, hclosed, hrest, htrivia⟩
    exact ⟨hmunch, hclosed, hrest, htrivia, fun q hq hw => hmunch.keyword_iff hw hq⟩
  · have hplace {ws : List (Kind × List Char)} {r : List Char}
        (h : text = (ws.map Prod.snd).flatten ++ r) :
        Position.inText text (ws.map Prod.snd).flatten.length =
          Position.start.afterText (ws.map Prod.snd).flatten := by
      rw [h, Position.inText_eq (by simp), List.take_left]
    rw [ofText, Caret.tokens_eq_error_iff]
    constructor
    · rintro ⟨ws, r, hws, hr, hposition⟩
      exact ⟨ws, r, hws, hws.eq_append, hr, hposition.trans (hplace hws.eq_append).symm⟩
    · rintro ⟨ws, r, hws, happend, hr, hposition⟩
      exact ⟨ws, r, hws, hr, hposition.trans (hplace happend)⟩

/-- Behind a sign of equality, a comment that is opened but not closed. -/
theorem munch_ofText_unclosed :
    ofText {} ['=', '=', '/', '*', '/'] = .error ⟨⟨2, 1, 3⟩, '/', .unclosedComment⟩ ∧
    ∃ ws r, Munched ['=', '=', '/', '*', '/'] ws r ∧
      ['=', '=', '/', '*', '/'] = (ws.map Prod.snd).flatten ++ r ∧ Fault r .unclosedComment '/' ∧
      (⟨2, 1, 3⟩ : Position) =
        .inText ['=', '=', '/', '*', '/'] (ws.map Prod.snd).flatten.length := by
  have herror : ofText {} ['=', '=', '/', '*', '/'] =
      .error ⟨⟨2, 1, 3⟩, '/', .unclosedComment⟩ := by
    rw [ofText, Caret.tokens_of_kept _ (m := ⟨.equal, 2, by decide⟩) rfl rfl,
      Caret.tokens_of_error (e := ⟨⟨2, 1, 3⟩, '/', .unclosedComment⟩) rfl (List.cons_ne_nil _ _)]
    rfl
  exact ⟨herror, ((munch_ofText {} _).2 _).1 herror⟩

end Descent.Token
