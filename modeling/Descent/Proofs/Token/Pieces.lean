import Descent.Proofs.Parser.Indifference
import Descent.Proofs.Token.Locality

/-!
# Words side by side

Words that are written one behind another are told apart again if each of them fits where it stands
(`Separate`). A text that is cut into tokens is a spelling of such words (`Token.exists_pieces`),
and the other way round, the spelling of such words is cut into just these (`Separate.ofText`). So
what becomes of a text that is put together from parts of other texts is a matter of which words
stay separate.
-/

namespace Descent

namespace Token

/-- Words without white space and comments. -/
def significant (ps : List (Kind × List Char)) : List (Kind × List Char) :=
  ps.filter (!·.1.isTrivia)

/-- The words, written one behind another. -/
def spelling (ps : List (Kind × List Char)) : List Char := (ps.map Prod.snd).flatten

/-- Written one behind another, the words are told apart: each is the best match where it stands. -/
inductive Separate : List (Kind × List Char) → Prop where
  | nil : Separate []
  | cons {kind : Kind} {w : List Char} {ps : List (Kind × List Char)}
      (h : Fits kind w (spelling ps)) (hs : Separate ps) : Separate ((kind, w) :: ps)

variable {ps qs : List (Kind × List Char)} {p : Kind × List Char}

@[simp] theorem spelling_nil : spelling [] = [] := rfl

@[simp] theorem spelling_cons : spelling (p :: ps) = p.2 ++ spelling ps := by
  simp [spelling]

@[simp] theorem spelling_append : spelling (ps ++ qs) = spelling ps ++ spelling qs := by
  simp [spelling]

@[simp] theorem significant_append : significant (ps ++ qs) = significant ps ++ significant qs :=
  List.filter_append ..

theorem significant_of_trivia (h : ∀ p ∈ ps, p.1.isTrivia) : significant ps = [] :=
  List.filter_eq_nil_iff.2 fun p hp => by simp [h p hp]

/-- The words of tokens without trivia are their words, without trivia. -/
theorem significant_map_word (ts : List Token) :
    significant (ts.map word) = (ts.filter (!·.kind.isTrivia)).map word := List.filter_map

namespace Separate

theorem right (h : Separate (ps ++ qs)) : Separate qs := by
  induction ps with
  | nil => exact h
  | cons p ps ih =>
    cases h with
    | cons _ hs => exact ih hs

/-- Words are told apart if they are so before others. -/
theorem left (h : Separate (ps ++ qs)) : Separate ps := by
  induction ps with
  | nil => exact .nil
  | cons p ps ih =>
    cases h with
    | @cons kind w _ hp hs =>
      have hp : Fits kind w (spelling (ps ++ qs)) := hp
      rw [spelling_append] at hp
      exact .cons (hp.truncate (List.prefix_append _ _)) (ih hs)

theorem fits (h : Separate ps) (hp : p ∈ ps) : ∃ t, Fits p.1 p.2 t := by
  obtain ⟨before, after, rfl⟩ := List.append_of_mem hp
  cases h.right with
  | cons hp _ => exact ⟨_, hp⟩

/-- Where a text begins with words that are told apart, it is cut into these. -/
theorem cuts {trivia : Bool} {c : Caret} (h : Separate ps) (hc : c.ahead = spelling ps) :
    c.Cuts trivia (significant ps) := by
  induction h generalizing c with
  | nil => exact .nil hc
  | @cons kind w ps h _ ih =>
    obtain ⟨m, hmatch, rfl, hlength⟩ := h
    rw [spelling_cons] at hc
    rw [← hc] at hmatch
    have hrest : (c.advance m.length).Cuts trivia (significant ps) := by
      apply ih
      show c.ahead.drop m.length = spelling ps
      rw [hc, hlength, List.drop_left]
    cases htrivia : m.kind.isTrivia with
    | true =>
      have hdropped : significant ((m.kind, w) :: ps) = significant ps :=
        List.filter_cons_of_neg (by simp [htrivia])
      rw [hdropped]
      exact .skip hmatch htrivia hrest
    | false =>
      have hkept : significant ((m.kind, w) :: ps) = (m.kind, w) :: significant ps :=
        List.filter_cons_of_pos (by simp [htrivia])
      have hword : w = c.ahead.take m.length := by rw [hc, hlength, List.take_left]
      rw [hkept, hword]
      exact .word hmatch htrivia hrest

/-- The spelling of words that are told apart is cut into these, without white space and
comments. -/
theorem ofText (h : Separate ps) (settings : Settings) : ∃ tokens,
    Token.ofText settings (spelling ps) = .ok tokens ∧
    (Tape.ofTokens tokens).tokens.toList.map word = significant ps :=
  (h.cuts rfl).ofText

end Separate

end Token

/-! ## The words of a text -/

namespace Caret

/-- Tokens that are kept with trivia are words that are told apart. -/
theorem separate_of_tokens {c : Caret} {ts : List Token} (h : c.tokens true = .ok ts) :
    ∃ us x, ts = us ++ [x] ∧ Token.Separate (us.map Token.word) ∧
      Token.spelling (us.map Token.word) = c.ahead := by
  induction c using induct generalizing ts with
  | atEnd c hend =>
    cases (tokens_of_atEnd hend).symm.trans h
    exact ⟨[], _, rfl, .nil, hend.symm⟩
  | error c e hend hm => cases (tokens_of_error hm hend).symm.trans h
  | piece c m hm ih =>
    obtain ⟨vs, hvs, rfl⟩ := tokens_eq_ok_of_kept hm (by simp) h
    obtain ⟨us, x, rfl, hseparate, hspelling⟩ := ih hvs
    have hword : (c.tokenTo (c.advance m.length) m.kind).word =
        (m.kind, c.ahead.take m.length) := congrArg (m.kind, ·) (lexeme_tokenTo c m.length m.kind)
    have hsplit : c.ahead.take m.length ++ (c.advance m.length).ahead = c.ahead :=
      List.take_append_drop m.length c.ahead
    refine ⟨_ :: us, x, rfl, ?_, ?_⟩
    · rw [List.map_cons, hword]
      refine .cons ⟨m, ?_, rfl, ?_⟩ hseparate
      · rw [hspelling, hsplit]
        exact bestMatch_of_caret hm
      · rw [List.length_take, Nat.min_eq_left (length_le_of_bestMatch hm)]
    · rw [List.map_cons, hword, Token.spelling_cons, hspelling, hsplit]

end Caret

namespace Token

/-- The tokens `us` are all of the text, trivia included, and rules see those of the tape. -/
structure Pieces (text : List Char) (us : List Token) (tape : Tape) : Prop where
  /-- They lie side by side. -/
  tiles : (Caret.ofText text).Tiles (us ++ [tape.eof])
  /-- They are told apart. -/
  separate : Separate (us.map word)
  /-- They spell the text. -/
  spells : spelling (us.map word) = text
  /-- Rules see those that are not trivia. -/
  tokens : tape.tokens.toList = us.filter (!·.kind.isTrivia)
  /-- The end is that of the text. -/
  eof : tape.eof = .eofAt (.inText text text.length)

variable {settings : Settings} {text : List Char} {tokens us : List Token} {tape : Tape}

theorem Pieces.words (h : Pieces text us tape) :
    tape.tokens.toList.map word = significant (us.map word) := by
  rw [h.tokens, significant_map_word]

/-- A text that is cut into tokens consists of words that are told apart. -/
theorem exists_pieces (h : ofText settings text = .ok tokens) :
    ∃ us, Pieces text us (.ofTokens tokens) := by
  rcases ofText_indifferent settings { emitTrivia := true } text with
    ⟨e, he, -⟩ | ⟨ts, all, hts, hall, htokens, heof⟩
  · cases he.symm.trans h
  · cases hts.symm.trans h
    have htiles := Caret.tiles_of_tokens hall
    obtain ⟨us, rfl, hus⟩ := htiles.last (Caret.in_ofText text)
    obtain ⟨us', x, hsplit, hseparate, hspelling⟩ := Caret.separate_of_tokens hall
    obtain rfl : us = us' := List.append_inj_left' hsplit rfl
    obtain ⟨hfilter, hend⟩ := Tape.ofTokens_concat (fun t ht => (hus t ht).1)
      (show (eofAt (.inText text text.length)).kind = .eof from rfl)
    refine ⟨us, ?_, hseparate, hspelling, ?_, ?_⟩
    · rw [← heof, hend]
      exact htiles
    · rw [← htokens, hfilter]
    · rw [← heof, hend]

end Token

end Descent
