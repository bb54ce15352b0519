import Descent.Proofs.Token.Pieces
import Descent.Proofs.Tree.Spans

/-!
# Parts of a text

The tokens of a text stand one behind another (`Pieces.ascending`), and the text that a span of
some consecutive tokens covers is cut into the words of just these (`Pieces.slice`): whatever lies
around a word, it fits where the text ends right behind the last of the tokens as it does in the
whole text.
-/

namespace Descent

/-- The part of the text between the ends of the span. -/
def Span.textIn (s : Span) (text : List Char) : List Char :=
  (text.take s.stop.offset).drop s.start.offset

namespace Caret

variable {c : Caret} {ts us : List Token} {x : Token}

/-- Tokens side by side stand one behind another. -/
theorem Tiles.ascending (h : c.Tiles ts) :
    Token.Ascending ts ∧ ∀ t ∈ ts, c.position ≤ t.span.start := by
  induction h with
  | @eof c _ =>
    have hle : c.position ≤ c.position := Position.le_refl _
    exact ⟨⟨List.forall_mem_singleton.2 hle, List.pairwise_singleton _ _⟩, List.forall_mem_singleton.2 hle⟩
  | @piece c n kind ts hn hle _ _ ih =>
    obtain ⟨⟨hlengths, hapart⟩, hbehind⟩ := ih
    have hmoved : c.position ≤ (c.advance n).position := by
      apply Position.le_of_offset_lt
      rw [offset_advance hle]
      omega
    refine ⟨⟨List.forall_mem_cons.2 ⟨hmoved, hlengths⟩, .cons hbehind hapart⟩, ?_⟩
    exact List.forall_mem_cons.2 ⟨Position.le_refl _,
      fun t ht => Position.le_trans hmoved (hbehind t ht)⟩

/-- A token starts behind as many characters as the tokens before it have. -/
theorem Tiles.offset (h : c.Tiles (ts ++ x :: us)) :
    x.span.start.offset = c.position.offset + (Token.spelling (ts.map Token.word)).length ∧
      x.span.stop.offset = x.span.start.offset + x.lexeme.length := by
  generalize hall : ts ++ x :: us = all at h
  induction h generalizing ts with
  | eof =>
    cases ts with
    | nil =>
      obtain ⟨rfl, -⟩ := List.cons.inj hall
      exact ⟨rfl, rfl⟩
    | cons t ts => simp at hall
  | @piece c n kind vs _ hle _ _ ih =>
    have hoffset := offset_advance hle
    have hlexeme := lexeme_tokenTo c n kind
    cases ts with
    | nil =>
      obtain ⟨rfl, -⟩ := List.cons.inj hall
      rw [hlexeme, List.length_take, Nat.min_eq_left hle]
      exact ⟨rfl, hoffset⟩
    | cons t ts =>
      obtain ⟨rfl, hrest⟩ := List.cons.inj hall
      obtain ⟨hstart, hstop⟩ := ih hrest
      refine ⟨?_, hstop⟩
      have hword : (c.tokenTo (c.advance n) kind).word.2 = c.ahead.take n := hlexeme
      rw [hstart, hoffset, List.map_cons, Token.spelling_cons, hword, List.length_append,
        List.length_take, Nat.min_eq_left hle, Nat.add_assoc]

end Caret

/-- Consecutive members that a test leaves of a list are those that it leaves of a part of the list
that begins with the first and ends with the last of them. -/
theorem exists_middle_of_filter {α : Type} {p : α → Bool} {l before ts after : List α} {x y : α}
    (h : l.filter p = before ++ ts ++ after) (hx : ts.head? = some x)
    (hy : ts.getLast? = some y) : ∃ first middle last, l = first ++ middle ++ last ∧
      middle.filter p = ts ∧ middle.head? = some x ∧ middle.getLast? = some y := by
  -- The part ends with `y`, and what the test leaves up to there are the members up to `y`.
  obtain ⟨upto, last, rfl, hupto, hend⟩ : ∃ upto last, l = upto ++ last ∧
      upto.filter p = before ++ ts ∧ upto.getLast? = some y := by
    obtain ⟨us, rfl⟩ := List.getLast?_eq_some_iff.1 hy
    have hsplit : l.filter p = (before ++ us) ++ y :: after := by simp [h]
    obtain ⟨l, rest, rfl, hl, hrest⟩ := List.filter_eq_append_iff.1 hsplit
    obtain ⟨dropped, last, rfl, hdropped, hy, -⟩ := List.filter_eq_cons_iff.1 hrest
    refine ⟨l ++ dropped ++ [y], last, by simp, ?_, by simp⟩
    simp [hl, hy, List.filter_eq_nil_iff.2 hdropped]
  -- It begins with `x`.
  obtain ⟨us, rfl⟩ := List.head?_eq_some_iff.1 hx
  obtain ⟨l, rest, rfl, -, hrest⟩ := List.filter_eq_append_iff.1 hupto
  obtain ⟨dropped, middle, rfl, -, hx, hmiddle⟩ := List.filter_eq_cons_iff.1 hrest
  refine ⟨l ++ dropped, x :: middle, last, by simp, by simp [hx, hmiddle], rfl, ?_⟩
  simpa using hend

namespace Token

variable {text : List Char} {us before ts after : List Token} {tape : Tape}
  {a : Span}

theorem Pieces.ascending (h : Pieces text us tape) : Ascending tape.toList := by
  obtain ⟨hascending, -⟩ := h.tiles.ascending
  rw [Tape.toList, h.tokens]
  exact hascending.sublist (List.Sublist.append_right List.filter_sublist _)

/-- The text from the first to the last of some tokens side by side is their spelling. -/
theorem Pieces.textIn {first middle last : List Token} {x y : Token}
    (h : Pieces text (first ++ middle ++ last) tape) (hx : middle.head? = some x)
    (hy : middle.getLast? = some y) :
    Span.textIn ⟨x.span.start, y.span.stop⟩ text = spelling (middle.map word) := by
  have htiles := h.tiles
  obtain ⟨us, hus⟩ := List.head?_eq_some_iff.1 hx
  obtain ⟨vs, hvs⟩ := List.getLast?_eq_some_iff.1 hy
  have hstart : x.span.start.offset = (spelling (first.map word)).length := by
    have hx : first ++ middle ++ last ++ [tape.eof] =
        first ++ x :: (us ++ last ++ [tape.eof]) := by simp [hus]
    rw [hx] at htiles
    simpa [Caret.ofText] using htiles.offset.1
  have hstop : y.span.stop.offset =
      (spelling (first.map word)).length + (spelling (middle.map word)).length := by
    have hy : first ++ middle ++ last ++ [tape.eof] =
        (first ++ vs) ++ y :: (last ++ [tape.eof]) := by simp [hvs]
    rw [hy] at htiles
    obtain ⟨hstart, hstop⟩ := htiles.offset
    rw [hstop, hstart, hvs]
    simp [Caret.ofText, word, Nat.add_assoc]
  rw [← h.spells]
  simp only [Span.textIn, hstart, hstop, List.map_append, spelling_append]
  rw [List.take_left' (by simp), List.drop_left]

/-- The text that a span of consecutive tokens covers is cut into their words. -/
theorem Pieces.slice (h : Pieces text us tape) (hsplit : tape.tokens.toList = before ++ ts ++ after)
    (ha : Covers ts a) (settings : Settings) : ∃ tokens,
      ofText settings (a.textIn text) = .ok tokens ∧
      (Tape.ofTokens tokens).tokens.toList.map word = ts.map word := by
  obtain ⟨x, y, hx, hy, rfl⟩ := ha
  rw [h.tokens] at hsplit
  obtain ⟨first, middle, last, rfl, hmiddle, hfirst, hlast⟩ := exists_middle_of_filter hsplit hx hy
  have hseparate : Separate (middle.map word) := by
    have hall := h.separate
    rw [List.map_append, List.map_append] at hall
    exact hall.left.right
  rw [h.textIn hfirst hlast]
  obtain ⟨tokens, htokens, hwords⟩ := hseparate.ofText settings
  refine ⟨tokens, htokens, ?_⟩
  rw [hwords, significant_map_word, hmiddle]

end Token

end Descent
