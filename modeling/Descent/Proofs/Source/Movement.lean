import Descent.Proofs.Token.Partition

/-!
# Carets that move through a text

A caret is moved by characters, by bytes or by tokens, and by all of these it keeps its place: what
lies behind it and what lies ahead make up the text, and bytes, characters, lines and columns count
what lies behind (`Caret.In.stands`). Main statement: this, how far each move goes, and that
the texts between carets fit together (`Caret.reached_moves`).
-/

namespace Descent.Caret

variable {text t : List Char} {c d e : Caret} {m n : Nat}

/-! ## Bytes -/

/-- The bytes of a text are those of the string with the same characters. -/
theorem byteLength_eq_utf8ByteSize (t : List Char) :
    byteLength t = (String.ofList t).utf8ByteSize := by
  induction t with
  | nil => rfl
  | cons x t ih =>
    rw [byteLength_cons, ih, ← List.singleton_append, String.ofList_append,
      String.utf8ByteSize_append]
    simp

theorem charsOfBytes_le (n : Nat) (t : List Char) : charsOfBytes n t ≤ t.length := by
  induction t generalizing n with
  | nil => exact Nat.le_refl _
  | cons x t ih =>
    unfold charsOfBytes
    split
    · exact Nat.zero_le _
    · exact Nat.succ_le_succ (ih _)

/-- Fewer characters take too few bytes. -/
theorem byteLength_take_lt_of_lt (h : m < charsOfBytes n t) : byteLength (t.take m) < n := by
  induction t generalizing m n with
  | nil => cases h
  | cons x t ih =>
    unfold charsOfBytes at h
    split at h
    · cases h
    · cases m with
      | zero =>
        show 0 < n
        omega
      | succ m =>
        have := ih (Nat.lt_of_succ_lt_succ h)
        rw [List.take_succ_cons, byteLength_cons]
        omega

/-- As many characters take enough bytes, if all of them do. -/
theorem le_byteLength_take (h : charsOfBytes n t < t.length) :
    n ≤ byteLength (t.take (charsOfBytes n t)) := by
  induction t generalizing n with
  | nil => cases h
  | cons x t ih =>
    unfold charsOfBytes at h ⊢
    split
    · omega
    · next hn =>
      rw [if_neg hn] at h
      have := ih (Nat.lt_of_succ_lt_succ h)
      rw [List.take_succ_cons, byteLength_cons]
      omega

/-! ## Moves -/

/-- No move leads beyond the last character. -/
theorem advance_min (c : Caret) (n : Nat) : c.advance (min n c.ahead.length) = c.advance n := by
  rcases Nat.le_total n c.ahead.length with h | h
  · rw [Nat.min_eq_left h]
  · rw [Nat.min_eq_right h]
    unfold advance
    rw [List.drop_length, List.take_length, List.drop_of_length_le h, List.take_of_length_le h]

theorem offset_advance_min (c : Caret) (n : Nat) :
    (c.advance n).position.offset = c.position.offset + min n c.ahead.length := by
  rw [← advance_min, offset_advance (Nat.min_le_right _ _)]

/-- The text that a move passes is the lexeme of a token that ends there. -/
theorem textTo_advance (c : Caret) (n : Nat) : c.textTo (c.advance n) = c.ahead.take n :=
  lexeme_tokenTo c n .eof

/-- To move by characters is to move by their bytes. -/
theorem advance_eq_advanceBytes (c : Caret) (n : Nat) :
    c.advance n = c.advanceBytes (byteLength (c.ahead.take n)) := by
  have htake : c.ahead.take n = c.ahead.take (min n c.ahead.length) := by
    rw [List.take_eq_take_min]
  rw [htake, advanceBytes_byteLength (Nat.min_le_right _ _), advance_min]

/-- The caret has been moved there from the beginning of the text, by characters, by bytes and by
tokens, with trivia or without. -/
inductive Reached (text : List Char) : Caret → Prop where
  | ofText : Reached text (ofText text)
  | advance {c : Caret} (h : Reached text c) (n : Nat) : Reached text (c.advance n)
  | advanceBytes {c : Caret} (h : Reached text c) (n : Nat) : Reached text (c.advanceBytes n)
  | token {c d : Caret} {trivia : Bool} {x : Token} (h : Reached text c)
      (hx : c.token trivia = .ok (x, d)) : Reached text d

theorem In.advance_any (h : c.In text) (n : Nat) : (c.advance n).In text := by
  rw [← advance_min]
  exact h.advance (Nat.min_le_right _ _)

/-- Behind a token, and behind the trivia before it, is a place in the text. -/
theorem In.token {trivia : Bool} {x : Token} (h : c.In text)
    (hx : c.token trivia = .ok (x, d)) : d.In text := by
  fun_induction Caret.token trivia c with
  | case1 =>
    cases hx
    exact h
  | case2 => cases hx
  | case3 c hc m hm htrivia ih => exact ih (h.advance_any m.length) hx
  | case4 c hc m hm htrivia =>
    cases hx
    exact h.advance_any m.length

theorem Reached.isIn (h : Reached text c) : c.In text := by
  induction h with
  | ofText => exact in_ofText text
  | advance _ n ih => exact ih.advance_any n
  | advanceBytes _ n ih => exact ih.advance_any _
  | token _ hx ih => exact ih.token hx

/-! ## Places and the texts between them -/

/-- What lies behind a caret and what lies ahead make up the text, and all its numbers count what
lies behind. -/
theorem In.stands (h : c.In text) : ∃ behind, behind ++ c.ahead = text ∧
    c.byte = byteLength behind ∧ c.position = ⟨behind.length, 1 + behind.count '\n',
      1 + (behind.reverse.takeWhile (· ≠ '\n')).length⟩ := by
  refine ⟨text.take c.position.offset, ?_, h.byte, ?_⟩
  · rw [h.ahead, List.take_append_drop]
  · rw [List.length_take, Nat.min_eq_left h.offset_le]
    exact h.position

/-- The bytes behind a caret end where a character ends. -/
theorem In.isValid (h : c.In text) : (⟨c.byte⟩ : String.Pos.Raw).IsValid (String.ofList text) := by
  obtain ⟨behind, rfl, hbyte, -⟩ := h.stands
  rw [String.Pos.Raw.isValid_iff_exists_append]
  refine ⟨String.ofList behind, String.ofList c.ahead, String.ofList_append, ?_⟩
  rw [hbyte, byteLength_eq_utf8ByteSize]
  rfl

theorem In.ahead_eq (hc : c.In text) (hd : d.In text)
    (h : c.position.offset ≤ d.position.offset) :
    d.ahead = c.ahead.drop (d.position.offset - c.position.offset) := by
  rw [hc.ahead, hd.ahead, List.drop_drop, Nat.add_sub_cancel' h]

theorem In.length_textTo (hc : c.In text) (hd : d.In text) :
    (c.textTo d).length = (c.spanTo d).length := by
  have hlength : c.ahead.length = text.length - c.position.offset := by
    rw [hc.ahead, List.length_drop]
  have hle := hd.offset_le
  show (c.ahead.take (d.position.offset - c.position.offset)).length =
    d.position.offset - c.position.offset
  rw [List.length_take]
  omega

/-- From one caret to a later one lie as many bytes as the text between them takes. -/
theorem In.byte_add_textTo (hc : c.In text) (hd : d.In text)
    (h : c.position.offset ≤ d.position.offset) :
    c.byte + byteLength (c.textTo d) = d.byte := by
  rw [hc.byte, hd.byte, textTo, hc.ahead, ← byteLength_append, ← List.take_add,
    Nat.add_sub_cancel' h]

/-- The texts from one caret to the next and from there to a third make up the text from the first
to the third. -/
theorem In.textTo_append (hc : c.In text) (hd : d.In text)
    (hcd : c.position.offset ≤ d.position.offset) (hde : d.position.offset ≤ e.position.offset) :
    c.textTo d ++ d.textTo e = c.textTo e := by
  have hsum : e.position.offset - c.position.offset =
      (d.position.offset - c.position.offset) + (e.position.offset - d.position.offset) := by omega
  unfold textTo
  rw [hsum, List.take_add, ← hc.ahead_eq hd hcd]

/-- Wherever a caret has been moved in a text, it stands between two characters; what lies ahead of
it is the rest of the text, and its numbers count the bytes, characters, lines and columns of what
lies behind. A move by characters passes as many as are meant, or all that are left, and so two such
moves are one; it is a move by the bytes of these characters, and a move by bytes passes the fewest
characters that take so many, or all. From one caret to a second and a third one further on in the
same text, the texts between them fit together, and their lengths in characters and in bytes are
those between the carets. -/
theorem reached_moves (text : List Char) :
    (∀ c, Reached text c →
      (∃ behind, behind ++ c.ahead = text ∧ c.byte = byteLength behind ∧
        c.position = ⟨behind.length, 1 + behind.count '\n',
          1 + (behind.reverse.takeWhile (· ≠ '\n')).length⟩) ∧
      (⟨c.byte⟩ : String.Pos.Raw).IsValid (String.ofList text) ∧
      (∀ n, c.textTo (c.advance n) = c.ahead.take n ∧
        (c.advance n).position.offset = c.position.offset + min n c.ahead.length ∧
        c.advance n = c.advanceBytes (byteLength (c.ahead.take n))) ∧
      (∀ m n, (c.advance m).advance n = c.advance (m + n)) ∧
      ∀ n, ∃ m ≤ c.ahead.length, c.advanceBytes n = c.advance m ∧
        (∀ k < m, byteLength (c.ahead.take k) < n) ∧
        (n ≤ byteLength (c.ahead.take m) ∨ m = c.ahead.length)) ∧
    ∀ c d e, Reached text c → Reached text d → Reached text e →
      c.position.offset ≤ d.position.offset → d.position.offset ≤ e.position.offset →
      c.textTo d ++ d.textTo e = c.textTo e ∧ (c.textTo d).length = (c.spanTo d).length ∧
        c.byte + byteLength (c.textTo d) = d.byte := by
  refine ⟨fun c h => ⟨h.isIn.stands, h.isIn.isValid,
    fun n => ⟨textTo_advance c n, offset_advance_min c n, advance_eq_advanceBytes c n⟩,
    advance_advance c, fun n => ?_⟩, fun c d e hc hd he hcd hde => ?_⟩
  · refine ⟨charsOfBytes n c.ahead, charsOfBytes_le n c.ahead, rfl,
      fun k hk => byteLength_take_lt_of_lt hk, ?_⟩
    rcases Nat.eq_or_lt_of_le (charsOfBytes_le n c.ahead) with heq | hlt
    · exact .inr heq
    · exact .inl (le_byteLength_take hlt)
  · exact ⟨hc.isIn.textTo_append hd.isIn hcd hde, hc.isIn.length_textTo hd.isIn,
      hc.isIn.byte_add_textTo hd.isIn hcd⟩

/-- One byte of `ü` is meant, and both are passed; from there, two characters are left. -/
theorem reached_moves_umlaut :
    let c := ofText ['ü', '\n', 'x']
    let d := c.advanceBytes 1
    let e := d.advance 7
    Reached ['ü', '\n', 'x'] e ∧ d.byte = 2 ∧ e.byte = 4 ∧ e.position = ⟨3, 2, 2⟩ ∧
      c.textTo d ++ d.textTo e = ['ü', '\n', 'x'] ∧ c.byte + byteLength (c.textTo d) = d.byte := by
  intro c d e
  have hc : Reached ['ü', '\n', 'x'] c := .ofText
  have hd : Reached ['ü', '\n', 'x'] d := hc.advanceBytes 1
  have he : Reached ['ü', '\n', 'x'] e := hd.advance 7
  obtain ⟨happend, -, hbyte⟩ := (reached_moves _).2 c d e hc hd he (by decide) (by decide)
  exact ⟨he, rfl, rfl, rfl, happend, hbyte⟩

end Descent.Caret
