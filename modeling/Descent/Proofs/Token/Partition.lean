import Mathlib.Data.List.Chain
import Mathlib.Data.List.Induction
import Descent.Proofs.Token.Cutting

/-!
# Tokens partition a text

Main statement: the tokens of a text that is cut with all its trivia lie side by side and leave
nothing out, and each knows exactly where it stands; cut without trivia, the text has the same
tokens less the trivia (`Token.partition_ofText`).

A caret in a text stands at the position that counting lines and columns from the beginning gives
(`Caret.In`), and moving it keeps that, whether by characters or by bytes (`Caret.bestMatch_bytes`).
`Caret.Tiles` says that tokens cover all that lies ahead of a caret, one piece after another.
-/

namespace Descent

/-! ## Positions in a text -/

namespace Position

/-- The place before which `n` characters of the text lie. Its line is counted by the line breaks
among them, its column from the last one. -/
def inText (text : List Char) (n : Nat) : Position where
  offset := n
  line := 1 + (text.take n).count '\n'
  column := 1 + ((text.take n).reverse.takeWhile (· ≠ '\n')).length

theorem afterText_append (p : Position) (t u : List Char) :
    p.afterText (t ++ u) = (p.afterText t).afterText u := List.foldl_append

/-- Passing a text from its beginning counts its characters, its lines and its last column. -/
theorem start_afterText (t : List Char) : start.afterText t =
    ⟨t.length, 1 + t.count '\n', 1 + (t.reverse.takeWhile (· ≠ '\n')).length⟩ := by
  induction t using List.reverseRecOn with
  | nil => rfl
  | append_singleton t c ih =>
    have hlast : start.afterText (t ++ [c]) = (start.afterText t).after c := afterText_append ..
    rw [hlast, ih, after]
    by_cases hc : c = '\n'
    · rw [if_pos hc]
      simp [hc, Nat.add_assoc]
    · rw [if_neg hc]
      simp [hc, Nat.add_comm]

theorem inText_eq {text : List Char} {n : Nat} (hn : n ≤ text.length) :
    inText text n = start.afterText (text.take n) := by
  rw [start_afterText, List.length_take, Nat.min_eq_left hn]
  rfl

/-- From a place in a text, passing what follows there leads to a place in the text. -/
theorem inText_afterText {text : List Char} {n m : Nat} (h : n + m ≤ text.length) :
    (inText text n).afterText ((text.drop n).take m) = inText text (n + m) := by
  rw [inText_eq (Nat.le_of_add_right_le h), inText_eq h, ← afterText_append, List.take_add]

end Position

namespace Caret

variable {text t : List Char} {c : Caret} {m n : Nat}

/-! ## Bytes and characters -/

theorem byteLength_append (t u : List Char) :
    byteLength (t ++ u) = byteLength t + byteLength u := by
  have hstart (n : Nat) : u.foldl (fun n c => n + c.utf8Size) n = n + byteLength u := by
    unfold byteLength
    induction u generalizing n with
    | nil => rfl
    | cons c u ih =>
      rw [List.foldl_cons, List.foldl_cons, ih, ih (0 + c.utf8Size)]
      omega
  rw [byteLength, List.foldl_append, hstart]
  rfl

theorem byteLength_cons (x : Char) (t : List Char) :
    byteLength (x :: t) = x.utf8Size + byteLength t := by
  have hsingle : byteLength [x] = x.utf8Size := Nat.zero_add _
  rw [← hsingle]
  exact byteLength_append [x] t

/-- Of two beginnings of a text, the longer one in characters is the longer one in bytes. -/
theorem byteLength_take_lt (h : m < n) (hn : n ≤ t.length) :
    byteLength (t.take m) < byteLength (t.take n) := by
  obtain ⟨k, rfl⟩ := Nat.exists_eq_add_of_lt h
  have hmore : byteLength ((t.drop m).take (k + 1)) ≠ 0 := by
    cases hdrop : t.drop m with
    | nil =>
      have := List.drop_eq_nil_iff.1 hdrop
      omega
    | cons x u =>
      have := x.utf8Size_pos
      rw [List.take_succ_cons, byteLength_cons]
      omega
  rw [Nat.add_assoc, List.take_add, byteLength_append]
  omega

/-- The bytes of a beginning of a text are those of as many characters. -/
theorem charsOfBytes_byteLength (hn : n ≤ t.length) :
    charsOfBytes (byteLength (t.take n)) t = n := by
  induction t generalizing n with
  | nil =>
    rw [Nat.le_zero.1 hn]
    rfl
  | cons x t ih =>
    cases n with
    | zero => rfl
    | succ n =>
      have hpos := x.utf8Size_pos
      rw [List.take_succ_cons, byteLength_cons, charsOfBytes, if_neg (by omega),
        Nat.add_sub_cancel_left, ih (Nat.le_of_succ_le_succ hn)]

/-- A length in bytes leads to the same place as the length in characters. -/
theorem advanceBytes_byteLength (hn : n ≤ c.ahead.length) :
    c.advanceBytes (byteLength (c.ahead.take n)) = c.advance n := by
  rw [advanceBytes, charsOfBytes_byteLength hn]

theorem advance_advance (c : Caret) (m n : Nat) :
    (c.advance m).advance n = c.advance (m + n) := by
  unfold advance
  rw [List.drop_drop, List.take_add, byteLength_append, Position.afterText_append, Nat.add_assoc]

/-! ## Carets in a text -/

/-- The caret stands in the text, at the position and behind as many bytes as are counted from the
beginning. -/
structure In (text : List Char) (c : Caret) : Prop where
  offset_le : c.position.offset ≤ text.length
  ahead : c.ahead = text.drop c.position.offset
  byte : c.byte = byteLength (text.take c.position.offset)
  position : c.position = .inText text c.position.offset

theorem in_ofText (text : List Char) : (ofText text).In text := ⟨Nat.zero_le _, rfl, rfl, rfl⟩

theorem offset_advance (hn : n ≤ c.ahead.length) :
    (c.advance n).position.offset = c.position.offset + n := by
  rw [advance, offset_afterText, List.length_take, Nat.min_eq_left hn]

/-- Moving on within the text keeps a caret in it. -/
theorem In.advance (h : c.In text) (hn : n ≤ c.ahead.length) : (c.advance n).In text := by
  have hlength : c.ahead.length = text.length - c.position.offset := by
    rw [h.ahead, List.length_drop]
  have hoffset := offset_advance hn
  have hle := h.offset_le
  constructor
  · omega
  · rw [hoffset, ← List.drop_drop, ← h.ahead]
    rfl
  · rw [hoffset, List.take_add, byteLength_append, ← h.byte, ← h.ahead]
    rfl
  · calc (c.advance n).position
      _ = c.position.afterText (c.ahead.take n) := rfl
      _ = (Position.inText text c.position.offset).afterText
            ((text.drop c.position.offset).take n) := by rw [← h.position, ← h.ahead]
      _ = .inText text (c.position.offset + n) := Position.inText_afterText (by omega)
      _ = .inText text (c.advance n).position.offset := by rw [hoffset]

end Caret

/-! ## Tokens side by side -/

namespace Caret

/-- The tokens are the pieces of all that lies ahead of the caret, in order, and the end. -/
inductive Tiles : Caret → List Token → Prop where
  | eof {c : Caret} (h : c.ahead = []) : Tiles c [.eofAt c.position]
  | piece {c : Caret} {n : Nat} {kind : Token.Kind} {ts : List Token} (hn : 0 < n)
      (hle : n ≤ c.ahead.length) (hkind : kind ≠ .eof) (h : Tiles (c.advance n) ts) :
      Tiles c (c.tokenTo (c.advance n) kind :: ts)

variable {text : List Char} {c : Caret} {m : Token.Match} {e : LexError} {ts : List Token}
  {trivia : Bool}

theorem length_le_of_bestMatch (h : c.bestMatch = .ok m) : m.length ≤ c.ahead.length := by
  rcases Token.of_bestMatch (bestMatch_of_caret h) with hnone | ⟨pattern, -, hlength⟩
  · cases hnone
  · exact Token.Pattern.length?_le hlength

/-- The best match is the longest in bytes, too, and as many bytes lead behind it: matches may be
measured in either. -/
theorem bestMatch_bytes (h : c.bestMatch = .ok m) :
    c.advanceBytes (byteLength (c.ahead.take m.length)) = c.advance m.length ∧
      ∀ q ∈ Token.lexicon, ∀ n, q.2.length? c.ahead = .ok (some n) →
        byteLength (c.ahead.take n) ≤ byteLength (c.ahead.take m.length) := by
  have hle := length_le_of_bestMatch h
  refine ⟨advanceBytes_byteLength hle, fun q hq n hn => ?_⟩
  rcases Nat.eq_or_lt_of_le ((Token.length_le_of_bestMatch (bestMatch_of_caret h)).2 q hq n hn) with
    rfl | hlt
  · exact Nat.le_refl _
  · exact Nat.le_of_lt (byteLength_take_lt hlt hle)

/-! ### One step of cutting a text -/

theorem tokens_of_atEnd (h : c.ahead = []) : c.tokens trivia = .ok [.eofAt c.position] := by
  rw [tokens_eq, token, if_pos (show c.atEnd from List.isEmpty_iff.2 h)]
  rfl

theorem tokens_of_error (h : c.bestMatch = .error e) (hend : c.ahead ≠ []) :
    c.tokens trivia = .error e := by
  have hnot : ¬c.atEnd := fun hc => hend (List.isEmpty_iff.1 hc)
  rw [tokens_eq, token, if_neg hnot, h]

/-- A piece that is kept is the first token. -/
theorem tokens_of_kept (trivia : Bool) (h : c.bestMatch = .ok m)
    (hm : (m.kind.isTrivia && !trivia) = false) : c.tokens trivia =
      ((c.advance m.length).tokens trivia).map (c.tokenTo (c.advance m.length) m.kind :: ·) := by
  have hmatch := bestMatch_of_caret h
  have hkind : (c.tokenTo (c.advance m.length) m.kind).kind ≠ .eof :=
    Token.ne_eof_of_bestMatch hmatch
  rw [tokens_eq, token_of_bestMatch hmatch hm]
  simp only [if_neg hkind]
  cases (c.advance m.length).tokens trivia <;> rfl

/-- A piece that is dropped leaves the tokens behind it. -/
theorem tokens_of_dropped (h : c.bestMatch = .ok m) (hm : m.kind.isTrivia) :
    c.tokens false = (c.advance m.length).tokens false := by
  rw [tokens_eq, token_of_trivia (bestMatch_of_caret h) hm, ← tokens_eq]

/-- What holds where nothing is ahead, where no token begins and before a piece if it holds behind
it, holds everywhere: carets run out of text. -/
theorem induct {P : Caret → Prop} (atEnd : ∀ c : Caret, c.ahead = [] → P c)
    (error : ∀ (c : Caret) (e : LexError), c.ahead ≠ [] → c.bestMatch = .error e → P c)
    (piece : ∀ (c : Caret) (m : Token.Match), c.bestMatch = .ok m → P (c.advance m.length) → P c)
    (c : Caret) : P c := by
  by_cases hend : c.ahead = []
  · exact atEnd c hend
  · cases hm : c.bestMatch with
    | error e => exact error c e hend hm
    | ok m =>
      have : (c.advance m.length).ahead.length < c.ahead.length :=
        length_ahead_advance_lt m.length_pos fun hc => hend (List.isEmpty_iff.1 hc)
      exact piece c m hm (induct atEnd error piece (c.advance m.length))
termination_by c.ahead.length

/-- If the first piece is kept, it is the first token, and the others are those behind it. -/
theorem tokens_eq_ok_of_kept (h : c.bestMatch = .ok m) (hm : (m.kind.isTrivia && !trivia) = false)
    (hts : c.tokens trivia = .ok ts) : ∃ us, (c.advance m.length).tokens trivia = .ok us ∧
      ts = c.tokenTo (c.advance m.length) m.kind :: us := by
  rw [tokens_of_kept trivia h hm] at hts
  cases hrest : (c.advance m.length).tokens trivia with
  | error e =>
    rw [hrest] at hts
    cases hts
  | ok us =>
    rw [hrest] at hts
    exact ⟨us, rfl, (Except.ok.inj hts).symm⟩

/-- The last token is the end, and there is no other. -/
theorem tokens_eq_concat {trivia : Bool} (h : c.tokens trivia = .ok ts) :
    ∃ us p, ts = us ++ [.eofAt p] ∧ ∀ t ∈ us, t.kind ≠ .eof := by
  induction c using induct generalizing ts with
  | atEnd c hend =>
    cases (tokens_of_atEnd hend).symm.trans h
    exact ⟨[], c.position, rfl, nofun⟩
  | error c e hend hm => cases (tokens_of_error hm hend).symm.trans h
  | piece c m hm ih =>
    cases hdropped : m.kind.isTrivia && !trivia with
    | true =>
      obtain ⟨htrivia, rfl⟩ : m.kind.isTrivia = true ∧ trivia = false := by simpa using hdropped
      exact ih ((tokens_of_dropped hm htrivia).symm.trans h)
    | false =>
      obtain ⟨us, hus, rfl⟩ := tokens_eq_ok_of_kept hm hdropped h
      obtain ⟨vs, p, rfl, hvs⟩ := ih hus
      exact ⟨_ :: vs, p, rfl, List.forall_mem_cons.2
        ⟨Token.ne_eof_of_bestMatch (bestMatch_of_caret hm), hvs⟩⟩

/-- With trivia, the tokens of a text are all its pieces. -/
theorem tiles_of_tokens (h : c.tokens true = .ok ts) : c.Tiles ts := by
  induction c using induct generalizing ts with
  | atEnd c hend =>
    cases (tokens_of_atEnd hend).symm.trans h
    exact .eof hend
  | error c e hend hm => cases (tokens_of_error hm hend).symm.trans h
  | piece c m hm ih =>
    obtain ⟨us, hus, rfl⟩ := tokens_eq_ok_of_kept hm (by simp) h
    exact .piece m.length_pos (length_le_of_bestMatch hm)
      (Token.ne_eof_of_bestMatch (bestMatch_of_caret hm)) (ih hus)

/-- Without trivia, the tokens of a text are those that it has with trivia, less the trivia. -/
theorem tokens_false (c : Caret) :
    c.tokens false = (c.tokens true).map (List.filter (!·.kind.isTrivia)) := by
  induction c using induct with
  | atEnd c hend =>
    rw [tokens_of_atEnd hend, tokens_of_atEnd hend]
    rfl
  | error c e hend hm =>
    rw [tokens_of_error hm hend, tokens_of_error hm hend]
    rfl
  | piece c m hm ih =>
    rw [tokens_of_kept true hm (by simp)]
    cases htrivia : m.kind.isTrivia with
    | true =>
      have hdropped : (c.tokenTo (c.advance m.length) m.kind).kind.isTrivia = true := htrivia
      rw [tokens_of_dropped hm htrivia, ih]
      cases (c.advance m.length).tokens true with
      | error e => rfl
      | ok us => exact congrArg Except.ok (by simp [hdropped])
    | false =>
      have hkept : (c.tokenTo (c.advance m.length) m.kind).kind.isTrivia = false := htrivia
      rw [tokens_of_kept false hm (by simp [htrivia]), ih]
      cases (c.advance m.length).tokens true with
      | error e => rfl
      | ok us => exact congrArg Except.ok (by simp [hkept])

end Caret

namespace Token

/-- The token stands where its span says: the span lies in the text, both its ends are counted from
the beginning, and the lexeme is the text between them. -/
structure StandsIn (text : List Char) (t : Token) : Prop where
  start_le_stop : t.span.start.offset ≤ t.span.stop.offset
  stop_le : t.span.stop.offset ≤ text.length
  start : t.span.start = .inText text t.span.start.offset
  stop : t.span.stop = .inText text t.span.stop.offset
  lexeme : t.lexeme = (text.take t.span.stop.offset).drop t.span.start.offset

/-- The tokens are the whole text, cut into pieces. -/
structure Partition (text : List Char) (tokens : List Token) : Prop where
  /-- Their lexemes make up the text. -/
  lexemes : (tokens.map lexeme).flatten = text
  /-- The first begins at the beginning. -/
  first : tokens.head?.map (·.span.start) = some .start
  /-- Each begins where the one before it ends. -/
  adjacent : tokens.IsChain fun t u => t.span.stop = u.span.start
  /-- Each stands where its span says. -/
  stands : ∀ t ∈ tokens, t.StandsIn text
  /-- The last is the end, which has no characters, at the end of the text; there is no other end,
  and all others have characters. -/
  last : ∃ ts, tokens = ts ++ [.eofAt (.inText text text.length)] ∧
    ∀ t ∈ ts, t.kind ≠ .eof ∧ t.lexeme ≠ []

end Token

namespace Caret

variable {text : List Char} {c : Caret} {ts : List Token} {n : Nat}

theorem Tiles.lexemes (h : c.Tiles ts) : (ts.map Token.lexeme).flatten = c.ahead := by
  induction h with
  | eof h => rw [h]; rfl
  | @piece c n kind ts _ _ _ _ ih =>
    rw [List.map_cons, List.flatten_cons, ih, lexeme_tokenTo]
    exact List.take_append_drop n c.ahead

theorem Tiles.first (h : c.Tiles ts) : ts.head?.map (·.span.start) = some c.position := by
  cases h <;> rfl

theorem Tiles.adjacent (h : c.Tiles ts) : ts.IsChain fun t u => t.span.stop = u.span.start := by
  induction h with
  | eof => exact .singleton _
  | @piece c n kind ts _ _ _ h ih =>
    have hfirst := h.first
    cases ts with
    | nil => exact .singleton _
    | cons u us =>
      refine .cons_cons ?_ ih
      exact (Option.some.inj hfirst).symm

/-- A piece of what lies ahead of a caret in a text stands in the text. -/
theorem In.standsIn_tokenTo (h : c.In text) (hn : n ≤ c.ahead.length) (kind : Token.Kind) :
    (c.tokenTo (c.advance n) kind).StandsIn text := by
  have hoffset := offset_advance hn
  have hadvance := h.advance hn
  refine ⟨?_, hadvance.offset_le, h.position, hadvance.position, ?_⟩
  · show c.position.offset ≤ (c.advance n).position.offset
    omega
  · show _ = (text.take (c.advance n).position.offset).drop c.position.offset
    rw [lexeme_tokenTo, hoffset, h.ahead, List.drop_take, Nat.add_sub_cancel_left]

theorem In.standsIn_eofAt (h : c.In text) : (Token.eofAt c.position).StandsIn text := by
  refine ⟨Nat.le_refl _, h.offset_le, h.position, h.position, ?_⟩
  show [] = (text.take c.position.offset).drop c.position.offset
  simp

theorem Tiles.stands (h : c.Tiles ts) (hc : c.In text) : ∀ t ∈ ts, t.StandsIn text := by
  induction h with
  | eof => exact List.forall_mem_singleton.2 hc.standsIn_eofAt
  | @piece c n kind ts _ hle _ _ ih =>
    exact List.forall_mem_cons.2 ⟨hc.standsIn_tokenTo hle kind, ih (hc.advance hle)⟩

theorem Tiles.last (h : c.Tiles ts) (hc : c.In text) :
    ∃ us, ts = us ++ [.eofAt (.inText text text.length)] ∧
      ∀ t ∈ us, t.kind ≠ .eof ∧ t.lexeme ≠ [] := by
  induction h with
  | @eof c h =>
    have hle : text.length ≤ c.position.offset := List.drop_eq_nil_iff.1 (hc.ahead.symm.trans h)
    have hend : c.position.offset = text.length := Nat.le_antisymm hc.offset_le hle
    exact ⟨[], by rw [← hend, ← hc.position]; rfl, nofun⟩
  | @piece c n kind ts hn hle hkind _ ih =>
    obtain ⟨us, rfl, hus⟩ := ih (hc.advance hle)
    refine ⟨_ :: us, rfl, List.forall_mem_cons.2 ⟨⟨hkind, ?_⟩, hus⟩⟩
    rw [lexeme_tokenTo]
    intro hnil
    have := congrArg List.length hnil
    rw [List.length_take, List.length_nil] at this
    omega

end Caret

/-- Cut with trivia, a text has tokens that partition it. Cut without, it has the same tokens in the
same places, less the trivia, and if it cannot be cut, the error is the same. -/
theorem Token.partition_ofText (settings : Settings) (text : List Char) :
    (∀ tokens, ofText { settings with emitTrivia := true } text = .ok tokens →
      Partition text tokens) ∧
    ofText { settings with emitTrivia := false } text =
      (ofText { settings with emitTrivia := true } text).map (List.filter (!·.kind.isTrivia)) := by
  refine ⟨fun tokens h => ?_, Caret.tokens_false _⟩
  have htiles := Caret.tiles_of_tokens h
  have hin := Caret.in_ofText text
  exact ⟨htiles.lexemes, htiles.first, htiles.adjacent, htiles.stands hin, htiles.last hin⟩

/-- A comment on the second line begins in its first column. -/
theorem Token.partition_ofText_comment : ∃ tokens,
    ofText { emitTrivia := true } ['a', '\n', '/', '/', 'é'] = .ok tokens ∧
      Partition ['a', '\n', '/', '/', 'é'] tokens ∧
      tokens[2]? = some ⟨.comment, ['/', '/', 'é'], ⟨⟨2, 2, 1⟩, ⟨5, 2, 4⟩⟩⟩ := by
  have hcut : ofText { emitTrivia := true } ['a', '\n', '/', '/', 'é'] = .ok [
      ⟨.identifier, ['a'], ⟨⟨0, 1, 1⟩, ⟨1, 1, 2⟩⟩⟩,
      ⟨.whiteSpace, ['\n'], ⟨⟨1, 1, 2⟩, ⟨2, 2, 1⟩⟩⟩,
      ⟨.comment, ['/', '/', 'é'], ⟨⟨2, 2, 1⟩, ⟨5, 2, 4⟩⟩⟩,
      .eofAt ⟨5, 2, 4⟩] := by
    rw [ofText, Caret.tokens_of_kept true (m := ⟨.identifier, 1, by decide⟩) rfl rfl,
      Caret.tokens_of_kept true (m := ⟨.whiteSpace, 1, by decide⟩) rfl rfl,
      Caret.tokens_of_kept true (m := ⟨.comment, 3, by decide⟩) rfl rfl,
      Caret.tokens_of_atEnd rfl]
    rfl
  exact ⟨_, hcut, (partition_ofText {} _).1 _ hcut, rfl⟩

end Descent
