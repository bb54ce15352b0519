import Descent.Settings.Basic
import Descent.Source.Caret
import Descent.Token.Pattern

/-!
# Cutting a text into tokens

From a caret, `Caret.bestMatch` finds the lexical class of what begins there, `Caret.token` reads
the next token that is kept, and `Token.ofText` reads all of them, up to the one that marks the end.
-/

namespace Descent

namespace Caret

/-- The error of the character at the caret. -/
def lexError (c : Caret) (cause : LexError.Cause) : LexError :=
  ⟨c.position, (c.peek? 0).getD '\x00', cause⟩

/-- The longest member of a lexical class that begins at the caret. -/
def bestMatch (c : Caret) : Except LexError Token.Match :=
  match Token.bestMatch c.ahead Token.lexicon none with
  | .ok (some m) => .ok m
  | .ok none => .error (c.lexError .strayCharacter)
  | .error cause => .error (c.lexError cause)

/-- The token that lies between two carets. -/
def tokenTo (c d : Caret) (kind : Token.Kind) : Token := ⟨kind, c.textTo d, c.spanTo d⟩

theorem length_ahead_advance_lt {c : Caret} {n : Nat} (hn : 0 < n) (hc : ¬c.atEnd) :
    (c.advance n).ahead.length < c.ahead.length := by
  have : 0 < c.ahead.length := by simpa [atEnd, List.length_pos_iff] using hc
  simp only [advance, List.length_drop]
  omega

/-- The next token, which is the end of the input if none follows, and the caret after it. White
space and comments count only if `trivia` says so. -/
def token (trivia : Bool) (c : Caret) : Except LexError (Token × Caret) :=
  if c.atEnd then .ok (.eofAt c.position, c)
  else
    match c.bestMatch with
    | .error e => .error e
    | .ok m =>
      if m.kind.isTrivia && !trivia then (c.advance m.length).token trivia
      else .ok (c.tokenTo (c.advance m.length) m.kind, c.advance m.length)
termination_by c.ahead.length
decreasing_by exact length_ahead_advance_lt m.length_pos ‹_›

/-- A token that is not the end of the input has characters. -/
theorem length_ahead_lt_of_token {trivia : Bool} {c d : Caret} {t : Token}
    (h : c.token trivia = .ok (t, d)) (ht : t.kind ≠ .eof) : d.ahead.length < c.ahead.length := by
  fun_induction token trivia c with
  | case1 c hc =>
    cases h
    exact absurd rfl ht
  | case2 => cases h
  | case3 c hc m hm htrivia ih =>
    exact Nat.lt_trans (ih h) (length_ahead_advance_lt m.length_pos hc)
  | case4 c hc m hm htrivia =>
    cases h
    exact length_ahead_advance_lt m.length_pos hc

/-- All tokens from the caret on, the last of which is the end of the input. -/
def tokens (trivia : Bool) (c : Caret) : Except LexError (List Token) :=
  match _h : c.token trivia with
  | .error e => .error e
  | .ok (t, d) =>
    if t.kind = .eof then .ok [t]
    else
      match d.tokens trivia with
      | .error e => .error e
      | .ok ts => .ok (t :: ts)
termination_by c.ahead.length
decreasing_by exact length_ahead_lt_of_token ‹_› ‹_›

end Caret

/-- The tokens of a text, the last of which is its end. -/
def Token.ofText (settings : Settings) (text : List Char) : Except LexError (List Token) :=
  (Caret.ofText text).tokens settings.emitTrivia

end Descent
