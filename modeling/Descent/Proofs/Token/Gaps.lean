import Descent.Proofs.Token.Pieces

/-!
# Other white space and comments

The words of a text can be written with other gaps between them (`Laid`). A gap is a text of white
space and comments alone. Behind a word it begins with white space, since a comment there might
begin with a part of the word, as behind a slash; before a word it must not end in a comment that
would go on. Written so, the words are told apart (`Laid.spelled`): before white space they all fit,
and white space and comments fit if they end before the word that follows.
-/

namespace Descent.Token

/-- The text is white space and comments, or empty. -/
def IsGap (g : List Char) : Prop :=
  ∃ ts, ofText { emitTrivia := true } g = .ok ts ∧ ∀ t ∈ ts, t.kind.isTrivia ∨ t.kind = .eof

/-- The text ends in a comment that goes on to the end of the line. -/
def EndsOpen (g : List Char) : Prop :=
  ∃ ts t x, ofText { emitTrivia := true } g = .ok (ts ++ [t, x]) ∧ t.kind = .comment ∧
    ['/', '/'].isPrefixOf t.lexeme

/-- What is written behind a word: a gap, and if there are words to come, the next one and what is
written behind it. Only a gap at the end may be empty. -/
inductive Behind : List (Kind × List Char) → List Char → Prop where
  | last {g : List Char} (hg : IsGap g) (hspace : ∀ c ∈ g.head?, Unicode.isWhiteSpace c) :
      Behind [] g
  | word {g t : List Char} {w : Kind × List Char} {ws : List (Kind × List Char)} (hg : IsGap g)
      (hspace : ∃ c ∈ g.head?, Unicode.isWhiteSpace c) (hclosed : ¬EndsOpen g) (h : Behind ws t) :
      Behind (w :: ws) (g ++ w.2 ++ t)

/-- The text is the words, with gaps around them. -/
inductive Laid : List (Kind × List Char) → List Char → Prop where
  | none {g : List Char} (hg : IsGap g) : Laid [] g
  | word {g t : List Char} {w : Kind × List Char} {ws : List (Kind × List Char)} (hg : IsGap g)
      (hclosed : ¬EndsOpen g) (h : Behind ws t) : Laid (w :: ws) (g ++ w.2 ++ t)

/-- The text consists of words that are told apart, and these are the significant ones. -/
def Spelled (text : List Char) (ws : List (Kind × List Char)) : Prop :=
  ∃ ps, Separate ps ∧ spelling ps = text ∧ significant ps = ws

/-- The word is significant, and there is a text in which it stands. -/
structure Significant (w : Kind × List Char) : Prop where
  isTrivia : w.1.isTrivia = false
  fits : ∃ t, Fits w.1 w.2 t

variable {g t : List Char} {w : Kind × List Char} {ws ps qs : List (Kind × List Char)}

theorem Spelled.ofText (h : Spelled t ws) (settings : Settings) : ∃ tokens,
    Token.ofText settings t = .ok tokens ∧
    (Tape.ofTokens tokens).tokens.toList.map Token.word = ws := by
  obtain ⟨ps, hps, rfl, rfl⟩ := h
  exact hps.ofText settings

theorem Separate.significant (h : Separate ps) : ∀ w ∈ significant ps, Significant w := by
  intro w hw
  obtain ⟨hmem, hkind⟩ := List.mem_filter.1 hw
  exact ⟨by simpa using hkind, h.fits hmem⟩

/-- A text does not end open if its last token is no such comment. -/
theorem not_endsOpen {ts : List Token} {x y : Token}
    (h : Token.ofText { emitTrivia := true } g = .ok (ts ++ [x, y]))
    (hx : ['/', '/'].isPrefixOf x.lexeme = false) : ¬EndsOpen g := by
  rintro ⟨us, u, v, hus, -, hopen⟩
  have hsplit : ts ++ [x, y] = us ++ [u, v] := Except.ok.inj (h.symm.trans hus)
  have hlast : [x, y] = [u, v] := List.append_inj_right' hsplit rfl
  obtain rfl : x = u := (List.cons.inj hlast).1
  rw [hx] at hopen
  cases hopen

/-- A word does not begin as white space does. -/
theorem Significant.head (h : Significant w) (t : List Char) :
    ∀ c ∈ (w.2 ++ t).head?, Unicode.isWhiteSpace c = false := by
  obtain ⟨u, hu⟩ := h.fits
  rw [List.head?_append_of_ne_nil _ hu.ne_nil]
  exact ((hu.truncate List.nil_prefix).not_trivial h.isTrivia).1

/-- A gap consists of white space and comments that are told apart, the last of which is closed if
the gap does not end open. -/
theorem IsGap.exists_separate (h : IsGap g) : ∃ ps, Separate ps ∧ spelling ps = g ∧
    (∀ p ∈ ps, p.1.isTrivia) ∧
    (¬EndsOpen g → ∀ v, ps.getLast? ≠ some (.comment, '/' :: '/' :: v)) := by
  obtain ⟨ts, hts, htrivia⟩ := h
  obtain ⟨us, x, rfl, hseparate, hspelling⟩ := Caret.separate_of_tokens hts
  refine ⟨us.map word, hseparate, hspelling, ?_, ?_⟩
  · intro p hp
    obtain ⟨t, ht, rfl⟩ := List.mem_map.1 hp
    rcases htrivia t (List.mem_append_left _ ht) with hkind | heof
    · exact hkind
    · obtain ⟨u, hu⟩ := hseparate.fits hp
      exact absurd heof hu.ne_eof
  · intro hclosed v hlast
    rw [List.getLast?_map] at hlast
    obtain ⟨t, ht, hword⟩ := Option.map_eq_some_iff.1 hlast
    obtain ⟨vs, rfl⟩ := List.getLast?_eq_some_iff.1 ht
    apply hclosed
    refine ⟨vs, t, x, by simpa using hts, congrArg Prod.fst hword, ?_⟩
    rw [show t.lexeme = '/' :: '/' :: v from congrArg Prod.snd hword]
    rfl

/-- White space and comments that are told apart stay so before words, if these do not begin with
white space and the last comment is closed. -/
theorem Separate.append (hps : Separate ps) (htrivia : ∀ p ∈ ps, p.1.isTrivia)
    (hqs : Separate qs) (hhead : ∀ c ∈ (spelling qs).head?, Unicode.isWhiteSpace c = false)
    (hlast : ∀ v, ps.getLast? ≠ some (.comment, '/' :: '/' :: v)) : Separate (ps ++ qs) := by
  induction hps with
  | nil => exact hqs
  | @cons kind w ps h hs ih =>
    obtain ⟨hkind, htrivia⟩ := List.forall_mem_cons.1 htrivia
    have htrivial : Trivial kind w (spelling ps) := h.trivial hkind
    cases ps with
    | nil =>
      refine .cons (Trivial.fits ?_) hqs
      cases htrivial with
      | space hc hw _ => exact .space hc hw hhead
      | line => exact absurd rfl (hlast _)
      | enclosed hindex hw => exact .enclosed hindex hw
    | cons p ps =>
      refine .cons (Trivial.fits (htrivial.of_head ?_)) (ih htrivia fun v => ?_)
      · obtain ⟨u, hu⟩ := hs.fits List.mem_cons_self
        show (spelling (p :: ps ++ qs)).head? = _
        rw [spelling_append, spelling_cons, List.append_assoc,
          List.head?_append_of_ne_nil _ hu.ne_nil, List.head?_append_of_ne_nil _ hu.ne_nil]
      · rw [← List.getLast?_cons_cons]
        exact hlast v

/-- A gap, a word and what is written behind it are told apart. -/
theorem Spelled.word (hg : IsGap g) (hclosed : ¬EndsOpen g) (hw : Significant w)
    (hspace : ∀ c ∈ t.head?, Unicode.isWhiteSpace c) (h : Spelled t ws) :
    Spelled (g ++ w.2 ++ t) (w :: ws) := by
  obtain ⟨gs, hgs, rfl, htrivia, hlast⟩ := hg.exists_separate
  obtain ⟨ps, hps, rfl, rfl⟩ := h
  obtain ⟨u, hu⟩ := hw.fits
  have hword : Separate (w :: ps) := .cons (hu.space hw.isTrivia hspace) hps
  have hhead : ∀ c ∈ (spelling (w :: ps)).head?, Unicode.isWhiteSpace c = false := by
    rw [spelling_cons]
    exact hw.head _
  refine ⟨gs ++ w :: ps, hgs.append htrivia hword hhead (hlast hclosed), ?_, ?_⟩
  · rw [spelling_append, spelling_cons, List.append_assoc]
  · have hkept : Token.significant (w :: ps) = w :: Token.significant ps :=
      List.filter_cons_of_pos (by simp [hw.isTrivia])
    rw [significant_append, significant_of_trivia htrivia, hkept, List.nil_append]

theorem IsGap.spelled (hg : IsGap g) : Spelled g [] := by
  obtain ⟨gs, hgs, rfl, htrivia, -⟩ := hg.exists_separate
  exact ⟨gs, hgs, rfl, significant_of_trivia htrivia⟩

/-- What is written behind a word begins with white space, unless it is empty, and is told apart. -/
theorem Behind.spelled (h : Behind ws t) (hws : ∀ w ∈ ws, Significant w) :
    (∀ c ∈ t.head?, Unicode.isWhiteSpace c) ∧ Spelled t ws := by
  induction h with
  | last hg hspace => exact ⟨hspace, hg.spelled⟩
  | @word g t w ws hg hspace hclosed _ ih =>
    obtain ⟨hw, hws⟩ := List.forall_mem_cons.1 hws
    obtain ⟨hbehind, hspelled⟩ := ih hws
    refine ⟨?_, hspelled.word hg hclosed hw hbehind⟩
    obtain ⟨c, hc, hwhite⟩ := hspace
    obtain ⟨g, rfl⟩ := List.head?_eq_some_iff.1 hc
    rintro d ⟨⟩
    exact hwhite

/-- Words with gaps around them are told apart. -/
theorem Laid.spelled (h : Laid ws t) (hws : ∀ w ∈ ws, Significant w) : Spelled t ws := by
  cases h with
  | none hg => exact hg.spelled
  | word hg hclosed hbehind =>
    obtain ⟨hw, hws⟩ := List.forall_mem_cons.1 hws
    obtain ⟨hspace, hspelled⟩ := hbehind.spelled hws
    exact hspelled.word hg hclosed hw hspace

/-- The significant words of a text, laid out in another way, are the words of the text that
results. -/
theorem Laid.ofText {settings : Settings} {text : List Char} {tokens : List Token}
    (h : Token.ofText settings text = .ok tokens)
    (ht : Laid ((Tape.ofTokens tokens).tokens.toList.map Token.word) t) : ∃ us,
      Token.ofText settings t = .ok us ∧ (Tape.ofTokens us).tokens.toList.map Token.word =
        (Tape.ofTokens tokens).tokens.toList.map Token.word := by
  obtain ⟨us, hus⟩ := exists_pieces h
  rw [hus.words] at ht ⊢
  exact (ht.spelled hus.separate.significant).ofText settings

end Descent.Token
