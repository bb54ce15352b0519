import Mathlib.Data.List.TakeWhile
import Descent.Proofs.Token.Locality
import Descent.Proofs.Token.Partition

/-!
# The longest token

The token to take from a text is the longest that the text begins with and, of the kinds that it
belongs to, the one declared first. That is what the search through the lexicon finds
(`munch_of_bestMatch`), unless the text begins with a comment that is nowhere closed
(`unclosed_of_bestMatch`) or with no token at all (`not_lexeme_of_bestMatch`).

`Lexeme` says what the tokens of each kind look like, without regard to how they are found, and
`Pattern.Accepts` says the same of the members of a class. What a class measures is the longest
member that the text begins with (`Pattern.accepts_take`, `Pattern.exists_length_le`).
-/

namespace Descent.Token

/-! ## The texts of a pattern -/

/-- The text ends with `part`, which does not occur in it before. -/
def EndsAtFirst (part w : List Char) : Prop :=
  part <:+ w ∧ ∀ u s, w = u ++ part ++ s → s = []

/-- The text is a member of the class. -/
def Pattern.Accepts : Pattern → List Char → Prop
  | exactly text, w => w = text
  | run first later, w => ∃ c v, w = c :: v ∧ first c ∧ ∀ d ∈ v, later d
  | line opening, w => ∃ v, w = opening ++ v ∧ '\n' ∉ v
  | enclosed opening closing, w => ∃ v, w = opening ++ v ∧ EndsAtFirst closing v

variable {t v w r part opening closing : List Char} {n : Nat} {o : Option Nat} {p : Pattern}
  {kind : Kind} {m : Match} {c : Char} {classes : List (Kind × Pattern)} {cause : LexError.Cause}

theorem exists_of_indexOf? (h : indexOf? part t = some n) :
    ∃ u s, t = u ++ part ++ s ∧ u.length = n := by
  induction t generalizing n with
  | nil =>
    obtain ⟨rfl, rfl⟩ : part = [] ∧ n = 0 := by simpa [indexOf?, eq_comm] using h
    exact ⟨[], [], rfl, rfl⟩
  | cons c t ih =>
    unfold indexOf? at h
    split at h
    · next hprefix =>
      cases h
      obtain ⟨s, hs⟩ := List.isPrefixOf_iff_prefix.1 hprefix
      exact ⟨[], s, hs.symm, rfl⟩
    · obtain ⟨k, hk, rfl⟩ := Option.map_eq_some_iff.1 h
      obtain ⟨u, s, rfl, rfl⟩ := ih hk
      exact ⟨c :: u, s, rfl, rfl⟩

/-- The place that is found is the first one. -/
theorem indexOf?_le_length (part u s : List Char) :
    ∃ n, indexOf? part (u ++ part ++ s) = some n ∧ n ≤ u.length := by
  induction u with
  | nil =>
    refine ⟨0, ?_, Nat.le_refl 0⟩
    have hprefix : part.isPrefixOf (part ++ s) :=
      List.isPrefixOf_iff_prefix.2 (List.prefix_append part s)
    cases hpart : part ++ s with
    | nil =>
      obtain ⟨rfl, rfl⟩ := List.append_eq_nil_iff.1 hpart
      rfl
    | cons c t =>
      rw [hpart] at hprefix
      rw [List.nil_append, hpart, indexOf?, if_pos hprefix]
  | cons c u ih =>
    obtain ⟨n, hn, hle⟩ := ih
    rw [List.cons_append, List.cons_append, indexOf?, hn]
    split
    · exact ⟨0, rfl, Nat.zero_le _⟩
    · exact ⟨n + 1, rfl, Nat.succ_le_succ hle⟩

theorem indexOf?_eq_none : indexOf? part t = none ↔ ¬part <:+: t := by
  constructor
  · rintro h ⟨u, s, rfl⟩
    obtain ⟨n, hn, -⟩ := indexOf?_le_length part u s
    cases hn.symm.trans h
  · intro h
    cases hn : indexOf? part t with
    | none => rfl
    | some n =>
      obtain ⟨u, s, rfl, -⟩ := exists_of_indexOf? hn
      exact absurd ⟨u, s, rfl⟩ h

/-- What is measured is a member of the class. -/
theorem Pattern.accepts_take (h : p.length? t = .ok (some n)) : p.Accepts (t.take n) := by
  cases p with
  | exactly text =>
    simp only [length?, Except.ok.injEq, Option.ite_none_right_eq_some, Option.some.injEq] at h
    obtain ⟨htext, rfl⟩ := h
    obtain ⟨s, rfl⟩ := List.isPrefixOf_iff_prefix.1 htext
    exact List.take_left
  | run first later =>
    cases t with
    | nil => cases h
    | cons c t =>
      simp only [length?, Except.ok.injEq, Option.ite_none_right_eq_some, Option.some.injEq] at h
      obtain ⟨hc, rfl⟩ := h
      refine ⟨c, t.takeWhile later, ?_, hc, fun d => List.mem_takeWhile_imp⟩
      rw [List.take_succ_cons, ← List.prefix_iff_eq_take.1 (List.takeWhile_prefix later)]
  | line opening =>
    simp only [length?, Except.ok.injEq, Option.ite_none_right_eq_some, Option.some.injEq] at h
    obtain ⟨hopening, rfl⟩ := h
    obtain ⟨s, rfl⟩ := List.isPrefixOf_iff_prefix.1 hopening
    rw [List.drop_left]
    refine ⟨s.takeWhile (· ≠ '\n'), ?_, fun hmem => ?_⟩
    · rw [List.take_length_add_append, ← List.prefix_iff_eq_take.1 (List.takeWhile_prefix _)]
    · simpa using List.mem_takeWhile_imp hmem
  | enclosed opening closing =>
    rw [length?] at h
    split at h
    · next hopening =>
      split at h
      · next k hk =>
        cases h
        obtain ⟨t, rfl⟩ := List.isPrefixOf_iff_prefix.1 hopening
        rw [List.drop_left] at hk
        obtain ⟨u, s, rfl, rfl⟩ := exists_of_indexOf? hk
        refine ⟨u ++ closing, ?_, List.suffix_append _ _, fun u' s' heq => ?_⟩
        · rw [Nat.add_assoc, List.take_length_add_append, ← List.length_append, List.take_left]
        · obtain ⟨k, hk', hle⟩ := indexOf?_le_length closing u' (s' ++ s)
          rw [← List.append_assoc, ← heq, hk] at hk'
          have hlength := congrArg List.length heq
          simp only [List.length_append] at hlength
          cases hk'
          exact List.eq_nil_of_length_eq_zero (by omega)
      · cases h
    · cases h

/-- A member of the class that the text begins with is no longer than what is measured. -/
theorem Pattern.exists_length_le (h : p.length? t = .ok o) (hv : v <+: t) (hp : p.Accepts v) :
    ∃ n ∈ o, v.length ≤ n := by
  obtain ⟨s, rfl⟩ := hv
  cases p with
  | exactly text =>
    cases hp
    have hprefix := List.isPrefixOf_iff_prefix.2 (List.prefix_append v s)
    rw [length?, if_pos hprefix] at h
    cases h
    exact ⟨_, rfl, Nat.le_refl _⟩
  | run first later =>
    obtain ⟨c, w, rfl, hc, hw⟩ := hp
    rw [List.cons_append, length?, if_pos hc, List.takeWhile_append_of_pos hw] at h
    cases h
    refine ⟨_, rfl, ?_⟩
    simp only [List.length_cons, List.length_append]
    omega
  | line opening =>
    obtain ⟨w, rfl, hw⟩ := hp
    have hprefix := List.isPrefixOf_iff_prefix.2 (List.prefix_append opening (w ++ s))
    have hline : ∀ c ∈ w, decide (c ≠ '\n') = true :=
      fun c hc => decide_eq_true fun heq => hw (heq ▸ hc)
    rw [List.append_assoc, length?, if_pos hprefix, List.drop_left,
      List.takeWhile_append_of_pos hline] at h
    cases h
    refine ⟨_, rfl, ?_⟩
    simp only [List.length_append]
    omega
  | enclosed opening closing =>
    obtain ⟨w, rfl, ⟨u, rfl⟩, hfirst⟩ := hp
    have hprefix := List.isPrefixOf_iff_prefix.2 (List.prefix_append opening (u ++ closing ++ s))
    obtain ⟨k, hk, -⟩ := indexOf?_le_length closing u s
    rw [List.append_assoc, length?, if_pos hprefix, List.drop_left, hk] at h
    cases h
    refine ⟨_, rfl, ?_⟩
    obtain ⟨u', s', heq, rfl⟩ := exists_of_indexOf? hk
    have hend : u ++ closing <+: u' ++ closing := by
      rcases List.prefix_or_prefix_of_prefix ⟨s, rfl⟩ ⟨s', heq.symm⟩ with h | ⟨s'', hs''⟩
      · exact h
      · rw [hfirst u' s'' hs''.symm, List.append_nil] at hs''
        exact ⟨[], by rw [hs'', List.append_nil]⟩
    have hle := hend.length_le
    simp only [List.length_append] at hle ⊢
    omega

/-- Only an unclosed comment is an error. -/
theorem Pattern.of_length?_error (h : p.length? t = .error cause) :
    cause = .unclosedComment ∧ ∃ opening closing, p = .enclosed opening closing ∧
      opening <+: t ∧ ¬closing <:+: t.drop opening.length := by
  cases p with
  | exactly text => cases h
  | run first later => cases t <;> cases h
  | line opening => cases h
  | enclosed opening closing =>
    rw [length?] at h
    split at h
    · next hopening =>
      split at h
      · cases h
      · next hindex =>
        cases h
        exact ⟨rfl, opening, closing, rfl, List.isPrefixOf_iff_prefix.1 hopening,
          indexOf?_eq_none.1 hindex⟩
    · cases h

theorem Pattern.below_of_none (h : p.length? t = .ok none) : p.Below t n :=
  ⟨none, h, fun k hk => by cases hk⟩

/-! ## The search through the classes -/

/-- An error is that of a class. -/
theorem of_bestMatch_error {best : Option Match}
    (h : bestMatch t classes best = .error cause) :
    ∃ q ∈ classes, q.2.length? t = .error cause := by
  induction classes generalizing best with
  | nil => cases h
  | cons q classes ih =>
    rw [bestMatch] at h
    have later {best : Option Match} (h : bestMatch t classes best = .error cause) :
        ∃ q' ∈ q :: classes, q'.2.length? t = .error cause :=
      (ih h).imp fun _ => And.imp_left (List.mem_cons_of_mem _)
    split at h
    · next e he =>
      cases h
      exact ⟨q, List.mem_cons_self, he⟩
    · exact later h
    · split at h <;> exact later h

/-- If nothing is found, no class matches. -/
theorem of_bestMatch_none {best : Option Match} (h : bestMatch t classes best = .ok none) :
    best = none ∧ ∀ q ∈ classes, q.2.Below t 1 := by
  induction classes generalizing best with
  | nil =>
    cases h
    exact ⟨rfl, List.forall_mem_nil _⟩
  | cons q classes ih =>
    rw [bestMatch] at h
    split at h
    · cases h
    · next hq =>
      obtain ⟨hbest, hs⟩ := ih h
      exact ⟨hbest, List.forall_mem_cons.2 ⟨Pattern.below_of_none hq, hs⟩⟩
    · next k hq =>
      split at h
      · cases (ih h).1
      · next hk =>
        obtain ⟨hbest, hs⟩ := ih h
        refine ⟨hbest, List.forall_mem_cons.2 ⟨⟨_, hq, fun n hn => ?_⟩, hs⟩⟩
        cases hn
        omega

/-- The match is that of a class in the list, and no class listed before that one matches as much.
-/
def FirstIn (classes : List (Kind × Pattern)) (t : List Char) (m : Match) : Prop :=
  ∃ before pattern after, classes = before ++ (m.kind, pattern) :: after ∧
    pattern.length? t = .ok (some m.length) ∧ ∀ q ∈ before, q.2.Below t m.length

theorem FirstIn.cons {q : Kind × Pattern} (hq : q.2.Below t m.length) (h : FirstIn classes t m) :
    FirstIn (q :: classes) t m := by
  obtain ⟨before, pattern, after, rfl, hm, hbefore⟩ := h
  exact ⟨q :: before, pattern, after, rfl, hm, List.forall_mem_cons.2 ⟨hq, hbefore⟩⟩

/-- What is found was found before, or it is longer and the first of its length. -/
theorem firstIn_of_bestMatch {best : Option Match} (h : bestMatch t classes best = .ok (some m)) :
    m ∈ best ∨ (∀ b ∈ best, b.length < m.length) ∧ FirstIn classes t m := by
  induction classes generalizing best with
  | nil =>
    cases h
    exact .inl rfl
  | cons q classes ih =>
    rw [bestMatch] at h
    split at h
    · cases h
    · next hq => exact (ih h).imp_right (And.imp_right (.cons (Pattern.below_of_none hq)))
    · next k hq =>
      have hbelow (hk : k < m.length) : q.2.Below t m.length :=
        ⟨_, hq, fun n hn => by cases hn; exact hk⟩
      split at h
      · next hk =>
        have hnew (hbest : ∀ b ∈ best, b.length < k) :
            (∀ b ∈ best, b.length < k) ∧ FirstIn (q :: classes) t ⟨q.1, k, hk⟩ :=
          ⟨hbest, [], q.2, classes, rfl, hq, List.forall_mem_nil _⟩
        rcases ih h with hm | ⟨hbest, hs⟩
        · cases best with
          | none =>
            cases hm
            exact .inr (hnew fun b hb => by cases hb)
          | some b =>
            simp only [Match.longer] at hm
            split at hm
            · exact .inl hm
            · next hlt =>
              cases hm
              exact .inr (hnew fun b' hb => by cases hb; exact Nat.lt_of_not_le hlt)
        · have hlt := hbest _ rfl
          obtain ⟨hle, hles⟩ := Match.length_le_longer best ⟨q.1, k, hk⟩
          exact .inr ⟨fun b hb => Nat.lt_of_le_of_lt (hles b hb) hlt,
            hs.cons (hbelow (Nat.lt_of_le_of_lt hle hlt))⟩
      · next hk =>
        have hlt := Nat.lt_of_le_of_lt (Nat.le_of_not_lt hk) m.length_pos
        exact (ih h).imp_right (And.imp_right (.cons (hbelow hlt)))

/-! ## Lexemes -/

/-- The operators and the punctuation. -/
def symbols : List (Kind × List Char) := [
  (.equal, ['=', '=']),
  (.notEqual, ['!', '=']),
  (.assign, ['=']),
  (.bang, ['!']),
  (.plus, ['+']),
  (.minus, ['-']),
  (.star, ['*']),
  (.slash, ['/']),
  (.less, ['<']),
  (.greater, ['>']),
  (.comma, [',']),
  (.semicolon, [';']),
  (.openParen, ['(']),
  (.closeParen, [')']),
  (.openBrace, ['{']),
  (.closeBrace, ['}'])]

/-- The text is a token of the kind, whatever stands around it. -/
inductive Lexeme : Kind → List Char → Prop where
  | whiteSpace {w : List Char} (hne : w ≠ []) (hw : ∀ c ∈ w, Unicode.isWhiteSpace c) :
    Lexeme .whiteSpace w
  | line {w : List Char} (hw : '\n' ∉ w) : Lexeme .comment ('/' :: '/' :: w)
  | enclosed {w : List Char} (hw : EndsAtFirst ['*', '/'] w) : Lexeme .comment ('/' :: '*' :: w)
  | keyword {kind : Kind} {w : List Char} (h : (kind, w) ∈ reserved) : Lexeme kind w
  | identifier {w : List Char} (hw : IsWord w) : Lexeme .identifier w
  | integer {w : List Char} (hne : w ≠ []) (hw : ∀ c ∈ w, c.isDigit) : Lexeme .integer w
  | symbol {kind : Kind} {w : List Char} (h : (kind, w) ∈ symbols) : Lexeme kind w

theorem Pattern.accepts_run {q : Char → Bool} :
    (Pattern.run q q).Accepts w ↔ w ≠ [] ∧ ∀ c ∈ w, q c := by
  cases w with
  | nil => simp [Accepts]
  | cons c w => simp [Accepts]

theorem accepts_namePattern : namePattern.Accepts w ↔ IsWord w := by
  cases w with
  | nil => simp [namePattern, Pattern.Accepts, IsWord]
  | cons c w => simp [namePattern, Pattern.Accepts, IsWord]

theorem lexicon_eq_append : lexicon =
    [(.whiteSpace, .run Unicode.isWhiteSpace Unicode.isWhiteSpace), (.comment, .line ['/', '/']),
      (.comment, .enclosed ['/', '*'] ['*', '/'])] ++
    (reserved.map keywordClass ++
      ([(.identifier, namePattern), (.integer, .run Char.isDigit Char.isDigit)] ++
        symbols.map fun q => (q.1, .exactly q.2))) := rfl

/-- The lexicon lists the lexemes. -/
theorem lexeme_iff : Lexeme kind w ↔ ∃ p, (kind, p) ∈ lexicon ∧ p.Accepts w := by
  rw [lexicon_eq_append]
  constructor
  · intro h
    cases h with
    | whiteSpace hne hw => exact ⟨_, by simp, Pattern.accepts_run.2 ⟨hne, hw⟩⟩
    | line hw => exact ⟨.line ['/', '/'], by simp, _, rfl, hw⟩
    | enclosed hw => exact ⟨.enclosed ['/', '*'] ['*', '/'], by simp, _, rfl, hw⟩
    | keyword h =>
      have hmem := List.mem_map_of_mem (f := keywordClass) h
      exact ⟨.exactly w, List.mem_append_right _ (List.mem_append_left _ hmem), rfl⟩
    | identifier hw => exact ⟨_, by simp, accepts_namePattern.2 hw⟩
    | integer hne hw =>
      exact ⟨.run Char.isDigit Char.isDigit, by simp, Pattern.accepts_run.2 ⟨hne, hw⟩⟩
    | symbol h =>
      have hmem := List.mem_map_of_mem (f := fun q => (q.1, Pattern.exactly q.2)) h
      exact ⟨.exactly w, by simp only [List.mem_append, hmem, or_true], rfl⟩
  · rintro ⟨p, hmem, hp⟩
    simp only [List.mem_append, List.mem_cons, Prod.mk.injEq, List.not_mem_nil, or_false] at hmem
    rcases hmem with (⟨rfl, rfl⟩ | ⟨rfl, rfl⟩ | ⟨rfl, rfl⟩) | hmem |
      (⟨rfl, rfl⟩ | ⟨rfl, rfl⟩) | hmem
    · obtain ⟨hne, hw⟩ := Pattern.accepts_run.1 hp
      exact .whiteSpace hne hw
    · obtain ⟨v, rfl, hv⟩ := hp
      exact .line hv
    · obtain ⟨v, rfl, hv⟩ := hp
      exact .enclosed hv
    · obtain ⟨q, hq, heq⟩ := List.mem_map.1 hmem
      cases heq
      cases hp
      exact .keyword hq
    · exact .identifier (accepts_namePattern.1 hp)
    · obtain ⟨hne, hw⟩ := Pattern.accepts_run.1 hp
      exact .integer hne hw
    · obtain ⟨q, hq, heq⟩ := List.mem_map.1 hmem
      cases heq
      cases hp
      exact .symbol hq

theorem isWord_cons_iff :
    IsWord (c :: w) ↔ startsIdentifier c ∧ ∀ d ∈ w, continuesIdentifier d := by
  simp [IsWord]

theorem Lexeme.ne_nil (h : Lexeme kind w) : w ≠ [] := by
  cases h with
  | whiteSpace hne | integer hne => exact hne
  | line | enclosed => exact List.cons_ne_nil _ _
  | keyword h => exact List.length_pos_iff.1 (length_pos_of_isWord (isWord_of_reserved h))
  | identifier hw => exact List.length_pos_iff.1 (length_pos_of_isWord hw)
  | symbol h =>
    have hne : ∀ q ∈ symbols, q.2 ≠ [] := by decide
    exact hne _ h

/-- A character that begins a token is one. -/
theorem Lexeme.exists_singleton (h : Lexeme kind (c :: w)) : ∃ k, Lexeme k [c] := by
  have word (hw : IsWord (c :: w)) : Lexeme .identifier [c] :=
    .identifier (isWord_cons_iff.2 ⟨(isWord_cons_iff.1 hw).1, nofun⟩)
  have slash : Lexeme .slash ['/'] := .symbol (by decide)
  cases h with
  | whiteSpace _ hw =>
    exact ⟨_, .whiteSpace (List.cons_ne_nil _ _) (List.forall_mem_singleton.2 (hw c (by simp)))⟩
  | line | enclosed => exact ⟨_, slash⟩
  | keyword h => exact ⟨_, word (isWord_of_reserved h)⟩
  | identifier hw => exact ⟨_, word hw⟩
  | integer _ hw =>
    exact ⟨_, .integer (List.cons_ne_nil _ _) (List.forall_mem_singleton.2 (hw c (by simp)))⟩
  | symbol h =>
    have hsingle : ∀ q ∈ symbols, ∃ r ∈ symbols, r.2 = q.2.take 1 := by decide
    obtain ⟨⟨k, _⟩, hmem, rfl⟩ := hsingle _ h
    exact ⟨k, .symbol hmem⟩

/-! ## The token that a text begins with -/

/-- The number of places before the first class of the kind in the lexicon. -/
def declared (kind : Kind) : Nat := (lexicon.map Prod.fst).idxOf kind

/-- The text begins with a comment that is nowhere closed. -/
def Unclosed (t : List Char) : Prop := ∃ r, t = '/' :: '*' :: r ∧ ¬['*', '/'] <:+: r

/-- The lexeme is the longest that the text begins with, and the kind is the first of those that it
belongs to. -/
structure Munch (t : List Char) (kind : Kind) (w : List Char) : Prop where
  lexeme : Lexeme kind w
  isPrefix : w <+: t
  longest : ∀ k v, Lexeme k v → v <+: t → v.length ≤ w.length
  first : ∀ k, Lexeme k w → declared kind ≤ declared k

/-- What the search finds is the longest lexeme, of the first kind. -/
theorem munch_of_bestMatch (h : bestMatch t lexicon none = .ok (some m)) :
    Munch t m.kind (t.take m.length) := by
  obtain hnone | ⟨-, before, pattern, after, hsplit, hm, hbefore⟩ := firstIn_of_bestMatch h
  · cases hnone
  have hle := Pattern.length?_le hm
  have hlength : (t.take m.length).length = m.length := by
    rw [List.length_take, Nat.min_eq_left hle]
  have hmem : (m.kind, pattern) ∈ lexicon := by
    rw [hsplit]
    exact List.mem_append_right _ List.mem_cons_self
  refine ⟨lexeme_iff.2 ⟨pattern, hmem, Pattern.accepts_take hm⟩, List.take_prefix .., ?_, ?_⟩
  · intro k v hv hprefix
    obtain ⟨p, hp, hv⟩ := lexeme_iff.1 hv
    obtain ⟨o, ho⟩ := length?_of_bestMatch h _ hp
    obtain ⟨n, rfl, hn⟩ := Pattern.exists_length_le ho hprefix hv
    rw [hlength]
    exact Nat.le_trans hn ((length_le_of_bestMatch h).2 _ hp n ho)
  · intro k hk
    obtain ⟨p, hp, hk⟩ := lexeme_iff.1 hk
    -- The classes are listed in the order of their kinds, and those before `pattern` match less.
    have hsorted : lexicon.Pairwise fun p q => declared p.1 ≤ declared q.1 := by decide
    rw [hsplit, List.pairwise_append, List.pairwise_cons] at hsorted
    rw [hsplit, List.mem_append, List.mem_cons] at hp
    rcases hp with hp | hp | hp
    · obtain ⟨o, ho, hlt⟩ := hbefore _ hp
      obtain ⟨n, rfl, hn⟩ := Pattern.exists_length_le ho (List.take_prefix ..) hk
      have := hlt n rfl
      omega
    · cases hp
      exact Nat.le_refl _
    · exact hsorted.2.1.1 _ hp

/-- The search succeeds only where no comment is left open. -/
theorem not_unclosed_of_bestMatch (h : bestMatch t lexicon none = .ok (some m)) : ¬Unclosed t := by
  rintro ⟨r, rfl, hr⟩
  have hmem : (Kind.comment, Pattern.enclosed ['/', '*'] ['*', '/']) ∈ lexicon := by simp [lexicon]
  obtain ⟨o, ho⟩ := length?_of_bestMatch h _ hmem
  have hbegins : ['/', '*'].isPrefixOf ('/' :: '*' :: r) := rfl
  rw [Pattern.length?, if_pos hbegins] at ho
  rw [show ('/' :: '*' :: r).drop ['/', '*'].length = r from rfl, indexOf?_eq_none.2 hr] at ho
  cases ho

/-- An error of the search is a comment that is left open. -/
theorem unclosed_of_bestMatch (h : bestMatch t lexicon none = .error cause) :
    cause = .unclosedComment ∧ Unclosed t := by
  obtain ⟨⟨kind, p⟩, hmem, hp⟩ := of_bestMatch_error h
  obtain ⟨rfl, opening, closing, rfl, ⟨r, rfl⟩, hr⟩ := Pattern.of_length?_error hp
  obtain ⟨-, rfl, rfl⟩ : kind = .comment ∧ opening = ['/', '*'] ∧ closing = ['*', '/'] := by
    simpa [lexicon] using hmem
  exact ⟨rfl, r, rfl, hr⟩

/-- If the search finds nothing, the text begins with no lexeme. -/
theorem not_lexeme_of_bestMatch (h : bestMatch t lexicon none = .ok none) (hw : w <+: t) :
    ¬Lexeme kind w := by
  intro hlexeme
  obtain ⟨p, hp, hw'⟩ := lexeme_iff.1 hlexeme
  obtain ⟨o, ho, hlt⟩ := (of_bestMatch_none h).2 _ hp
  obtain ⟨n, rfl, hn⟩ := Pattern.exists_length_le ho hw hw'
  have := hlt n rfl
  have := List.length_pos_iff.2 hlexeme.ne_nil
  omega

/-- The kind of a keyword has no other text. -/
theorem Lexeme.eq_of_reserved {q : Kind × List Char} (hq : q ∈ reserved) (h : Lexeme q.1 w) :
    w = q.2 := by
  generalize hkind : q.1 = kind at h
  have hother : ∀ q ∈ reserved, q.1 ≠ .whiteSpace ∧ q.1 ≠ .comment ∧ q.1 ≠ .identifier ∧
      q.1 ≠ .integer := by decide
  obtain ⟨hspace, hcomment, hidentifier, hinteger⟩ := hother q hq
  cases h with
  | whiteSpace => exact absurd hkind hspace
  | line | enclosed => exact absurd hkind hcomment
  | keyword h =>
    have hunique : ∀ q ∈ reserved, ∀ r ∈ reserved, q.1 = r.1 → r.2 = q.2 := by decide
    exact hunique q hq _ h hkind
  | identifier => exact absurd hkind hidentifier
  | integer => exact absurd hkind hinteger
  | symbol h =>
    have hdisjoint : ∀ q ∈ reserved, ∀ r ∈ symbols, q.1 ≠ r.1 := by decide
    exact absurd hkind (hdisjoint q hq _ h)

/-- A text of the shape of a name is a keyword or a name, whatever else it may be. -/
theorem Lexeme.of_isWord (hw : IsWord w) (h : Lexeme kind w) :
    (kind, w) ∈ reserved ∨ kind = .identifier := by
  obtain ⟨c, w, rfl⟩ := List.exists_cons_of_ne_nil h.ne_nil
  have hc := (isWord_cons_iff.1 hw).1
  cases h with
  | whiteSpace _ hspace =>
    rw [not_startsIdentifier_of_isWhiteSpace (hspace c List.mem_cons_self)] at hc
    cases hc
  | line | enclosed => cases hc
  | keyword h => exact .inl h
  | identifier => exact .inr rfl
  | integer _ hdigits =>
    have := hdigits c List.mem_cons_self
    rw [not_isDigit_of_startsIdentifier hc] at this
    cases this
  | symbol h =>
    have hnone : ∀ q ∈ symbols, ¬IsWord q.2 := by decide
    exact absurd hw (hnone _ h)

/-- There is only one text to take. -/
theorem Munch.eq {k : Kind} (h : Munch t kind w) (h' : Munch t k v) : w = v := by
  have hle := h'.longest kind w h.lexeme h.isPrefix
  have hge := h.longest k v h'.lexeme h'.isPrefix
  have hprefix := List.prefix_of_prefix_length_le h.isPrefix h'.isPrefix hle
  exact hprefix.eq_of_length (Nat.le_antisymm hle hge)

/-- Of a word of the shape of a name, the kind is that of a keyword exactly if it is the keyword. -/
theorem Munch.keyword_iff {q : Kind × List Char} (h : Munch t kind w) (hw : IsWord w)
    (hq : q ∈ reserved) : kind = q.1 ↔ w = q.2 := by
  constructor
  · rintro rfl
    exact h.lexeme.eq_of_reserved hq
  · rintro rfl
    rcases h.lexeme.of_isWord hw with hmem | rfl
    · have hunique : ∀ q ∈ reserved, ∀ r ∈ reserved, q.2 = r.2 → q.1 = r.1 := by decide
      exact hunique _ hmem q hq rfl
    · -- Every keyword is declared before the names.
      have hbefore : ∀ q ∈ reserved, declared q.1 < declared .identifier := by decide
      exact absurd (h.first q.1 (.keyword hq)) (Nat.not_le.2 (hbefore q hq))

end Descent.Token
