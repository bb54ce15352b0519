import Descent.Proofs.Token.Matching

/-!
# How far a match depends on what follows

`Fits kind w t` says that of a text `w ++ t`, the best match is `w`, of this kind. What it takes for
a word to fit before another text than the one it was found in, differs:

* before a beginning of that text, it always fits (`Fits.truncate`);
* before white space, every word fits that is neither white space nor a comment (`Fits.space`);
* white space fits before anything else, a comment to the end of the line before a line break only,
  and an enclosed comment anywhere (`Trivial.fits`, with `Fits.trivial` for the converse).
-/

namespace Descent.Token

variable {w t u : List Char} {kind : Kind} {n : Nat}

/-- Of the text `w ++ t`, the best match is `w`, of this kind. -/
def Fits (kind : Kind) (w t : List Char) : Prop :=
  ∃ m, bestMatch (w ++ t) lexicon none = .ok (some m) ∧ m.kind = kind ∧ m.length = w.length

theorem Fits.ne_nil (h : Fits kind w t) : w ≠ [] := by
  obtain ⟨m, -, -, hlength⟩ := h
  have := m.length_pos
  rw [hlength] at this
  exact List.length_pos_iff.1 this

theorem Fits.ne_eof (h : Fits kind w t) : kind ≠ .eof := by
  obtain ⟨m, hmatch, rfl, -⟩ := h
  exact ne_eof_of_bestMatch hmatch

/-- Texts that the classes measure alike have the same best match. -/
theorem bestMatch_congr {classes : List (Kind × Pattern)} {best : Option Match}
    (h : ∀ q ∈ classes, q.2.length? t = q.2.length? u) :
    bestMatch t classes best = bestMatch u classes best := by
  induction classes generalizing best with
  | nil => rfl
  | cons q classes ih =>
    obtain ⟨hq, hclasses⟩ := List.forall_mem_cons.1 h
    simp only [bestMatch, hq, ih hclasses]

/-- No class has an error where a match is found. -/
theorem length?_of_bestMatch {classes : List (Kind × Pattern)} {best o : Option Match}
    (h : bestMatch t classes best = .ok o) : ∀ q ∈ classes, ∃ n, q.2.length? t = .ok n := by
  induction classes generalizing best with
  | nil => exact nofun
  | cons q classes ih =>
    rw [bestMatch] at h
    cases hq : q.2.length? t with
    | error e =>
      rw [hq] at h
      cases h
    | ok n =>
      rw [hq] at h
      refine List.forall_mem_cons.2 ⟨⟨n, hq⟩, ?_⟩
      cases n with
      | none => exact ih h
      | some n =>
        simp only at h
        split at h
        · exact ih h
        · exact ih h

/-! ## Before less -/

/-- A run that ends in `w` or right behind it does so before any beginning of what follows. -/
theorem takeWhile_append_of_prefix {p : Char → Bool} (hu : u <+: t)
    (h : ((w ++ t).takeWhile p).length ≤ w.length) :
    (w ++ u).takeWhile p = (w ++ t).takeWhile p := by
  induction w with
  | nil =>
    have hnil : t.takeWhile p = [] := List.eq_nil_of_length_eq_zero (Nat.le_zero.1 h)
    obtain ⟨v, rfl⟩ := hu
    cases u with
    | nil => exact hnil.symm
    | cons c u =>
      have hc : ¬p c := by
        intro hc
        rw [List.cons_append, List.takeWhile_cons_of_pos hc] at hnil
        cases hnil
      show (c :: u).takeWhile p = (c :: (u ++ v)).takeWhile p
      rw [List.takeWhile_cons_of_neg hc, List.takeWhile_cons_of_neg hc]
  | cons c w ih =>
    rw [List.cons_append] at h
    rw [List.cons_append, List.cons_append]
    by_cases hc : p c
    · rw [List.takeWhile_cons_of_pos hc] at h
      rw [List.takeWhile_cons_of_pos hc, List.takeWhile_cons_of_pos hc,
        ih (Nat.le_of_succ_le_succ h)]
    · rw [List.takeWhile_cons_of_neg hc, List.takeWhile_cons_of_neg hc]

theorem isPrefixOf_append {part : List Char} (h : part.length ≤ w.length) (t : List Char) :
    part.isPrefixOf (w ++ t) = part.isPrefixOf w := by
  rw [Bool.eq_iff_iff, List.isPrefixOf_iff_prefix, List.isPrefixOf_iff_prefix]
  constructor
  · intro hbegins
    exact List.prefix_of_prefix_length_le hbegins (List.prefix_append w t) h
  · intro hbegins
    exact hbegins.trans (List.prefix_append w t)

/-- A closing that lies in `w` is first found at the same place whatever follows `w`. -/
theorem indexOf?_append {part : List Char} (hle : n + part.length ≤ w.length) (t : List Char) :
    indexOf? part (w ++ t) = some n ↔ indexOf? part w = some n := by
  induction w generalizing n with
  | nil =>
    have hpart : part = [] := by
      rw [List.length_nil] at hle
      exact List.eq_nil_of_length_eq_zero (by omega)
    rw [hpart]
    cases t <;> simp [indexOf?]
  | cons c w ih =>
    have hlength : part.length ≤ (c :: w).length := by omega
    have hbegins := isPrefixOf_append hlength t
    rw [List.cons_append] at hbegins ⊢
    rw [indexOf?, indexOf?, hbegins]
    by_cases h : part.isPrefixOf (c :: w)
    · rw [if_pos h, if_pos h]
    · rw [if_neg h, if_neg h]
      cases n with
      | zero => simp
      | succ n =>
        rw [List.length_cons] at hle
        simpa using ih (by omega)

/-- An opening that does not reach behind `w` begins the text or not, whatever beginning of what
follows `w` is left. -/
theorem isPrefixOf_truncate {part : List Char} (hu : u <+: t)
    (h : part.isPrefixOf (w ++ t) → part.length ≤ w.length) :
    part.isPrefixOf (w ++ u) = part.isPrefixOf (w ++ t) := by
  by_cases hbegins : part.isPrefixOf (w ++ t)
  · rw [isPrefixOf_append (h hbegins), isPrefixOf_append (h hbegins)]
  · rw [Bool.not_eq_true] at hbegins
    rw [hbegins, Bool.eq_false_iff]
    intro hshort
    have hlong := (List.isPrefixOf_iff_prefix.1 hshort).trans ((List.prefix_append_right_inj w).2 hu)
    rw [List.isPrefixOf_iff_prefix.2 hlong] at hbegins
    cases hbegins

/-- A class that measures no more than `w` measures the same before any beginning of what follows
`w`. -/
theorem Pattern.length?_truncate {p : Pattern} {o : Option Nat} (hw : w ≠ []) (hu : u <+: t)
    (h : p.length? (w ++ t) = .ok o) (ho : ∀ n ∈ o, n ≤ w.length) :
    p.length? (w ++ u) = .ok o := by
  have hdrop {part : List Char} (hpart : part.length ≤ w.length) (v : List Char) :
      (w ++ v).drop part.length = w.drop part.length ++ v := List.drop_append_of_le_length hpart
  cases p with
  | exactly text =>
    rw [length?] at h ⊢
    rw [← h, isPrefixOf_truncate hu]
    intro hbegins
    rw [if_pos hbegins] at h
    cases h
    exact ho _ rfl
  | run first later =>
    obtain ⟨c, w, rfl⟩ := List.exists_cons_of_ne_nil hw
    rw [List.cons_append, length?] at h ⊢
    by_cases hc : first c
    · rw [if_pos hc] at h
      cases h
      have hle : ((w ++ t).takeWhile later).length ≤ w.length := Nat.le_of_succ_le_succ (ho _ rfl)
      rw [if_pos hc, takeWhile_append_of_prefix hu hle]
    · rw [if_neg hc] at h ⊢
      exact h
  | line opening =>
    rw [length?] at h ⊢
    by_cases hbegins : opening.isPrefixOf (w ++ t)
    · rw [if_pos hbegins] at h
      cases h
      have hle := ho _ rfl
      have hlength : opening.length ≤ w.length := by omega
      have hrest : ((w.drop opening.length ++ t).takeWhile (· ≠ '\n')).length ≤
          (w.drop opening.length).length := by
        rw [hdrop hlength] at hle
        rw [List.length_drop]
        omega
      rw [isPrefixOf_truncate hu fun _ => hlength, if_pos hbegins, hdrop hlength, hdrop hlength,
        takeWhile_append_of_prefix hu hrest]
    · rw [if_neg hbegins] at h
      rw [isPrefixOf_truncate hu fun h => absurd h hbegins, if_neg hbegins]
      exact h
  | enclosed opening closing =>
    rw [length?] at h ⊢
    by_cases hbegins : opening.isPrefixOf (w ++ t)
    · rw [if_pos hbegins] at h
      cases hindex : indexOf? closing ((w ++ t).drop opening.length) with
      | none =>
        rw [hindex] at h
        cases h
      | some n =>
        rw [hindex] at h
        cases h
        have hle := ho _ rfl
        have hlength : opening.length ≤ w.length := by omega
        have hrest : n + closing.length ≤ (w.drop opening.length).length := by
          rw [List.length_drop]
          omega
        rw [hdrop hlength, indexOf?_append hrest] at hindex
        rw [isPrefixOf_truncate hu fun _ => hlength, if_pos hbegins, hdrop hlength,
          (indexOf?_append hrest u).2 hindex]
    · rw [if_neg hbegins] at h
      rw [isPrefixOf_truncate hu fun h => absurd h hbegins, if_neg hbegins]
      exact h

/-- A word fits before any beginning of the text that follows it. -/
theorem Fits.truncate (h : Fits kind w t) (hu : u <+: t) : Fits kind w u := by
  have hw := h.ne_nil
  obtain ⟨m, hmatch, hkind, hlength⟩ := h
  refine ⟨m, ?_, hkind, hlength⟩
  rw [← hmatch]
  apply bestMatch_congr
  intro q hq
  obtain ⟨o, ho⟩ := length?_of_bestMatch hmatch q hq
  have hle : ∀ n ∈ o, n ≤ w.length := by
    rintro n rfl
    rw [← hlength]
    exact (length_le_of_bestMatch hmatch).2 q hq n ho
  rw [Pattern.length?_truncate hw hu ho hle, ho]

/-! ## White space and comments -/

/-- The classes of white space and comments. -/
theorem filter_isTrivia : lexicon.filter (·.1.isTrivia) =
    [(.whiteSpace, .run Unicode.isWhiteSpace Unicode.isWhiteSpace), (.comment, .line ['/', '/']),
      (.comment, .enclosed ['/', '*'] ['*', '/'])] := rfl

/-- Behind two slashes, all up to the end of the line is a comment. -/
theorem bestMatch_line (t : List Char) : bestMatch ('/' :: '/' :: t) lexicon none =
    .ok (some ⟨.comment, 2 + (t.takeWhile (· ≠ '\n')).length, by omega⟩) := by
  have hsplit : lexicon.filter (·.2.begins '/') = [] ++ (.comment, .line ['/', '/']) ::
      [(.comment, .enclosed ['/', '*'] ['*', '/']), (.slash, .exactly ['/'])] := rfl
  rw [bestMatch_filter, hsplit]
  refine bestMatch_of_split _ rfl nofun ?_
  intro q hq
  simp only [List.mem_cons, List.not_mem_nil, or_false] at hq
  rcases hq with rfl | rfl
  · exact ⟨none, rfl, nofun⟩
  · refine ⟨some 1, rfl, fun k hk => ?_⟩
    cases hk
    omega

/-- Behind a slash and a star, all up to the first star and slash is a comment. -/
theorem bestMatch_enclosed (h : indexOf? ['*', '/'] t = some n) :
    bestMatch ('/' :: '*' :: t) lexicon none =
      .ok (some ⟨.comment, 2 + n + 2, by omega⟩) := by
  have hlength : (Pattern.enclosed ['/', '*'] ['*', '/']).length? ('/' :: '*' :: t) =
      .ok (some (2 + n + 2)) := by
    have hbegins : ['/', '*'].isPrefixOf ('/' :: '*' :: t) := rfl
    have hbehind : ('/' :: '*' :: t).drop ['/', '*'].length = t := rfl
    rw [Pattern.length?, if_pos hbegins, hbehind, h]
    rfl
  have hsplit : lexicon.filter (·.2.begins '/') = [(.comment, .line ['/', '/'])] ++
      (.comment, .enclosed ['/', '*'] ['*', '/']) :: [(.slash, .exactly ['/'])] := rfl
  rw [bestMatch_filter, hsplit]
  refine bestMatch_of_split _ hlength ?_ ?_
  · intro q hq
    rw [List.mem_singleton.1 hq]
    exact ⟨none, rfl, fun k hk => by cases hk⟩
  · intro q hq
    rw [List.mem_singleton.1 hq]
    refine ⟨some 1, rfl, fun k hk => ?_⟩
    cases hk
    omega

/-- What white space and comments are, and where they end before the text that follows. -/
inductive Trivial : Kind → List Char → List Char → Prop where
  | space {c : Char} {w t : List Char} (hc : Unicode.isWhiteSpace c)
      (hw : ∀ d ∈ w, Unicode.isWhiteSpace d) (ht : ∀ d ∈ t.head?, Unicode.isWhiteSpace d = false) :
      Trivial .whiteSpace (c :: w) t
  | line {w t : List Char} (hw : ∀ d ∈ w, d ≠ '\n') (ht : ∀ d ∈ t.head?, d = '\n') :
      Trivial .comment ('/' :: '/' :: w) t
  | enclosed {w t : List Char} {n : Nat} (h : indexOf? ['*', '/'] w = some n)
      (hw : w.length = n + 2) : Trivial .comment ('/' :: '*' :: w) t

/-- White space and comments fit where they end. -/
theorem Trivial.fits (h : Trivial kind w t) : Fits kind w t := by
  cases h with
  | @space c w t hc hw ht =>
    have hlength := length_takeWhile_append.2 ⟨hw, ht⟩
    exact ⟨_, bestMatch_whiteSpace hc, rfl, congrArg (· + 1) hlength⟩
  | @line w t hw ht =>
    have hlength : ((w ++ t).takeWhile (· ≠ '\n')).length = w.length :=
      length_takeWhile_append.2 ⟨by simpa using hw, by simpa using ht⟩
    refine ⟨_, bestMatch_line (w ++ t), rfl, ?_⟩
    simp only [hlength, List.length_cons]
    omega
  | @enclosed w t n h hw =>
    have hindex : indexOf? ['*', '/'] (w ++ t) = some n :=
      (indexOf?_append (Nat.le_of_eq hw.symm) t).2 h
    refine ⟨_, bestMatch_enclosed hindex, rfl, ?_⟩
    simp only [List.length_cons]
    omega

/-- Of what follows, white space and comments depend on the first character alone. -/
theorem Trivial.of_head (h : Trivial kind w t) (hu : u.head? = t.head?) : Trivial kind w u := by
  cases h with
  | space hc hw ht => exact .space hc hw (hu ▸ ht)
  | line hw ht => exact .line hw (hu ▸ ht)
  | enclosed hindex hw => exact .enclosed hindex hw

/-- An opening that begins the text and is no longer than `w` begins `w`. -/
theorem eq_append_of_isPrefixOf {part : List Char} (h : part.isPrefixOf (w ++ t))
    (hle : part.length ≤ w.length) : ∃ v, w = part ++ v := by
  rw [isPrefixOf_append hle] at h
  obtain ⟨v, hv⟩ := List.isPrefixOf_iff_prefix.1 h
  exact ⟨v, hv.symm⟩

/-- What fits as white space or as a comment ends there. -/
theorem Fits.trivial (h : Fits kind w t) (hkind : kind.isTrivia) : Trivial kind w t := by
  have hw := h.ne_nil
  obtain ⟨m, hmatch, rfl, hlength⟩ := h
  obtain ⟨pattern, hmem, hpattern⟩ := (of_bestMatch hmatch).resolve_left nofun
  rw [hlength] at hpattern
  have htrivia : (m.kind, pattern) ∈ lexicon.filter (·.1.isTrivia) :=
    List.mem_filter.2 ⟨hmem, hkind⟩
  simp only [filter_isTrivia, List.mem_cons, List.not_mem_nil, or_false, Prod.mk.injEq] at htrivia
  rcases htrivia with ⟨hk, rfl⟩ | ⟨hk, rfl⟩ | ⟨hk, rfl⟩
  · obtain ⟨c, w, rfl⟩ := List.exists_cons_of_ne_nil hw
    obtain ⟨hc, hw, ht⟩ := of_length?_run hpattern
    rw [hk]
    exact .space hc hw ht
  · simp only [Pattern.length?, Except.ok.injEq, Option.ite_none_right_eq_some, Option.some.injEq]
      at hpattern
    obtain ⟨hopening, hn⟩ := hpattern
    obtain ⟨v, rfl⟩ := eq_append_of_isPrefixOf hopening (by omega)
    have hrun : ((v ++ t).takeWhile (· ≠ '\n')).length = v.length := by
      simp only [List.cons_append, List.nil_append, List.length_cons, List.length_nil,
        List.drop_succ_cons, List.drop_zero] at hn
      omega
    obtain ⟨hv, ht⟩ := length_takeWhile_append.1 hrun
    rw [hk]
    exact .line (by simpa using hv) (by simpa using ht)
  · rw [Pattern.length?] at hpattern
    split at hpattern
    · next hopening =>
      split at hpattern
      · next n hn =>
        have hw : 2 + n + 2 = w.length := Option.some.inj (Except.ok.inj hpattern)
        obtain ⟨v, rfl⟩ := eq_append_of_isPrefixOf hopening (by show 2 ≤ w.length; omega)
        have hv : v.length = n + 2 := by
          simp only [List.cons_append, List.nil_append, List.length_cons] at hw
          omega
        rw [hk]
        exact .enclosed ((indexOf?_append (Nat.le_of_eq hv.symm) t).1 hn) hv
      · cases hpattern
    · cases hpattern

/-! ## Before white space -/

/-- No member of the class has white space behind its first character. -/
def Pattern.Solid : Pattern → Prop
  | exactly text => ∀ c ∈ text, Unicode.isWhiteSpace c = false
  | run _ later => ∀ c, Unicode.isWhiteSpace c → later c = false
  | line _ | enclosed _ _ => False

theorem not_continuesIdentifier_of_isWhiteSpace {c : Char} (h : Unicode.isWhiteSpace c) :
    continuesIdentifier c = false := by
  have hdigit := not_isDigit_of_isWhiteSpace h
  have hstarts := not_startsIdentifier_of_isWhiteSpace h
  simp only [startsIdentifier, Bool.or_eq_false_iff] at hstarts
  simp only [continuesIdentifier, Char.isAlphanum, Bool.or_eq_false_iff]
  exact ⟨⟨hstarts.1, hdigit⟩, hstarts.2⟩

/-- All classes but white space and comments are such. -/
theorem solid_of_mem : ∀ q ∈ lexicon, q.1.isTrivia = false → q.2.Solid := by
  simp (disch := decide) only [lexicon, List.forall_mem_cons, List.not_mem_nil, false_implies,
    implies_true, Kind.isTrivia, Pattern.Solid, not_isWhiteSpace, and_true, true_and,
    Bool.true_eq_false]
  exact ⟨fun _ _ => not_continuesIdentifier_of_isWhiteSpace,
    fun _ _ => not_isDigit_of_isWhiteSpace⟩

/-- White space does not complete an opening without any. -/
theorem isPrefixOf_append_space {text : List Char}
    (htext : ∀ c ∈ text, Unicode.isWhiteSpace c = false)
    (hu : ∀ c ∈ u.head?, Unicode.isWhiteSpace c) :
    text.isPrefixOf (w ++ u) = text.isPrefixOf w := by
  rw [Bool.eq_iff_iff, List.isPrefixOf_iff_prefix, List.isPrefixOf_iff_prefix]
  refine ⟨fun hbegins => ?_, fun hbegins => hbegins.trans (List.prefix_append w u)⟩
  rcases List.prefix_or_prefix_of_prefix hbegins (List.prefix_append w u) with h | ⟨v, rfl⟩
  · exact h
  · cases v with
    | nil => exact ⟨[], by rw [List.append_nil, List.append_nil]⟩
    | cons d v =>
      obtain ⟨s, hs⟩ := (List.prefix_append_right_inj w).1 hbegins
      have hd := hu d (by rw [← hs]; rfl)
      rw [htext d (by simp)] at hd
      cases hd

/-- A run ends before a character that does not belong to it. -/
theorem takeWhile_append_of_head {p : Char → Bool} (hu : ∀ c ∈ u.head?, p c = false) :
    (w ++ u).takeWhile p = w.takeWhile p := by
  have hend : u.takeWhile p = [] := by
    cases u with
    | nil => rfl
    | cons d u => rw [List.takeWhile_cons_of_neg (by simp [hu d rfl])]
  rw [List.takeWhile_append]
  split
  · next hall =>
    rw [hend, List.append_nil, List.IsPrefix.eq_of_length (List.takeWhile_prefix p) hall]
  · rfl

/-- White space ends what such a class measures, and adds nothing to it. -/
theorem Pattern.Solid.length?_append {p : Pattern} (hp : p.Solid) (hw : w ≠ [])
    (hu : ∀ c ∈ u.head?, Unicode.isWhiteSpace c) : p.length? (w ++ u) = p.length? w := by
  cases p with
  | exactly text => rw [length?, length?, isPrefixOf_append_space hp hu]
  | run first later =>
    obtain ⟨c, w, rfl⟩ := List.exists_cons_of_ne_nil hw
    have hrun : (w ++ u).takeWhile later = w.takeWhile later :=
      takeWhile_append_of_head fun d hd => hp d (hu d hd)
    rw [List.cons_append, length?, length?, hrun]
  | line => exact hp.elim
  | enclosed => exact hp.elim

/-- What fits as neither white space nor a comment does not begin as one. -/
theorem Fits.not_trivial (h : Fits kind w []) (hkind : kind.isTrivia = false) :
    (∀ c ∈ w.head?, Unicode.isWhiteSpace c = false) ∧ ['/', '/'].isPrefixOf w = false ∧
      ['/', '*'].isPrefixOf w = false := by
  obtain ⟨m, hmatch, rfl, -⟩ := h
  rw [List.append_nil] at hmatch
  refine ⟨fun c hc => ?_, ?_, ?_⟩
  · obtain ⟨v, rfl⟩ := List.head?_eq_some_iff.1 hc
    refine Bool.eq_false_iff.2 fun hwhite => ?_
    rw [bestMatch_whiteSpace hwhite] at hmatch
    cases hmatch
    cases hkind
  · refine Bool.eq_false_iff.2 fun hbegins => ?_
    obtain ⟨v, rfl⟩ := List.isPrefixOf_iff_prefix.1 hbegins
    cases (bestMatch_line v).symm.trans hmatch
    cases hkind
  · refine Bool.eq_false_iff.2 fun hbegins => ?_
    obtain ⟨v, rfl⟩ := List.isPrefixOf_iff_prefix.1 hbegins
    cases hindex : indexOf? ['*', '/'] v with
    | some n =>
      cases (bestMatch_enclosed hindex).symm.trans hmatch
      cases hkind
    | none =>
      have hmem : (Kind.comment, Pattern.enclosed ['/', '*'] ['*', '/']) ∈ lexicon := by
        simp [lexicon]
      obtain ⟨o, ho⟩ := length?_of_bestMatch hmatch _ hmem
      simp [Pattern.length?, hindex] at ho

/-- Every word fits before white space, except white space and comments. -/
theorem Fits.space (h : Fits kind w t) (hkind : kind.isTrivia = false)
    (hu : ∀ c ∈ u.head?, Unicode.isWhiteSpace c) : Fits kind w u := by
  have hw := h.ne_nil
  have halone : Fits kind w [] := h.truncate (List.nil_prefix)
  obtain ⟨hwhite, hline, henclosed⟩ := halone.not_trivial hkind
  obtain ⟨m, hmatch, hm⟩ := halone
  refine ⟨m, ?_, hm⟩
  rw [← hmatch, List.append_nil]
  apply bestMatch_congr
  intro q hq
  cases htrivia : q.1.isTrivia with
  | false => exact (solid_of_mem q hq htrivia).length?_append hw hu
  | true =>
    have hmem : q ∈ lexicon.filter (·.1.isTrivia) := List.mem_filter.2 ⟨hq, htrivia⟩
    rw [filter_isTrivia] at hmem
    simp only [List.mem_cons, List.not_mem_nil, or_false] at hmem
    have hopening {d : Char} (hd : Unicode.isWhiteSpace d = false) :
        ['/', d].isPrefixOf (w ++ u) = ['/', d].isPrefixOf w :=
      isPrefixOf_append_space (by simp [hd, not_isWhiteSpace]) hu
    rcases hmem with rfl | rfl | rfl
    · obtain ⟨c, w, rfl⟩ := List.exists_cons_of_ne_nil hw
      simp [Pattern.length?, hwhite c rfl]
    · simp [Pattern.length?, hopening, not_isWhiteSpace, hline]
    · simp [Pattern.length?, hopening, not_isWhiteSpace, henclosed]

end Descent.Token
