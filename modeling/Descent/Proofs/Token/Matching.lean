import Descent.Token.Pattern

/-!
# The best match

Of the classes that match at the beginning of a text, `bestMatch` finds the first of those with the
longest match (`bestMatch_of_split`), and what it finds matches (`of_bestMatch`) and is the longest
(`length_le_of_bestMatch`). Which classes come
into question is mostly settled by the first character (`bestMatch_filter`). So the words of the
language can be matched one by one: symbols, numerals, and names with the keywords among them.
-/

namespace Descent.Token

/-- Whether a member of the class may begin with the character. -/
def Pattern.begins (c : Char) : Pattern → Bool
  | exactly text => text.head?.all (· = c)
  | run first _ => first c
  | line opening => opening.head?.all (· = c)
  | enclosed opening _ => opening.head?.all (· = c)

/-- The class has no error in the text, and matches fewer than `n` characters if it matches. -/
def Pattern.Below (p : Pattern) (t : List Char) (n : Nat) : Prop :=
  ∃ o, p.length? t = .ok o ∧ ∀ k ∈ o, k < n

variable {t : List Char} {best : Option Match} {m : Match} {kind : Kind} {pattern : Pattern}
  {classes : List (Kind × Pattern)} {n : Nat} {c : Char}

theorem isPrefixOf_of_head {text : List Char} (h : text.head?.all (· = c) = false) :
    text.isPrefixOf (c :: t) = false := by
  cases text with
  | nil => cases h
  | cons a text =>
    have hne : (a == c) = false := by simpa using h
    simp [List.isPrefixOf, hne]

/-- The first character rules a class out. -/
theorem Pattern.length?_of_not_begins (h : pattern.begins c = false) :
    pattern.length? (c :: t) = .ok none := by
  cases pattern with
  | exactly text => simp [length?, isPrefixOf_of_head h]
  | run first later => simp [length?, show first c = false from h]
  | line opening => simp [length?, isPrefixOf_of_head h]
  | enclosed opening closing => simp [length?, isPrefixOf_of_head h]

theorem Pattern.below_of_not_begins (h : pattern.begins c = false) : pattern.Below (c :: t) n :=
  ⟨none, length?_of_not_begins h, nofun⟩

/-- Only the classes count that the first character leaves. -/
theorem bestMatch_filter : bestMatch (c :: t) classes best =
    bestMatch (c :: t) (classes.filter (·.2.begins c)) best := by
  induction classes generalizing best with
  | nil => rfl
  | cons q classes ih =>
    obtain ⟨kind, pattern⟩ := q
    by_cases h : pattern.begins c
    · rw [List.filter_cons, if_pos h, bestMatch, bestMatch]
      simp only [ih]
    · rw [List.filter_cons, if_neg h, bestMatch,
        Pattern.length?_of_not_begins (Bool.eq_false_iff.2 h)]
      exact ih

/-- A match is kept if no class matches more. -/
theorem bestMatch_of_below (h : ∀ q ∈ classes, q.2.Below t (m.length + 1)) :
    bestMatch t classes (some m) = .ok (some m) := by
  induction classes with
  | nil => rfl
  | cons q classes ih =>
    obtain ⟨⟨o, ho, hlt⟩, hs⟩ := List.forall_mem_cons.1 h
    rw [bestMatch, ho]
    cases o with
    | none => exact ih hs
    | some k =>
      have hle : k ≤ m.length := Nat.le_of_lt_succ (hlt k rfl)
      simp only [Match.longer, hle, if_true]
      split <;> exact ih hs

/-- What is found is the first of the longest matches. -/
theorem bestMatch_of_split {before after : List (Kind × Pattern)} (hn : 0 < n)
    (h : pattern.length? t = .ok (some n)) (hb : ∀ q ∈ before, q.2.Below t n)
    (ha : ∀ q ∈ after, q.2.Below t (n + 1)) :
    bestMatch t (before ++ (kind, pattern) :: after) none = .ok (some ⟨kind, n, hn⟩) := by
  have hbest : ∀ b ∈ (none : Option Match), b.length < n := nofun
  generalize (none : Option Match) = best at hbest
  induction before generalizing best with
  | nil =>
    rw [List.nil_append, bestMatch, h]
    have hlonger : Match.longer best ⟨kind, n, hn⟩ = ⟨kind, n, hn⟩ := by
      cases best with
      | none => rfl
      | some b => exact if_neg (Nat.not_le.2 (hbest b rfl))
    simp only [hn, dite_true, hlonger]
    exact bestMatch_of_below ha
  | cons q before ih =>
    obtain ⟨⟨o, ho, hlt⟩, hs⟩ := List.forall_mem_cons.1 hb
    rw [List.cons_append, bestMatch, ho]
    cases o with
    | none => exact ih hs best hbest
    | some k =>
      simp only
      split
      · refine ih hs _ fun b hb => ?_
        cases hb
        cases best with
        | none => exact hlt k rfl
        | some b' =>
          simp only [Match.longer]
          split
          · exact hbest b' rfl
          · exact hlt k rfl
      · exact ih hs best hbest

/-- What is found matches. -/
theorem of_bestMatch (h : bestMatch t classes best = .ok (some m)) :
    m ∈ best ∨ ∃ pattern, (m.kind, pattern) ∈ classes ∧
      pattern.length? t = .ok (some m.length) := by
  induction classes generalizing best with
  | nil =>
    cases h
    exact .inl rfl
  | cons q classes ih =>
    obtain ⟨kind, pattern⟩ := q
    have later {best : Option Match} (h : bestMatch t classes best = .ok (some m)) :
        m ∈ best ∨ ∃ q, (m.kind, q) ∈ (kind, pattern) :: classes ∧
          q.length? t = .ok (some m.length) :=
      (ih h).imp_right fun ⟨q, hq, hlength⟩ => ⟨q, List.mem_cons_of_mem _ hq, hlength⟩
    rw [bestMatch] at h
    cases hlength : pattern.length? t with
    | error e =>
      rw [hlength] at h
      cases h
    | ok o =>
      rw [hlength] at h
      cases o with
      | none => exact later h
      | some k =>
        simp only at h
        split at h
        · next hk =>
          rcases later h with hm | hm
          · cases best with
            | none =>
              cases hm
              exact .inr ⟨pattern, List.mem_cons_self, hlength⟩
            | some b =>
              simp only [Match.longer] at hm
              split at hm
              · exact .inl hm
              · cases hm
                exact .inr ⟨pattern, List.mem_cons_self, hlength⟩
          · exact .inr hm
        · exact later h

theorem Match.length_le_longer (best : Option Match) (m : Match) :
    m.length ≤ (longer best m).length ∧ ∀ b ∈ best, b.length ≤ (longer best m).length := by
  cases best with
  | none => exact ⟨Nat.le_refl _, nofun⟩
  | some b =>
    unfold longer
    dsimp only
    split
    · next hle => exact ⟨hle, fun _ hb => by cases hb; exact Nat.le_refl _⟩
    · next hlt => exact ⟨Nat.le_refl _, fun _ hb => by cases hb; exact Nat.le_of_not_le hlt⟩

/-- No class matches more than what is found. -/
theorem length_le_of_bestMatch (h : bestMatch t classes best = .ok (some m)) :
    (∀ b ∈ best, b.length ≤ m.length) ∧
      ∀ q ∈ classes, ∀ n, q.2.length? t = .ok (some n) → n ≤ m.length := by
  induction classes generalizing best with
  | nil =>
    cases h
    exact ⟨fun b hb => by cases hb; exact Nat.le_refl _, nofun⟩
  | cons q classes ih =>
    obtain ⟨kind, pattern⟩ := q
    rw [bestMatch] at h
    cases hlength : pattern.length? t with
    | error e =>
      rw [hlength] at h
      cases h
    | ok o =>
      rw [hlength] at h
      cases o with
      | none =>
        refine ⟨(ih h).1, List.forall_mem_cons.2 ⟨fun n hn => ?_, (ih h).2⟩⟩
        cases hlength.symm.trans hn
      | some k =>
        simp only at h
        split at h
        · next hk =>
          obtain ⟨hbest, hclasses⟩ := ih h
          have hm := hbest _ rfl
          obtain ⟨hle, hles⟩ := Match.length_le_longer best ⟨kind, k, hk⟩
          refine ⟨fun b hb => Nat.le_trans (hles b hb) hm,
            List.forall_mem_cons.2 ⟨fun n hn => ?_, hclasses⟩⟩
          cases hlength.symm.trans hn
          exact Nat.le_trans hle hm
        · next hk =>
          refine ⟨(ih h).1, List.forall_mem_cons.2 ⟨fun n hn => ?_, (ih h).2⟩⟩
          cases hlength.symm.trans hn
          exact Nat.le_trans (Nat.le_of_not_lt hk) (Nat.zero_le _)

theorem indexOf?_le {part : List Char} (h : indexOf? part t = some n) :
    n + part.length ≤ t.length := by
  induction t generalizing n with
  | nil =>
    unfold indexOf? at h
    split at h
    · next hpart =>
      cases h
      rw [hpart]
      exact Nat.le_refl 0
    · cases h
  | cons c t ih =>
    unfold indexOf? at h
    split at h
    · next hprefix =>
      cases h
      rw [Nat.zero_add]
      exact (List.isPrefixOf_iff_prefix.1 hprefix).length_le
    · obtain ⟨k, hk, rfl⟩ := Option.map_eq_some_iff.1 h
      have := ih hk
      rw [List.length_cons]
      omega

/-- A match is no longer than the text. -/
theorem Pattern.length?_le (h : pattern.length? t = .ok (some n)) : n ≤ t.length := by
  cases pattern with
  | exactly text =>
    simp only [length?, Except.ok.injEq, Option.ite_none_right_eq_some, Option.some.injEq] at h
    exact h.2 ▸ (List.isPrefixOf_iff_prefix.1 h.1).length_le
  | run first later =>
    cases t with
    | nil => cases h
    | cons c t =>
      simp only [length?, Except.ok.injEq, Option.ite_none_right_eq_some, Option.some.injEq] at h
      have := (List.takeWhile_prefix later (l := t)).length_le
      rw [List.length_cons]
      omega
  | line opening =>
    simp only [length?, Except.ok.injEq, Option.ite_none_right_eq_some, Option.some.injEq] at h
    have := (List.isPrefixOf_iff_prefix.1 h.1).length_le
    have hline := (List.takeWhile_prefix (· ≠ '\n') (l := t.drop opening.length)).length_le
    rw [List.length_drop] at hline
    omega
  | enclosed opening closing =>
    rw [length?] at h
    split at h
    · next hopening =>
      split at h
      · next k hk =>
        have := (List.isPrefixOf_iff_prefix.1 hopening).length_le
        have hclosing := indexOf?_le hk
        rw [List.length_drop] at hclosing
        cases h
        omega
      · cases h
    · cases h

variable {v w : List Char} {first later : Char → Bool}

/-- A run is as long as `w` if all of `w` belongs to it and what follows does not. -/
theorem length_takeWhile_append {p : Char → Bool} : ((w ++ t).takeWhile p).length = w.length ↔
    (∀ d ∈ w, p d) ∧ ∀ d ∈ t.head?, p d = false := by
  constructor
  · intro hlength
    have hsplit := List.takeWhile_append_dropWhile (p := p) (l := w ++ t)
    obtain ⟨htake, hdrop⟩ := List.append_inj hsplit hlength
    refine ⟨?_, fun d hd => ?_⟩
    · have hall := List.all_takeWhile (p := p) (l := w ++ t)
      rwa [htake, List.all_eq_true] at hall
    · have hhead := List.head?_dropWhile_not p (w ++ t)
      rwa [hdrop, Option.mem_def.1 hd] at hhead
  · rintro ⟨hw, ht⟩
    have hend : t.takeWhile p = [] := by
      cases t with
      | nil => rfl
      | cons d t => rw [List.takeWhile_cons_of_neg (by simp [ht d rfl])]
    rw [List.takeWhile_append_of_pos hw, hend, List.append_nil]

/-- A run that has ended is measured by its class. -/
theorem length?_run (hc : first c) (hw : ∀ d ∈ w, later d) (ht : ∀ d ∈ t.head?, later d = false) :
    (Pattern.run first later).length? (c :: w ++ t) = .ok (some (c :: w).length) := by
  rw [List.cons_append, Pattern.length?, if_pos hc, length_takeWhile_append.2 ⟨hw, ht⟩]
  rfl

/-- What a class of runs measures is a run that has ended. -/
theorem of_length?_run (h : (Pattern.run first later).length? (c :: w ++ t) =
    .ok (some (c :: w).length)) :
    first c ∧ (∀ d ∈ w, later d) ∧ ∀ d ∈ t.head?, later d = false := by
  simp only [List.cons_append, Pattern.length?, Except.ok.injEq, Option.ite_none_right_eq_some,
    Option.some.injEq, List.length_cons, Nat.add_right_cancel_iff] at h
  exact ⟨h.1, length_takeWhile_append.1 h.2⟩

/-- The end of the input is not matched. -/
theorem ne_eof_of_bestMatch (h : bestMatch t lexicon none = .ok (some m)) : m.kind ≠ .eof := by
  rcases of_bestMatch h with hm | ⟨pattern, hmem, -⟩
  · cases hm
  · intro heof
    have hnone : ∀ q ∈ lexicon, q.1 ≠ .eof := by simp [lexicon]
    exact hnone _ hmem heof

/-! ## Words -/

/-- The keywords. -/
def reserved : List (Kind × List Char) := [
  (.kwLet, ['l', 'e', 't']),
  (.kwReturn, ['r', 'e', 't', 'u', 'r', 'n']),
  (.kwFn, ['f', 'n']),
  (.kwIf, ['i', 'f']),
  (.kwElse, ['e', 'l', 's', 'e']),
  (.kwTrue, ['t', 'r', 'u', 'e']),
  (.kwFalse, ['f', 'a', 'l', 's', 'e'])]

/-- Whether the text has the shape of a name, which keywords have, too. -/
def IsWord : List Char → Bool
  | [] => false
  | c :: t => startsIdentifier c && t.all continuesIdentifier

/-- The text is a name: a word that is not reserved. -/
def IsName (w : List Char) : Prop := IsWord w ∧ ∀ q ∈ reserved, q.2 ≠ w

instance (w : List Char) : Decidable (IsName w) := inferInstanceAs (Decidable (_ ∧ _))

/-- The class of names. -/
def namePattern : Pattern := .run startsIdentifier continuesIdentifier

/-- The classes that are listed before the keywords. -/
def beforeWords : List (Kind × Pattern) := lexicon.take 3

/-- The classes that are listed behind the names. -/
def behindWords : List (Kind × Pattern) := lexicon.drop 11

/-- A keyword as a class of its own. -/
def keywordClass (q : Kind × List Char) : Kind × Pattern := (q.1, .exactly q.2)

theorem lexicon_eq : lexicon =
    beforeWords ++ (reserved.map keywordClass ++ (.identifier, namePattern) :: behindWords) := rfl

theorem not_isWhiteSpace (h : 0x20 < c.toNat) (h' : c.toNat < 0x85) :
    Unicode.isWhiteSpace c = false := by
  simp only [Unicode.isWhiteSpace, Unicode.Ranges.covers, Unicode.whiteSpace, List.any_cons,
    List.any_nil, Bool.or_false, Bool.or_eq_false_iff, Bool.and_eq_false_iff,
    decide_eq_false_iff_not]
  omega

theorem visible_of_startsIdentifier (h : startsIdentifier c) : 0x41 ≤ c.toNat ∧ c.toNat ≤ 0x7A := by
  rcases (Bool.or_eq_true ..).mp h with h | h
  · rcases (Bool.or_eq_true ..).mp h with h | h
    · have hupper : 65 ≤ c.toNat ∧ c.toNat ≤ 90 := of_decide_eq_true h
      omega
    · obtain ⟨hlo, hhi⟩ := (Bool.and_eq_true ..).mp h
      have hlo : 97 ≤ c.toNat := of_decide_eq_true hlo
      have hhi : c.toNat ≤ 122 := of_decide_eq_true hhi
      omega
  · rw [beq_iff_eq.1 h]
    decide

theorem visible_of_isDigit (h : c.isDigit) : 0x30 ≤ c.toNat ∧ c.toNat ≤ 0x39 :=
  Char.isDigit_iff_toNat.1 h

theorem not_isDigit_of_startsIdentifier (h : startsIdentifier c) : c.isDigit = false := by
  refine Bool.eq_false_iff.2 fun hd => ?_
  have := visible_of_isDigit hd
  have := visible_of_startsIdentifier h
  omega

theorem ne_of_test {p : Char → Bool} (h : p c) {d : Char} (hd : p d = false) : (d = c) = False := by
  refine eq_false fun hdc => ?_
  rw [hdc, h] at hd
  cases hd

/-- No class but keywords and names begins with a character that a word begins with. -/
theorem not_begins_of_startsIdentifier (h : startsIdentifier c) :
    ∀ q ∈ beforeWords ++ behindWords, q.2.begins c = false := by
  obtain ⟨hlo, hhi⟩ := visible_of_startsIdentifier h
  have hwhite : Unicode.isWhiteSpace c = false := not_isWhiteSpace (by omega) (by omega)
  have hne {d : Char} (hd : startsIdentifier d = false) := ne_of_test h hd
  simp (disch := decide) [beforeWords, behindWords, lexicon, Pattern.begins, hwhite,
    not_isDigit_of_startsIdentifier h, hne]

theorem continues_of_isWord {w : List Char} (hw : IsWord w) : ∀ c ∈ w, continuesIdentifier c := by
  cases w with
  | nil => cases hw
  | cons c w =>
    obtain ⟨hc, hcs⟩ := Bool.and_eq_true_iff.1 hw
    refine List.forall_mem_cons.2 ⟨?_, List.all_eq_true.1 hcs⟩
    simp only [startsIdentifier, Bool.or_eq_true] at hc
    simp only [continuesIdentifier, Char.isAlphanum, Bool.or_eq_true]
    exact hc.imp_left .inl

theorem isWord_of_reserved {q : Kind × List Char} (h : q ∈ reserved) : IsWord q.2 := by
  revert q
  decide

/-- Nothing follows the text that would go on with a word. -/
def EndsWord (t : List Char) : Prop := ∀ c ∈ t.head?, continuesIdentifier c = false

theorem length?_namePattern (hw : IsWord w) (ht : EndsWord t) :
    namePattern.length? (w ++ t) = .ok (some w.length) := by
  cases w with
  | nil => cases hw
  | cons c w =>
    obtain ⟨hc, hcs⟩ := Bool.and_eq_true_iff.1 hw
    exact length?_run hc (List.all_eq_true.1 hcs) ht

/-- A word that the text begins with is a part of the word that it begins with. -/
theorem prefix_of_isWord (hv : IsWord v) (ht : EndsWord t) (h : v.isPrefixOf (w ++ t)) :
    v <+: w := by
  have h := List.isPrefixOf_iff_prefix.1 h
  rcases List.prefix_or_prefix_of_prefix h (List.prefix_append w t) with h' | ⟨u, rfl⟩
  · exact h'
  · cases u with
    | nil => exact ⟨[], by rw [List.append_nil, List.append_nil]⟩
    | cons d u =>
      obtain ⟨s, hs⟩ := (List.prefix_append_right_inj w).1 h
      have hd := ht d (by rw [← hs]; rfl)
      rw [continues_of_isWord hv d (by simp)] at hd
      cases hd

theorem below_of_isWord (hv : IsWord v) (ht : EndsWord t) :
    (Pattern.exactly v).Below (w ++ t) (w.length + 1) := by
  refine ⟨_, rfl, fun k hk => ?_⟩
  split at hk
  · next h =>
    cases hk
    exact Nat.lt_succ_of_le (prefix_of_isWord hv ht h).length_le
  · cases hk

theorem below_of_ne (hv : IsWord v) (ht : EndsWord t) (hne : v ≠ w) :
    (Pattern.exactly v).Below (w ++ t) w.length := by
  refine ⟨_, rfl, fun k hk => ?_⟩
  split at hk
  · next h =>
    cases hk
    have hpart := prefix_of_isWord hv ht h
    exact Nat.lt_of_le_of_ne hpart.length_le fun h => hne (hpart.eq_of_length h)
  · cases hk

theorem below_of_other (hw : IsWord w) :
    ∀ q ∈ beforeWords ++ behindWords, q.2.Below (w ++ t) n := by
  cases w with
  | nil => cases hw
  | cons c w =>
    intro q hq
    exact Pattern.below_of_not_begins
      (not_begins_of_startsIdentifier (Bool.and_eq_true_iff.1 hw).1 q hq)

theorem length_pos_of_isWord (hw : IsWord w) : 0 < w.length := by
  cases w with
  | nil => cases hw
  | cons c w => exact Nat.succ_pos _

/-- A name that has ended is matched as one. -/
theorem bestMatch_name (hw : IsName w) (ht : EndsWord t) : bestMatch (w ++ t) lexicon none =
    .ok (some ⟨.identifier, w.length, length_pos_of_isWord hw.1⟩) := by
  rw [lexicon_eq, ← List.append_assoc]
  refine bestMatch_of_split _ (length?_namePattern hw.1 ht) (fun q hq => ?_) fun q hq =>
    below_of_other hw.1 q (List.mem_append_right _ hq)
  rcases List.mem_append.1 hq with hq | hq
  · exact below_of_other hw.1 q (List.mem_append_left _ hq)
  · obtain ⟨r, hr, rfl⟩ := List.mem_map.1 hq
    exact below_of_ne (isWord_of_reserved hr) ht (hw.2 r hr)

/-- A keyword that has ended is matched as one, although it could be a name. -/
theorem bestMatch_keyword (h : (kind, w) ∈ reserved) (ht : EndsWord t) :
    bestMatch (w ++ t) lexicon none =
      .ok (some ⟨kind, w.length, length_pos_of_isWord (isWord_of_reserved h)⟩) := by
  have hw : IsWord w := isWord_of_reserved h
  obtain ⟨before, after, hreserved⟩ := List.append_of_mem h
  have hnodup : (reserved.map Prod.snd).Nodup := by decide
  have hne : ∀ q ∈ before, q.2 ≠ w := by
    rw [hreserved, List.map_append, List.nodup_append] at hnodup
    intro q hq
    exact hnodup.2.2 _ (List.mem_map_of_mem hq) _ (by simp)
  have hmem {q : Kind × List Char} (hq : q ∈ before ++ after) : q ∈ reserved := by
    rw [hreserved]
    rcases List.mem_append.1 hq with hq | hq <;> simp [hq]
  have hsplit : lexicon = (beforeWords ++ before.map keywordClass) ++ (kind, .exactly w) ::
      (after.map keywordClass ++ (.identifier, namePattern) :: behindWords) := by
    rw [lexicon_eq, hreserved]
    simp [keywordClass]
  rw [hsplit]
  refine bestMatch_of_split _ (by simp [Pattern.length?]) (fun q hq => ?_) fun q hq => ?_
  · rcases List.mem_append.1 hq with hq | hq
    · exact below_of_other hw q (List.mem_append_left _ hq)
    · obtain ⟨r, hr, rfl⟩ := List.mem_map.1 hq
      exact below_of_ne (isWord_of_reserved (hmem (List.mem_append_left _ hr))) ht (hne r hr)
  · rcases List.mem_append.1 hq with hq | hq
    · obtain ⟨r, hr, rfl⟩ := List.mem_map.1 hq
      exact below_of_isWord (isWord_of_reserved (hmem (List.mem_append_right _ hr))) ht
    · rcases List.mem_cons.1 hq with rfl | hq
      · exact ⟨_, length?_namePattern hw ht, fun k hk => by cases hk; exact Nat.lt_succ_self _⟩
      · exact below_of_other hw q (List.mem_append_right _ hq)

/-! ## Numerals and white space -/

/-- A numeral that has ended is matched as one. -/
theorem bestMatch_integer (hw : w ≠ []) (hdigits : ∀ c ∈ w, c.isDigit)
    (ht : ∀ c ∈ t.head?, c.isDigit = false) : bestMatch (w ++ t) lexicon none =
      .ok (some ⟨.integer, w.length, List.length_pos_iff.2 hw⟩) := by
  obtain ⟨c, w, rfl⟩ := List.exists_cons_of_ne_nil hw
  obtain ⟨hc, hcs⟩ := List.forall_mem_cons.1 hdigits
  have hlength : (Pattern.run Char.isDigit Char.isDigit).length? (c :: w ++ t) =
      .ok (some (c :: w).length) := length?_run hc hcs ht
  have hother : ∀ q ∈ lexicon.take 11 ++ lexicon.drop 12, q.2.begins c = false := by
    obtain ⟨hlo, hhi⟩ := visible_of_isDigit hc
    have hwhite : Unicode.isWhiteSpace c = false := not_isWhiteSpace (by omega) (by omega)
    have hstarts : startsIdentifier c = false := by
      refine Bool.eq_false_iff.2 fun hs => ?_
      rw [not_isDigit_of_startsIdentifier hs] at hc
      cases hc
    have hne {d : Char} (hd : d.isDigit = false) := ne_of_test hc hd
    simp (disch := decide) [lexicon, Pattern.begins, hwhite, hstarts, hne]
  exact bestMatch_of_split _ hlength
    (fun q hq => Pattern.below_of_not_begins (hother q (List.mem_append_left _ hq)))
    fun q hq => Pattern.below_of_not_begins (hother q (List.mem_append_right _ hq))

theorem not_isDigit_of_isWhiteSpace (h : Unicode.isWhiteSpace c) : c.isDigit = false := by
  refine Bool.eq_false_iff.2 fun hd => ?_
  have := visible_of_isDigit hd
  rw [not_isWhiteSpace (by omega) (by omega)] at h
  cases h

theorem not_startsIdentifier_of_isWhiteSpace (h : Unicode.isWhiteSpace c) :
    startsIdentifier c = false := by
  refine Bool.eq_false_iff.2 fun hs => ?_
  have := visible_of_startsIdentifier hs
  rw [not_isWhiteSpace (by omega) (by omega)] at h
  cases h

/-- White space is matched as far as it goes. -/
theorem bestMatch_whiteSpace (hc : Unicode.isWhiteSpace c) : bestMatch (c :: t) lexicon none =
    .ok (some ⟨.whiteSpace, (t.takeWhile Unicode.isWhiteSpace).length + 1, Nat.succ_pos _⟩) := by
  have hother : ∀ q ∈ lexicon.drop 1, q.2.begins c = false := by
    have hne {d : Char} (hd : Unicode.isWhiteSpace d = false) := ne_of_test hc hd
    simp (disch := decide) [lexicon, Pattern.begins, not_startsIdentifier_of_isWhiteSpace hc,
      not_isDigit_of_isWhiteSpace hc, hne]
  rw [show lexicon = [] ++ lexicon.head (by decide) :: lexicon.drop 1 from rfl]
  exact bestMatch_of_split _ (by simp [Pattern.length?, hc]) nofun
    fun q hq => Pattern.below_of_not_begins (hother q hq)

/-- The sign of negation is matched as such if it does not begin that of inequality. -/
theorem bestMatch_bang (ht : t.head? ≠ some '=') :
    bestMatch ('!' :: t) lexicon none = .ok (some ⟨.bang, 1, Nat.one_pos⟩) := by
  have hclasses : lexicon.filter (·.2.begins '!') =
      [(.notEqual, .exactly ['!', '=']), (.bang, .exactly ['!'])] := rfl
  have hshort : ['!', '='].isPrefixOf ('!' :: t) = false := by
    cases t with
    | nil => rfl
    | cons d t =>
      have hd : ('=' == d) = false := beq_eq_false_iff_ne.2 fun hd => ht (hd ▸ rfl)
      simp [List.isPrefixOf, hd]
  rw [bestMatch_filter, hclasses, bestMatch]
  simp only [Pattern.length?, hshort]
  rfl

end Descent.Token
