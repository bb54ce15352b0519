import Descent.Proofs.Parser.Acceptance
import Descent.Proofs.Tree.Spans

/-!
# Finding one's way on a tape

Any tokens can be sorted onto a tape, whatever ends and trivia are among them (`Tape.Sorts`), and
any steps from its start lead to the place that is found by counting those that advance
(`Input.Further`). Main statement: this, and what can be seen from such a place
(`Input.walk_ofTokens`). From the end on, nothing but the end is seen, so that a step or a look may
go as far as it likes.
-/

namespace Descent

namespace Position

theorem le_total (p q : Position) : p ≤ q ∨ q ≤ p := by
  rw [le_iff, le_iff]
  omega

theorem le_max_left (p q : Position) : p ≤ max p q := by
  show p ≤ if p ≤ q then q else p
  split
  · assumption
  · exact le_refl p

theorem le_max_right (p q : Position) : q ≤ max p q := by
  show q ≤ if p ≤ q then q else p
  split
  · exact le_refl q
  · next h => exact (le_total p q).resolve_left h

theorem max_eq (p q : Position) : max p q = p ∨ max p q = q := by
  show (if p ≤ q then q else p) = p ∨ (if p ≤ q then q else p) = q
  split
  · exact .inr rfl
  · exact .inl rfl

end Position

/-! ## Tapes -/

namespace Tape

/-- The last token that is not trivia, and the last one that is. -/
def lasts (tokens : List Token) : List Token :=
  (tokens.filter (!·.kind.isTrivia)).getLast?.toList ++
    (tokens.filter (·.kind.isTrivia)).getLast?.toList

/-- Where the last token or the last trivia ends, whichever ends later; if there are no tokens at
all, the start of the text. -/
structure IsEndOf (tokens : List Token) (p : Position) : Prop where
  start : tokens = [] → p = .start
  attained : tokens ≠ [] → ∃ t ∈ lasts tokens, t.span.stop = p
  le : ∀ t ∈ lasts tokens, t.span.stop ≤ p

/-- The tape has all the tokens in order, trivia apart from the others, and one end. That is the
first end among the tokens or, if they have none, one without characters behind them. -/
structure Sorts (tokens : List Token) (tape : Tape) : Prop where
  significant : tape.toList =
    tokens.filter (fun t => t.kind ≠ .eof && !t.kind.isTrivia) ++ [tape.eof]
  trivia : tape.trivia = tokens.filter (·.kind.isTrivia)
  ends : tape.toList.filter (·.kind = .eof) = [tape.eof]
  eof : match tokens.find? (·.kind = .eof) with
    | some x => tape.eof = x
    | none => ∃ p, tape.eof = Token.eofAt p ∧ IsEndOf tokens p

variable {tokens : List Token} {tape : Tape} {i : Nat}

theorem isEndOf_endOf (tokens : List Token) : IsEndOf tokens
    (endOf (tokens.filter (!·.kind.isTrivia)) (tokens.filter (·.kind.isTrivia))) := by
  have hnil : tokens.filter (!·.kind.isTrivia) = [] → tokens.filter (·.kind.isTrivia) = [] →
      tokens = [] := by
    intro hkept htrivia
    rw [List.filter_eq_nil_iff] at hkept htrivia
    refine List.eq_nil_iff_forall_not_mem.2 fun t ht => hkept t ht ?_
    simpa using htrivia t ht
  constructor
  · rintro rfl
    rfl
  · intro hne
    unfold lasts endOf
    cases hkept : (tokens.filter (!·.kind.isTrivia)).getLast? with
    | none =>
      cases htrivia : (tokens.filter (·.kind.isTrivia)).getLast? with
      | none =>
        exact absurd
          (hnil (List.getLast?_eq_none_iff.1 hkept) (List.getLast?_eq_none_iff.1 htrivia)) hne
      | some u => exact ⟨u, by simp, rfl⟩
    | some t =>
      cases htrivia : (tokens.filter (·.kind.isTrivia)).getLast? with
      | none => exact ⟨t, by simp, rfl⟩
      | some u =>
        rcases Position.max_eq t.span.stop u.span.stop with h | h
        · exact ⟨t, by simp, h.symm⟩
        · exact ⟨u, by simp, h.symm⟩
  · unfold lasts endOf
    cases (tokens.filter (!·.kind.isTrivia)).getLast? with
    | none =>
      cases (tokens.filter (·.kind.isTrivia)).getLast? with
      | none => simp
      | some u => simpa using Position.le_refl _
    | some t =>
      cases (tokens.filter (·.kind.isTrivia)).getLast? with
      | none => simpa using Position.le_refl _
      | some u => simpa using ⟨Position.le_max_left _ _, Position.le_max_right _ _⟩

theorem find?_significant (tokens : List Token) :
    (tokens.filter (!·.kind.isTrivia)).find? (·.kind = .eof) = tokens.find? (·.kind = .eof) := by
  rw [List.find?_filter]
  congr 1
  funext t
  cases ht : t.kind <;> simp [Token.Kind.isTrivia]

theorem sorts_ofTokens (tokens : List Token) : (ofTokens tokens).Sorts tokens where
  significant := rfl
  trivia := rfl
  ends := by
    have hnone : (ofTokens tokens).tokens.toList.filter (·.kind = .eof) = [] :=
      List.filter_eq_nil_iff.2 fun t ht => by
        simpa using ((ofTokens tokens).tokens_significant t (Array.mem_toList_iff.1 ht)).1
    rw [toList, List.filter_append, hnone]
    simp [(ofTokens tokens).eof_kind]
  eof := by
    have heof : (ofTokens tokens).eof = (tokens.find? (·.kind = .eof)).getD (.eofAt
        (endOf (tokens.filter (!·.kind.isTrivia)) (tokens.filter (·.kind.isTrivia)))) := by
      rw [← find?_significant]
      rfl
    rw [heof]
    cases tokens.find? (·.kind = .eof) with
    | some x => rfl
    | none => exact ⟨_, rfl, isEndOf_endOf tokens⟩

/-- Sorting what rules see of a tape leads to the same. -/
theorem toList_ofTokens_toList (tape : Tape) : (ofTokens tape.toList).toList = tape.toList := by
  refine toList_ofTokens (fun t ht => ?_) tape.eof_kind
  obtain ⟨heof, htrivia⟩ := tape.tokens_significant t (Array.mem_toList_iff.1 ht)
  exact ⟨heof, Bool.eq_false_iff.2 htrivia⟩

theorem token_of_size_le (h : tape.tokens.size ≤ i) : tape.token i = tape.eof := by
  rw [token, Array.getElem?_eq_none h]
  rfl

/-- From the end on, there is nothing but the end. -/
theorem token_min (tape : Tape) (i : Nat) : tape.token (min i tape.tokens.size) = tape.token i := by
  rcases Nat.le_total i tape.tokens.size with h | h
  · rw [Nat.min_eq_left h]
  · rw [Nat.min_eq_right h, token_of_size_le h, token_of_size_le (Nat.le_refl _)]

end Tape

/-! ## Places on a tape -/

namespace Input

/-- What can be done at a place other than reading it: to advance, to change the depth of nesting,
or to record an error. -/
inductive Step where
  | advance
  | descend
  | atDepth (depth : Nat)
  | record (e : ParseError)

/-- Whether the step leads to the next token. -/
def Step.isAdvance : Step → Bool
  | advance => true
  | _ => false

/-- The input after one step. -/
def step (s : Input) : Step → Except ParseError Input
  | .advance => s.advance
  | .descend => s.descend
  | .atDepth depth => .ok (s.atDepth depth)
  | .record e => .ok (s.record e)

/-- The input after some steps. -/
def walk (s : Input) : List Step → Except ParseError Input
  | [] => .ok s
  | m :: ms =>
    match s.step m with
    | .ok t => t.walk ms
    | .error e => .error e

/-- `t` is `n` tokens further on than `s`, or at the end if there are fewer, on the same tape and
with the same settings. -/
structure Further (n : Nat) (s t : Input) : Prop where
  tape : t.tape = s.tape
  settings : t.settings = s.settings
  position : t.position = min (s.position + n) s.tape.tokens.size

variable {s t u : Input} {m n k : Nat} {e : ParseError}

namespace Further

theorem here (htape : t.tape = s.tape) (hsettings : t.settings = s.settings)
    (hposition : t.position = s.position) : Further 0 s t :=
  ⟨htape, hsettings, hposition.trans (Nat.min_eq_left s.position_le).symm⟩

theorem trans (h : Further m s t) (h' : Further n t u) : Further (m + n) s u where
  tape := h'.tape.trans h.tape
  settings := h'.settings.trans h.settings
  position := by
    rw [h'.position, h.position, h.tape]
    omega

/-- What lies ahead of the place further on is what lies ahead here, but for the tokens between. -/
theorem peek (h : Further n s t) (k : Nat) : t.peek k = s.peek (n + k) := by
  show t.tape.token (t.position + k) = s.tape.token (s.position + (n + k))
  rw [← Tape.token_min s.tape, ← Tape.token_min t.tape, h.tape, h.position]
  congr 1
  omega

end Further

theorem further_of_advance (h : s.advance = .ok t) : Further 1 s t := by
  have := s.position_le
  unfold Input.advance at h
  split at h
  · cases h
    refine ⟨rfl, rfl, ?_⟩
    show s.position + 1 = _
    omega
  · split at h
    · cases h
      exact ⟨rfl, rfl, by omega⟩
    · cases h

/-- One step leads one token further on or none. -/
theorem further_of_step {a : Step} (h : s.step a = .ok t) :
    Further (if a.isAdvance then 1 else 0) s t := by
  cases a with
  | advance => exact further_of_advance h
  | descend =>
    cases descend_eq_ok h
    exact .here rfl rfl rfl
  | atDepth depth =>
    cases h
    exact .here rfl rfl rfl
  | record e =>
    cases h
    have hp := s.record_passes e
    exact .here hp.tape hp.settings hp.position

/-- Steps lead as many tokens further on as there are steps that advance. -/
theorem further_of_walk {as : List Step} (h : s.walk as = .ok t) :
    Further (as.countP Step.isAdvance) s t := by
  induction as generalizing s with
  | nil =>
    cases h
    exact .here rfl rfl rfl
  | cons a as ih =>
    unfold walk at h
    split at h
    · next u hu =>
      rw [List.countP_cons, Nat.add_comm]
      exact (further_of_step hu).trans (ih h)
    · cases h

theorem exists_advance (hs : s.settings.advancePastEnd = .saturate) : ∃ t, s.advance = .ok t := by
  unfold Input.advance
  rw [hs]
  split
  · exact ⟨_, rfl⟩
  · exact ⟨s, rfl⟩

/-- Where the end is no obstacle, one can advance any number of times. -/
theorem exists_walk_advance (hs : s.settings.advancePastEnd = .saturate) (n : Nat) :
    ∃ t, s.walk (.replicate n .advance) = .ok t ∧ Further n s t := by
  induction n generalizing s with
  | zero => exact ⟨s, rfl, .here rfl rfl rfl⟩
  | succ n ih =>
    obtain ⟨u, hu⟩ := exists_advance hs
    have hfurther := further_of_advance hu
    obtain ⟨t, ht, hrest⟩ := ih ((congrArg Settings.advancePastEnd hfurther.settings).trans hs)
    refine ⟨t, ?_, Nat.add_comm 1 n ▸ hfurther.trans hrest⟩
    have hstep : s.step .advance = .ok u := hu
    rw [List.replicate_succ, walk, hstep]
    exact ht

/-- Where the end is an obstacle, it is the only one. -/
theorem advance_eq_error_iff (hs : s.settings.advancePastEnd = .fail) :
    s.advance = .error e ↔ s.position = s.tape.tokens.size ∧ e = s.error .pastEnd := by
  have := s.position_le
  unfold Input.advance
  rw [hs]
  split
  · next hlt => simp [Nat.ne_of_lt hlt]
  · next hlt =>
    have hend : s.position = s.tape.tokens.size := by omega
    simp [hend, eq_comm]

theorem ahead_eq (s : Input) : s.ahead = s.tape.toList.drop s.position := by
  have hle : s.position ≤ s.tape.tokens.toList.length := s.position_le
  rw [ahead, Tape.toList, List.drop_append_of_le_length hle]

/-- No look goes further than the end. -/
theorem getElem?_peek (s : Input) (k : Nat) :
    s.tape.toList[min (s.position + k) s.tape.tokens.size]? = some (s.peek k) := by
  rw [Tape.getElem?_toList (Nat.min_le_right _ _), Tape.token_min]
  rfl

theorem getElem?_ahead (s : Input) (k : Nat) :
    s.ahead[min k (s.ahead.length - 1)]? = some (s.peek k) := by
  have := s.position_le
  rw [ahead_eq, List.length_drop, Tape.length_toList, List.getElem?_drop]
  have hindex : s.position + min k (s.tape.tokens.size + 1 - s.position - 1) =
      min (s.position + k) s.tape.tokens.size := by omega
  rw [hindex, getElem?_peek]

/-- A bound on how far one may look makes no difference if the end is within it. -/
theorem getElem?_peek_min (s : Input) (k : Nat) {bound : Nat}
    (h : s.tape.tokens.size ≤ bound) :
    s.tape.toList[min (min (s.position + k) bound) s.tape.tokens.size]? = some (s.peek k) := by
  have hindex : min (min (s.position + k) bound) s.tape.tokens.size =
      min (s.position + k) s.tape.tokens.size := by omega
  rw [hindex, getElem?_peek]

/-- Tokens are sorted onto a tape, and sorting what rules see of it leads to the same. Any steps
from its start lead to the token that is found by counting those that advance, or to the end, on the
same tape and with the same settings. What lies ahead there is what the tape has from there on, and
at a distance stands the token that is so far ahead, or the end if there are fewer; at the distances
that the settings allow, and at no other, it can be looked at. If advancing stays at the end, one
can advance any number of times, and the tokens ahead are then those that were so much further
ahead. If it fails there, it fails there alone. -/
theorem walk_ofTokens (settings : Settings) (tokens : List Token) :
    (Tape.ofTokens tokens).Sorts tokens ∧
    (Tape.ofTokens (Tape.ofTokens tokens).toList).toList = (Tape.ofTokens tokens).toList ∧
    ∀ as s, (ofTokens settings tokens).walk as = .ok s →
      s.tape = .ofTokens tokens ∧ s.settings = settings ∧
      s.position = min (as.countP Step.isAdvance) s.tape.tokens.size ∧
      s.ahead = s.tape.toList.drop s.position ∧
      (∀ k, s.ahead[min k (s.ahead.length - 1)]? = some (s.peek k)) ∧
      (∀ k bound, s.tape.tokens.size ≤ bound →
        s.tape.toList[min (min (s.position + k) bound) s.tape.tokens.size]? = some (s.peek k)) ∧
      (∀ k, s.lookahead k =
        if k < settings.lookaheadDepth then .ok (s.peek k) else .error (s.error .beyondLookahead)) ∧
      (settings.advancePastEnd = .saturate → ∀ n, ∃ t, s.walk (.replicate n .advance) = .ok t ∧
        t.position = min (s.position + n) s.tape.tokens.size ∧ ∀ k, t.peek k = s.peek (n + k)) ∧
      (settings.advancePastEnd = .fail → ∀ e,
        s.advance = .error e ↔ s.position = s.tape.tokens.size ∧ e = s.error .pastEnd) := by
  refine ⟨Tape.sorts_ofTokens tokens, Tape.toList_ofTokens_toList _, fun as s h => ?_⟩
  have hfurther := further_of_walk h
  have hsettings : s.settings = settings := hfurther.settings
  have hposition : s.position = min (as.countP Step.isAdvance) s.tape.tokens.size := by
    rw [hfurther.position, hfurther.tape]
    exact congrArg (min · _) (Nat.zero_add _)
  refine ⟨hfurther.tape, hsettings, hposition, s.ahead_eq, s.getElem?_ahead,
    fun k bound => s.getElem?_peek_min k, fun k => ?_, fun hs n => ?_, fun hs e => ?_⟩
  · rw [← hsettings]
    rfl
  · obtain ⟨t, ht, htn⟩ := exists_walk_advance (hsettings ▸ hs) n
    exact ⟨t, ht, htn.position, htn.peek⟩
  · exact advance_eq_error_iff (hsettings ▸ hs)

/-- A name and a comment, and no end: it is put behind the comment, and whoever advances three times
behind the name is there. -/
theorem walk_ofTokens_comment :
    ∃ s, (ofTokens {} [⟨.identifier, ['a'], ⟨⟨0, 1, 1⟩, ⟨1, 1, 2⟩⟩⟩,
        ⟨.comment, ['/', '/'], ⟨⟨2, 1, 3⟩, ⟨4, 1, 5⟩⟩⟩]).walk [.descend, .advance] = .ok s ∧
      s.position = 1 ∧ s.current = .eofAt ⟨4, 1, 5⟩ ∧
      ∃ t, s.walk (.replicate 3 .advance) = .ok t ∧ t.position = 1 ∧
        ∀ k, t.peek k = s.peek (3 + k) := by
  obtain ⟨-, -, hwalk⟩ := walk_ofTokens {} [⟨.identifier, ['a'], ⟨⟨0, 1, 1⟩, ⟨1, 1, 2⟩⟩⟩,
    ⟨.comment, ['/', '/'], ⟨⟨2, 1, 3⟩, ⟨4, 1, 5⟩⟩⟩]
  obtain ⟨-, -, -, -, -, -, -, hadvance, -⟩ := hwalk [.descend, .advance] _ rfl
  exact ⟨_, rfl, rfl, rfl, hadvance rfl 3⟩

end Input

end Descent
