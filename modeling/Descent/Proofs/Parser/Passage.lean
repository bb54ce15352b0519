import Descent.Rule

/-!
# Passages

`s.Passes ts t` says that `t` is the input `s` after the tokens `ts`: on the same tape, with the
same settings and the same depth. What errors have been recorded on the way is left open, for it
never matters to where parsing goes.
-/

namespace Descent

namespace Input

variable {s t u : Input} {ts us : List Token}

/-- The tokens ahead, without the end. -/
def rest (s : Input) : List Token := s.tape.tokens.toList.drop s.position

theorem length_rest (s : Input) : s.rest.length = s.left := by
  simp [rest, left]

theorem peek_zero (s : Input) : s.current = s.rest.head?.getD s.tape.eof := by
  simp [current, peek, rest, List.head?_drop]

theorem current_of_rest {a : Token} (h : s.rest = a :: ts) : s.current = a := by
  simp [peek_zero, h]

theorem current_of_rest_nil (h : s.rest = []) : s.current = s.tape.eof := by
  simp [peek_zero, h]

theorem ne_eof_of_rest {a : Token} (h : a ∈ s.rest) : a.kind ≠ .eof :=
  (s.tape.tokens_significant a (by simpa using List.mem_of_mem_drop h)).1

theorem atEnd_iff : s.atEnd ↔ s.rest = [] := by
  have := s.position_le
  simp only [atEnd, beq_iff_eq, rest, List.drop_eq_nil_iff, Array.length_toList]
  omega

/-- A token that is not the end is ahead. -/
theorem rest_of_current (h : s.current.kind ≠ .eof) : ∃ us, s.rest = s.current :: us := by
  cases hr : s.rest with
  | nil => exact absurd (current_of_rest_nil hr ▸ s.tape.eof_kind) h
  | cons a us => exact ⟨us, by rw [current_of_rest hr]⟩

/-- `t` is `s` after the tokens `ts`. -/
structure Passes (s : Input) (ts : List Token) (t : Input) : Prop where
  tape : t.tape = s.tape
  settings : t.settings = s.settings
  depth : t.depth = s.depth
  rest : s.rest = ts ++ t.rest

namespace Passes

theorem refl (s : Input) : s.Passes [] s := ⟨rfl, rfl, rfl, rfl⟩

theorem trans (h : s.Passes ts t) (h' : t.Passes us u) : s.Passes (ts ++ us) u where
  tape := h'.tape.trans h.tape
  settings := h'.settings.trans h.settings
  depth := h'.depth.trans h.depth
  rest := by rw [h.rest, h'.rest, List.append_assoc]

theorem of_eq (h : s.Passes ts t) (hs : ts = us) : s.Passes us t := hs ▸ h

theorem left (h : s.Passes ts t) : s.left = ts.length + t.left := by
  rw [← length_rest, h.rest, List.length_append, length_rest]

theorem position (h : s.Passes ts t) : t.position = s.position + ts.length := by
  have hl := h.left
  have hs := s.position_le
  have ht := t.position_le
  simp only [Input.left, h.tape] at hl ht
  omega

theorem left_lt (h : s.Passes ts t) (hts : ts ≠ []) : t.left < s.left := by
  have := h.left
  have := List.length_pos_iff.2 hts
  omega

theorem current (h : s.Passes [] t) : t.current = s.current := by
  rw [peek_zero, peek_zero, h.rest, h.tape, List.nil_append]

end Passes

theorem record_passes (s : Input) (e : ParseError) : s.Passes [] (s.record e) := by
  unfold record
  split
  · exact .refl s
  · split
    · exact ⟨rfl, rfl, rfl, rfl⟩
    · split
      · exact .refl s
      · exact ⟨rfl, rfl, rfl, rfl⟩

theorem record?_passes (s : Input) (o : Option ParseError) : s.Passes [] (s.record? o) := by
  cases o with
  | none => exact .refl s
  | some e => exact s.record_passes e

/-- Inside a level of nesting, a passage is one of the level around it. -/
theorem Passes.outside {inner : Input} (hi : s.descend = .ok inner) (h : inner.Passes ts t) :
    s.Passes ts (t.atDepth s.depth) := by
  unfold descend at hi
  split at hi
  · cases hi
  · cases hi
    exact ⟨h.tape, h.settings, rfl, h.rest⟩

theorem descend_eq_error {e : ParseError} (h : s.descend = .error e) : e = s.error .tooDeep := by
  unfold descend at h
  split at h
  · cases h
    rfl
  · cases h

/-- Only a limit that has been reached keeps an input from going one level down. -/
theorem lt_of_descend_eq_error {e : ParseError} (h : s.descend = .error e) :
    ∃ max ∈ s.settings.maxDepth, max < s.depth + 1 := by
  unfold descend at h
  split at h
  · next hany =>
    obtain ⟨max, hmax, hlt⟩ := (Option.any_eq_true _ _).1 hany
    exact ⟨max, hmax, of_decide_eq_true hlt⟩
  · cases h

theorem descend_eq_ok {inner : Input} (h : s.descend = .ok inner) :
    inner = s.atDepth (s.depth + 1) := by
  unfold descend at h
  split at h
  · cases h
  · cases h
    rfl

theorem advance_eq_error {e : ParseError} (h : s.advance = .error e) : e = s.error .pastEnd := by
  unfold advance at h
  split at h
  · cases h
  · split at h
    · cases h
    · cases h
      rfl

/-- One token further on, nothing new is recorded. -/
theorem furthest_of_advance (h : s.advance = .ok t) : t.furthest = s.furthest := by
  unfold advance at h
  split at h
  · cases h
    rfl
  · split at h
    · cases h
      rfl
    · cases h

theorem advance_of_rest {a : Token} (h : s.rest = a :: ts) :
    ∃ t, s.advance = .ok t ∧ s.Passes [a] t ∧ t.furthest = s.furthest := by
  have hp : s.position < s.tape.tokens.size := by
    have := congrArg List.length h
    rw [length_rest, left, List.length_cons] at this
    omega
  refine ⟨{ s with position := s.position + 1, position_le := hp }, by rw [advance, dif_pos hp],
    ⟨rfl, rfl, rfl, ?_⟩, rfl⟩
  have : s.rest.drop 1 = s.tape.tokens.toList.drop (s.position + 1) := by
    rw [rest, List.drop_drop]
  rw [h] at this
  rw [h, rest, ← this]
  rfl

end Input

namespace Parser

variable {α β : Type} {p : Parser α} {s t : Input} {a : α} {b : β} {k : Token.Kind}

/-! ## Matches of parsers -/

theorem pure_eq_ok {b : α} : Parser.pure a s = .ok (b, t) ↔ a = b ∧ s = t := by
  simp [Parser.pure]

theorem bind_eq_ok {f : α → Parser β} :
    Parser.bind p f s = .ok (b, t) ↔ ∃ a u, p s = .ok (a, u) ∧ f a u = .ok (b, t) := by
  unfold Parser.bind
  cases p s with
  | error e => simp
  | ok r =>
    obtain ⟨a, u⟩ := r
    simp [and_assoc]

theorem bind_of_ok {f : α → Parser β} (h : p s = .ok (a, t)) : Parser.bind p f s = f a t := by
  simp only [Parser.bind, h]

theorem here_eq_ok {q : Position} : here s = .ok (q, t) ↔ s.current.span.start = q ∧ s = t := by
  simp [here]

theorem eoi_eq_ok {x : Unit} : eoi s = .ok (x, t) ↔ s.rest = [] ∧ s = t := by
  unfold eoi
  rw [← Input.atEnd_iff]
  by_cases h : s.atEnd <;> simp [h]

theorem lookahead_eq_ok {x : Token} :
    lookahead 0 s = .ok (x, t) ↔ 0 < s.settings.lookaheadDepth ∧ s.current = x ∧ s = t := by
  unfold lookahead Input.lookahead
  by_cases h : 0 < s.settings.lookaheadDepth <;> simp [h, Input.current]

theorem refine_eq_ok {f : α → Except ParseError.Cause β} :
    refine f p s = .ok (b, t) ↔ ∃ a, p s = .ok (a, t) ∧ f a = .ok b := by
  unfold refine
  cases p s with
  | error e => simp
  | ok r =>
    obtain ⟨a, u⟩ := r
    cases hf : f a with
    | error e => simp [hf]
    | ok b' => simp [and_assoc, hf, and_comm]

theorem named_eq_ok {name : String} : named name p s = .ok (a, t) ↔ p s = .ok (a, t) := by
  unfold named
  cases p s <;> simp

theorem nest_eq_ok :
    nest p s = .ok (a, t) ↔
      ∃ inner u, s.descend = .ok inner ∧ p inner = .ok (a, u) ∧ u.atDepth s.depth = t := by
  unfold nest
  cases s.descend with
  | error e => simp
  | ok inner =>
    cases h : p inner with
    | error e => simp [h]
    | ok r =>
      obtain ⟨b, u⟩ := r
      simp [and_assoc, h]

/-! ## Errors of parsers -/

theorem bind_eq_error {f : α → Parser β} {e : ParseError} :
    Parser.bind p f s = .error e ↔
      p s = .error e ∨ ∃ a u, p s = .ok (a, u) ∧ f a u = .error e := by
  unfold Parser.bind
  cases p s with
  | error e => simp
  | ok r =>
    obtain ⟨a, u⟩ := r
    simp [and_assoc]

theorem refine_eq_error {f : α → Except ParseError.Cause β} {e : ParseError} :
    refine f p s = .error e ↔
      p s = .error e ∨
        ∃ a t cause, p s = .ok (a, t) ∧ f a = .error cause ∧ s.error cause = e := by
  unfold refine
  cases p s with
  | error e => simp
  | ok r =>
    obtain ⟨a, u⟩ := r
    cases hf : f a with
    | error cause => simp [and_assoc, hf]
    | ok b' => simp [and_assoc, hf]

theorem named_eq_error {name : String} {e : ParseError} :
    named name p s = .error e ↔
      ∃ e', p s = .error e' ∧
        (if e'.index = s.position then { e' with expected := {.phrase name} } else e') = e := by
  unfold named
  cases p s <;> simp

theorem nest_eq_error {e : ParseError} :
    nest p s = .error e ↔
      s.descend = .error e ∨ ∃ inner, s.descend = .ok inner ∧ p inner = .error e := by
  unfold nest
  cases s.descend with
  | error e => simp
  | ok inner =>
    cases h : p inner with
    | error e => simp [h]
    | ok r =>
      obtain ⟨b, u⟩ := r
      simp [h]

/-! ## Tokens -/

theorem any_eq_ok {x : Token} : any s = .ok (x, t) ↔ s.current = x ∧ s.advance = .ok t := by
  unfold any
  cases s.advance <;> simp

theorem any_eq_error {e : ParseError} : any s = .error e ↔ s.advance = .error e := by
  unfold any
  cases s.advance <;> simp

theorem token_eq_ok {x : Token} :
    token k s = .ok (x, t) ↔ s.current.kind = k ∧ s.current = x ∧ s.advance = .ok t := by
  unfold token
  by_cases hk : s.current.kind = k
  · rw [if_pos hk, any_eq_ok]
    simp only [hk, true_and]
  · rw [if_neg hk]
    simp [hk]

theorem any_of_rest {ts : List Token} {x : Token} (h : s.rest = x :: ts) :
    ∃ t, any s = .ok (x, t) ∧ s.Passes [x] t ∧ t.furthest = s.furthest := by
  obtain ⟨t, ht, hp⟩ := Input.advance_of_rest h
  exact ⟨t, by simp [any, ht, Input.current_of_rest h], hp⟩

theorem any_ok {x : Token} (hk : s.current.kind ≠ .eof) (h : any s = .ok (x, t)) :
    x = s.current ∧ s.Passes [x] t := by
  obtain ⟨us, hr⟩ := Input.rest_of_current hk
  obtain ⟨t', ht', hp, -⟩ := any_of_rest hr
  rw [ht'] at h
  cases h
  exact ⟨rfl, hp⟩

theorem token_of_rest {ts : List Token} {x : Token} (h : s.rest = x :: ts) (hx : x.kind = k) :
    ∃ t, token k s = .ok (x, t) ∧ s.Passes [x] t ∧ t.furthest = s.furthest := by
  obtain ⟨t, ht, hp⟩ := any_of_rest h
  exact ⟨t, by rw [token, if_pos (by rw [Input.current_of_rest h, hx]), ht], hp⟩

theorem token_ok {x : Token} (h : token k s = .ok (x, t)) (hk : k ≠ .eof) :
    x.kind = k ∧ s.Passes [x] t := by
  by_cases hc : s.current.kind = k
  · obtain ⟨us, hr⟩ := Input.rest_of_current (hc ▸ hk)
    obtain ⟨t', ht', hp, -⟩ := token_of_rest hr hc
    rw [ht'] at h
    cases h
    exact ⟨hc, hp⟩
  · rw [token, if_neg hc] at h
    cases h

theorem token_error (h : s.current.kind ≠ k) : token k s = .error (s.unexpected (.token k)) :=
  if_neg h

theorem blame_of_closed {Q : ParseError → Prop} (hQ : ∀ e f, Q e → Q f → Q (e.join f))
    {selection : FailureSelection} {f : Option ParseError} {e : ParseError} (hf : ∀ e ∈ f, Q e)
    (he : Q e) : Q (blame selection f e) := by
  cases f with
  | none => exact he
  | some f =>
    cases selection with
    | first => exact hf f rfl
    | furthest => exact hQ f e (hf f rfl) he

/-- The match of a choice is that of one of its branches, and what is recorded with it is made of
errors of branches. -/
theorem choiceFrom_ok {Q : ParseError → Prop} (hQ : ∀ e f, Q e → Q f → Q (e.join f))
    {ps : List (Parser α)} {f : Option ParseError} {best : Option (α × Input)} (hf : ∀ e ∈ f, Q e)
    (hps : ∀ p ∈ ps, ∀ e, p s = .error e → Q e) (h : choiceFrom s f best ps = .ok (a, t)) :
    ∃ u o, t = u.record? o ∧ (∀ e ∈ o, Q e) ∧
      ((∃ p ∈ ps, p s = .ok (a, u)) ∨ best = some (a, u)) := by
  induction ps generalizing f best with
  | nil =>
    cases best with
    | none => cases h
    | some m =>
      obtain ⟨b, u⟩ := m
      cases h
      exact ⟨u, f, rfl, hf, .inr rfl⟩
  | cons p ps ih =>
    have hrest (q) (hq : q ∈ ps) := hps q (List.mem_cons_of_mem p hq)
    simp only [choiceFrom] at h
    cases hp : p s with
    | error e =>
      rw [hp] at h
      have hf' : ∀ x ∈ some (blame s.settings.failureSelection f e), Q x := fun x hx => by
        cases hx
        exact blame_of_closed hQ hf (hps p List.mem_cons_self e hp)
      obtain ⟨u, o, ht, ho, ⟨q, hq, hqs⟩ | hb⟩ := ih hf' hrest h
      · exact ⟨u, o, ht, ho, .inl ⟨q, by simp [hq], hqs⟩⟩
      · exact ⟨u, o, ht, ho, .inr hb⟩
    | ok m =>
      obtain ⟨b, u⟩ := m
      rw [hp] at h
      cases ht : s.settings.tieBreak with
      | firstMatch =>
        simp only [ht] at h
        cases h
        exact ⟨u, f, rfl, hf, .inl ⟨p, by simp, hp⟩⟩
      | longestParse =>
        simp only [ht] at h
        obtain ⟨v, o, hv, ho, ⟨q, hq, hqs⟩ | hb⟩ := ih hf hrest h
        · exact ⟨v, o, hv, ho, .inl ⟨q, by simp [hq], hqs⟩⟩
        · have hlonger : longer best (b, u) = (b, u) ∨ best = some (longer best (b, u)) := by
            cases best with
            | none => exact .inl rfl
            | some c =>
              by_cases hc : c.2.position < u.position
              · exact .inl (if_pos hc)
              · exact .inr (congrArg some (if_neg hc).symm)
          rcases hlonger with hl | hl
          · rw [hl] at hb
            cases hb
            exact ⟨_, o, hv, ho, .inl ⟨p, by simp, hp⟩⟩
          · exact ⟨v, o, hv, ho, .inr (hl.trans hb)⟩

theorem choice_ok {ps : List (Parser α)} (h : choice ps s = .ok (a, t)) :
    ∃ p ∈ ps, ∃ u, p s = .ok (a, u) ∧ u.Passes [] t := by
  obtain ⟨u, o, rfl, -, ⟨p, hp, hps⟩ | hb⟩ :=
    choiceFrom_ok (Q := fun _ => True) (fun _ _ _ _ => trivial) (fun _ _ => trivial)
      (fun _ _ _ _ => trivial) h
  · exact ⟨p, hp, u, hps, u.record?_passes o⟩
  · cases hb

end Parser

end Descent
