import Descent.Grammar
import Descent.Proofs.Parser.Passage

/-!
# Rules move forward

Whatever a rule reads, it stays on the tape it was given, keeps the settings and gives the depth
back: its match is a passage (`Rule.forward_run`). This holds of every rule, by induction over how
it is built, as soon as it holds of the phrases that the rule refers to.
-/

namespace Descent

namespace Parser

variable {α β : Type} {p : Parser α} {s t : Input} {a : α}

/-- The parser matches passages only. -/
def Forward (p : Parser α) : Prop := ∀ s a t, p s = .ok (a, t) → ∃ ts, s.Passes ts t

theorem Forward.left_le (hp : Forward p) (h : p s = .ok (a, t)) : t.left ≤ s.left := by
  obtain ⟨ts, hts⟩ := hp s a t h
  have := hts.left
  omega

theorem Forward.position_le (hp : Forward p) (h : p s = .ok (a, t)) : s.position ≤ t.position := by
  obtain ⟨ts, hts⟩ := hp s a t h
  rw [hts.position]
  exact Nat.le_add_right _ _

theorem forward_pure (a : α) : Forward (Parser.pure a) := by
  intro s b t h
  obtain ⟨-, rfl⟩ := pure_eq_ok.1 h
  exact ⟨[], .refl s⟩

theorem Forward.bind {f : α → Parser β} (hp : Forward p) (hf : ∀ a, Forward (f a)) :
    Forward (Parser.bind p f) := by
  intro s b t h
  obtain ⟨a, u, hu, ht⟩ := bind_eq_ok.1 h
  obtain ⟨ts, hts⟩ := hp s a u hu
  obtain ⟨us, hus⟩ := hf a u b t ht
  exact ⟨ts ++ us, hts.trans hus⟩

theorem forward_any : Forward any := by
  intro s a t h
  cases hr : s.rest with
  | cons x us =>
    obtain ⟨t', ht', hp, -⟩ := any_of_rest hr
    rw [ht'] at h
    cases h
    exact ⟨[a], hp⟩
  | nil =>
    have hpos : ¬s.position < s.tape.tokens.size := by
      have := congrArg List.length hr
      rw [Input.length_rest, Input.left, List.length_nil] at this
      omega
    rw [any, Input.advance, dif_neg hpos] at h
    cases hs : s.settings.advancePastEnd with
    | saturate =>
      rw [hs] at h
      cases h
      exact ⟨[], .refl s⟩
    | fail =>
      rw [hs] at h
      cases h

theorem forward_token (k : Token.Kind) : Forward (token k) := by
  intro s a t h
  by_cases hk : s.current.kind = k
  · rw [token, if_pos hk] at h
    exact forward_any s a t h
  · rw [token_error hk] at h
    cases h

theorem forward_eoi : Forward eoi := by
  intro s a t h
  obtain ⟨-, rfl⟩ := eoi_eq_ok.1 h
  exact ⟨[], .refl s⟩

theorem forward_lookahead (k : Nat) : Forward (lookahead k) := by
  intro s a t h
  unfold lookahead at h
  cases hk : s.lookahead k with
  | error e =>
    rw [hk] at h
    cases h
  | ok x =>
    rw [hk] at h
    cases h
    exact ⟨[], .refl s⟩

theorem forward_here : Forward here := by
  intro s a t h
  obtain ⟨-, rfl⟩ := here_eq_ok.1 h
  exact ⟨[], .refl s⟩

theorem Forward.refine {f : α → Except ParseError.Cause β} (hp : Forward p) :
    Forward (refine f p) := by
  intro s b t h
  obtain ⟨a, ha, -⟩ := refine_eq_ok.1 h
  exact hp s a t ha

theorem Forward.named {name : String} (hp : Forward p) : Forward (named name p) :=
  fun s a t h => hp s a t (named_eq_ok.1 h)

theorem Forward.nest (hp : Forward p) : Forward (nest p) := by
  intro s a t h
  obtain ⟨inner, u, hi, hu, rfl⟩ := nest_eq_ok.1 h
  obtain ⟨ts, hts⟩ := hp inner a u hu
  exact ⟨ts, hts.outside hi⟩

theorem Forward.choice {ps : List (Parser α)} (hps : ∀ p ∈ ps, Forward p) :
    Forward (choice ps) := by
  intro s a t h
  obtain ⟨p, hp, u, hu, hut⟩ := choice_ok h
  obtain ⟨ts, hts⟩ := hps p hp s a u hu
  exact ⟨ts ++ [], hts.trans hut⟩

/-! ## One step of a repetition -/

theorem atLeast_of_error {e : ParseError} {min : Nat} (h : p s = .error e) :
    atLeast min p s = if min = 0 then .ok ([], s.record e) else .error e := by
  rw [atLeast]
  simp only [h]

theorem atLeast_of_ok {min : Nat} (h : p s = .ok (a, t)) (hlt : t.left < s.left) :
    atLeast min p s =
      match atLeast (min - 1) p t with
      | .ok (as, u) => .ok (a :: as, u)
      | .error e => .error e := by
  rw [atLeast, h]
  exact if_pos hlt

theorem extendFrom_of_none {f : α → Parser (Option α)} (h : f a s = .ok (none, t)) :
    extendFrom f a s = .ok (a, t) := by
  rw [extendFrom]
  simp only [h]

theorem extendFrom_of_some {f : α → Parser (Option α)} {b : α} (h : f a s = .ok (some b, t))
    (hlt : t.left < s.left) : extendFrom f a s = extendFrom f b t := by
  rw [extendFrom]
  simp only [h, if_pos hlt]

theorem Forward.atLeast (hp : Forward p) (min : Nat) :
    Forward (Parser.atLeast min p) := by
  intro s as t h
  fun_induction Parser.atLeast min p s generalizing as t with
  | case1 s e he =>
    cases h
    exact ⟨[], s.record_passes e⟩
  | case2 => cases h
  | case3 min s a u hu _ as' t' hrest ih =>
    cases h
    obtain ⟨ts, hts⟩ := hp s a u hu
    obtain ⟨us, hus⟩ := ih _ _ hrest
    exact ⟨ts ++ us, hts.trans hus⟩
  | case4 => cases h
  | case5 min s a u hu =>
    cases h
    exact hp s a _ hu

theorem forward_extendFrom {f : α → Parser (Option α)} (hf : ∀ a, Forward (f a)) (a : α) :
    Forward (extendFrom f a) := by
  intro s b t h
  fun_induction extendFrom f a s with
  | case1 => cases h
  | case2 a s u hu =>
    cases h
    exact hf _ s none _ hu
  | case3 a s c u hu _ ih =>
    obtain ⟨ts, hts⟩ := hf a s (some c) u hu
    obtain ⟨us, hus⟩ := ih h
    exact ⟨ts ++ us, hts.trans hus⟩
  | case4 a s c u hu =>
    cases h
    exact hf a s _ _ hu

theorem Forward.extend {f : α → Parser (Option α)} (hp : Forward p) (hf : ∀ a, Forward (f a)) :
    Forward (extend p f) := hp.bind (forward_extendFrom hf)

end Parser

namespace Rule

variable {α β : Type} {parse : (p : Phrase) → Parser p.Value}

theorem run_choice (rs : List (Rule α)) :
    (choice rs).run parse = Parser.choice (rs.map fun r => r.run parse) := by
  have h : (List.ofFn fun i => (rs.get i).run parse) = (List.ofFn rs.get).map (run parse) := by
    rw [List.map_ofFn]
    rfl
  have hget : List.ofFn rs.get = rs := List.ofFn_getElem
  rw [choice, run, h, hget]

theorem forward_run (hparse : ∀ p, (parse p).Forward) (r : Rule α) : (r.run parse).Forward := by
  induction r with
  | pure a => exact Parser.forward_pure a
  | bind _ _ ihr ihf => exact ihr.bind ihf
  | token k => exact Parser.forward_token k
  | any => exact Parser.forward_any
  | eoi => exact Parser.forward_eoi
  | lookahead k => exact Parser.forward_lookahead k
  | here => exact Parser.forward_here
  | fail => exact fun _ _ _ h => by cases h
  | expect => exact fun _ _ _ h => by cases h
  | refine _ _ ih => exact ih.refine
  | named _ _ ih => exact ih.named
  | oneOf n rs ih =>
    refine Parser.Forward.choice fun p hp => ?_
    obtain ⟨i, rfl⟩ := List.mem_ofFn.1 hp
    exact ih i
  | nest _ ih => exact ih.nest
  | atLeast min _ ih => exact ih.atLeast min
  | extend _ _ ihr ihf => exact ihr.extend ihf
  | call p => exact hparse p

end Rule

end Descent
