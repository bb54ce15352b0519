import Descent.Proofs.Parser.Recursion

/-!
# How errors are put together

Errors of attempts are joined, recorded on inputs and joined again with what was recorded. Two facts
about this hold of every rule. An error is never before the place where the rule began. And when the
furthest errors are selected, no error is lost: a property that joining with other errors does not
take away (`ParseError.Lasting`) stays with whatever a rule reports or leaves on its input
(`Rule.steady_run`).
-/

namespace Descent

namespace ParseError

/-- Joining with other errors and naming the phrase that was expected keep the property. -/
structure Lasting (P : ParseError → Prop) : Prop where
  left : ∀ e f : ParseError, P e → P (e.join f)
  right : ∀ e f : ParseError, P e → P (f.join e)
  expected : ∀ (e : ParseError) (x : Expectations), P e → P { e with expected := x }

theorem index_join (e f : ParseError) : (e.join f).index = max e.index f.index := by
  unfold join
  split
  · omega
  · split
    · simp only
      omega
    · omega

theorem lasting_index (n : Nat) : Lasting (n ≤ ·.index) where
  left e f h := by
    rw [index_join]
    omega
  right e f h := by
    rw [index_join]
    omega
  expected _ _ h := h

variable {P : ParseError → Prop}

theorem Lasting.join? (hP : Lasting P) {e : ParseError} (o : Option ParseError) (he : P e) :
    P (e.join? o) := by
  cases o with
  | none => exact he
  | some f => exact hP.left e f he

end ParseError

namespace Input

variable {P : ParseError → Prop} {s : Input} {e : ParseError}

/-- The furthest errors count, and the one that is recorded has the property. -/
structure Blames (P : ParseError → Prop) (s : Input) : Prop where
  furthest : s.settings.failureSelection = .furthest
  recorded : ∃ f, s.furthest = some f ∧ P f

theorem Blames.atDepth (h : s.Blames P) (n : Nat) : (s.atDepth n).Blames P :=
  ⟨h.furthest, h.recorded⟩

theorem index_le_report (s : Input) (e : ParseError) : e.index ≤ (s.report e).index := by
  unfold report
  split
  · cases s.furthest with
    | none => exact Nat.le_refl _
    | some f =>
      simp only [ParseError.join?, ParseError.index_join]
      omega
  · exact Nat.le_refl _

theorem position_le_error (s : Input) (cause : ParseError.Cause) :
    s.position ≤ (s.error cause).index := s.index_le_report ⟨_, s.position, _, _, _⟩

theorem position_le_unexpected (s : Input) (x : Expectation) :
    s.position ≤ (s.unexpected x).index := s.index_le_report ⟨_, s.position, _, _, _⟩

theorem Blames.report (hP : ParseError.Lasting P) (h : s.Blames P) (e : ParseError) :
    P (s.report e) := by
  obtain ⟨f, hf, hPf⟩ := h.recorded
  simp only [Input.report, h.furthest, hf, ParseError.join?]
  exact hP.right f e hPf

theorem report_of_lasting (hP : ParseError.Lasting P) (he : P e) : P (s.report e) := by
  unfold Input.report
  split
  · exact hP.join? _ he
  · exact he

/-- When the furthest errors count, the one that is recorded is joined with what was recorded. -/
theorem furthest_record (h : s.settings.failureSelection = .furthest) (e : ParseError) :
    (s.record e).furthest = some (e.join? s.furthest) := by
  unfold record
  rw [h]
  cases hf : s.furthest with
  | none => rfl
  | some f =>
    simp only
    by_cases hlt : e.index < f.index
    · rw [if_pos hlt, hf, ParseError.join?, ParseError.join, if_pos hlt]
    · rw [if_neg hlt, ParseError.join?]

theorem Blames.record (hP : ParseError.Lasting P) (h : s.Blames P) (e : ParseError) :
    (s.record e).Blames P := by
  obtain ⟨f, hf, hPf⟩ := h.recorded
  refine ⟨(s.record_passes e).settings ▸ h.furthest, _, furthest_record h.furthest e, ?_⟩
  rw [hf]
  exact hP.right f e hPf

theorem blames_record (hP : ParseError.Lasting P) (hs : s.settings.failureSelection = .furthest)
    (he : P e) : (s.record e).Blames P :=
  ⟨(s.record_passes e).settings ▸ hs, _, furthest_record hs e, hP.join? _ he⟩

theorem Blames.record? (hP : ParseError.Lasting P) (h : s.Blames P) (o : Option ParseError) :
    (s.record? o).Blames P := by
  cases o with
  | none => exact h
  | some e => exact h.record hP e

end Input

namespace Parser

variable {α β : Type} {P : ParseError → Prop} {p : Parser α} {s t : Input} {a : α}

/-- An attempt that matches and does not lead back is preferred to reading nothing. -/
theorem optional_eq_some (hle : s.position ≤ t.position) (h : p s = .ok (a, t)) :
    optional p s = .ok (some a, t) := by
  have hmap : (some <$> p) s = .ok (some a, t) := bind_eq_ok.2 ⟨a, t, h, rfl⟩
  have hlonger : longer (some (some a, t)) (none, s) = (some a, t) := if_neg (Nat.not_lt.2 hle)
  simp only [optional, choice, choiceFrom, hmap]
  cases s.settings.tieBreak with
  | firstMatch => rfl
  | longestParse => exact congrArg _ hlonger

/-- The error of an attempt that is given up for reading nothing is recorded. -/
theorem optional_eq_none {e : ParseError} (h : p s = .error e) :
    optional p s = .ok (none, s.record e) := by
  have hmap : (some <$> p) s = .error e := bind_eq_error.2 (.inl h)
  simp only [optional, choice, choiceFrom, hmap]
  cases s.settings.tieBreak <;> rfl

/-- Once a branch has matched, the choice does not fail. -/
theorem choiceFrom_some {f : Option ParseError} (m : α × Input) (ps : List (Parser α)) :
    ∃ r, choiceFrom s f (some m) ps = .ok r := by
  induction ps generalizing f m with
  | nil => exact ⟨_, rfl⟩
  | cons p ps ih =>
    simp only [choiceFrom]
    cases p s with
    | error e => exact ih m
    | ok r =>
      cases s.settings.tieBreak with
      | firstMatch => exact ⟨_, rfl⟩
      | longestParse => exact ih _

/-- If a choice fails at a branch and the rest, the branch fails. -/
theorem choiceFrom_cons_error {f : Option ParseError} {best : Option (α × Input)}
    {ps : List (Parser α)} {e : ParseError} (h : choiceFrom s f best (p :: ps) = .error e) :
    ∃ e', p s = .error e' ∧
      choiceFrom s (some (blame s.settings.failureSelection f e')) best ps = .error e := by
  simp only [choiceFrom] at h
  cases hp : p s with
  | error e' =>
    rw [hp] at h
    exact ⟨e', rfl, h⟩
  | ok m =>
    rw [hp] at h
    cases ht : s.settings.tieBreak with
    | firstMatch =>
      simp only [ht] at h
      cases h
    | longestParse =>
      simp only [ht] at h
      obtain ⟨r, hr⟩ := choiceFrom_some (s := s) (f := f) (longer best (m.1, m.2)) ps
      rw [hr] at h
      cases h

/-- A choice fails with an error that is made of those of its branches. -/
theorem choiceFrom_error {Q : ParseError → Prop} (hQ : ∀ e f, Q e → Q f → Q (e.join f))
    {ps : List (Parser α)} {f : Option ParseError} {best : Option (α × Input)} (hf : ∀ e ∈ f, Q e)
    (hps : ∀ p ∈ ps, ∀ e, p s = .error e → Q e) (hne : ps ≠ [] ∨ f ≠ none) {e : ParseError}
    (h : choiceFrom s f best ps = .error e) : Q e := by
  induction ps generalizing f with
  | nil =>
    cases best with
    | some m => cases h
    | none =>
      cases f with
      | none => exact hne.elim (absurd rfl) (absurd rfl)
      | some f =>
        cases h
        exact hf f rfl
  | cons p ps ih =>
    obtain ⟨e', hp, hrest⟩ := choiceFrom_cons_error h
    refine ih (fun x hx => ?_) (fun q hq => hps q (List.mem_cons_of_mem p hq))
      (.inr (Option.some_ne_none _)) hrest
    cases hx
    exact blame_of_closed hQ hf (hps p List.mem_cons_self e' hp)

/-- What lasts and is true of the error of one branch is true of the error of the choice. -/
theorem choiceFrom_lasting (hP : ParseError.Lasting P)
    (hs : s.settings.failureSelection = .furthest) {ps : List (Parser α)} {f : Option ParseError}
    {best : Option (α × Input)} {e : ParseError}
    (hsome : (∃ x ∈ f, P x) ∨ ∃ p ∈ ps, ∀ e, p s = .error e → P e)
    (h : choiceFrom s f best ps = .error e) : P e := by
  induction ps generalizing f with
  | nil =>
    obtain ⟨x, hx, hPx⟩ | ⟨p, hp, -⟩ := hsome
    · cases hx
      cases best with
      | some m => cases h
      | none =>
        cases h
        exact hPx
    · cases hp
  | cons p ps ih =>
    obtain ⟨e', hp, hrest⟩ := choiceFrom_cons_error h
    refine ih ?_ hrest
    rw [hs]
    obtain ⟨x, hx, hPx⟩ | ⟨q, hq, hPq⟩ := hsome
    · cases hx
      exact .inl ⟨_, rfl, hP.left x e' hPx⟩
    · rcases List.mem_cons.1 hq with rfl | hq
      · refine .inl ⟨_, rfl, ?_⟩
        cases f with
        | none => exact hPq e' hp
        | some f => exact hP.right e' f (hPq e' hp)
      · exact .inr ⟨q, hq, hPq⟩

/-- What every rule does with errors: none is before the place where the rule began, and what lasts
and is true of the error recorded there is true of what is reported or recorded afterwards. -/
structure Steady (P : ParseError → Prop) (p : Parser α) : Prop where
  forward : Forward p
  onward : ∀ s e, p s = .error e → s.position ≤ e.index
  keeps : ∀ s a t, p s = .ok (a, t) → s.Blames P → t.Blames P
  blames : ∀ s e, p s = .error e → s.Blames P → P e

namespace Steady

variable (hP : ParseError.Lasting P)

include hP

/-- A parser that does not move and whose errors are reported at its place. -/
theorem of_report (hforward : Forward p) (ok : ∀ s a t, p s = .ok (a, t) → t.furthest = s.furthest)
    (error : ∀ s e, p s = .error e → ∃ x : ParseError, x.index = s.position ∧ e = s.report x) :
    Steady P p where
  forward := hforward
  onward s e h := by
    obtain ⟨x, hx, rfl⟩ := error s e h
    exact hx ▸ s.index_le_report x
  keeps s a t h hs := by
    obtain ⟨ts, hts⟩ := hforward s a t h
    obtain ⟨f, hf, hPf⟩ := hs.recorded
    exact ⟨hts.settings ▸ hs.furthest, f, (ok s a t h).trans hf, hPf⟩
  blames s e h hs := by
    obtain ⟨x, -, rfl⟩ := error s e h
    exact hs.report hP x

theorem pure (a : α) : Steady P (Parser.pure a) :=
  of_report hP (forward_pure a) (fun s b t h => by cases h; rfl) (fun s e h => by cases h)

theorem any : Steady P any := by
  refine of_report hP forward_any (fun s a t h => ?_) (fun s e h => ?_)
  · exact Input.furthest_of_advance (any_eq_ok.1 h).2
  · exact ⟨_, rfl, Input.advance_eq_error (any_eq_error.1 h)⟩

theorem token (k : Token.Kind) : Steady P (token k) := by
  have hany := any (P := P) hP
  have hcases (s : Input) : Parser.token k s = Parser.any s ∨
      Parser.token k s = .error (s.unexpected (.token k)) := by
    by_cases hk : s.current.kind = k
    · exact .inl (if_pos hk)
    · exact .inr (if_neg hk)
  refine ⟨forward_token k, fun s e h => ?_, fun s a t h hs => ?_, fun s e h hs => ?_⟩
  · rcases hcases s with hc | hc <;> rw [hc] at h
    · exact hany.onward s e h
    · cases h
      exact s.position_le_unexpected _
  · rcases hcases s with hc | hc <;> rw [hc] at h
    · exact hany.keeps s a t h hs
    · cases h
  · rcases hcases s with hc | hc <;> rw [hc] at h
    · exact hany.blames s e h hs
    · cases h
      exact hs.report hP _

theorem eoi : Steady P eoi := by
  refine of_report hP forward_eoi (fun s a t h => ?_) (fun s e h => ?_)
  · obtain ⟨-, rfl⟩ := eoi_eq_ok.1 h
    rfl
  · unfold Parser.eoi at h
    split at h
    · cases h
    · cases h
      exact ⟨_, rfl, rfl⟩

theorem lookahead (k : Nat) : Steady P (lookahead k) := by
  refine of_report hP (forward_lookahead k) (fun s a t h => ?_) (fun s e h => ?_)
  · unfold Parser.lookahead Input.lookahead at h
    by_cases hk : k < s.settings.lookaheadDepth
    · rw [if_pos hk] at h
      cases h
      rfl
    · rw [if_neg hk] at h
      cases h
  · unfold Parser.lookahead Input.lookahead at h
    by_cases hk : k < s.settings.lookaheadDepth
    · rw [if_pos hk] at h
      cases h
    · rw [if_neg hk] at h
      cases h
      exact ⟨_, rfl, rfl⟩

theorem here : Steady P here :=
  of_report hP forward_here (fun s a t h => by cases h; rfl) (fun s e h => by cases h)

theorem fail (cause : ParseError.Cause) : Steady P (fail cause : Parser α) :=
  of_report hP (fun _ _ _ h => by cases h) (fun s a t h => by cases h)
    (fun s e h => by cases h; exact ⟨_, rfl, rfl⟩)

theorem expect (x : Expectation) : Steady P (expect x : Parser α) :=
  of_report hP (fun _ _ _ h => by cases h) (fun s a t h => by cases h)
    (fun s e h => by cases h; exact ⟨_, rfl, rfl⟩)

omit hP in
theorem bind {f : α → Parser β} (hp : Steady P p) (hf : ∀ a, Steady P (f a)) :
    Steady P (Parser.bind p f) := by
  refine ⟨hp.forward.bind fun a => (hf a).forward, fun s e h => ?_, fun s b t h hs => ?_,
    fun s e h hs => ?_⟩
  · rcases bind_eq_error.1 h with h | ⟨a, u, hu, h⟩
    · exact hp.onward s e h
    · obtain ⟨ts, hts⟩ := hp.forward s a u hu
      have := (hf a).onward u e h
      have := hts.position
      omega
  · obtain ⟨a, u, hu, h⟩ := bind_eq_ok.1 h
    exact (hf a).keeps u b t h (hp.keeps s a u hu hs)
  · rcases bind_eq_error.1 h with h | ⟨a, u, hu, h⟩
    · exact hp.blames s e h hs
    · exact (hf a).blames u e h (hp.keeps s a u hu hs)

theorem refine {f : α → Except ParseError.Cause β} (hp : Steady P p) :
    Steady P (refine f p) := by
  refine ⟨hp.forward.refine, fun s e h => ?_, fun s b t h hs => ?_, fun s e h hs => ?_⟩
  · rcases refine_eq_error.1 h with h | ⟨a, t, cause, -, -, rfl⟩
    · exact hp.onward s e h
    · exact s.position_le_error cause
  · obtain ⟨a, ha, -⟩ := refine_eq_ok.1 h
    exact hp.keeps s a t ha hs
  · rcases refine_eq_error.1 h with h | ⟨a, t, cause, -, -, rfl⟩
    · exact hp.blames s e h hs
    · exact hs.report hP _

theorem named {name : String} (hp : Steady P p) : Steady P (named name p) := by
  refine ⟨hp.forward.named, fun s e h => ?_, fun s a t h hs => ?_, fun s e h hs => ?_⟩
  · obtain ⟨e', he', rfl⟩ := named_eq_error.1 h
    have := hp.onward s e' he'
    split <;> exact this
  · exact hp.keeps s a t (named_eq_ok.1 h) hs
  · obtain ⟨e', he', rfl⟩ := named_eq_error.1 h
    have := hp.blames s e' he' hs
    split
    · exact hP.expected e' _ this
    · exact this

theorem nest (hp : Steady P p) : Steady P (nest p) := by
  refine ⟨hp.forward.nest, fun s e h => ?_, fun s a t h hs => ?_, fun s e h hs => ?_⟩
  · rcases nest_eq_error.1 h with h | ⟨inner, hi, h⟩
    · cases Input.descend_eq_error h
      exact s.position_le_error _
    · have := hp.onward inner e h
      have := ((Input.Passes.refl inner).outside hi).position
      simp only [Input.atDepth, List.length_nil] at this
      omega
  · obtain ⟨inner, u, hi, hu, rfl⟩ := nest_eq_ok.1 h
    cases Input.descend_eq_ok hi
    exact (hp.keeps _ a u hu (hs.atDepth _)).atDepth _
  · rcases nest_eq_error.1 h with h | ⟨inner, hi, h⟩
    · cases Input.descend_eq_error h
      exact hs.report hP _
    · cases Input.descend_eq_ok hi
      exact hp.blames _ e h (hs.atDepth _)

theorem choice {ps : List (Parser α)} (hps : ∀ p ∈ ps, Steady P p) : Steady P (choice ps) := by
  refine ⟨.choice fun p hp => (hps p hp).forward, fun s e h => ?_, fun s a t h hs => ?_,
    fun s e h hs => ?_⟩
  · cases ps with
    | nil =>
      cases h
      exact s.position_le_error _
    | cons p ps =>
      refine choiceFrom_error (Q := fun e => s.position ≤ e.index) (fun e f he hf => ?_)
        (fun e he => by cases he) (fun p hp e => (hps p hp).onward s e)
        (.inl (List.cons_ne_nil p ps)) h
      rw [ParseError.index_join]
      omega
  · obtain ⟨u, o, rfl, -, ⟨p, hp, hu⟩ | hu⟩ :=
      choiceFrom_ok (Q := fun _ => True) (fun _ _ _ _ => trivial) (fun _ _ => trivial)
        (fun _ _ _ _ => trivial) h
    · exact ((hps p hp).keeps s a u hu hs).record? hP o
    · cases hu
  · cases ps with
    | nil =>
      cases h
      exact hs.report hP _
    | cons p ps =>
      have hmem : p ∈ p :: ps := List.mem_cons_self
      exact choiceFrom_lasting hP hs.furthest
        (.inr ⟨p, hmem, fun e he => (hps p hmem).blames s e he hs⟩) h

theorem atLeast (hp : Steady P p) (min : Nat) : Steady P (Parser.atLeast min p) := by
  refine ⟨hp.forward.atLeast min, fun s e h => ?_, fun s as t h hs => ?_, fun s e h hs => ?_⟩
  · fun_induction Parser.atLeast min p s with
    | case1 => cases h
    | case2 s x hx =>
      cases h
      exact hp.onward _ _ ‹_›
    | case3 => cases h
    | case4 min s a u hu _ x hx ih =>
      cases h
      obtain ⟨ts, hts⟩ := hp.forward s a u hu
      have := hts.position
      have := ih hx
      omega
    | case5 => cases h
  · fun_induction Parser.atLeast min p s generalizing as t with
    | case1 s x hx =>
      cases h
      exact hs.record hP x
    | case2 => cases h
    | case3 min s a u hu _ as' t' hrest ih =>
      cases h
      exact ih _ _ hrest (hp.keeps s a u hu hs)
    | case4 => cases h
    | case5 min s a u hu =>
      cases h
      exact hp.keeps s a _ hu hs
  · fun_induction Parser.atLeast min p s with
    | case1 => cases h
    | case2 s x hx =>
      cases h
      exact hp.blames _ _ ‹_› hs
    | case3 => cases h
    | case4 min s a u hu _ x hx ih =>
      cases h
      exact ih hx (hp.keeps s a u hu hs)
    | case5 => cases h

omit hP in
theorem extendFrom {f : α → Parser (Option α)} (hf : ∀ a, Steady P (f a)) (a : α) :
    Steady P (extendFrom f a) := by
  refine ⟨forward_extendFrom (fun a => (hf a).forward) a, fun s e h => ?_, fun s b t h hs => ?_,
    fun s e h hs => ?_⟩
  · fun_induction Parser.extendFrom f a s with
    | case1 a s x hx =>
      cases h
      exact (hf a).onward _ _ hx
    | case2 => cases h
    | case3 a s b u hu _ ih =>
      obtain ⟨ts, hts⟩ := (hf a).forward s _ u hu
      have := hts.position
      have := ih h
      omega
    | case4 => cases h
  · fun_induction Parser.extendFrom f a s with
    | case1 => cases h
    | case2 a s u hu =>
      cases h
      exact (hf _).keeps s _ _ hu hs
    | case3 a s b u hu _ ih => exact ih h ((hf a).keeps s _ u hu hs)
    | case4 a s b u hu =>
      cases h
      exact (hf a).keeps s _ _ hu hs
  · fun_induction Parser.extendFrom f a s with
    | case1 a s x hx =>
      cases h
      exact (hf a).blames _ _ hx hs
    | case2 => cases h
    | case3 a s b u hu _ ih => exact ih h ((hf a).keeps s _ u hu hs)
    | case4 => cases h

end Steady

end Parser

section

variable {α : Type} {P : ParseError → Prop} (hP : ParseError.Lasting P)

include hP

/-- Rules are steady as soon as the phrases are that they refer to. -/
theorem Rule.steady_run {parse : (p : Phrase) → Parser p.Value}
    (hparse : ∀ p, Parser.Steady P (parse p)) (r : Rule α) : Parser.Steady P (r.run parse) := by
  induction r with
  | pure a => exact .pure hP a
  | bind _ _ ihr ihf => exact ihr.bind ihf
  | token k => exact .token hP k
  | any => exact .any hP
  | eoi => exact .eoi hP
  | lookahead k => exact .lookahead hP k
  | here => exact .here hP
  | fail cause => exact .fail hP cause
  | expect x => exact .expect hP x
  | refine _ _ ih => exact ih.refine hP
  | named _ _ ih => exact ih.named hP
  | oneOf n rs ih =>
    refine Parser.Steady.choice hP fun p hp => ?_
    obtain ⟨i, rfl⟩ := List.mem_ofFn.1 hp
    exact ih i
  | nest _ ih => exact ih.nest hP
  | atLeast min _ ih => exact ih.atLeast hP min
  | extend _ _ ihr ihf => exact ihr.bind (Parser.Steady.extendFrom ihf)
  | call p => exact hparse p

theorem Phrase.steady_parseWithin (n : Nat) (p : Phrase) :
    Parser.Steady P (p.parseWithin n) := by
  induction n generalizing p with
  | zero => exact .fail hP _
  | succ n ih => exact p.rule.steady_run hP ih

theorem Phrase.steady_parse (p : Phrase) : Parser.Steady P p.parse :=
  ⟨p.forward_parse, fun s => (p.steady_parseWithin hP s.steps).onward s,
    fun s => (p.steady_parseWithin hP s.steps).keeps s,
    fun s => (p.steady_parseWithin hP s.steps).blames s⟩

/-- Every rule of the language is steady. -/
theorem Rule.steady_parse (r : Rule α) : Parser.Steady P r.parse :=
  r.steady_run hP (Phrase.steady_parse hP)

end

end Descent
