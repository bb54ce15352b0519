import Descent.Proofs.Parser.Blame
import Descent.Proofs.Parser.Course
import Descent.Proofs.Parser.Matches

/-!
# Parsers along the automaton

The parser reads a text with many attempts, some of which are given up after long ways. The
automaton reads it once. This module compares them, when the furthest errors are selected. An input
`Tracks` a state if the automaton, at that place of the tape, can do all that it can do in the
state, and does the same with the token ahead.

An error is justified if what it says is so: the automaton gets to the token it points at, each
expected token could have followed there, and the cause applies. It is decisive if the automaton
does not get over that token. All errors are justified, but of the errors of attempts only some are
decisive, and an attempt that is given up may have gone further than the parser goes on from. So the
parser is not always at the place of the tape where the automaton stops. `Input.Sure` says what
saves it: either it expects all that can follow, or a decisive error has been recorded, and that
error remains the furthest until the end.

`Rule.Tracked` is what is shown of each rule, and the lemmas here show it of rules that are put
together from others.
-/

namespace Descent

open Automaton

/-- The expectation is met by some token that can follow in the state. -/
def Expectation.Possible (c : State) : Expectation → Prop
  | token k => (c.step k).isSome
  | phrase name => name = "expression" ∧ ∃ k, State.Le ⟨.operand, k⟩ c

/-- The cause of an error at the token `x` in the state, where `expected` was expected. -/
def ParseError.Cause.Applies (settings : Settings) (c : State) (x : Token)
    (expected : Expectations) : ParseError.Cause → Prop
  | unexpectedToken => ∃ e, e ∈ expected
  | invalidLiteral => ¬x.Readable ∧ ∃ k, State.Le ⟨.operand, k⟩ c
  | tooDeep => settings.maxDepth ≠ none
  | beyondLookahead | pastEnd => False

/-- What the error says about the tape is so. -/
structure Tape.Justifies (tape : Tape) (settings : Settings) (e : ParseError) : Prop where
  index_le : e.index ≤ tape.tokens.size
  position : e.position = (tape.token e.index).span.start
  found : e.found = (tape.token e.index).kind
  state : ∃ c, tape.state settings.maxDepth e.index = some c ∧ (∀ x ∈ e.expected, x.Possible c) ∧
    e.cause.Applies settings c (tape.token e.index) e.expected

/-- The automaton does not get over the token that the error points at, and if only the limit on
nesting or a numeral is in its way, the error says so. -/
def Tape.Decides (tape : Tape) (settings : Settings) (e : ParseError) : Prop :=
  tape.state settings.maxDepth e.index = none ∨
    (tape.state settings.maxDepth (e.index + 1) = none ∧
      (e.cause = .unexpectedToken → ∀ c, tape.state settings.maxDepth e.index = some c →
        c.step (tape.token e.index).kind = none))

/-- Kinds of token that can follow in a state. -/
def Automaton.State.Accepts (c : State) (k : Token.Kind) : Prop := (c.step k).isSome

/-- The automaton is at a state that can do all that `c` can and does the same with the token
ahead, and errors recorded so far are justified. -/
structure Input.Tracks (tape : Tape) (settings : Settings) (c : State) (s : Input) : Prop where
  tape_eq : s.tape = tape
  settings_eq : s.settings = settings
  state : ∃ d, tape.state settings.maxDepth s.position = some d ∧ c.Le d ∧
    ∀ r, c.step s.current.kind = some r → d.step s.current.kind = some r
  recorded : ∀ e ∈ s.furthest, tape.Justifies settings e

/-- If the token ahead can follow, it is one of `A`, unless a decisive error has been recorded. -/
def Input.Sure (tape : Tape) (settings : Settings) (A : Token.Kind → Prop) (s : Input) : Prop :=
  ∀ d, tape.state settings.maxDepth s.position = some d → (d.step s.current.kind).isSome →
    A s.current.kind ∨ s.Blames (tape.Decides settings)

/-- Fewer than `m` tokens are left, at a depth `n` that the settings allow. -/
structure Input.Within (m n : Nat) (s : Input) : Prop where
  left_lt : s.left < m
  depth : s.depth = n
  allows : s.Allows 0

/-- From inputs with `P`, the rule leads to inputs with `Q`, or its error is justified. Where `S`
holds as well, it leads to inputs with `R`, or its error is decisive. -/
structure Rule.Tracked (tape : Tape) (settings : Settings) (m n : Nat) {α : Type} (r : Rule α)
    (P S Q R : Input → Prop) : Prop where
  ok : ∀ s a t, s.Within m n → P s → r.parse s = .ok (a, t) → Q t ∧ (S s → R t)
  error : ∀ s e, s.Within m n → P s → r.parse s = .error e →
    tape.Justifies settings e ∧ (S s → tape.Decides settings e)

/-! ## Errors -/

section

variable {tape : Tape} {settings : Settings}

theorem Tape.lasting_decides (tape : Tape) (settings : Settings) :
    ParseError.Lasting (tape.Decides settings) := by
  have beyond {e f : ParseError} (he : tape.Decides settings e) (hlt : e.index < f.index) :
      tape.Decides settings f := by
    rcases he with he | ⟨he, -⟩
    · exact .inl (state_eq_none_of_le he (Nat.le_of_lt hlt))
    · exact .inl (state_eq_none_of_le he hlt)
  have orElse {c d : ParseError.Cause} (h : c.orElse d = .unexpectedToken) :
      c = .unexpectedToken ∧ d = .unexpectedToken := by
    cases c <;> cases d <;> first | exact ⟨rfl, rfl⟩ | cases h
  constructor
  · intro e f he
    unfold ParseError.join
    split
    · exact beyond he ‹_›
    · split
      · exact he.imp_right fun h => ⟨h.1, fun hc => h.2 (orElse hc).1⟩
      · exact he
  · intro e f he
    unfold ParseError.join
    split
    · exact he
    · split
      · next heq =>
        rw [Tape.Decides, ← heq] at he
        exact he.imp_right fun h => ⟨h.1, fun hc => h.2 (orElse hc).2⟩
      · exact beyond he (by omega)
  · exact fun e x he => he

theorem ParseError.Cause.Applies.orElse {c : State} {x : Token} {a b : Expectations}
    {d d' : ParseError.Cause} (h : d.Applies settings c x a) (h' : d'.Applies settings c x b) :
    (d.orElse d').Applies settings c x (a ∪ b) := by
  cases d with
  | unexpectedToken =>
    cases d' with
    | unexpectedToken =>
      obtain ⟨e, he⟩ := h
      exact ⟨e, Expectations.mem_union.2 (.inl he)⟩
    | _ => exact h'
  | _ => exact h

/-- Errors that are justified are so when joined. -/
theorem Tape.Justifies.join {e f : ParseError} (he : tape.Justifies settings e)
    (hf : tape.Justifies settings f) : tape.Justifies settings (e.join f) := by
  unfold ParseError.join
  split
  · exact hf
  · split
    · next heq =>
      obtain ⟨c, hc, hx, hcause⟩ := he.state
      obtain ⟨c', hc', hx', hcause'⟩ := hf.state
      rw [← heq] at hc' hcause'
      cases hc.symm.trans hc'
      refine ⟨he.index_le, he.position, he.found, c, hc, fun x hmem => ?_, hcause.orElse hcause'⟩
      rcases Expectations.mem_union.1 hmem with h | h
      · exact hx x h
      · exact hx' x h
    · exact he

theorem Tape.Justifies.join? {e : ParseError} {o : Option ParseError}
    (he : tape.Justifies settings e) (ho : ∀ f ∈ o, tape.Justifies settings f) :
    tape.Justifies settings (e.join? o) := by
  cases o with
  | none => exact he
  | some f => exact he.join (ho f rfl)

end

/-! ## Inputs -/

namespace Input

variable {tape : Tape} {settings : Settings} {s t : Input} {b c d : State} {m n : Nat}
  {A B : Token.Kind → Prop} {k : Token.Kind}

theorem Within.of_passes {ts : List Token} (h : s.Within m n) (hp : s.Passes ts t) :
    t.Within m n := by
  refine ⟨?_, hp.depth.trans h.depth, hp.allows.2 h.allows⟩
  have := hp.left
  have := h.left_lt
  omega

theorem Within.past {ts : List Token} (h : s.Within (m + 1) n) (hp : s.Passes ts t)
    (hts : ts ≠ []) : t.Within m n := by
  refine ⟨?_, hp.depth.trans h.depth, hp.allows.2 h.allows⟩
  have := hp.left_lt hts
  have := h.left_lt
  omega

theorem Tracks.justifies_report {e : ParseError} (h : s.Tracks tape settings c)
    (he : tape.Justifies settings e) : tape.Justifies settings (s.report e) := by
  unfold report
  split
  · exact he.join? h.recorded
  · exact he

/-- An error at a place that tracks a state is justified if its cause applies. -/
theorem Tracks.justifies {expected : Expectations} {cause : ParseError.Cause}
    (h : s.Tracks tape settings c)
    (hstate : ∀ d, c.Le d → (∀ x ∈ expected, x.Possible d) ∧
      cause.Applies settings d s.current expected) :
    tape.Justifies settings (s.report ⟨s.current.span.start, s.position, expected, s.current.kind,
      cause⟩) := by
  obtain ⟨d, hd, hle, -⟩ := h.state
  obtain ⟨hx, hcause⟩ := hstate d hle
  have htape := h.tape_eq
  subst htape
  exact h.justifies_report ⟨s.position_le, rfl, rfl, d, hd, hx, hcause⟩

theorem Tracks.justifies_unexpected (h : s.Tracks tape settings c) (hk : c.Accepts k) :
    tape.Justifies settings (s.unexpected (.token k)) := by
  refine h.justifies fun d hle => ⟨fun x hx => ?_, .token k, Expectations.mem_singleton.2 rfl⟩
  rw [Expectations.mem_singleton.1 hx]
  obtain ⟨r, hr⟩ := Option.isSome_iff_exists.1 hk
  obtain ⟨r', hr', -⟩ := hle.step k r hr
  exact Option.isSome_iff_exists.2 ⟨r', hr'⟩

/-- Where no token can follow what the automaton is at, it does not get further. -/
theorem Tracks.state_succ_eq_none (h : s.Tracks tape settings c)
    (hd : ∀ d : State, (∀ r, c.step s.current.kind = some r → d.step s.current.kind = some r) →
      d.advance settings.maxDepth s.current = none) :
    tape.state settings.maxDepth (s.position + 1) = none := by
  obtain ⟨d, hstate, -, hsame⟩ := h.state
  rw [Tape.state_succ (h.tape_eq ▸ s.position_le), hstate, ← h.tape_eq, ← current_eq_token]
  exact hd d hsame

/-- Where nothing is expected that can follow, an error is decisive. -/
theorem Sure.decides {α : Type} {r : Rule α} {e : ParseError} (h : s.Tracks tape settings c)
    (hS : s.Sure tape settings A) (hA : ¬A s.current.kind) (hr : r.parse s = .error e) :
    tape.Decides settings e := by
  have hsteady := r.steady_parse (tape.lasting_decides settings)
  obtain ⟨d, hd, -, -⟩ := h.state
  cases hstep : d.step s.current.kind with
  | some d' =>
    refine hsteady.blames s e hr ((hS d hd ?_).resolve_left hA)
    rw [hstep]
    rfl
  | none =>
    have hindex := hsteady.onward s e hr
    have htoken : s.current = tape.token s.position := by rw [← h.tape_eq, current_eq_token]
    have hnext : tape.state settings.maxDepth (s.position + 1) = none := by
      rw [Tape.state_succ (h.tape_eq ▸ s.position_le), hd, ← htoken]
      refine Option.eq_none_iff_forall_ne_some.2 fun d' hd' => ?_
      obtain ⟨-, hd', -⟩ := State.advance_eq_some.1 hd'
      rw [hstep] at hd'
      cases hd'
    rcases Nat.lt_or_eq_of_le hindex with hlt | heq
    · exact .inl (Tape.state_eq_none_of_le hnext hlt)
    · refine .inr ⟨heq ▸ hnext, fun _ d' hd' => ?_⟩
      rw [← heq, hd] at hd'
      cases hd'
      rw [← heq, ← htoken, hstep]

theorem Tracks.weaken (h : s.Tracks tape settings c) (hle : b.Le c)
    (hstep : ∀ r, b.step s.current.kind = some r → c.step s.current.kind = some r) :
    s.Tracks tape settings b := by
  obtain ⟨d, hd, hcd, hsame⟩ := h.state
  exact ⟨h.tape_eq, h.settings_eq, ⟨d, hd, .trans hle hcd, fun r hr => hsame r (hstep r hr)⟩,
    h.recorded⟩

theorem Tracks.of_passes (h : s.Tracks tape settings c) (hp : s.Passes [] t)
    (hrecorded : ∀ e ∈ t.furthest, tape.Justifies settings e) : t.Tracks tape settings c := by
  refine ⟨hp.tape.trans h.tape_eq, hp.settings.trans h.settings_eq, ?_, hrecorded⟩
  rw [hp.position, hp.current]
  exact h.state

theorem Tracks.atDepth (h : s.Tracks tape settings c) (n : Nat) :
    (s.atDepth n).Tracks tape settings c :=
  ⟨h.tape_eq, h.settings_eq, h.state, h.recorded⟩

theorem Tracks.record (hs : settings.failureSelection = .furthest) {e : ParseError}
    (h : s.Tracks tape settings c) (he : tape.Justifies settings e) :
    (s.record e).Tracks tape settings c := by
  refine h.of_passes (s.record_passes e) fun f hf => ?_
  rw [furthest_record (h.settings_eq ▸ hs)] at hf
  cases hf
  exact he.join? h.recorded

theorem Tracks.record? (hs : settings.failureSelection = .furthest) {o : Option ParseError}
    (h : s.Tracks tape settings c) (ho : ∀ e ∈ o, tape.Justifies settings e) :
    (s.record? o).Tracks tape settings c := by
  cases o with
  | none => exact h
  | some e => exact h.record hs (ho e rfl)

theorem Sure.mono (h : s.Sure tape settings A) (hAB : ∀ k, A k → B k) : s.Sure tape settings B :=
  fun d hd hstep => (h d hd hstep).imp_left (hAB _)

theorem Sure.atDepth (h : s.Sure tape settings A) : (s.atDepth n).Sure tape settings A :=
  fun d hd hstep => (h d hd hstep).imp_right (·.atDepth n)

theorem Sure.of_mem (h : A s.current.kind) : s.Sure tape settings A := fun _ _ _ => .inl h

theorem Sure.of_blames (h : s.Blames (tape.Decides settings)) : s.Sure tape settings A :=
  fun _ _ _ => .inr h

theorem Sure.of_passes (h : s.Sure tape settings A) (hp : s.Passes [] t)
    (hkeep : s.Blames (tape.Decides settings) → t.Blames (tape.Decides settings)) :
    t.Sure tape settings A := by
  unfold Sure
  rw [hp.position, hp.current]
  exact fun d hd hstep => (h d hd hstep).imp_right hkeep

/-- Behind a token that the automaton reads, all is known again. -/
theorem Tracks.past (h : s.Tracks tape settings c) (hw : s.Within m n)
    (hp : s.Passes [s.current] t) (ht : t.furthest = s.furthest) (hread : s.current.Readable)
    (hc : c.step s.current.kind = some d) (hd : d.level ≤ n) :
    t.Tracks tape settings d ∧ t.Sure tape settings d.Accepts := by
  obtain ⟨c', hc', -, hsame⟩ := h.state
  have hstate : tape.state settings.maxDepth t.position = some d := by
    rw [hp.position, List.length_singleton, Tape.state_succ (h.tape_eq ▸ s.position_le), hc',
      ← h.tape_eq, ← current_eq_token]
    refine State.advance_eq_some.2 ⟨hread, hsame d hc, fun max hmax => ?_⟩
    have := hw.allows max (h.settings_eq ▸ hmax)
    have := hw.depth
    omega
  refine ⟨⟨hp.tape.trans h.tape_eq, hp.settings.trans h.settings_eq,
    ⟨d, hstate, .refl d, fun r hr => hr⟩, ht ▸ h.recorded⟩, fun d' hd' hstep => ?_⟩
  rw [hstate] at hd'
  cases hd'
  exact .inl hstep

end Input

/-! ## Rules -/

namespace Rule.Tracked

variable {tape : Tape} {settings : Settings} {α β : Type} {m n : Nat} {b c d : State}
  {A B : Token.Kind → Prop} {k : Token.Kind} {P S Q R : Input → Prop}

/-- What is tracked from some inputs is tracked from those of which more is known. -/
theorem before {r : Rule α} {P' S' : Input → Prop} (h : r.Tracked tape settings m n P S Q R)
    (hP : ∀ s, P' s → P s) (hS : ∀ s, P' s → S' s → S s) :
    r.Tracked tape settings m n P' S' Q R where
  ok s a t hw hs hr := by
    obtain ⟨hq, hrt⟩ := h.ok s a t hw (hP s hs) hr
    exact ⟨hq, fun hS' => hrt (hS s hs hS')⟩
  error s e hw hs hr := by
    obtain ⟨he, hd⟩ := h.error s e hw (hP s hs) hr
    exact ⟨he, fun hS' => hd (hS s hs hS')⟩

/-- What follows from all that is known behind a match is known there. -/
theorem behind {r : Rule α} {Q' R' : Input → Prop} (h : r.Tracked tape settings m n P S Q R)
    (hQ : ∀ t, Q t → Q' t) (hR : ∀ t, Q t → R t → R' t) :
    r.Tracked tape settings m n P S Q' R' where
  ok s a t hw hs hr := by
    obtain ⟨hq, hrt⟩ := h.ok s a t hw hs hr
    exact ⟨hQ t hq, fun hS => hR t hq (hrt hS)⟩
  error := h.error

/-- Fewer tokens may be expected before a match. -/
theorem mono_before {r : Rule α} {A' : Token.Kind → Prop}
    (h : r.Tracked tape settings m n P (·.Sure tape settings A) Q R) (hA : ∀ k, A' k → A k) :
    r.Tracked tape settings m n P (·.Sure tape settings A') Q R :=
  h.before (fun _ hs => hs) fun _ _ hS => hS.mono hA

/-- More tokens may be expected behind a match. -/
theorem mono_behind {r : Rule α} {B' : Token.Kind → Prop}
    (h : r.Tracked tape settings m n P S Q (·.Sure tape settings B)) (hB : ∀ k, B k → B' k) :
    r.Tracked tape settings m n P S Q (·.Sure tape settings B') :=
  h.behind (fun _ hs => hs) fun _ _ hS => hS.mono hB

/-- What is tracked where more tokens are left is tracked where fewer are. -/
theorem fewer {r : Rule α} (h : r.Tracked tape settings (m + 1) n P S Q R) :
    r.Tracked tape settings m n P S Q R where
  ok s a t hw := h.ok s a t ⟨Nat.lt_succ_of_lt hw.left_lt, hw.depth, hw.allows⟩
  error s e hw := h.error s e ⟨Nat.lt_succ_of_lt hw.left_lt, hw.depth, hw.allows⟩

/-- What is tracked of the rule of a phrase is tracked of the phrase. -/
theorem of_rule {p : Phrase} (h : p.rule.Tracked tape settings m n P S Q R) :
    (call p).Tracked tape settings m n P S Q R where
  ok s a t hw hs hr := h.ok s a t hw hs ((p.parse_eq s).symm.trans hr)
  error s e hw hs hr := h.error s e hw hs ((p.parse_eq s).symm.trans hr)

/-- What is known of all matches of the rule may be added. -/
theorem and_ok {r : Rule α} {Q' : Input → Prop} (h : r.Tracked tape settings m n P S Q R)
    (hQ : ∀ s a t, r.parse s = .ok (a, t) → Q' t) :
    r.Tracked tape settings m n P S (fun t => Q t ∧ Q' t) R where
  ok s a t hw hs hr := by
    obtain ⟨hq, hrt⟩ := h.ok s a t hw hs hr
    exact ⟨⟨hq, hQ s a t hr⟩, hrt⟩
  error := h.error

theorem or {r : Rule α} {P' : Input → Prop} (h : r.Tracked tape settings m n P S Q R)
    (h' : r.Tracked tape settings m n P' S Q R) :
    r.Tracked tape settings m n (fun s => P s ∨ P' s) S Q R where
  ok s a t hw hs hr := by
    rcases hs with hs | hs
    · exact h.ok s a t hw hs hr
    · exact h'.ok s a t hw hs hr
  error s e hw hs hr := by
    rcases hs with hs | hs
    · exact h.error s e hw hs hr
    · exact h'.error s e hw hs hr

theorem pure (a : α) (hQ : ∀ s, P s → Q s) (hR : ∀ s, P s → S s → R s) :
    (Pure.pure a : Rule α).Tracked tape settings m n P S Q R where
  ok s b t _ hs hr := by
    obtain ⟨-, rfl⟩ := pure_eq_ok.1 hr
    exact ⟨hQ s hs, hR s hs⟩
  error s e _ _ hr := by cases hr

/-- A rule that reads nothing leaves what it finds. -/
theorem leave (a : α) : (Pure.pure a : Rule α).Tracked tape settings m n P S P S :=
  pure a (fun _ hs => hs) fun _ _ hs => hs

theorem here : Rule.here.Tracked tape settings m n P S P S where
  ok s x t _ hs hr := by
    cases hr
    exact ⟨hs, id⟩
  error s e _ _ hr := by cases hr

theorem bind {r : Rule α} {f : α → Rule β} {Q' R' : Input → Prop}
    (hr : r.Tracked tape settings m n P S Q R)
    (hf : ∀ a, (f a).Tracked tape settings m n Q R Q' R') :
    (r >>= f).Tracked tape settings m n P S Q' R' where
  ok s b t hw hs h := by
    obtain ⟨a, u, hu, h⟩ := bind_eq_ok.1 h
    obtain ⟨ts, hts⟩ := r.forward_parse s a u hu
    obtain ⟨hq, hRu⟩ := hr.ok s a u hw hs hu
    obtain ⟨hq', hR'⟩ := (hf a).ok u b t (hw.of_passes hts) hq h
    exact ⟨hq', fun hS => hR' (hRu hS)⟩
  error s e hw hs h := by
    rcases Parser.bind_eq_error.1 h with h | ⟨a, u, hu, h⟩
    · exact hr.error s e hw hs h
    · obtain ⟨ts, hts⟩ := r.forward_parse s a u hu
      obtain ⟨hq, hRu⟩ := hr.ok s a u hw hs hu
      obtain ⟨he, hd⟩ := (hf a).error u e (hw.of_passes hts) hq h
      exact ⟨he, fun hS => hd (hRu hS)⟩

theorem map {r : Rule α} (f : α → β) (h : r.Tracked tape settings m n P S Q R) :
    (f <$> r).Tracked tape settings m n P S Q R :=
  bind h fun a => leave (f a)

theorem seqRight {r : Rule α} {q : Rule β} {Q' R' : Input → Prop}
    (hr : r.Tracked tape settings m n P S Q R) (hq : q.Tracked tape settings m n Q R Q' R') :
    (r *> q).Tracked tape settings m n P S Q' R' := bind hr fun _ => hq

theorem seqLeft {r : Rule α} {q : Rule β} {Q' R' : Input → Prop}
    (hr : r.Tracked tape settings m n P S Q R) (hq : q.Tracked tape settings m n Q R Q' R') :
    (r <* q).Tracked tape settings m n P S Q' R' :=
  bind hr fun a => bind hq fun _ => leave a

/-- A token that can follow, and then what is tracked behind it. -/
theorem token_bind {f : Token → Rule β} (hk : k ≠ .eof) (hi : k ≠ .integer) (hc : c.step k = some d)
    (hd : d.level ≤ n) (hA : ∀ k', A k' → k' = k)
    (hf : ∀ x, (f x).Tracked tape settings m n (·.Tracks tape settings d)
      (·.Sure tape settings d.Accepts) Q R) :
    (token k >>= f).Tracked tape settings (m + 1) n (·.Tracks tape settings c)
      (·.Sure tape settings A) Q R := by
  have behind (s : Input) (x : Token) (u : Input) (hw : s.Within (m + 1) n)
      (hs : s.Tracks tape settings c) (hu : (token k).parse s = .ok (x, u)) :
      u.Within m n ∧ u.Tracks tape settings d ∧ u.Sure tape settings d.Accepts := by
    by_cases hcur : s.current.kind = k
    · obtain ⟨us, hrest⟩ := Input.rest_of_current (hcur ▸ hk)
      obtain ⟨u', hu', hp, hfurthest⟩ := Parser.token_of_rest hrest hcur
      cases hu'.symm.trans hu
      have hread : s.current.Readable := fun h => absurd (hcur.symm.trans h) hi
      exact ⟨hw.past hp (List.cons_ne_nil _ _),
        hs.past hw hp hfurthest hread (by rw [hcur, hc]) hd⟩
    · cases (Parser.token_error hcur).symm.trans hu
  constructor
  · intro s b t hw hs h
    obtain ⟨x, u, hu, h⟩ := bind_eq_ok.1 h
    obtain ⟨hw', ht, hS⟩ := behind s x u hw hs hu
    obtain ⟨hq, hr⟩ := (hf x).ok u b t hw' ht h
    exact ⟨hq, fun _ => hr hS⟩
  · intro s e hw hs h
    rcases Parser.bind_eq_error.1 h with h' | ⟨x, u, hu, h'⟩
    · by_cases hcur : s.current.kind = k
      · obtain ⟨us, hrest⟩ := Input.rest_of_current (hcur ▸ hk)
        obtain ⟨u, hu, -⟩ := Parser.token_of_rest hrest hcur
        cases hu.symm.trans h'
      · cases (Parser.token_error hcur).symm.trans h'
        refine ⟨hs.justifies_unexpected (by rw [State.Accepts, hc]; rfl), fun hS => ?_⟩
        exact hS.decides hs (fun hmem => hcur (hA _ hmem)) h
    · obtain ⟨hw', ht, hS⟩ := behind s x u hw hs hu
      obtain ⟨he, hd⟩ := (hf x).error u e hw' ht h'
      exact ⟨he, fun _ => hd hS⟩

/-- A token that can follow. -/
theorem token (hk : k ≠ .eof) (hi : k ≠ .integer) (hc : c.step k = some d) (hd : d.level ≤ n)
    (hA : ∀ k', A k' → k' = k) :
    (Rule.token k).Tracked tape settings m n (·.Tracks tape settings c)
      (·.Sure tape settings A) (·.Tracks tape settings d) (·.Sure tape settings d.Accepts) := by
  have h : (Rule.token k >>= Pure.pure).Tracked tape settings m n (·.Tracks tape settings c)
      (·.Sure tape settings A) (·.Tracks tape settings d) (·.Sure tape settings d.Accepts) :=
    fewer (token_bind hk hi hc hd hA leave)
  refine ⟨fun s x t hw hs hr => ?_, fun s e hw hs hr => ?_⟩
  · exact h.ok s x t hw hs (bind_eq_ok.2 ⟨x, t, hr, rfl⟩)
  · exact h.error s e hw hs (bind_of_error hr)

theorem eoi (hc : c.Accepts .eof) (hA : ∀ k, A k → k = .eof) :
    eoi.Tracked tape settings m n (·.Tracks tape settings c) (·.Sure tape settings A)
      (·.Tracks tape settings c) (·.Sure tape settings A) := by
  constructor
  · intro s x t _ hs hr
    obtain ⟨-, rfl⟩ := Parser.eoi_eq_ok.1 hr
    exact ⟨hs, id⟩
  · intro s e _ hs hr
    have hne : s.current.kind ≠ .eof := by
      intro heof
      cases hrest : s.rest with
      | nil => cases (Parser.eoi_eq_ok (x := ()).2 ⟨hrest, rfl⟩).symm.trans hr
      | cons y us =>
        have hy : y ∈ s.rest := hrest ▸ List.mem_cons_self
        rw [Input.current_of_rest hrest] at heof
        exact Input.ne_eof_of_rest hy heof
    refine ⟨?_, fun hS => hS.decides hs (fun hmem => hne (hA _ hmem)) hr⟩
    have he : s.unexpected (.token .eof) = e := by
      have hr : Parser.eoi s = .error e := hr
      unfold Parser.eoi at hr
      split at hr
      · cases hr
      · exact Except.error.inj hr
    exact he ▸ hs.justifies_unexpected hc

theorem lookahead_bind {f : Token → Rule β} (hu : settings.Usable)
    (hf : ∀ x, (f x).Tracked tape settings m n (fun s => s.Tracks tape settings c ∧ s.current = x)
      S Q R) :
    (lookahead 0 >>= f).Tracked tape settings m n (·.Tracks tape settings c) S Q R := by
  have hrun (s : Input) (hs : s.Tracks tape settings c) :
      (lookahead 0 >>= f).parse s = (f s.current).parse s :=
    Parser.bind_of_ok (lookahead_of_usable (hs.settings_eq ▸ hu))
  constructor
  · intro s b t hw hs h
    exact (hf s.current).ok s b t hw ⟨hs, rfl⟩ (hrun s hs ▸ h)
  · intro s e hw hs h
    exact (hf s.current).error s e hw ⟨hs, rfl⟩ (hrun s hs ▸ h)

theorem named {r : Rule α} {l : Context}
    (h : r.Tracked tape settings m n (·.Tracks tape settings ⟨.operand, l⟩) S Q R) :
    (named "expression" r).Tracked tape settings m n (·.Tracks tape settings ⟨.operand, l⟩) S Q R
    where
  ok s a t hw hs hr := h.ok s a t hw hs (Parser.named_eq_ok.1 hr)
  error s e hw hs hr := by
    obtain ⟨e', he', rfl⟩ := Parser.named_eq_error.1 hr
    obtain ⟨he, hd⟩ := h.error s e' hw hs he'
    by_cases hi : e'.index = s.position
    · rw [if_pos hi]
      refine ⟨?_, hd⟩
      obtain ⟨d, hd, hle, -⟩ := hs.state
      obtain ⟨d', hd', -, hcause⟩ := he.state
      have hphrase : ∀ x ∈ ({.phrase "expression"} : Expectations), x.Possible d := fun x hx => by
        rw [Expectations.mem_singleton.1 hx]
        exact ⟨rfl, l, hle⟩
      rw [hi, hd] at hd'
      cases hd'
      refine ⟨he.index_le, he.position, he.found, d, hi ▸ hd, hphrase, ?_⟩
      cases hc : e'.cause with
      | unexpectedToken => exact ⟨_, Expectations.mem_singleton.2 rfl⟩
      | _ =>
        rw [hc] at hcause
        exact hcause
    · rw [if_neg hi]
      exact ⟨he, hd⟩

/-- One level deeper. Where none is left, no token of those expected can follow. -/
theorem nest {r : Rule α}
    (h : r.Tracked tape settings m (n + 1) (·.Tracks tape settings c) (·.Sure tape settings A)
      (·.Tracks tape settings d) (·.Sure tape settings B))
    (hdeep : ∀ k, A k → ∃ c', c.step k = some c' ∧ n < c'.level) :
    (nest r).Tracked tape settings m n (·.Tracks tape settings c) (·.Sure tape settings A)
      (·.Tracks tape settings d) (·.Sure tape settings B) := by
  have hinner (s : Input) (hw : s.Within m n) {inner : Input} (hi : s.descend = .ok inner) :
      inner = s.atDepth (n + 1) ∧ inner.Within m (n + 1) := by
    have hinner := Input.descend_eq_ok hi
    rw [hw.depth] at hinner
    refine ⟨hinner, ?_, by rw [hinner]; rfl, (Input.allows_of_descend (n := 0) hi).1⟩
    rw [hinner]
    exact hw.left_lt
  constructor
  · intro s a t hw hs hr
    obtain ⟨inner, u, hi, hu, rfl⟩ := Parser.nest_eq_ok.1 hr
    obtain ⟨rfl, hw'⟩ := hinner s hw hi
    obtain ⟨ht, hR⟩ := h.ok _ a u hw' (hs.atDepth _) hu
    exact ⟨ht.atDepth _, fun hS => (hR hS.atDepth).atDepth⟩
  · intro s e hw hs hr
    rcases Parser.nest_eq_error.1 hr with hi | ⟨inner, hi, he⟩
    · cases Input.descend_eq_error hi
      obtain ⟨max, hmax, hlt⟩ := Input.lt_of_descend_eq_error hi
      rw [hs.settings_eq] at hmax
      rw [hw.depth] at hlt
      have hcause (d : State) : ParseError.Cause.tooDeep.Applies settings d s.current ∅ :=
        fun hnone => by rw [hnone] at hmax; cases hmax
      refine ⟨hs.justifies fun d _ => ⟨fun x hx => absurd hx Expectations.not_mem_empty, hcause d⟩,
        fun hS => ?_⟩
      by_cases hmem : A s.current.kind
      · refine Input.report_of_lasting (tape.lasting_decides settings) (.inr ⟨?_, nofun⟩)
        obtain ⟨c', hc', hlevel⟩ := hdeep _ hmem
        refine hs.state_succ_eq_none fun d hsame => ?_
        refine Option.eq_none_iff_forall_ne_some.2 fun d' hd' => ?_
        obtain ⟨-, hd', hfits⟩ := State.advance_eq_some.1 hd'
        cases (hsame c' hc').symm.trans hd'
        have := hfits max hmax
        omega
      · exact hS.decides hs hmem hr
    · obtain ⟨rfl, hw'⟩ := hinner s hw hi
      obtain ⟨hj, hd⟩ := h.error _ e hw' (hs.atDepth _) he
      exact ⟨hj, fun hS => hd hS.atDepth⟩

/-- After the error of an attempt is recorded, what comes next may count on it. -/
theorem sure_record {s : Input} {e : ParseError}
    (hs : settings.failureSelection = .furthest) (hP : s.Tracks tape settings c)
    (hd : s.Sure tape settings A → tape.Decides settings e)
    (hS : s.Sure tape settings fun k => A k ∨ B k) : (s.record e).Sure tape settings B := by
  have hlasting := tape.lasting_decides settings
  by_cases hmem : A s.current.kind
  · have hfurthest : s.settings.failureSelection = .furthest := hP.settings_eq ▸ hs
    exact .of_blames (Input.blames_record hlasting hfurthest (hd (.of_mem hmem)))
  · refine Input.Sure.of_passes (fun d hd hstep => ?_) (s.record_passes e)
      fun hb => hb.record hlasting e
    exact (hS d hd hstep).imp_left fun h => h.resolve_left hmem

/-- What a rule reads, or nothing, where the token ahead says which. -/
theorem optional {r : Rule α} (hs : settings.failureSelection = .furthest)
    (hfirst : ∀ s a t, r.parse s = .ok (a, t) → A s.current.kind)
    (h : r.Tracked tape settings m n (·.Tracks tape settings c) (·.Sure tape settings A)
      Q (·.Sure tape settings B)) :
    (Rule.optional r).Tracked tape settings m n (·.Tracks tape settings c)
      (·.Sure tape settings fun k => A k ∨ B k)
      (fun t => Q t ∨ t.Tracks tape settings c) (·.Sure tape settings B) := by
  have hsome {s t : Input} {a : α} (h : r.parse s = .ok (a, t)) :
      (Rule.optional r).parse s = .ok (some a, t) :=
    Parser.optional_eq_some (r.forward_parse.position_le h) h
  have hnone {s : Input} {e : ParseError} (h : r.parse s = .error e) :
      (Rule.optional r).parse s = .ok (none, s.record e) := Parser.optional_eq_none h
  constructor
  · intro s o t hw hP hr
    cases h' : r.parse s with
    | ok q =>
      cases (hsome h').symm.trans hr
      obtain ⟨hq, hR⟩ := h.ok s q.1 q.2 hw hP h'
      exact ⟨.inl hq, fun _ => hR (.of_mem (hfirst s q.1 q.2 h'))⟩
    | error e =>
      cases (hnone h').symm.trans hr
      obtain ⟨hj, hd⟩ := h.error s e hw hP h'
      exact ⟨.inr (hP.record hs hj), sure_record hs hP hd⟩
  · intro s e _ _ hr
    cases h' : r.parse s with
    | ok q => cases (hsome h').symm.trans hr
    | error e => cases (hnone h').symm.trans hr

/-- Any number of matches of a rule, where the token ahead says whether there is one more. -/
theorem many {r : Rule α} (hs : settings.failureSelection = .furthest)
    (hfirst : ∀ s a t, r.parse s = .ok (a, t) → A s.current.kind ∧ t.left < s.left)
    (h : r.Tracked tape settings m n (·.Tracks tape settings c) (·.Sure tape settings A)
      (·.Tracks tape settings c) (·.Sure tape settings fun k => A k ∨ B k)) :
    (Rule.many r).Tracked tape settings m n (·.Tracks tape settings c)
      (·.Sure tape settings fun k => A k ∨ B k) (·.Tracks tape settings c)
      (·.Sure tape settings B) := by
  constructor
  · intro s as t hw hP hr
    replace hr : Parser.atLeast 0 r.parse s = .ok (as, t) := hr
    generalize hmin : 0 = min at hr
    fun_induction Parser.atLeast min r.parse s generalizing as t with
    | case1 s e he =>
      cases hr
      obtain ⟨hj, hd⟩ := h.error s e hw hP he
      exact ⟨hP.record hs hj, sure_record hs hP hd⟩
    | case2 => cases hr
    | case3 min s a u hu hlt as' t' hrest ih =>
      cases hr
      obtain ⟨hq, hR⟩ := h.ok s a u hw hP hu
      obtain ⟨ts, hts⟩ := r.forward_parse s a u hu
      obtain ⟨hq', hR'⟩ := ih _ _ (hw.of_passes hts) hq (by omega) hrest
      exact ⟨hq', fun _ => hR' (hR (.of_mem (hfirst s a u hu).1))⟩
    | case4 => cases hr
    | case5 min s a u hu hlt => exact absurd (hfirst s a u hu).2 hlt
  · intro s e _ _ hr
    exact absurd hr (Parser.many_ne_error s e)

/-- One of several branches, each with the tokens that it begins with. -/
theorem choice (hs : settings.failureSelection = .furthest)
    (bs : List (Rule α × (Token.Kind → Prop))) (hne : bs ≠ [])
    (h : ∀ b ∈ bs, (∀ s a t, b.1.parse s = .ok (a, t) → b.2 s.current.kind) ∧
      b.1.Tracked tape settings m n (·.Tracks tape settings c) (·.Sure tape settings b.2)
        (·.Tracks tape settings d) (·.Sure tape settings B))
    (hA : ∀ k, A k → ∃ b ∈ bs, b.2 k) :
    (Rule.choice (bs.map Prod.fst)).Tracked tape settings m n (·.Tracks tape settings c)
      (·.Sure tape settings A) (·.Tracks tape settings d) (·.Sure tape settings B) := by
  have branch (p : Parser α) (hp : p ∈ (bs.map Prod.fst).map fun r => r.run Phrase.parse) :
      ∃ b ∈ bs, p = b.1.parse := by
    obtain ⟨r, hr, rfl⟩ := List.mem_map.1 hp
    obtain ⟨b, hb, rfl⟩ := List.mem_map.1 hr
    exact ⟨b, hb, rfl⟩
  have hjustifies (s : Input) (hw : s.Within m n) (hP : s.Tracks tape settings c) :
      ∀ p ∈ (bs.map Prod.fst).map fun r => r.run Phrase.parse, ∀ e, p s = .error e →
        tape.Justifies settings e := by
    intro p hp e he
    obtain ⟨b, hb, rfl⟩ := branch p hp
    exact ((h b hb).2.error s e hw hP he).1
  constructor
  · intro s a t hw hP hr
    rw [Rule.parse, run_choice] at hr
    obtain ⟨u, o, rfl, ho, ⟨p, hp, hu⟩ | hu⟩ := Parser.choiceFrom_ok
      (Q := tape.Justifies settings) (fun _ _ => .join) (fun e he => by cases he)
      (hjustifies s hw hP) hr
    · obtain ⟨b, hb, rfl⟩ := branch p hp
      obtain ⟨hfirst, htracked⟩ := h b hb
      obtain ⟨hQ, hR⟩ := htracked.ok s a u hw hP hu
      refine ⟨hQ.record? hs ho, fun _ => ?_⟩
      exact (hR (.of_mem (hfirst s a u hu))).of_passes (u.record?_passes o)
        fun hb => hb.record? (tape.lasting_decides settings) o
    · cases hu
  · intro s e hw hP hr
    have hr' := hr
    rw [Rule.parse, run_choice] at hr'
    refine ⟨Parser.choiceFrom_error (Q := tape.Justifies settings) (fun _ _ => .join)
      (fun e he => by cases he)
      (hjustifies s hw hP) (.inl (by simpa using hne)) hr', fun hS => ?_⟩
    by_cases hmem : A s.current.kind
    · obtain ⟨b, hb, hbk⟩ := hA _ hmem
      refine Parser.choiceFrom_lasting (tape.lasting_decides settings) (hP.settings_eq ▸ hs)
        (.inr ⟨b.1.parse, ?_, fun e he => ((h b hb).2.error s e hw hP he).2 (.of_mem hbk)⟩) hr'
      exact List.mem_map.2 ⟨b.1, List.mem_map.2 ⟨b, hb, rfl⟩, rfl⟩
    · exact hS.decides hP hmem hr

/-- What is tracked from one extension to the next is tracked over all of them. -/
theorem extend {r : Rule α} {f : α → Rule (Option α)} (h : r.Tracked tape settings m n P S Q R)
    (hf : ∀ a, (f a).Tracked tape settings m n Q R Q R) :
    (extend r f).Tracked tape settings m n P S Q R := by
  have hforward (a : α) := (f a).forward_parse
  constructor
  · intro s b t hw hP hr
    obtain ⟨a, u, hu, hr⟩ := Parser.bind_eq_ok.1 hr
    obtain ⟨ts, hts⟩ := r.forward_parse s a u hu
    obtain ⟨hQ, hR⟩ := h.ok s a u hw hP hu
    have loop (a : α) (u : Input) (hw : u.Within m n) (hQ : Q u)
        (hr : Parser.extendFrom (fun a => (f a).parse) a u = .ok (b, t)) :
        Q t ∧ (R u → R t) := by
      fun_induction Parser.extendFrom (fun a => (f a).parse) a u with
      | case1 => cases hr
      | case2 a u v hv =>
        cases hr
        exact (hf _).ok u _ _ hw hQ hv
      | case3 a u c v hv _ ih =>
        obtain ⟨ts, hts⟩ := hforward a u _ v hv
        obtain ⟨hQ', hR⟩ := (hf a).ok u _ v hw hQ hv
        obtain ⟨hQt, hRt⟩ := ih (hw.of_passes hts) hQ' hr
        exact ⟨hQt, fun hu => hRt (hR hu)⟩
      | case4 a u c v hv =>
        cases hr
        exact (hf a).ok u _ _ hw hQ hv
    obtain ⟨hQt, hRt⟩ := loop a u (hw.of_passes hts) hQ hr
    exact ⟨hQt, fun hS => hRt (hR hS)⟩
  · intro s e hw hP hr
    rcases Parser.bind_eq_error.1 hr with hr | ⟨a, u, hu, hr⟩
    · exact h.error s e hw hP hr
    obtain ⟨ts, hts⟩ := r.forward_parse s a u hu
    obtain ⟨hQ, hR⟩ := h.ok s a u hw hP hu
    have loop (a : α) (u : Input) (hw : u.Within m n) (hQ : Q u)
        (hr : Parser.extendFrom (fun a => (f a).parse) a u = .error e) :
        tape.Justifies settings e ∧ (R u → tape.Decides settings e) := by
      fun_induction Parser.extendFrom (fun a => (f a).parse) a u with
      | case1 a u x hx =>
        cases hr
        exact (hf a).error u _ hw hQ hx
      | case2 => cases hr
      | case3 a u c v hv _ ih =>
        obtain ⟨ts, hts⟩ := hforward a u _ v hv
        obtain ⟨hQ', hR⟩ := (hf a).ok u _ v hw hQ hv
        obtain ⟨hj, hd⟩ := ih (hw.of_passes hts) hQ' hr
        exact ⟨hj, fun hu => hd (hR hu)⟩
      | case4 => cases hr
    obtain ⟨hj, hd⟩ := loop a u (hw.of_passes hts) hQ hr
    exact ⟨hj, fun hS => hd (hR hS)⟩

/-- The token ahead, where it is known and can follow, and then what is tracked behind it. -/
theorem any_bind {f : Token → Rule β} {x : Token} (hk : x.kind ≠ .eof) (hi : x.kind ≠ .integer)
    (hc : c.step x.kind = some d) (hd : d.level ≤ n)
    (hf : ∀ x, (f x).Tracked tape settings m n (·.Tracks tape settings d)
      (·.Sure tape settings d.Accepts) Q R) :
    (any >>= f).Tracked tape settings (m + 1) n
      (fun s => s.Tracks tape settings c ∧ s.current = x) S Q R := by
  have behind (s : Input) (hw : s.Within (m + 1) n)
      (hs : s.Tracks tape settings c ∧ s.current = x) :
      ∃ u, (any >>= f).parse s = (f x).parse u ∧ u.Within m n ∧ u.Tracks tape settings d ∧
        u.Sure tape settings d.Accepts := by
    obtain ⟨hs, rfl⟩ := hs
    obtain ⟨us, hrest⟩ := Input.rest_of_current hk
    obtain ⟨u, hu, hp, hfurthest⟩ := Parser.any_of_rest hrest
    exact ⟨u, Parser.bind_of_ok hu, hw.past hp (List.cons_ne_nil _ _),
      hs.past hw hp hfurthest (fun h => absurd h hi) hc hd⟩
  constructor
  · intro s b t hw hs h
    obtain ⟨u, hrun, hw', ht, hS⟩ := behind s hw hs
    obtain ⟨hq, hr⟩ := (hf x).ok u b t hw' ht (hrun ▸ h)
    exact ⟨hq, fun _ => hr hS⟩
  · intro s e hw hs h
    obtain ⟨u, hrun, hw', ht, hS⟩ := behind s hw hs
    obtain ⟨he, hd⟩ := (hf x).error u e hw' ht (hrun ▸ h)
    exact ⟨he, fun _ => hd hS⟩

/-- A numeral is an operand if it stands for a value, and otherwise its error says so. -/
theorem integer {l : Context} (hl : l.depth ≤ n) :
    Grammar.integer.Tracked tape settings m n (·.Tracks tape settings ⟨.operand, l⟩)
      (·.Sure tape settings (· = .integer)) (·.Tracks tape settings ⟨.operandEnd, l⟩)
      (·.Sure tape settings (State.Accepts ⟨.operandEnd, l⟩)) := by
  constructor
  · intro s e t hw hs hr
    obtain ⟨x, hx, hn⟩ := Parser.refine_eq_ok.1 hr
    obtain ⟨hk, hp⟩ := Parser.token_ok hx nofun
    obtain ⟨us, hrest⟩ := Input.rest_of_current (s := s) (by
      rw [Input.current_of_rest hp.rest, hk]
      nofun)
    have hcur : s.current = x := Input.current_of_rest hp.rest
    obtain ⟨t', ht', -, hfurthest⟩ := Parser.token_of_rest hrest (hcur ▸ hk)
    cases ht'.symm.trans hx
    have hread : s.current.Readable := fun _ => by
      unfold Grammar.integerOf at hn
      cases hi : Text.Decimal.toInt64? s.current.lexeme with
      | some i => rfl
      | none =>
        rw [hi] at hn
        cases hn
    obtain ⟨ht, hS⟩ := hs.past hw hp hfurthest hread (d := ⟨.operandEnd, l⟩) (by rw [hk]; rfl) hl
    exact ⟨ht, fun _ => hS⟩
  · intro s e hw hs hr
    rcases Parser.refine_eq_error.1 hr with h | ⟨x, t, cause, hx, hn, rfl⟩
    · have hcur : s.current.kind ≠ .integer := by
        intro hcur
        obtain ⟨us, hrest⟩ := Input.rest_of_current (s := s) (by rw [hcur]; nofun)
        obtain ⟨t, ht, -⟩ := Parser.token_of_rest hrest hcur
        cases ht.symm.trans h
      cases (Parser.token_error hcur).symm.trans h
      exact ⟨hs.justifies_unexpected rfl, fun hS => hS.decides hs hcur hr⟩
    · obtain ⟨hk, hp⟩ := Parser.token_ok hx nofun
      obtain rfl : s.current = x := Input.current_of_rest hp.rest
      have hread : ¬s.current.Readable ∧ cause = .invalidLiteral := by
        unfold Grammar.integerOf at hn
        cases hi : Text.Decimal.toInt64? s.current.lexeme with
        | some i =>
          rw [hi] at hn
          cases hn
        | none =>
          rw [hi] at hn
          cases hn
          refine ⟨fun h => ?_, rfl⟩
          have := h hk
          rw [hi] at this
          cases this
      obtain ⟨hread, rfl⟩ := hread
      refine ⟨hs.justifies fun d hle => ⟨fun y hy => absurd hy Expectations.not_mem_empty,
        hread, l, hle⟩, fun _ => ?_⟩
      refine Input.report_of_lasting (tape.lasting_decides settings) (.inr ⟨?_, nofun⟩)
      exact hs.state_succ_eq_none fun d _ => if_neg hread

end Rule.Tracked

end Descent
