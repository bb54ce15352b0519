import Descent.Proofs.Parser.Agreement
import Descent.Proofs.Parser.Beginning

/-!
# Runs under different settings

Two runs of a rule under settings that differ in which match of a choice counts, in how far rules
may look ahead or in what lies past the end leave different errors behind. If the longest match
counts, a choice tries the branches behind the one that matches, too, and records their errors. The
runs do the same as long as the errors that differ are behind the place: an error is only ever
joined with what is recorded there or further on. Inputs are `Alike` if they agree but for what is
recorded behind.

What remains to be seen at a choice is that the branches that do not match leave their errors
behind. They do so unless an error further on has been recorded before the choice. That happens,
since attempts are given up, but only before a token at which parsing does not go on with a choice.
`Input.Calm` keeps track of those tokens, and `Rule.Even` is what is shown of each rule.
-/

namespace Descent

open Descent.Parser (Agree)

namespace ParseError

variable {c d : Cause} {e f : ParseError}

/-- A cause that lies in what is read, and not in the way of reading it. -/
def Cause.Ordinary (c : Cause) : Prop := c ≠ .pastEnd ∧ c ≠ .beyondLookahead

theorem Cause.Ordinary.orElse (hc : c.Ordinary) (hd : d.Ordinary) : (c.orElse d).Ordinary := by
  cases c with
  | unexpectedToken => exact hd
  | _ => exact hc

theorem ordinary_join (he : e.cause.Ordinary) (hf : f.cause.Ordinary) :
    (e.join f).cause.Ordinary := by
  unfold join
  split
  · exact hf
  · split
    · exact he.orElse hf
    · exact he

theorem ordinary_join? {o : Option ParseError} (he : e.cause.Ordinary)
    (ho : ∀ f ∈ o, f.cause.Ordinary) : (e.join? o).cause.Ordinary := by
  cases o with
  | none => exact he
  | some f => exact ordinary_join he (ho f rfl)

theorem join_of_lt (h : f.index < e.index) : e.join f = e := by
  unfold join
  rw [if_neg (by omega), if_neg (by omega)]

end ParseError

/-! ## Inputs -/

namespace Input

variable {s t u v : Input} {e : ParseError} {ts us : List Token} {A B : Token.Kind → Prop}

/-- The recorded error, unless it is behind the place. -/
def pending (s : Input) : Option ParseError := s.furthest.filter (s.position ≤ ·.index)

theorem pending_eq_some {f : ParseError} :
    s.pending = some f ↔ s.furthest = some f ∧ s.position ≤ f.index := by
  simp [pending, Option.filter_eq_some_iff]

/-- What is recorded behind an error does not change it. -/
theorem join?_pending (h : s.position ≤ e.index) : e.join? s.furthest = e.join? s.pending := by
  unfold pending
  cases s.furthest with
  | none => rfl
  | some f =>
    by_cases hf : s.position ≤ f.index
    · rw [Option.filter_some_pos (by simpa using hf)]
    · rw [Option.filter_some_neg (by simpa using hf)]
      exact ParseError.join_of_lt (by omega)

/-- What is pending behind a passage was pending before it. -/
theorem pending_of_passes (h : s.Passes ts t) (hf : t.furthest = s.furthest) :
    t.pending = s.pending.filter (t.position ≤ ·.index) := by
  have := h.position
  unfold pending
  rw [hf, Option.filter_filter]
  congr 1
  funext f
  simp
  omega

/-- Where the furthest errors count, an error that is recorded is joined with the pending one. If it
is behind, it leaves no trace. -/
theorem pending_record (hs : s.settings.failureSelection = .furthest) (e : ParseError) :
    (s.record e).pending = (some (e.join? s.pending)).filter (s.position ≤ ·.index) := by
  have hposition : (s.record e).position = s.position := (s.record_passes e).position
  rw [pending, furthest_record hs, hposition]
  by_cases he : s.position ≤ e.index
  · rw [join?_pending he]
  · cases hp : s.pending with
    | some f =>
      obtain ⟨hf, -⟩ := pending_eq_some.1 hp
      rw [hf]
    | none =>
      have hbehind : (e.join? s.furthest).index < s.position := by
        cases hf : s.furthest with
        | none => exact Nat.lt_of_not_le he
        | some f =>
          have : ¬s.position ≤ f.index := fun hle => by
            cases hp.symm.trans (pending_eq_some.2 ⟨hf, hle⟩)
          show (e.join f).index < s.position
          rw [ParseError.index_join]
          omega
      rw [Option.filter_some_neg (by simpa using hbehind)]
      symm
      exact Option.filter_some_neg (decide_eq_false he)

/-- An error behind the place is not pending. -/
theorem pending_record?_of_lt {o : Option ParseError} (h : ∀ e ∈ o, e.index < s.position) :
    (s.record? o).pending = s.pending := by
  cases o with
  | none => rfl
  | some e =>
    have he := h e rfl
    cases hs : s.settings.failureSelection with
    | first =>
      have hrecord : s.record e = s := by rw [record, hs]
      exact congrArg pending hrecord
    | furthest =>
      show (s.record e).pending = s.pending
      rw [pending_record hs]
      cases hp : s.pending with
      | none => exact Option.filter_some_neg (decide_eq_false (Nat.not_le.2 he))
      | some f =>
        obtain ⟨-, hf⟩ := pending_eq_some.1 hp
        have hjoin : e.join? (some f) = f := if_pos (Nat.lt_of_lt_of_le he hf)
        rw [hjoin]
        exact Option.filter_some_pos (by simpa using hf)

theorem reach_eq (s : Input) :
    s.reach = match s.pending with
      | none => s.position
      | some f => f.index := by
  unfold reach pending
  cases s.furthest with
  | none => rfl
  | some f =>
    by_cases hf : s.position ≤ f.index
    · rw [Option.filter_some_pos (by simpa using hf)]
      exact Nat.max_eq_right hf
    · rw [Option.filter_some_neg (by simpa using hf)]
      exact Nat.max_eq_left (by omega)

/-- No error is recorded that is further on than the place. -/
def Settled (s : Input) : Prop := s.reach ≤ s.position

/-- An error further on than the place is recorded only if one of `A` is ahead. -/
def Calm (A : Token.Kind → Prop) (s : Input) : Prop := A s.current.kind ∨ s.Settled

theorem Calm.settled (h : s.Calm A) (hA : ¬A s.current.kind) : s.Settled := h.resolve_left hA

theorem Calm.mono (h : s.Calm A) (hAB : ∀ k, A k → B k) : s.Calm B := h.imp_left (hAB _)

theorem Settled.calm (h : s.Settled) : s.Calm A := .inr h

/-- Recording an error that is no further on than what is recorded keeps an input calm. -/
theorem Calm.record? {o : Option ParseError} (h : s.Calm A) (ho : ∀ e ∈ o, e.index ≤ s.reach) :
    (s.record? o).Calm A := by
  have hp := s.record?_passes o
  have hposition : (s.record? o).position = s.position := hp.position
  have hreach := reach_record?_le ho
  unfold Calm Settled
  rw [hp.current, hposition]
  exact h.imp_right (Nat.le_trans hreach)

/-- Recording an error keeps an input calm if it is further on only where one of `B` is ahead. -/
theorem Calm.record (h : s.Calm A) (hAB : ∀ k, A k → B k)
    (he : ¬B s.current.kind → e.index ≤ s.reach) : (s.record e).Calm B := by
  by_cases hB : B s.current.kind
  · left
    rwa [(s.record_passes e).current]
  · refine (h.mono hAB).record? (o := some e) fun f hf => ?_
    cases hf
    exact he hB

/-- Behind a token, what was recorded before it is behind. -/
theorem Settled.past (h : s.Settled) (hp : s.Passes ts t) (hf : t.furthest = s.furthest) :
    t.Settled := by
  have := hp.position
  unfold Settled reach at *
  rw [hf]
  cases hs : s.furthest with
  | none => exact Nat.le_refl _
  | some f =>
    rw [hs] at h
    dsimp only at h ⊢
    omega

/-- The inputs agree in all that matters to what follows: the tokens and the place, the limit on
nesting, which errors are selected, and what is recorded at the place or further on. Both let a rule
look at the token ahead. -/
structure Alike (s t : Input) : Prop where
  tokens : t.tape.tokens = s.tape.tokens
  eof : t.tape.eof = s.tape.eof
  position : t.position = s.position
  depth : t.depth = s.depth
  usable_left : s.settings.Usable
  usable_right : t.settings.Usable
  maxDepth : t.settings.maxDepth = s.settings.maxDepth
  failureSelection : t.settings.failureSelection = s.settings.failureSelection
  pending : t.pending = s.pending
  ordinary : ∀ f ∈ s.pending, f.cause.Ordinary

namespace Alike

theorem current (h : s.Alike t) : t.current = s.current := by
  rw [Input.current, Input.current, peek, peek, h.tokens, h.eof, h.position]

theorem left (h : s.Alike t) : t.left = s.left := by
  rw [Input.left, Input.left, h.tokens, h.position]

theorem reach (h : s.Alike t) : t.reach = s.reach := by
  rw [reach_eq, reach_eq, h.pending, h.position]

theorem settled (h : s.Alike t) (hs : s.Settled) : t.Settled := by
  rw [Settled, h.reach, h.position]
  exact hs

/-- Errors at the place are reported alike. -/
theorem report (h : s.Alike t) (he : e.index = s.position) (hcause : e.cause.Ordinary) :
    t.report e = s.report e ∧ (s.report e).cause.Ordinary := by
  unfold Input.report
  rw [h.failureSelection]
  cases s.settings.failureSelection with
  | first => exact ⟨rfl, hcause⟩
  | furthest =>
    dsimp only
    rw [join?_pending (Nat.le_of_eq he.symm),
      join?_pending (Nat.le_of_eq (h.position.trans he.symm)), h.pending]
    exact ⟨rfl, ParseError.ordinary_join? hcause h.ordinary⟩

theorem error {cause : ParseError.Cause} (h : s.Alike t) (hcause : cause.Ordinary) :
    t.error cause = s.error cause ∧ (s.error cause).cause.Ordinary := by
  unfold Input.error
  rw [h.current, h.position]
  exact h.report rfl hcause

theorem unexpected (h : s.Alike t) (x : Expectation) :
    t.unexpected x = s.unexpected x ∧ (s.unexpected x).cause.Ordinary := by
  unfold Input.unexpected
  rw [h.current, h.position]
  exact h.report rfl ⟨nofun, nofun⟩

/-- Inputs at the same distance from two that are alike are alike if the same is pending. -/
theorem of_passes (h : s.Alike t) (hs : s.Passes ts u) (ht : t.Passes us v)
    (hlength : us.length = ts.length) (hpending : v.pending = u.pending)
    (hordinary : ∀ f ∈ u.pending, f.cause.Ordinary) : u.Alike v where
  tokens := by rw [ht.tape, hs.tape, h.tokens]
  eof := by rw [ht.tape, hs.tape, h.eof]
  position := by rw [ht.position, hs.position, h.position, hlength]
  depth := by rw [ht.depth, hs.depth, h.depth]
  usable_left := hs.settings ▸ h.usable_left
  usable_right := ht.settings ▸ h.usable_right
  maxDepth := by rw [ht.settings, hs.settings, h.maxDepth]
  failureSelection := by rw [ht.settings, hs.settings, h.failureSelection]
  pending := hpending
  ordinary := hordinary

theorem atDepth (h : s.Alike t) (n : Nat) : (s.atDepth n).Alike (t.atDepth n) :=
  ⟨h.tokens, h.eof, h.position, rfl, h.usable_left, h.usable_right, h.maxDepth, h.failureSelection,
    h.pending, h.ordinary⟩

/-- Recording the same error keeps inputs alike. -/
theorem record (h : s.Alike t) (hcause : e.cause.Ordinary) : (s.record e).Alike (t.record e) := by
  cases hs : s.settings.failureSelection with
  | first =>
    have hrecord_left : s.record e = s := by rw [Input.record, hs]
    have hrecord_right : t.record e = t := by rw [Input.record, h.failureSelection, hs]
    rw [hrecord_left, hrecord_right]
    exact h
  | furthest =>
    have hpending := pending_record hs e
    refine h.of_passes (s.record_passes e) (t.record_passes e) rfl ?_ fun f hf => ?_
    · rw [hpending, pending_record (h.failureSelection.trans hs), h.pending, h.position]
    · rw [hpending] at hf
      obtain ⟨hf, -⟩ := Option.filter_eq_some_iff.1 hf
      cases hf
      exact ParseError.ordinary_join? hcause h.ordinary

/-- Recording any errors that are behind keeps inputs alike. -/
theorem record?_of_lt {o o' : Option ParseError} (h : s.Alike t)
    (ho : ∀ e ∈ o, e.index < s.position) (ho' : ∀ e ∈ o', e.index < s.position) :
    (s.record? o).Alike (t.record? o') := by
  have hs := pending_record?_of_lt ho
  have ht := pending_record?_of_lt (s := t) (o := o') (h.position ▸ ho')
  refine h.of_passes (s.record?_passes o) (t.record?_passes o') rfl ?_ ?_
  · rw [ht, hs, h.pending]
  · rw [hs]
    exact h.ordinary

/-- A token is read alike, and behind it the inputs are settled if they were calm before it. -/
theorem any (h : s.Alike t) (hk : s.current.kind ≠ .eof) :
    ∃ u v, Parser.any s = .ok (s.current, u) ∧ Parser.any t = .ok (s.current, v) ∧ u.Alike v ∧
      u.left < s.left ∧ (s.Settled → u.Settled) := by
  obtain ⟨ts, hts⟩ := rest_of_current hk
  obtain ⟨us, hus⟩ := rest_of_current (s := t) (by rwa [h.current])
  rw [h.current] at hus
  obtain ⟨u, hu, hsu, hfu⟩ := Parser.any_of_rest hts
  obtain ⟨v, hv, htv, hfv⟩ := Parser.any_of_rest hus
  have hposition : v.position = u.position := by rw [htv.position, hsu.position, h.position]
  have hpending := pending_of_passes hsu hfu
  refine ⟨u, v, hu, hv, h.of_passes hsu htv rfl ?_ fun f hf => ?_,
    hsu.left_lt (List.cons_ne_nil _ _), fun hs => hs.past hsu hfu⟩
  · rw [hpending, pending_of_passes htv hfv, h.pending, hposition]
  · rw [hpending] at hf
    exact h.ordinary f (Option.filter_eq_some_iff.1 hf).1

/-- If the token is not one of those before which the input may not be settled, the inputs are
settled behind it. -/
theorem token {k : Token.Kind} (h : s.Alike t) (hs : s.Calm A) (hk : k ≠ .eof) (hA : ¬A k) :
    Agree (fun u v => u.Alike v ∧ u.Settled ∧ u.left < s.left) (fun e f => f = e ∧ e.cause.Ordinary)
      (Parser.token k s) (Parser.token k t) := by
  unfold Parser.token
  rw [h.current]
  by_cases hc : s.current.kind = k
  · rw [if_pos hc, if_pos hc]
    obtain ⟨u, v, hu, hv, huv, hlt, hsettled⟩ := h.any (hc ▸ hk)
    exact .inl ⟨s.current, u, v, hu, hv, huv, hsettled (hs.settled (hc ▸ hA)), hlt⟩
  · rw [if_neg hc, if_neg hc]
    exact .inr ⟨_, _, rfl, rfl, h.unexpected _⟩

end Alike

end Input

/-! ## Rules -/

open Input (Calm Settled)

/-- Where fewer than `m` tokens are left, the rule does the same on inputs that are alike. If the
first input has `P`, it leads to one with `Q`. -/
def Rule.Even (m : Nat) {α : Type} (r : Rule α) (P Q : Input → Prop) : Prop :=
  ∀ s t, s.left < m → s.Alike t → P s →
    Agree (fun u v => u.Alike v ∧ Q u) (fun e f => f = e ∧ e.cause.Ordinary) (r.parse s) (r.parse t)

namespace Rule.Even

variable {α β : Type} {m : Nat} {r : Rule α} {P Q R : Input → Prop} {A B : Token.Kind → Prop}
  {k : Token.Kind}

theorem before {P' : Input → Prop} (h : r.Even m P Q) (hP : ∀ s, P' s → P s) : r.Even m P' Q :=
  fun s t hm hst hs => h s t hm hst (hP s hs)

theorem behind {Q' : Input → Prop} (h : r.Even m P Q) (hQ : ∀ s, Q s → Q' s) : r.Even m P Q' := by
  intro s t hm hst hs
  rcases h s t hm hst hs with ⟨a, u, v, hu, hv, huv, hq⟩ | herror
  · exact .inl ⟨a, u, v, hu, hv, huv, hQ u hq⟩
  · exact .inr herror

/-- Nothing ahead matters to a settled input. -/
theorem settled (h : r.Even m (Calm A) Q) : r.Even m Settled Q := h.before fun _ hs => hs.calm

theorem calm (h : r.Even m P Settled) : r.Even m P (Calm A) := h.behind fun _ hs => hs.calm

theorem fewer (h : r.Even (m + 1) P Q) : r.Even m P Q :=
  fun s t hm => h s t (Nat.lt_succ_of_lt hm)

theorem of_rule {p : Phrase} (h : p.rule.Even m P Q) : (call p).Even m P Q := by
  intro s t hm hst hs
  show Agree _ _ (p.parse s) (p.parse t)
  rw [p.parse_eq, p.parse_eq]
  exact h s t hm hst hs

theorem leave (a : α) : (Pure.pure a : Rule α).Even m P P :=
  fun s t _ hst hs => .inl ⟨a, s, t, rfl, rfl, hst, hs⟩

theorem here : Rule.here.Even m P P := by
  intro s t _ hst hs
  refine .inl ⟨s.current.span.start, s, t, rfl, ?_, hst, hs⟩
  show Parser.here t = _
  rw [Parser.here, hst.current]

theorem eoi : Rule.eoi.Even m P P := by
  intro s t _ hst hs
  have hend : t.atEnd = s.atEnd := by rw [Input.atEnd, Input.atEnd, hst.tokens, hst.position]
  show Agree _ _ (Parser.eoi s) (Parser.eoi t)
  unfold Parser.eoi
  rw [hend]
  by_cases h : s.atEnd
  · rw [if_pos h, if_pos h]
    exact .inl ⟨(), s, t, rfl, rfl, hst, hs⟩
  · rw [if_neg h, if_neg h]
    exact .inr ⟨_, _, rfl, rfl, hst.unexpected _⟩

theorem bind {f : α → Rule β} (hr : r.Even m P Q) (hf : ∀ a, (f a).Even m Q R) :
    (r >>= f).Even m P R := by
  intro s t hm hst hs
  refine (hr s t hm hst hs).bind fun a u v hu huv => ?_
  have hle := r.forward_parse.left_le hu
  exact hf a u v (Nat.lt_of_le_of_lt hle hm) huv.1 huv.2

theorem map (f : α → β) (h : r.Even m P Q) : (f <$> r).Even m P Q := bind h fun a => leave (f a)

theorem seqRight {q : Rule β} (hr : r.Even m P Q) (hq : q.Even m Q R) : (r *> q).Even m P R :=
  bind hr fun _ => hq

theorem seqLeft {q : Rule β} (hr : r.Even m P Q) (hq : q.Even m Q R) : (r <* q).Even m P R :=
  bind hr fun a => bind hq fun _ => leave a

/-- A token that is not one of those before which the input may not be settled. -/
theorem token (hk : k ≠ .eof) (hA : ¬A k) : (token k).Even m (Calm A) Settled := by
  intro s t _ hst hs
  rcases hst.token hs hk hA with ⟨x, u, v, hu, hv, huv, hsettled, -⟩ | herror
  · exact .inl ⟨x, u, v, hu, hv, huv, hsettled⟩
  · exact .inr herror

/-- Behind a token, fewer tokens are left. -/
theorem token_bind {f : Token → Rule β} (hk : k ≠ .eof) (hA : ¬A k)
    (hf : ∀ x, (f x).Even m Settled Q) : (Rule.token k >>= f).Even (m + 1) (Calm A) Q := by
  intro s t hm hst hs
  refine (hst.token hs hk hA).bind fun x u v _ huv => ?_
  obtain ⟨huv, hsettled, hlt⟩ := huv
  exact hf x u v (by omega) huv hsettled

theorem lookahead_bind {f : Token → Rule β}
    (hf : ∀ x, (f x).Even m (fun s => P s ∧ s.current = x) Q) : (lookahead 0 >>= f).Even m P Q := by
  intro s t hm hst hs
  have hs' : (lookahead 0 >>= f).parse s = (f s.current).parse s :=
    Parser.bind_of_ok (lookahead_of_usable hst.usable_left)
  have ht' : (lookahead 0 >>= f).parse t = (f s.current).parse t := by
    rw [← hst.current]
    exact Parser.bind_of_ok (lookahead_of_usable hst.usable_right)
  rw [hs', ht']
  exact hf s.current s t hm hst ⟨hs, rfl⟩

theorem any_bind {f : Token → Rule β} {x : Token} (hk : x.kind ≠ .eof) (hA : ¬A x.kind)
    (hf : ∀ x, (f x).Even m Settled Q) :
    (any >>= f).Even (m + 1) (fun s => s.Calm A ∧ s.current = x) Q := by
  intro s t hm hst hs
  obtain ⟨hs, rfl⟩ := hs
  obtain ⟨u, v, hu, hv, huv, hlt, hsettled⟩ := hst.any hk
  have hs' : (any >>= f).parse s = (f s.current).parse u := Parser.bind_of_ok hu
  have ht' : (any >>= f).parse t = (f s.current).parse v := Parser.bind_of_ok hv
  rw [hs', ht']
  exact hf _ u v (by omega) huv (hsettled (hs.settled hA))

theorem refine {f : α → Except ParseError.Cause β} (h : r.Even m P Q)
    (hf : ∀ a cause, f a = .error cause → cause.Ordinary) : (refine f r).Even m P Q := by
  intro s t hm hst hs
  show Agree _ _ (Parser.refine f r.parse s) (Parser.refine f r.parse t)
  unfold Parser.refine
  rcases h s t hm hst hs with ⟨a, u, v, hu, hv, huv, hq⟩ | ⟨e, e', he, he', hee⟩
  · rw [hu, hv]
    dsimp only
    cases ha : f a with
    | ok b => exact .inl ⟨b, u, v, rfl, rfl, huv, hq⟩
    | error cause => exact .inr ⟨_, _, rfl, rfl, hst.error (hf a cause ha)⟩
  · rw [he, he']
    exact .inr ⟨e, e', rfl, rfl, hee⟩

theorem named {name : String} (h : r.Even m P Q) : (named name r).Even m P Q := by
  intro s t hm hst hs
  show Agree _ _ (Parser.named name r.parse s) (Parser.named name r.parse t)
  unfold Parser.named
  rcases h s t hm hst hs with ⟨a, u, v, hu, hv, huv, hq⟩ | ⟨e, e', he, he', rfl, hcause⟩
  · rw [hu, hv]
    exact .inl ⟨a, u, v, rfl, rfl, huv, hq⟩
  · rw [he, he', hst.position]
    refine .inr ⟨_, _, rfl, rfl, rfl, ?_⟩
    split <;> exact hcause

theorem nest (h : r.Even m (Calm A) Q) (hQ : ∀ u n, Q u → Q (u.atDepth n)) :
    (nest r).Even m (Calm A) Q := by
  intro s t hm hst hs
  show Agree _ _ (Parser.nest r.parse s) (Parser.nest r.parse t)
  unfold Parser.nest Input.descend
  rw [hst.maxDepth, hst.depth]
  by_cases hdeep : s.settings.maxDepth.any (· < s.depth + 1)
  · rw [if_pos hdeep, if_pos hdeep]
    exact .inr ⟨_, _, rfl, rfl, hst.error ⟨nofun, nofun⟩⟩
  · rw [if_neg hdeep, if_neg hdeep]
    dsimp only
    rcases h (s.atDepth (s.depth + 1)) (t.atDepth (s.depth + 1)) hm (hst.atDepth _) hs with
      ⟨a, u, v, hu, hv, huv, hq⟩ | ⟨e, e', he, he', hee⟩
    · rw [hu, hv]
      exact .inl ⟨a, _, _, rfl, rfl, huv.atDepth s.depth, hQ u s.depth hq⟩
    · rw [he, he']
      exact .inr ⟨e, e', rfl, rfl, hee⟩

/-! ### Attempts that are given up -/

/-- What a rule reads, or nothing. -/
theorem optional (h : r.Even m (Calm A) (Calm B)) (hAB : ∀ k, A k → B k) (hB : r.Prompt B) :
    (optional r).Even m (Calm A) (Calm B) := by
  intro s t hm hst hs
  rcases h s t hm hst hs with ⟨a, u, v, hu, hv, huv, hq⟩ | ⟨e, e', he, he', rfl, hcause⟩
  · have hs' := Parser.optional_eq_some (r.forward_parse.position_le hu) hu
    have ht' := Parser.optional_eq_some (r.forward_parse.position_le hv) hv
    exact .inl ⟨some a, u, v, hs', ht', huv, hq⟩
  · have hs' := Parser.optional_eq_none he
    have ht' := Parser.optional_eq_none he'
    exact .inl ⟨none, _, _, hs', ht', hst.record hcause, hs.record hAB fun hk => hB s _ hk he⟩

/-- Behind a match no more tokens are left than before it, so a repetition may go on there. -/
theorem within (h : r.Even m P Q) {s t : Input} (hm : s.left < m) (hst : s.Alike t) (hs : P s) :
    Agree (fun u v => u.Alike v ∧ Q u ∧ u.left < m) (fun e f => f = e ∧ e.cause.Ordinary)
      (r.parse s) (r.parse t) := by
  rcases h s t hm hst hs with ⟨a, u, v, hu, hv, huv, hq⟩ | herror
  · have hle := r.forward_parse.left_le hu
    exact .inl ⟨a, u, v, hu, hv, huv, hq, Nat.lt_of_le_of_lt hle hm⟩
  · exact .inr herror

/-- Any number of matches of a rule. -/
theorem many (h : r.Even m (Calm A) (Calm A)) (hAB : ∀ k, A k → B k) (hB : r.Prompt B) :
    (many r).Even m (Calm A) (Calm B) := by
  intro s t hm hst hs
  refine Agree.atLeast (R := fun u v => u.Alike v ∧ u.Calm A ∧ u.left < m)
    (fun u v huv => huv.1.left) (fun u v huv => h.within huv.2.2 huv.1 huv.2.1)
    (fun u v e f huv he hef => ?_) (fun u v huv => ⟨huv.1, huv.2.1.mono hAB⟩) 0 ⟨hst, hs, hm⟩
  obtain ⟨rfl, hcause⟩ := hef
  exact ⟨huv.1.record hcause, huv.2.1.record hAB fun hk => hB u _ hk he⟩

/-- Items with separators between them. -/
theorem sepBy (hk : k ≠ .eof) (hA : ¬A k) (h : r.Even m Settled (Calm A)) (hB : r.Begins B) :
    (sepBy r (Rule.token k)).Even m Settled (Calm fun k' => B k' ∨ k' = k ∨ A k') := by
  have hmore : (Rule.token k *> r).Even m (Calm A) (Calm A) := .seqRight (.token hk hA) h
  have hmany : (Rule.many (Rule.token k *> r)).Even m (Calm A) (Calm fun k' => k' = k ∨ A k') :=
    .many hmore (fun _ => .inr) (Begins.prompt (.mono (.bind (.token hk)) fun _ => .inl))
  have hboth : (both r (Rule.many (Rule.token k *> r))).Even m (Calm fun _ => False)
      (Calm fun k' => B k' ∨ k' = k ∨ A k') :=
    .bind (h.before fun s hs => hs.settled id) fun a =>
      .bind (hmany.behind fun s hs => hs.mono fun _ => .inr) fun as => .leave (a, as)
  have hoptional := Even.optional hboth (fun _ => False.elim)
    (Begins.prompt (.mono (.bind hB) fun _ => .inl))
  refine .bind hoptional.settled fun o => ?_
  cases o with
  | none => exact .leave []
  | some p => exact .leave (p.1 :: p.2)

/-- What is even from one extension to the next is even over all of them. -/
theorem extend {f : α → Rule (Option α)} (hr : r.Even m P Q) (hf : ∀ a, (f a).Even m Q Q) :
    (extend r f).Even m P Q := by
  intro s t hm hst hs
  refine (hr.within hm hst hs).bind fun a u v _ huv => ?_
  rcases Agree.extendFrom (R := fun u v => u.Alike v ∧ Q u ∧ u.left < m)
      (fun u v huv => huv.1.left) (fun a u v huv => (hf a).within huv.2.2 huv.1 huv.2.1) a huv with
    ⟨b, w, w', hw, hw', hww⟩ | herror
  · exact .inl ⟨b, w, w', hw, hw', hww.1, hww.2.1⟩
  · exact .inr herror

/-! ### Choice -/

/-- If no branch matches, the errors of all of them become one, and which match counts makes no
difference to it. -/
theorem choiceFrom_of_errors {ps : List (Parser α)} {s t : Input} {f : Option ParseError}
    (hst : s.Alike t)
    (hps : ∀ p ∈ ps, ∃ e, p s = .error e ∧ p t = .error e ∧ e.cause.Ordinary)
    (hf : ∀ e ∈ f, e.cause.Ordinary) :
    ∃ e, Parser.choiceFrom s f none ps = .error e ∧ Parser.choiceFrom t f none ps = .error e ∧
      e.cause.Ordinary := by
  induction ps generalizing f with
  | nil =>
    cases f with
    | none =>
      have hordinary : ParseError.Cause.unexpectedToken.Ordinary := ⟨nofun, nofun⟩
      obtain ⟨herror, hcause⟩ := hst.error hordinary
      exact ⟨_, rfl, congrArg Except.error herror, hcause⟩
    | some e => exact ⟨e, rfl, rfl, hf e rfl⟩
  | cons p ps ih =>
    obtain ⟨e, he, he', hcause⟩ := hps p List.mem_cons_self
    simp only [Parser.choiceFrom, he, he', hst.failureSelection]
    refine ih (fun q hq => hps q (List.mem_cons_of_mem p hq)) fun x hx => ?_
    cases hx
    exact Parser.blame_of_closed (fun _ _ => ParseError.ordinary_join) hf hcause

/-- If one branch matches and all others leave their errors behind, the choice matches as the branch
does, whichever match counts. -/
theorem choice_of_match {rs : List (Rule α)} {r : Rule α} {s u : Input} {a : α} (hr : r ∈ rs)
    (hu : r.parse s = .ok (a, u))
    (hrs : ∀ q ∈ rs, q = r ∨ ∃ e, q.parse s = .error e ∧ e.index ≤ s.position) :
    ∃ o, (Rule.choice rs).parse s = .ok (a, u.record? o) ∧ ∀ e ∈ o, e.index ≤ s.position := by
  have hbranch (p : Parser α) (hp : p ∈ rs.map fun q => q.run Phrase.parse) :
      (∃ e, p s = .error e ∧ e.index ≤ s.position) ∨ p s = .ok (a, u) := by
    obtain ⟨q, hq, rfl⟩ := List.mem_map.1 hp
    rcases hrs q hq with rfl | herror
    · exact .inr hu
    · exact .inl herror
  have hbehind (p : Parser α) (hp : p ∈ rs.map fun q => q.run Phrase.parse) (e : ParseError)
      (he : p s = .error e) : e.index ≤ s.position := by
    rcases hbranch p hp with ⟨e', he', hle⟩ | hok
    · cases he'.symm.trans he
      exact hle
    · cases hok.symm.trans he
  have hjoin (e f : ParseError) (he : e.index ≤ s.position) (hf : f.index ≤ s.position) :
      (e.join f).index ≤ s.position := by
    rw [ParseError.index_join]
    omega
  obtain ⟨v, hv, -⟩ := choice_of_agree
    (fun q hq => (hrs q hq).symm.imp (fun ⟨e, he, _⟩ => ⟨e, he⟩) fun hqr => hqr ▸ hu) ⟨r, hr, hu⟩
  have hchoice := hv
  rw [run_choice] at hchoice
  obtain ⟨w, o, rfl, ho, ⟨p, hp, hw⟩ | hw⟩ :=
    Parser.choiceFrom_ok hjoin (f := none) (fun e he => by cases he) hbehind hchoice
  · rcases hbranch p hp with ⟨e, he, -⟩ | hok
    · cases he.symm.trans hw
    · cases hok.symm.trans hw
      exact ⟨o, hv, ho⟩
  · cases hw

/-- If the token ahead selects the branch that can match, all others leave their errors behind. -/
theorem behind_of_select {rs : List (Rule α)} {select : Token.Kind → Option (Rule α)}
    (h : ∀ r ∈ rs, r.Begins fun k => select k = some r) {r : Rule α} {s u : Input} {a : α}
    (hr : r ∈ rs) (hs : s.Settled) (hu : r.parse s = .ok (a, u)) (q : Rule α) (hq : q ∈ rs) :
    q = r ∨ ∃ e, q.parse s = .error e ∧ e.index ≤ s.position := by
  have hselect := (h r hr).first s a u hu
  by_cases hqr : q = r
  · exact .inl hqr
  · obtain ⟨e, he, hle⟩ := (h q hq).error fun hk =>
      hqr (Option.some.inj (hk.symm.trans hselect))
    exact .inr ⟨e, he, Nat.le_trans hle hs⟩

/-- One of several branches, where the token ahead selects the one that can match and is not one of
those before which the input may not be settled. -/
theorem choice {rs : List (Rule α)} (select : Token.Kind → Option (Rule α))
    (h : ∀ r ∈ rs, r.Begins (fun k => select k = some r ∧ ¬A k) ∧ r.Even m (Calm A) (Calm B)) :
    (choice rs).Even m (Calm A) (Calm B) := by
  have hselect : ∀ r ∈ rs, r.Begins fun k => select k = some r :=
    fun r hr => (h r hr).1.mono fun _ hk => hk.1
  intro s t hm hst hs
  by_cases hmatch : ∃ r ∈ rs, ∃ a u, r.parse s = .ok (a, u)
  · obtain ⟨r, hr, a, u, hu⟩ := hmatch
    obtain ⟨v, hv, huv, hcalm⟩ := ((h r hr).2 s t hm hst hs).ok hu
    obtain ⟨⟨-, hA⟩, hlt⟩ := (h r hr).1.ok s a u hu
    have hs := hs.settled hA
    obtain ⟨o, hs', ho⟩ := choice_of_match hr hu (behind_of_select hselect hr hs hu)
    obtain ⟨o', ht', ho'⟩ := choice_of_match hr hv
      (behind_of_select hselect hr (hst.settled hs) hv)
    obtain ⟨ts, hts⟩ := r.forward_parse s a u hu
    have hposition := hts.position_lt hlt
    have hbehind (e : ParseError) (he : e ∈ o) : e.index < u.position :=
      Nat.lt_of_le_of_lt (ho e he) hposition
    have hbehind' (e : ParseError) (he : e ∈ o') : e.index < u.position :=
      Nat.lt_of_le_of_lt (hst.position ▸ ho' e he) hposition
    have hreach (e : ParseError) (he : e ∈ o) : e.index ≤ u.reach :=
      Nat.le_trans (Nat.le_of_lt (hbehind e he)) u.position_le_reach
    exact .inl ⟨a, _, _, hs', ht', huv.record?_of_lt hbehind hbehind', hcalm.record? hreach⟩
  · have herrors (p : Parser α) (hp : p ∈ rs.map fun q => q.run Phrase.parse) :
        ∃ e, p s = .error e ∧ p t = .error e ∧ e.cause.Ordinary := by
      obtain ⟨q, hq, rfl⟩ := List.mem_map.1 hp
      rcases (h q hq).2 s t hm hst hs with ⟨a, u, v, hu, -⟩ | ⟨e, e', he, he', rfl, hcause⟩
      · exact absurd ⟨q, hq, a, u, hu⟩ hmatch
      · exact ⟨_, he, he', hcause⟩
    obtain ⟨e, he, he', hcause⟩ := choiceFrom_of_errors (f := none) hst herrors nofun
    have hs' : (Rule.choice rs).parse s = .error e := by
      rw [Rule.parse, run_choice]
      exact he
    have ht' : (Rule.choice rs).parse t = .error e := by
      rw [Rule.parse, run_choice]
      exact he'
    exact .inr ⟨e, e, hs', ht', rfl, hcause⟩

end Rule.Even

end Descent
