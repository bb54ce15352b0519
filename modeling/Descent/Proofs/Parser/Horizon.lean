import Mathlib.Data.List.OfFn
import Descent.Proofs.Parser.Agreement
import Descent.Proofs.Parser.Outcome
import Descent.Proofs.Parser.Predictive
import Descent.Proofs.Token.Partition

/-!
# Errors do not depend on what follows

A predictive rule looks at the token ahead and nowhere else, and where it gives up, it leaves an
error there. So if the furthest errors are selected, an error says how far the tokens have been
looked at: on any tape with the same tokens up to the one that is reported, the rule fails with the
same error. The main statement, `Program.parse_local`, is about programs as texts.

Two runs of a rule on such tapes are compared step by step. They do the same until one of them
looks beyond the last token in common, and from then on whatever that run reports or leaves behind
lies beyond that token (`Parser.Shared`, `Rule.Predictive.shared_parse`).
-/

namespace Descent

variable {i : Nat}

namespace Input

variable {s t : Input} {e : ParseError}

theorem getElem?_toList (s : Input) : s.tape.toList[s.position]? = some s.current := by
  rw [Tape.getElem?_toList s.position_le, current_eq_token]

theorem atEnd_iff_current (s : Input) : s.atEnd ↔ s.current.kind = .eof := by
  rw [atEnd_iff]
  cases hr : s.rest with
  | nil => simp [current_of_rest_nil hr, s.tape.eof_kind]
  | cons a us => simp [current_of_rest hr, ne_eof_of_rest (hr ▸ List.mem_cons_self)]

theorem position_lt_iff : s.position < s.tape.tokens.size ↔ s.current.kind ≠ .eof := by
  have hend := s.atEnd_iff_current
  rw [atEnd, beq_iff_eq] at hend
  have := s.position_le
  rw [ne_eq, ← hend]
  omega

/-! ## Beyond a token -/

/-- The furthest errors count, and tokens behind that at `i` have been read or blamed. -/
structure Past (i : Nat) (s : Input) : Prop where
  furthest : s.settings.failureSelection = .furthest
  reach : i < s.reach

theorem lt_reach_iff : i < s.reach ↔ i < s.position ∨ ∃ f ∈ s.furthest, i < f.index := by
  unfold reach
  cases s.furthest with
  | none => simp
  | some f =>
    simp only [Option.mem_some_iff, exists_eq_left']
    omega

theorem Past.atDepth (h : s.Past i) (n : Nat) : (s.atDepth n).Past i := ⟨h.furthest, h.reach⟩

theorem past_record (hs : s.settings.failureSelection = .furthest) (he : i < e.index) :
    (s.record e).Past i := by
  refine ⟨(s.record_passes e).settings ▸ hs, lt_reach_iff.2 (.inr ⟨_, furthest_record hs e, ?_⟩)⟩
  exact (ParseError.lasting_index (i + 1)).join? _ he

theorem Past.record (h : s.Past i) (e : ParseError) : (s.record e).Past i := by
  refine ⟨(s.record_passes e).settings ▸ h.furthest, lt_reach_iff.2 ?_⟩
  obtain hlt | ⟨f, hf, hlt⟩ := lt_reach_iff.1 h.reach
  · rw [(s.record_passes e).position]
    exact .inl hlt
  · refine .inr ⟨_, furthest_record h.furthest e, ?_⟩
    rw [hf]
    exact (ParseError.lasting_index (i + 1)).right f e hlt

theorem Past.record? (h : s.Past i) (o : Option ParseError) : (s.record? o).Past i := by
  cases o with
  | none => exact h
  | some e => exact h.record e

/-! ## The same tokens up to a place -/

/-- The inputs are at the same place with the same errors recorded, where the furthest count, and
their tapes have the same tokens up to that at `i`. -/
structure Shares (i : Nat) (s t : Input) : Prop where
  tokens : t.tape.toList.take (i + 1) = s.tape.toList.take (i + 1)
  settings : t.settings = s.settings
  position : t.position = s.position
  depth : t.depth = s.depth
  furthest : t.furthest = s.furthest
  selection : s.settings.failureSelection = .furthest

namespace Shares

theorem past (h : s.Shares i t) (hs : ¬s.reach ≤ i) : s.Past i :=
  ⟨h.selection, Nat.lt_of_not_le hs⟩

theorem current (h : s.Shares i t) (hs : s.reach ≤ i) : t.current = s.current := by
  have hi : s.position < i + 1 := Nat.lt_succ_of_le (Nat.le_trans s.position_le_reach hs)
  have htake : t.tape.toList[t.position]? = s.tape.toList[s.position]? := by
    rw [h.position, ← List.getElem?_take_of_lt hi, h.tokens, List.getElem?_take_of_lt hi]
  rw [getElem?_toList, getElem?_toList] at htake
  exact Option.some.inj htake

theorem atEnd (h : s.Shares i t) (hs : s.reach ≤ i) : t.atEnd = s.atEnd := by
  rw [Bool.eq_iff_iff, atEnd_iff_current, atEnd_iff_current, h.current hs]

theorem report (h : s.Shares i t) (e : ParseError) : t.report e = s.report e := by
  rw [Input.report, Input.report, h.settings, h.furthest]

theorem error (h : s.Shares i t) (hs : s.reach ≤ i) (cause : ParseError.Cause) :
    t.error cause = s.error cause := by
  rw [Input.error, Input.error, h.report, h.current hs, h.position]

theorem unexpected (h : s.Shares i t) (hs : s.reach ≤ i) (x : Expectation) :
    t.unexpected x = s.unexpected x := by
  rw [Input.unexpected, Input.unexpected, h.report, h.current hs, h.position]

theorem atDepth (h : s.Shares i t) (n : Nat) : (s.atDepth n).Shares i (t.atDepth n) :=
  ⟨h.tokens, h.settings, h.position, rfl, h.furthest, h.selection⟩

theorem record (h : s.Shares i t) (e : ParseError) : (s.record e).Shares i (t.record e) := by
  have hs := s.record_passes e
  have ht := t.record_passes e
  refine ⟨?_, ?_, ?_, ?_, ?_, hs.settings ▸ h.selection⟩
  · rw [ht.tape, hs.tape, h.tokens]
  · rw [ht.settings, hs.settings, h.settings]
  · rw [ht.position, hs.position, h.position]
  · rw [ht.depth, hs.depth, h.depth]
  · rw [furthest_record h.selection, furthest_record (h.settings ▸ h.selection), h.furthest]

theorem record? (h : s.Shares i t) (o : Option ParseError) :
    (s.record? o).Shares i (t.record? o) := by
  cases o with
  | none => exact h
  | some e => exact h.record e

/-- From inputs at the same place, both get on or neither does. -/
theorem left_lt_iff {u v : Input} {us vs : List Token} (h : s.Shares i t) (hu : s.Passes us u)
    (hv : t.Passes vs v) (huv : u.Shares i v) : v.left < t.left ↔ u.left < s.left := by
  have := hu.left
  have := hu.position
  have := hv.left
  have := hv.position
  have := h.position
  have := huv.position
  omega

end Shares

end Input

namespace Parser

variable {α β : Type} {p : Parser α} {s t : Input} {m n : Except ParseError (α × Input)}

/-- The error is at a token behind that at `i`, or tokens there have been read or blamed. -/
def Beyond (i : Nat) (m : Except ParseError (α × Input)) : Prop := Yields (i < ·.index) (·.Past i) m

/-- The first attempt leads beyond the token at `i`, or the second one does the same. -/
def Shared (i : Nat) (m n : Except ParseError (α × Input)) : Prop :=
  Beyond i m ∨ Agree (Input.Shares i) Eq m n

theorem agree_any (h : s.Shares i t) (hs : s.reach ≤ i) :
    Agree (Input.Shares i) Eq (any s) (any t) := by
  have hiff : t.position < t.tape.tokens.size ↔ s.position < s.tape.tokens.size := by
    rw [Input.position_lt_iff, Input.position_lt_iff, h.current hs]
  unfold any Input.advance
  by_cases hlt : s.position < s.tape.tokens.size
  · rw [dif_pos hlt, dif_pos (hiff.2 hlt), h.current hs]
    refine .inl ⟨_, _, _, rfl, rfl, ?_⟩
    exact ⟨h.tokens, h.settings, congrArg (· + 1) h.position, h.depth, h.furthest, h.selection⟩
  · rw [dif_neg hlt, dif_neg (mt hiff.1 hlt), h.settings, h.current hs]
    cases s.settings.advancePastEnd with
    | saturate => exact .inl ⟨_, s, t, rfl, rfl, h⟩
    | fail => exact .inr ⟨_, _, rfl, rfl, (h.error hs _).symm⟩

/-- A token is read alike even if it is the last one in common. -/
theorem agree_token (k : Token.Kind) (h : s.Shares i t) (hs : s.reach ≤ i) :
    Agree (Input.Shares i) Eq (token k s) (token k t) := by
  unfold token
  rw [h.current hs]
  by_cases hk : s.current.kind = k
  · rw [if_pos hk, if_pos hk]
    exact agree_any h hs
  · rw [if_neg hk, if_neg hk]
    exact .inr ⟨_, _, rfl, rfl, (h.unexpected hs _).symm⟩

/-- Once beyond a token, always beyond it. -/
theorem Steady.beyond (hp : Steady (i < ·.index) p) (hs : s.Past i) : Beyond i (p s) := by
  obtain hlt | ⟨f, hf, hlt⟩ := Input.lt_reach_iff.1 hs.reach
  · refine yields_iff.2 ⟨fun e he => Nat.lt_of_lt_of_le hlt (hp.onward s e he), fun a t ht => ?_⟩
    obtain ⟨ts, hts⟩ := hp.forward s a t ht
    refine ⟨hts.settings ▸ hs.furthest, Input.lt_reach_iff.2 (.inl ?_)⟩
    have := hts.position
    omega
  · have hblames : s.Blames (i < ·.index) := ⟨hs.furthest, f, hf, hlt⟩
    refine yields_iff.2 ⟨fun e he => hp.blames s e he hblames, fun a t ht => ?_⟩
    obtain ⟨g, hg, hgi⟩ := (hp.keeps s a t ht hblames).recorded
    exact ⟨(hp.keeps s a t ht hblames).furthest, Input.lt_reach_iff.2 (.inr ⟨g, hg, hgi⟩)⟩

namespace Shared

/-- Where the first attempt is beyond the token already, there is nothing to compare. -/
theorem of_reach (hp : Steady (i < ·.index) p) (h : s.Shares i t)
    (hle : s.reach ≤ i → Shared i (p s) n) : Shared i (p s) n := by
  by_cases hs : s.reach ≤ i
  · exact hle hs
  · exact .inl (hp.beyond (h.past hs))

theorem ok {a : α} (h : s.Shares i t) :
    Shared i (.ok (a, s) : Except ParseError (α × Input)) (.ok (a, t)) :=
  .inr (.inl ⟨a, s, t, rfl, rfl, h⟩)

theorem error {e f : ParseError} (h : f = e) :
    Shared i (.error e : Except ParseError (α × Input)) (.error f) :=
  .inr (.inr ⟨e, f, rfl, rfl, h.symm⟩)

theorem eoi (h : s.Shares i t) (hs : s.reach ≤ i) : Shared i (eoi s) (eoi t) := by
  unfold Parser.eoi
  rw [h.atEnd hs]
  by_cases hend : s.atEnd
  · rw [if_pos hend, if_pos hend]
    exact ok h
  · rw [if_neg hend, if_neg hend]
    exact error (h.unexpected hs _)

theorem lookahead (h : s.Shares i t) (hs : s.reach ≤ i) :
    Shared i (lookahead 0 s) (lookahead 0 t) := by
  unfold Parser.lookahead Input.lookahead
  rw [h.settings, show t.peek 0 = s.peek 0 from h.current hs]
  by_cases hk : 0 < s.settings.lookaheadDepth
  · rw [if_pos hk, if_pos hk]
    exact ok h
  · rw [if_neg hk, if_neg hk]
    exact error (h.error hs _)

theorem bind {f : α → Parser β} (hf : ∀ a, Steady (i < ·.index) (f a))
    (h : Shared i (p s) (p t))
    (hfs : ∀ a u v, p s = .ok (a, u) → u.Shares i v → Shared i (f a u) (f a v)) :
    Shared i (Parser.bind p f s) (Parser.bind p f t) := by
  obtain hbeyond | ⟨a, u, v, hu, hv, huv⟩ | ⟨e, e', he, he', hee⟩ := h
  · exact .inl (Yields.bind hbeyond fun a u _ hu => (hf a).beyond hu)
  · rw [bind_of_ok hu, bind_of_ok hv]
    exact hfs a u v hu huv
  · unfold Parser.bind
    rw [he, he']
    exact error hee.symm

/-- What is refined must be read alike, even beyond the token: what has been recorded in it is not
taken into account if it is refused. -/
theorem refine {f : α → Except ParseError.Cause β} (h : s.Shares i t) (hs : s.reach ≤ i)
    (hp : Agree (Input.Shares i) Eq (p s) (p t)) : Shared i (refine f p s) (refine f p t) := by
  unfold Parser.refine
  obtain ⟨a, u, v, hu, hv, huv⟩ | ⟨e, e', he, he', hee⟩ := hp
  · rw [hu, hv]
    simp only
    cases f a with
    | ok b => exact ok huv
    | error cause => exact error (h.error hs cause)
  · rw [he, he']
    exact error hee.symm

theorem named {name : String} (h : s.Shares i t) (hp : Shared i (p s) (p t)) :
    Shared i (named name p s) (named name p t) := by
  obtain hbeyond | ⟨a, u, v, hu, hv, huv⟩ | ⟨e, e', he, he', rfl⟩ := hp
  · exact .inl (Yields.named hbeyond fun _ _ he => he)
  · rw [named_eq_ok.2 hu, named_eq_ok.2 hv]
    exact ok huv
  · unfold Parser.named
    rw [he, he', h.position]
    exact error rfl

theorem nest (h : s.Shares i t) (hs : s.reach ≤ i)
    (hp : ∀ inner inner', s.descend = .ok inner → inner.Shares i inner' →
      Shared i (p inner) (p inner')) : Shared i (nest p s) (nest p t) := by
  have hdescend : (∃ e, s.descend = .error e ∧ t.descend = .error e) ∨
      ∃ inner inner', s.descend = .ok inner ∧ t.descend = .ok inner' ∧ inner.Shares i inner' := by
    unfold Input.descend
    rw [h.settings, h.depth]
    by_cases hmax : s.settings.maxDepth.any (· < s.depth + 1)
    · rw [if_pos hmax, if_pos hmax, h.error hs]
      exact .inl ⟨_, rfl, rfl⟩
    · rw [if_neg hmax, if_neg hmax]
      exact .inr ⟨_, _, rfl, rfl, h.atDepth _⟩
  unfold Parser.nest
  obtain ⟨e, he, he'⟩ | ⟨inner, inner', hi, hi', hinner⟩ := hdescend
  · rw [he, he']
    exact error rfl
  · obtain hbeyond | ⟨a, u, v, hu, hv, huv⟩ | ⟨e, e', he, he', hee⟩ := hp inner inner' hi hinner
    · exact .inl (Yields.nest hi hbeyond fun _ n hpast => hpast.atDepth n)
    · rw [hi, hi']
      simp only
      rw [hu, hv, h.depth]
      exact ok (huv.atDepth s.depth)
    · rw [hi, hi']
      simp only
      rw [he, he']
      exact error hee.symm

end Shared

/-! ## Choice -/

/-- Once a branch has failed beyond the token, the choice leads there. -/
theorem Beyond.choiceFrom_failure (hs : s.settings.failureSelection = .furthest)
    {ps : List (Parser α)} (hps : ∀ p ∈ ps, Forward p) {e : ParseError} (he : i < e.index)
    {best : Option (α × Input)} (hbest : ∀ m ∈ best, m.2.settings = s.settings) :
    Beyond i (choiceFrom s (some e) best ps) := by
  induction ps generalizing e best with
  | nil =>
    cases best with
    | none => exact he
    | some m => exact Input.past_record (hbest m rfl ▸ hs) he
  | cons p ps ih =>
    obtain ⟨hp, hps⟩ := List.forall_mem_cons.1 hps
    simp only [Parser.choiceFrom]
    cases hpe : p s with
    | error e' =>
      refine ih hps ?_ hbest
      rw [hs]
      exact (ParseError.lasting_index (i + 1)).left e e' he
    | ok m =>
      obtain ⟨a, u⟩ := m
      obtain ⟨us, hus⟩ := hp s a u hpe
      cases s.settings.tieBreak with
      | firstMatch => exact Input.past_record (hus.settings ▸ hs) he
      | longestParse =>
        refine ih hps he fun m hm => ?_
        cases hm
        cases best with
        | none => exact hus.settings
        | some b =>
          simp only [longer]
          split
          · exact hus.settings
          · exact hbest b rfl

/-- On `s` the parser does not read anything else than what the match `m` has read. -/
def Yielding (s : Input) (m : α × Input) (p : Parser α) : Prop :=
  (∃ e, p s = .error e) ∨ (∃ b, p s = .ok (b, s)) ∨ p s = .ok m

/-- What does not read anything else does not get further. -/
theorem Yielding.not_lt {a b : α} {u w : Input} (h : Yielding s (a, u) p)
    (hle : s.position ≤ u.position) (hw : p s = .ok (b, w)) : ¬u.position < w.position := by
  obtain ⟨e, he⟩ | ⟨c, hc⟩ | hm := h
  · cases he.symm.trans hw
  · cases hc.symm.trans hw
    omega
  · cases hm.symm.trans hw
    omega

/-- If what does not read anything else leads beyond the token, the match has led there, too. -/
theorem Yielding.past {a b : α} {u w : Input} (h : Yielding s (a, u) p) (hs : s.reach ≤ i)
    (hw : p s = .ok (b, w)) (hpast : w.Past i) : u.Past i := by
  obtain ⟨e, he⟩ | ⟨c, hc⟩ | hm := h
  · cases he.symm.trans hw
  · cases hc.symm.trans hw
    exact absurd hpast.reach (Nat.not_lt.2 hs)
  · cases hm.symm.trans hw
    exact hpast

/-- Once a match leads beyond the token, the choice does if no other branch reads anything else. -/
theorem Beyond.choiceFrom_best (htie : s.settings.tieBreak = .longestParse)
    {ps : List (Parser α)} {f : Option ParseError} {a : α} {u : Input} (hu : u.Past i)
    (hle : s.position ≤ u.position) (hps : ∀ p ∈ ps, Yielding s (a, u) p) :
    Beyond i (choiceFrom s f (some (a, u)) ps) := by
  induction ps generalizing f with
  | nil => exact hu.record? f
  | cons p ps ih =>
    obtain ⟨hp, hps⟩ := List.forall_mem_cons.1 hps
    simp only [Parser.choiceFrom]
    cases hpe : p s with
    | error e => exact ih hps
    | ok m =>
      obtain ⟨b, w⟩ := m
      have hlonger : longer (some (a, u)) (b, w) = (a, u) := if_neg (hp.not_lt hle hpe)
      simp only [htie, hlonger]
      exact ih hps

/-- The longest matches so far in two attempts at a choice: there is none yet, or they are the same
and no branch to come reads anything else. -/
inductive Leading (i : Nat) (s : Input) (ps : List (Parser α)) :
    Option (α × Input) → Option (α × Input) → Prop where
  | none : Leading i s ps none none
  | some {a : α} {u v : Input} (tieBreak : s.settings.tieBreak = .longestParse)
      (shares : u.Shares i v) (settings : u.settings = s.settings)
      (position : s.position ≤ u.position) (yields : ∀ p ∈ ps, Yielding s (a, u) p) :
      Leading i s ps (some (a, u)) (some (a, v))

theorem Leading.tail {ps : List (Parser α)} {best best' : Option (α × Input)}
    (h : Leading i s (p :: ps) best best') : Leading i s ps best best' := by
  cases h with
  | none => exact .none
  | some htie hshares hsettings hle hyields =>
    exact .some htie hshares hsettings hle fun q hq => hyields q (List.mem_cons_of_mem p hq)

/-- A choice is the same if no branch reads anything else than an earlier one. -/
theorem Shared.choiceFrom (h : s.Shares i t) (hs : s.reach ≤ i) {ps : List (Parser α)}
    (hforward : ∀ p ∈ ps, Forward p) (hps : ∀ p ∈ ps, Shared i (p s) (p t))
    (hyield : ps.Pairwise fun p q => ∀ m, p s = .ok m → Yielding s m q)
    {f : Option ParseError} {best best' : Option (α × Input)} (hbest : Leading i s ps best best') :
    Shared i (choiceFrom s f best ps) (choiceFrom t f best' ps) := by
  induction ps generalizing f best best' with
  | nil =>
    cases hbest with
    | none =>
      simp only [Parser.choiceFrom, h.error hs]
      exact error rfl
    | some _ hshares => exact ok (hshares.record? f)
  | cons p ps ih =>
    obtain ⟨hp, hps⟩ := List.forall_mem_cons.1 hps
    obtain ⟨hforwardp, hforward⟩ := List.forall_mem_cons.1 hforward
    obtain ⟨hyieldp, hyield⟩ := List.pairwise_cons.1 hyield
    simp only [Parser.choiceFrom]
    rw [h.settings]
    obtain hbeyond | ⟨a, u, v, hu, hv, huv⟩ | ⟨e, e', he, he', rfl⟩ := hp
    · left
      cases hpe : p s with
      | error e =>
        rw [hpe] at hbeyond
        have hfurther : i < (blame s.settings.failureSelection f e).index := by
          rw [h.selection]
          cases f with
          | none => exact hbeyond
          | some f => exact (ParseError.lasting_index (i + 1)).right e f hbeyond
        refine .choiceFrom_failure h.selection hforward hfurther fun m hm => ?_
        cases hbest with
        | none => cases hm
        | some _ _ hsettings =>
          cases hm
          exact hsettings
      | ok m =>
        obtain ⟨a, u⟩ := m
        obtain ⟨us, hus⟩ := hforwardp s a u hpe
        rw [hpe] at hbeyond
        cases htie : s.settings.tieBreak with
        | firstMatch => exact hbeyond.record? f
        | longestParse =>
          cases hbest with
          | none =>
            exact .choiceFrom_best htie hbeyond (Nat.le.intro hus.position.symm)
              fun q hq => hyieldp q hq _ hpe
          | @some b w w' _ _ _ hle hyields =>
            obtain ⟨hyieldsp, hyields⟩ := List.forall_mem_cons.1 hyields
            have hlonger : longer (some (b, w)) (a, u) = (b, w) := if_neg (hyieldsp.not_lt hle hpe)
            simp only [hlonger]
            exact .choiceFrom_best htie (hyieldsp.past hs hpe hbeyond) hle hyields
    · rw [hu, hv]
      simp only
      cases htie : s.settings.tieBreak with
      | firstMatch => exact ok (huv.record? f)
      | longestParse =>
        refine ih hforward hps hyield ?_
        obtain ⟨us, hus⟩ := hforwardp s a u hu
        cases hbest with
        | none =>
          exact .some htie huv hus.settings (Nat.le.intro hus.position.symm)
            fun q hq => hyieldp q hq _ hu
        | @some b w w' _ hww hsettings hle hyields =>
          have hlt := (hyields p List.mem_cons_self).not_lt hle hu
          have hlonger : longer (some (b, w)) (a, u) = (b, w) := if_neg hlt
          have hlonger' : longer (some (b, w')) (a, v) = (b, w') := by
            refine if_neg ?_
            rwa [hww.position, huv.position]
          rw [hlonger, hlonger']
          exact (Leading.some htie hww hsettings hle hyields).tail
    · rw [he, he']
      exact ih hforward hps hyield hbest.tail

/-! ## Repetition -/

namespace Shared

theorem atLeast {min : Nat} {s t : Input} (hp : Steady (i < ·.index) p) (h : s.Shares i t)
    (hps : ∀ u v, u.left ≤ s.left → u.Shares i v → Shared i (p u) (p v)) :
    Shared i (atLeast min p s) (atLeast min p t) := by
  obtain hbeyond | ⟨a, u, v, hu, hv, huv⟩ | ⟨e, e', he, he', rfl⟩ := hps s t (Nat.le_refl _) h
  · left
    refine Yields.atLeast hbeyond (fun e he => Input.past_record h.selection he) ?_
    intro a u _ _ hpast
    exact (hp.atLeast (ParseError.lasting_index (i + 1)) (min - 1)).beyond hpast
  · obtain ⟨us, hus⟩ := hp.forward s a u hu
    obtain ⟨vs, hvs⟩ := hp.forward t a v hv
    have hiff := h.left_lt_iff hus hvs huv
    by_cases hlt : u.left < s.left
    · rw [atLeast_of_ok hu hlt, atLeast_of_ok hv (hiff.2 hlt)]
      have hrest : Shared i (Parser.atLeast (min - 1) p u) (Parser.atLeast (min - 1) p v) :=
        atLeast hp huv fun x y hx => hps x y (by omega)
      obtain hbeyond | ⟨as, x, y, hx, hy, hxy⟩ | ⟨e, e', he, he', rfl⟩ := hrest
      · left
        cases hr : Parser.atLeast (min - 1) p u <;> rw [hr] at hbeyond <;> exact hbeyond
      · rw [hx, hy]
        exact ok hxy
      · rw [he, he']
        exact error rfl
    · rw [Parser.atLeast, Parser.atLeast, hu, hv]
      simp only [hiff, if_neg hlt]
      exact ok huv
  · rw [atLeast_of_error he, atLeast_of_error he']
    by_cases hmin : min = 0
    · rw [if_pos hmin, if_pos hmin]
      exact ok (h.record e)
    · rw [if_neg hmin, if_neg hmin]
      exact error rfl
termination_by s.left

theorem extendFrom {f : α → Parser (Option α)} {a : α} {s t : Input}
    (hf : ∀ a, Steady (i < ·.index) (f a)) (h : s.Shares i t)
    (hfs : ∀ a u v, u.left ≤ s.left → u.Shares i v → Shared i (f a u) (f a v)) :
    Shared i (extendFrom f a s) (extendFrom f a t) := by
  obtain hbeyond | ⟨o, u, v, hu, hv, huv⟩ | ⟨e, e', he, he', rfl⟩ := hfs a s t (Nat.le_refl _) h
  · left
    refine Yields.extendFrom hbeyond fun b u _ _ hpast => ?_
    exact (Steady.extendFrom hf b).beyond hpast
  · cases o with
    | none =>
      rw [extendFrom_of_none hu, extendFrom_of_none hv]
      exact ok huv
    | some b =>
      obtain ⟨us, hus⟩ := (hf a).forward s _ u hu
      obtain ⟨vs, hvs⟩ := (hf a).forward t _ v hv
      have hiff := h.left_lt_iff hus hvs huv
      by_cases hlt : u.left < s.left
      · rw [extendFrom_of_some hu hlt, extendFrom_of_some hv (hiff.2 hlt)]
        exact extendFrom hf huv fun c x y hx => hfs c x y (by omega)
      · rw [Parser.extendFrom, Parser.extendFrom, hu, hv]
        simp only [hiff, if_neg hlt]
        exact ok huv
  · rw [Parser.extendFrom, Parser.extendFrom, he, he']
    exact error rfl
termination_by s.left

end Shared

end Parser

/-! ## Rules -/

namespace Rule

open Descent.Parser (Shared)

variable {α : Type} {r : Rule α}

/-- On inputs that share the tokens up to `i`, the rule does the same unless it leads beyond `i`. -/
def SharedAt (i : Nat) (r : Rule α) (s : Input) : Prop :=
  ∀ t, s.Shares i t → Shared i (r.parse s) (r.parse t)

theorem IsToken.agree {s t : Input} (hr : r.IsToken) (h : s.Shares i t) (hs : s.reach ≤ i) :
    Parser.Agree (Input.Shares i) Eq (r.parse s) (r.parse t) := by
  cases r with
  | token k => exact Parser.agree_token k h hs
  | _ => exact hr.elim

/-- A predictive rule does the same on tapes that share tokens as soon as the phrases do that it
reads. -/
theorem Predictive.sharedAt {C : Phrase → Input → Prop} (hC : ∀ p s, C p s → (call p).SharedAt i s)
    (hr : r.Predictive) : ∀ s : Input, r.CallsOnly Phrase.parse C s → r.SharedAt i s := by
  have hP := ParseError.lasting_index (i + 1)
  have hsteady {α : Type} (r : Rule α) : Parser.Steady (i < ·.index) r.parse := r.steady_parse hP
  induction r with
  | pure a => exact fun s _ t h => .ok h
  | bind r f ihr ihf =>
    intro s hs t h
    refine (ihr hr.1 s hs.1 t h).bind (fun a => hsteady (f a)) fun a u v hu huv => ?_
    exact ihf a (hr.2 a) u (hs.2 a u hu) v huv
  | token k => exact fun s _ t h => .of_reach (hsteady _) h fun hs => .inr (Parser.agree_token k h hs)
  | any => exact fun s _ t h => .of_reach (hsteady any) h fun hs => .inr (Parser.agree_any h hs)
  | eoi => exact fun s _ t h => .of_reach (hsteady eoi) h (.eoi h)
  | lookahead k =>
    cases hr
    exact fun s _ t h => .of_reach (hsteady (lookahead 0)) h (.lookahead h)
  | here =>
    refine fun s _ t h => .of_reach (hsteady here) h fun hs => ?_
    show Shared i (.ok (s.current.span.start, s)) (.ok (t.current.span.start, t))
    rw [h.current hs]
    exact .ok h
  | fail cause =>
    exact fun s _ t h => .of_reach (hsteady (fail cause)) h fun hs => .error (h.error hs cause)
  | expect x =>
    exact fun s _ t h => .of_reach (hsteady (expect x)) h fun hs => .error (h.unexpected hs x)
  | refine f r _ =>
    exact fun s _ t h => .of_reach (hsteady (refine f r)) h fun hs => .refine h hs (hr.agree h hs)
  | named name r ih => exact fun s hs t h => .named h (ih hr s hs t h)
  | oneOf n rs ih =>
    refine fun s hs t h => .of_reach (hsteady (oneOf n rs)) h fun hreach => ?_
    refine Shared.choiceFrom h hreach ?_ ?_ ?_ .none
    · exact List.forall_mem_ofFn_iff.2 fun j => (rs j).forward_parse
    · exact List.forall_mem_ofFn_iff.2 fun j => ih j (hr.1 j) s (hs j) t h
    · exact List.pairwise_ofFn.2 fun j k hjk m hm => hr.2 j k hjk s m hm
  | nest r ih =>
    refine fun s hs t h => .of_reach (hsteady (nest r)) h fun hreach => ?_
    exact .nest h hreach fun inner inner' hi hinner => ih hr inner (hs inner hi) inner' hinner
  | atLeast min r ih =>
    exact fun s hs t h => .atLeast (hsteady r) h fun u v hu huv => ih hr u (hs u hu) v huv
  | extend r f ihr ihf =>
    intro s hs t h
    refine (ihr hr.1 s hs.1 t h).bind
      (fun a => .extendFrom (fun b => hsteady (f b)) a) fun a u v hu huv => ?_
    have hle : u.left ≤ s.left := r.forward_parse.left_le hu
    refine .extendFrom (fun b => hsteady (f b)) huv fun b x y hx hxy => ?_
    exact ihf b (hr.2 b).1 x (hs.2 b x (by omega)) y hxy
  | call p => exact hC p

end Rule

theorem Phrase.sharedAt (p : Phrase) (s : Input) : (Rule.call p).SharedAt i s := by
  intro t h
  have hrule : p.rule.SharedAt i s :=
    p.predictive_rule.sharedAt (fun q u (_ : q.measure u < p.measure s) => q.sharedAt u) s
      (p.rule_callsOnly Phrase.forward_parse s)
  show Parser.Shared i (p.parse s) (p.parse t)
  rw [p.parse_eq s, p.parse_eq t]
  exact hrule t h
termination_by p.measure s

/-- On inputs that share the tokens up to `i`, a predictive rule does the same unless it leads
beyond `i`. -/
theorem Rule.Predictive.shared_parse {α : Type} {r : Rule α} (hr : r.Predictive) {s t : Input}
    (h : s.Shares i t) : Parser.Shared i (r.parse s) (r.parse t) := by
  have hcalls : r.CallsOnly Phrase.parse (fun _ _ => True) s :=
    r.callsOnly_of_lt Phrase.forward_parse (fun _ _ _ => trivial) s (Nat.lt_succ_self s.left)
  exact hr.sharedAt (fun p u _ => p.sharedAt u) s hcalls t h

/-- An error is the same on all inputs that share the tokens up to it. -/
theorem Rule.Predictive.error_of_shares {α : Type} {r : Rule α} (hr : r.Predictive) {s t : Input}
    {e : ParseError} (he : r.parse s = .error e) (h : s.Shares e.index t) :
    r.parse t = .error e := by
  obtain hbeyond | hagree := hr.shared_parse h
  · rw [he] at hbeyond
    exact absurd hbeyond (Nat.lt_irrefl e.index)
  · obtain ⟨f, hf, rfl⟩ := hagree.error he
    exact hf

/-! ## Programs -/

/-- A program fails before a token that begins no statement. -/
theorem Grammar.program_error_of_start {s : Input} (hstart : ¬StartsStatement s.current.kind)
    (hend : ¬s.atEnd) : ∃ e, program.parse s = .error e ∧ e.index ≤ s.reach := by
  obtain ⟨e, he, hle⟩ := begins_statement.error hstart
  have hnone : (Rule.many (.call .statement)).parse s = .ok ([], s.record e) :=
    Parser.atLeast_of_error he
  have heoi : Rule.eoi.parse (s.record e) = .error ((s.record e).unexpected (.token .eof)) :=
    if_neg fun h => hend (by
      rwa [Input.atEnd_iff_current, (s.record_passes e).current, ← Input.atEnd_iff_current] at h)
  have hstatements : (Rule.many (.call .statement) <* Rule.eoi).parse s =
      .error ((s.record e).unexpected (.token .eof)) :=
    Rule.seqLeft_eq_error.2 (.inr ⟨_, _, hnone, heoi⟩)
  refine ⟨_, program_parse_eq_error.2 hstatements, ?_⟩
  exact Nat.le_trans (Input.index_unexpected_le_reach _ _) (Input.reach_record_le hle)

/-- Where the furthest errors are selected, what follows the token that an error points at does not
matter: every text with the same tokens up to there has the same error, whatever limits there are to
nesting and to looking ahead, and whichever match counts. -/
theorem Program.parse_local {settings : Settings} (hs : settings.failureSelection = .furthest)
    {text text' : List Char} {tokens tokens' : List Token}
    (ht : Token.ofText settings text = .ok tokens) (ht' : Token.ofText settings text' = .ok tokens')
    {e : ParseError} (he : Program.parse settings text = .error (.syntactic e))
    (heq : (Tape.ofTokens tokens').toList.take (e.index + 1) =
      (Tape.ofTokens tokens).toList.take (e.index + 1)) :
    Program.parse settings text' = .error (.syntactic e) := by
  obtain ⟨tokens₀, ht₀, he⟩ := parse_eq_syntactic.1 he
  cases ht.symm.trans ht₀
  have hshares : (Input.ofTokens settings tokens).Shares e.index (.ofTokens settings tokens') :=
    ⟨heq, rfl, rfl, rfl, rfl, hs⟩
  exact parse_eq_syntactic.2
    ⟨tokens', ht', Grammar.predictive_program.error_of_shares he hshares⟩

/-- A parenthesis that closes nothing is the same error with a name behind it. -/
theorem Program.parse_local_closeParen : ∃ e,
    parse {} [')'] = .error (.syntactic e) ∧ e.index = 0 ∧
      parse {} [')', 'x'] = .error (.syntactic e) := by
  have htokens : Token.ofText {} [')'] = .ok
      [⟨.closeParen, [')'], ⟨⟨0, 1, 1⟩, ⟨1, 1, 2⟩⟩⟩, .eofAt ⟨1, 1, 2⟩] := by
    rw [Token.ofText, Caret.tokens_of_kept _ (m := ⟨.closeParen, 1, by decide⟩) rfl rfl,
      Caret.tokens_of_atEnd rfl]
    rfl
  have htokens' : Token.ofText {} [')', 'x'] = .ok
      [⟨.closeParen, [')'], ⟨⟨0, 1, 1⟩, ⟨1, 1, 2⟩⟩⟩, ⟨.identifier, ['x'], ⟨⟨1, 1, 2⟩, ⟨2, 1, 3⟩⟩⟩,
        .eofAt ⟨2, 1, 3⟩] := by
    rw [Token.ofText, Caret.tokens_of_kept _ (m := ⟨.closeParen, 1, by decide⟩) rfl rfl,
      Caret.tokens_of_kept _ (m := ⟨.identifier, 1, by decide⟩) rfl rfl, Caret.tokens_of_atEnd rfl]
    rfl
  obtain ⟨e, he, hindex⟩ : ∃ e, Grammar.program.parse (.ofTokens {}
      [⟨.closeParen, [')'], ⟨⟨0, 1, 1⟩, ⟨1, 1, 2⟩⟩⟩, .eofAt ⟨1, 1, 2⟩]) = .error e ∧
      e.index ≤ 0 :=
    Grammar.program_error_of_start (by decide) (by decide)
  have hparse := parse_eq_syntactic.2 ⟨_, htokens, he⟩
  have hzero : e.index = 0 := Nat.le_zero.1 hindex
  exact ⟨e, hparse, hzero, parse_local rfl htokens htokens' hparse (by rw [hzero]; rfl)⟩

end Descent
