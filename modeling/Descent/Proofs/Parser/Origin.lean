import Descent.Proofs.Parser.Outcome
import Descent.Proofs.Parser.Recursion

/-!
# Where errors come from

In a run of a rule, many parts of it may fail, and most of these errors are not what the rule
reports: a repetition ends at its error, a choice goes on to the next branch. `Rule.Raises` lists
them all: `r.Raises s u e` says that in the run of `r` from `s` some part fails on its own account
at `u`, for the reason that `e` gives. That part then reports `u.report e`, that is `e` with what
was recorded at `u`.

Whatever a rule reports or records is put together from these errors and from what was recorded
where it began (`Rule.gathers`): it has every property that they have, that two joined errors have
if both have it, and that does not depend on what was expected.
-/

namespace Descent

/-- The error at the token ahead, joined with nothing. -/
def Input.bare (s : Input) (expected : Expectations) (cause : ParseError.Cause) : ParseError :=
  ⟨s.current.span.start, s.position, expected, s.current.kind, cause⟩

namespace Rule

/-- The rule fails at its first step, where none of its parts does, and this is the error. -/
inductive Fails : {α : Type} → Rule α → Input → ParseError → Prop where
  | token {k : Token.Kind} {s : Input} (h : s.current.kind ≠ k) :
      Fails (.token k) s (s.bare {.token k} .unexpectedToken)
  | tokenPast {k : Token.Kind} {s : Input} {e : ParseError} (h : s.current.kind = k)
      (he : s.advance = .error e) : Fails (.token k) s (s.bare ∅ .pastEnd)
  | anyPast {s : Input} {e : ParseError} (he : s.advance = .error e) :
      Fails .any s (s.bare ∅ .pastEnd)
  | eoi {s : Input} (h : ¬s.atEnd) : Fails .eoi s (s.bare {.token .eof} .unexpectedToken)
  | lookahead {k : Nat} {s : Input} (h : s.settings.lookaheadDepth ≤ k) :
      Fails (.lookahead k) s (s.bare ∅ .beyondLookahead)
  | fail {α : Type} {cause : ParseError.Cause} {s : Input} :
      Fails (.fail cause : Rule α) s (s.bare ∅ cause)
  | expect {α : Type} {x : Expectation} {s : Input} :
      Fails (.expect x : Rule α) s (s.bare {x} .unexpectedToken)
  | refine {α β : Type} {f : α → Except ParseError.Cause β} {r : Rule α} {cause : ParseError.Cause}
      {s t : Input} {a : α} (h : r.parse s = .ok (a, t)) (hf : f a = .error cause) :
      Fails (.refine f r) s (s.bare ∅ cause)
  | choice {α : Type} {rs : Fin 0 → Rule α} {s : Input} :
      Fails (.oneOf 0 rs) s (s.bare ∅ .unexpectedToken)
  | descend {α : Type} {r : Rule α} {s : Input} {e : ParseError} (he : s.descend = .error e) :
      Fails (.nest r) s (s.bare ∅ .tooDeep)

/-- In the run of the rule from `s`, a part of it fails at its first step at `u`, with the error
`e`; whatever becomes of that error. -/
inductive Raises : {α : Type} → Rule α → (s u : Input) → ParseError → Prop where
  | self {α : Type} {r : Rule α} {s : Input} {e : ParseError} (h : r.Fails s e) : Raises r s s e
  | first {α β : Type} {r : Rule α} {f : α → Rule β} {s u : Input} {e : ParseError}
      (h : Raises r s u e) : Raises (.bind r f) s u e
  | next {α β : Type} {r : Rule α} {f : α → Rule β} {s t u : Input} {a : α} {e : ParseError}
      (ha : r.parse s = .ok (a, t)) (h : Raises (f a) t u e) : Raises (.bind r f) s u e
  | refine {α β : Type} {f : α → Except ParseError.Cause β} {r : Rule α} {s u : Input}
      {e : ParseError} (h : Raises r s u e) : Raises (.refine f r) s u e
  | named {α : Type} {name : String} {r : Rule α} {s u : Input} {e : ParseError}
      (h : Raises r s u e) : Raises (.named name r) s u e
  | branch {α : Type} {n : Nat} {rs : Fin n → Rule α} {s u : Input} {e : ParseError} (i : Fin n)
      (before : s.settings.tieBreak = .firstMatch → ∀ j < i, ∃ e, (rs j).parse s = .error e)
      (h : Raises (rs i) s u e) : Raises (.oneOf n rs) s u e
  | nest {α : Type} {r : Rule α} {s inner u : Input} {e : ParseError}
      (hi : s.descend = .ok inner) (h : Raises r inner u e) : Raises (.nest r) s u e
  | once {α : Type} {min : Nat} {r : Rule α} {s u : Input} {e : ParseError}
      (h : Raises r s u e) : Raises (.atLeast min r) s u e
  | again {α : Type} {min : Nat} {r : Rule α} {s t u : Input} {a : α} {e : ParseError}
      (ha : r.parse s = .ok (a, t)) (hlt : t.left < s.left)
      (h : Raises (.atLeast (min - 1) r) t u e) : Raises (.atLeast min r) s u e
  | start {α : Type} {r : Rule α} {f : α → Rule (Option α)} {s u : Input} {e : ParseError}
      (h : Raises r s u e) : Raises (.extend r f) s u e
  | more {α : Type} {r : Rule α} {f : α → Rule (Option α)} {s t u : Input} {a : α} {e : ParseError}
      (ha : r.parse s = .ok (a, t)) (h : Raises (f a) t u e) : Raises (.extend r f) s u e
  | further {α : Type} {r : Rule α} {f : α → Rule (Option α)} {s t v u : Input} {a b : α}
      {e : ParseError} (ha : r.parse s = .ok (a, t)) (hb : (f a).parse t = .ok (some b, v))
      (hlt : v.left < t.left) (h : Raises (.extend (.pure b) f) v u e) : Raises (.extend r f) s u e
  | call {p : Phrase} {s u : Input} {e : ParseError} (h : Raises p.rule s u e) :
      Raises (.call p) s u e

variable {α β : Type} {r : Rule α} {s t u : Input} {e : ParseError}

/-- A rule that fails at its first step reports the error, joined with what was recorded. -/
theorem Fails.parse_eq (h : r.Fails s e) : r.parse s = .error (s.report e) := by
  have past {x : ParseError} (h : s.advance = .error x) : Parser.any s = .error (s.error .pastEnd) :=
    Parser.any_eq_error.2 (h.trans (congrArg _ (Input.advance_eq_error h)))
  cases h with
  | token h => exact if_neg h
  | tokenPast h he => exact (if_pos h).trans (past he)
  | anyPast he => exact past he
  | eoi h => exact if_neg h
  | lookahead h =>
    show Parser.lookahead _ s = _
    rw [Parser.lookahead, Input.lookahead, if_neg (Nat.not_lt.2 h)]
    rfl
  | fail => rfl
  | expect => rfl
  | refine h hf => exact Parser.refine_eq_error.2 (.inr ⟨_, _, _, h, hf, rfl⟩)
  | choice => rfl
  | descend he =>
    refine Parser.nest_eq_error.2 (.inl ?_)
    rw [he, Input.descend_eq_error he]
    rfl

end Rule

/-! ## What is put together from errors -/

/-- Joining two errors and naming the phrase that was expected keep the property. -/
structure ParseError.Closed (Q : ParseError → Prop) : Prop where
  join : ∀ e f, Q e → Q f → Q (e.join f)
  expected : ∀ (e : ParseError) (x : Expectations), Q e → Q { e with expected := x }

namespace Input

variable {Q : ParseError → Prop} {s : Input} {e : ParseError}

/-- What is recorded has the property. -/
def Records (Q : ParseError → Prop) (s : Input) : Prop := ∀ f ∈ s.furthest, Q f

theorem Records.report (hQ : ParseError.Closed Q) (hs : s.Records Q) (he : Q e) :
    Q (s.report e) := by
  unfold Input.report
  split
  · cases hf : s.furthest with
    | none => exact he
    | some f => exact hQ.join e f he (hs f hf)
  · exact he

theorem Records.record (hQ : ParseError.Closed Q) (hs : s.Records Q) (he : Q e) :
    (s.record e).Records Q := by
  unfold Input.record
  split
  · exact hs
  · split
    · rintro f ⟨⟩
      exact he
    · next f hf =>
      split
      · exact hs
      · rintro g ⟨⟩
        exact hQ.join e f he (hs f hf)

theorem Records.record? (hQ : ParseError.Closed Q) (hs : s.Records Q) {o : Option ParseError}
    (ho : ∀ e ∈ o, Q e) : (s.record? o).Records Q := by
  cases o with
  | none => exact hs
  | some e => exact hs.record hQ (ho e rfl)

end Input

/-- What all branches that are tried report and record is kept by the choice between them. -/
theorem Parser.choiceFrom_yields {α : Type} {Q : ParseError → Prop} (hQ : ParseError.Closed Q)
    {s : Input} {ps : List (Parser α)} {f : Option ParseError} {best : Option (α × Input)}
    (hf : ∀ e ∈ f, Q e) (hbest : ∀ m ∈ best, m.2.Records Q)
    (hnone : ps = [] → f = none → best = none → Q (s.error .unexpectedToken))
    (hps : ∀ i, (hi : i < ps.length) →
      (s.settings.tieBreak = .firstMatch → ∀ j, (hj : j < i) → ∃ e, ps[j] s = .error e) →
      Yields Q (·.Records Q) (ps[i] s)) :
    Yields Q (·.Records Q) (choiceFrom s f best ps) := by
  induction ps generalizing f best with
  | nil =>
    cases best with
    | some m => exact (hbest m rfl).record? hQ hf
    | none =>
      cases f with
      | none => exact hnone rfl rfl rfl
      | some e => exact hf e rfl
  | cons p ps ih =>
    have hhead := hps 0 (Nat.succ_pos _) fun _ j hj => absurd hj (Nat.not_lt_zero j)
    have htail (h : s.settings.tieBreak = .firstMatch → ∃ e, p s = .error e) (i : Nat)
        (hi : i < ps.length)
        (before : s.settings.tieBreak = .firstMatch → ∀ j, (hj : j < i) → ∃ e, ps[j] s = .error e) :=
      hps (i + 1) (Nat.succ_lt_succ hi) fun ht j hj => match j with
        | 0 => h ht
        | j + 1 => before ht j (Nat.lt_of_succ_lt_succ hj)
    rw [List.getElem_cons_zero] at hhead
    simp only [choiceFrom]
    cases hp : p s with
    | error e =>
      rw [hp] at hhead
      refine ih (fun x hx => ?_) hbest (fun _ h => by cases h) (htail fun _ => ⟨e, hp⟩)
      cases hx
      exact blame_of_closed hQ.join hf hhead
    | ok m =>
      obtain ⟨a, t⟩ := m
      rw [hp] at hhead
      cases ht : s.settings.tieBreak with
      | firstMatch => exact Input.Records.record? hQ hhead hf
      | longestParse =>
        refine ih hf (fun x hx => ?_) (fun _ _ h => by cases h)
          (htail fun h => by rw [ht] at h; cases h)
        cases hx
        cases best with
        | none => exact hhead
        | some b =>
          simp only [longer]
          split
          · exact hhead
          · exact hbest b rfl

namespace Rule

open Descent.Parser (Yields)

variable {α β : Type} {Q : ParseError → Prop}

/-- If what was recorded where the rule begins and the errors of its parts have the property, then
so do what it reports and what it records. -/
def Gathers (Q : ParseError → Prop) (r : Rule α) (s : Input) : Prop :=
  s.Records Q → (∀ u e, r.Raises s u e → Q e) → Yields Q (·.Records Q) (r.parse s)

namespace Gathers

variable {r : Rule α} {s : Input}

/-- A rule without parts. -/
theorem of_fails (hQ : ParseError.Closed Q) (error : ∀ e, r.parse s = .error e → ∃ x, r.Fails s x)
    (ok : ∀ a t, r.parse s = .ok (a, t) → t.furthest = s.furthest) : r.Gathers Q s := by
  intro hs hr
  refine Parser.yields_iff.2 ⟨fun e he => ?_, fun a t ht => ?_⟩
  · obtain ⟨x, hx⟩ := error e he
    cases he.symm.trans hx.parse_eq
    exact hs.report hQ (hr s x (.self hx))
  · intro f hf
    rw [ok a t ht] at hf
    exact hs f hf

theorem bind {f : α → Rule β} (h : r.Gathers Q s)
    (hf : ∀ a t, r.parse s = .ok (a, t) → (f a).Gathers Q t) : (Rule.bind r f).Gathers Q s := by
  intro hs hr
  have hfirst := h hs fun u e he => hr u e (.first he)
  apply Yields.bind hfirst
  intro a t ht hrecords
  exact hf a t ht hrecords fun u e he => hr u e (.next ht he)

theorem refine (hQ : ParseError.Closed Q) {f : α → Except ParseError.Cause β} (h : r.Gathers Q s) :
    (Rule.refine f r).Gathers Q s := by
  intro hs hr
  have hinner := h hs fun u e he => hr u e (.refine he)
  apply Yields.refine hinner
  intro a t cause ht _ hf
  exact hs.report hQ (hr s _ (.self (.refine ht hf)))

theorem named (hQ : ParseError.Closed Q) {name : String} (h : r.Gathers Q s) :
    (Rule.named name r).Gathers Q s := by
  intro hs hr
  have hinner := h hs fun u e he => hr u e (.named he)
  exact Yields.named hinner hQ.expected

theorem oneOf (hQ : ParseError.Closed Q) {n : Nat} {rs : Fin n → Rule α}
    (h : ∀ i, (rs i).Gathers Q s) : (Rule.oneOf n rs).Gathers Q s := by
  intro hs hr
  apply Parser.choiceFrom_yields hQ (fun e he => by cases he) (fun m hm => by cases hm)
    (fun hn _ _ => ?_) fun i hi before => ?_
  · obtain rfl : n = 0 := List.ofFn_eq_nil_iff.1 hn
    exact hs.report hQ (hr s _ (.self .choice))
  · rw [List.length_ofFn] at hi
    simp only [List.getElem_ofFn] at before ⊢
    apply h ⟨i, hi⟩ hs
    intro u e he
    exact hr u e (.branch ⟨i, hi⟩ (fun ht j hj => before ht j hj) he)

theorem nest (hQ : ParseError.Closed Q) (h : ∀ inner, s.descend = .ok inner → r.Gathers Q inner) :
    (Rule.nest r).Gathers Q s := by
  intro hs hr
  cases hi : s.descend with
  | error e =>
    have hfails : (Rule.nest r).Fails s _ := .descend hi
    rw [hfails.parse_eq]
    exact hs.report hQ (hr s _ (.self hfails))
  | ok inner =>
    have hs' : inner.Records Q := by
      cases Input.descend_eq_ok hi
      exact hs
    have hinner := h inner hi hs' fun u e he => hr u e (.nest hi he)
    exact Yields.nest hi hinner fun _ _ ht => ht

theorem atLeast (hQ : ParseError.Closed Q) {s : Input} {min : Nat}
    (h : ∀ t : Input, t.left ≤ s.left → r.Gathers Q t) : (Rule.atLeast min r).Gathers Q s := by
  intro hs hr
  have honce := h s (Nat.le_refl _) hs fun u e he => hr u e (.once he)
  apply Yields.atLeast honce (fun e he => hs.record hQ he)
  intro a t ht hlt hrecords
  have hrest : (Rule.atLeast (min - 1) r).Gathers Q t := atLeast hQ fun u hu => h u (by omega)
  exact hrest hrecords fun u e he => hr u e (.again ht hlt he)
termination_by s.left

theorem extend {r : Rule α} {f : α → Rule (Option α)} {s : Input} (h : r.Gathers Q s)
    (hf : ∀ a (t : Input), t.left ≤ s.left → (f a).Gathers Q t) :
    (Rule.extend r f).Gathers Q s := by
  intro hs hr
  have hstart := h hs fun u e he => hr u e (.start he)
  apply Yields.bind hstart
  intro a t ht hrecords
  have hle : t.left ≤ s.left := r.forward_parse.left_le ht
  have hmore := hf a t hle hrecords fun u e he => hr u e (.more ht he)
  apply Yields.extendFrom hmore
  intro b v hb hlt hrecords
  -- What is left to do is an extension of `b`, from where fewer tokens are left.
  have hrest : (Rule.extend (.pure b) f).Gathers Q v :=
    extend (fun hv _ => hv) fun c u hu => hf c u (by omega)
  exact hrest hrecords fun u e he => hr u e (.further ht hb hlt he)
termination_by s.left

end Gathers

/-- A rule gathers errors as soon as the phrases do that it reads. -/
theorem gathers_of_callsOnly (hQ : ParseError.Closed Q) {C : Phrase → Input → Prop}
    (h : ∀ p t, C p t → (call p).Gathers Q t) (r : Rule α) :
    ∀ s : Input, r.CallsOnly Phrase.parse C s → r.Gathers Q s := by
  induction r with
  | pure a => exact fun s _ hs _ => hs
  | bind r f ihr ihf => exact fun s hs => (ihr s hs.1).bind fun a t ht => ihf a t (hs.2 a t ht)
  | token k =>
    refine fun s _ => .of_fails hQ (fun e he => ?_) fun a t ht => ?_
    · by_cases hk : s.current.kind = k
      · exact ⟨_, .tokenPast hk (Parser.any_eq_error.1 ((if_pos hk).symm.trans he))⟩
      · exact ⟨_, .token hk⟩
    · exact Input.furthest_of_advance (Parser.token_eq_ok.1 ht).2.2
  | any =>
    refine fun s _ => .of_fails hQ (fun e he => ?_) fun a t ht => ?_
    · exact ⟨_, .anyPast (Parser.any_eq_error.1 he)⟩
    · exact Input.furthest_of_advance (Parser.any_eq_ok.1 ht).2
  | eoi =>
    refine fun s _ => .of_fails hQ (fun e he => ⟨_, .eoi fun hend => ?_⟩) fun a t ht => ?_
    · cases he.symm.trans (if_pos hend)
    · obtain ⟨-, rfl⟩ := Parser.eoi_eq_ok.1 ht
      rfl
  | lookahead k =>
    intro s _
    by_cases hk : k < s.settings.lookaheadDepth
    · have hok : Parser.lookahead k s = .ok (s.peek k, s) := by
        rw [Parser.lookahead, Input.lookahead, if_pos hk]
      refine .of_fails hQ (fun e he => ?_) fun a t ht => ?_
      · cases hok.symm.trans he
      · cases hok.symm.trans ht
        rfl
    · have hfails : (lookahead k).Fails s _ := .lookahead (Nat.not_lt.1 hk)
      refine .of_fails hQ (fun e _ => ⟨_, hfails⟩) fun a t ht => ?_
      cases hfails.parse_eq.symm.trans ht
  | here => exact fun s _ hs _ => hs
  | fail cause => exact fun s _ => .of_fails hQ (fun e he => ⟨_, .fail⟩) fun a t ht => by cases ht
  | expect x => exact fun s _ => .of_fails hQ (fun e he => ⟨_, .expect⟩) fun a t ht => by cases ht
  | refine f r ih => exact fun s hs => (ih s hs).refine hQ
  | named name r ih => exact fun s hs => (ih s hs).named hQ
  | oneOf n rs ih => exact fun s hs => .oneOf hQ fun i => ih i s (hs i)
  | nest r ih => exact fun s hs => .nest hQ fun inner hi => ih inner (hs inner hi)
  | atLeast min r ih => exact fun s hs => .atLeast hQ fun t ht => ih t (hs t ht)
  | extend r f ihr ihf =>
    exact fun s hs => .extend (ihr s hs.1) fun a t ht => ihf a t (hs.2 a t ht)
  | call p => exact h p

end Rule

/-- Phrases gather errors: where they read other phrases, less is left or those are simpler. -/
theorem Phrase.gathers {Q : ParseError → Prop} (hQ : ParseError.Closed Q) (p : Phrase)
    (s : Input) : (Rule.call p).Gathers Q s := by
  intro hs hr
  have hrule : p.rule.Gathers Q s :=
    p.rule.gathers_of_callsOnly hQ (fun q t (_ : q.measure t < p.measure s) => gathers hQ q t) s
      (p.rule_callsOnly Phrase.forward_parse s)
  have hyields := hrule hs fun u e he => hr u e (.call he)
  show Parser.Yields Q _ (p.parse s)
  rw [p.parse_eq s]
  exact hyields
termination_by p.measure s

/-- Whatever a rule reports or records is put together from the errors of its parts and from what
was recorded where it began. -/
theorem Rule.gathers {α : Type} {Q : ParseError → Prop} (hQ : ParseError.Closed Q) (r : Rule α)
    (s : Input) : r.Gathers Q s := by
  have hcalls : r.CallsOnly Phrase.parse (fun _ _ => True) s :=
    r.callsOnly_of_lt Phrase.forward_parse (fun _ _ _ => trivial) s (Nat.lt_succ_self s.left)
  exact r.gathers_of_callsOnly hQ (fun p t _ => p.gathers hQ t) s hcalls

end Descent
