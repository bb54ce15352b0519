import Descent.Proofs.Parser.Blame
import Descent.Proofs.Parser.Course
import Descent.Proofs.Parser.Origin

/-!
# Runs of rules keep inputs coherent

An error names a token of the tape by its index, and repeats where that token begins and of what
kind it is. On inputs that the start of a tape leads to, these agree in every error that a rule
reports or records (`Rule.parse_coherent`): a rule joins errors of different places, but never takes
the index from one and the rest from another. Besides, a rule stays on its tape, between the place
where it begins and the end, keeps the settings and gives the depth back.
-/

namespace Descent

/-- The error points at a token of the tape, and says of that token what is true. -/
structure ParseError.Coherent (tape : Tape) (e : ParseError) : Prop where
  index_le : e.index ≤ tape.tokens.size
  position : e.position = (tape.token e.index).span.start
  found : e.found = (tape.token e.index).kind

theorem ParseError.closed_coherent (tape : Tape) : Closed (Coherent tape) where
  join e f he hf := by
    unfold join
    split
    · exact hf
    · split
      · exact ⟨he.index_le, he.position, he.found⟩
      · exact he
  expected e x he := ⟨he.index_le, he.position, he.found⟩

namespace Input

variable {s t : Input}

theorem coherent_bare (s : Input) (x : Expectations) (cause : ParseError.Cause) :
    (s.bare x cause).Coherent s.tape := ⟨s.position_le, rfl, rfl⟩

theorem tape_of_advance (h : s.advance = .ok t) : t.tape = s.tape := by
  unfold advance at h
  split at h
  · cases h
    rfl
  · split at h
    · cases h
      rfl
    · cases h

/-- The start of a tape leads to the input, by rules, single steps and levels of nesting. -/
inductive Reachable : Input → Prop where
  | ofTokens (settings : Settings) (tokens : List Token) : Reachable (.ofTokens settings tokens)
  | ofText {settings : Settings} {text : List Char} {s : Input}
      (h : Input.ofText settings text = .ok s) : Reachable s
  | parse {α : Type} {r : Rule α} {s t : Input} {a : α} (hs : Reachable s)
      (h : r.parse s = .ok (a, t)) : Reachable t
  | advance {s t : Input} (hs : Reachable s) (h : s.advance = .ok t) : Reachable t
  | descend {s t : Input} (hs : Reachable s) (h : s.descend = .ok t) : Reachable t

end Input

namespace Rule

variable {α : Type} {r : Rule α} {s u : Input} {e : ParseError}

theorem Fails.coherent (h : r.Fails s e) : e.Coherent s.tape := by
  cases h <;> exact s.coherent_bare _ _

/-- Every error that a part of a rule raises is one about a token of the tape. -/
theorem Raises.coherent (h : r.Raises s u e) : e.Coherent s.tape := by
  induction h with
  | self h => exact h.coherent
  | @next α β r f s t u a e ha h ih =>
    obtain ⟨ts, hts⟩ := r.forward_parse s a t ha
    exact hts.tape ▸ ih
  | @nest α r s inner u e hi h ih =>
    cases Input.descend_eq_ok hi
    exact ih
  | @again α min r s t u a e ha hlt h ih =>
    obtain ⟨ts, hts⟩ := r.forward_parse s a t ha
    exact hts.tape ▸ ih
  | @more α r f s t u a e ha h ih =>
    obtain ⟨ts, hts⟩ := r.forward_parse s a t ha
    exact hts.tape ▸ ih
  | @further α r f s t v u a b e ha hb hlt h ih =>
    obtain ⟨ts, hts⟩ := r.forward_parse s a t ha
    obtain ⟨us, hus⟩ := (f a).forward_parse t _ v hb
    have htape : v.tape = s.tape := hus.tape.trans hts.tape
    exact htape ▸ ih
  | first _ ih => exact ih
  | refine _ ih => exact ih
  | named _ ih => exact ih
  | branch _ _ _ ih => exact ih
  | once _ ih => exact ih
  | start _ ih => exact ih
  | call _ ih => exact ih

theorem yields_coherent (r : Rule α) (hs : s.Records (ParseError.Coherent s.tape)) :
    Parser.Yields (ParseError.Coherent s.tape) (·.Records (ParseError.Coherent s.tape))
      (r.parse s) :=
  r.gathers (ParseError.closed_coherent s.tape) s hs fun _ _ he => he.coherent

end Rule

/-- What is recorded on an input is about a token of its tape. -/
theorem Input.Reachable.records {s : Input} (h : s.Reachable) :
    s.Records (ParseError.Coherent s.tape) := by
  induction h with
  | ofTokens settings tokens =>
    intro f hf
    cases hf
  | @ofText settings text s h =>
    unfold Input.ofText at h
    split at h
    · cases h
      intro f hf
      cases hf
    · cases h
  | @parse α r s t a _ h ih =>
    obtain ⟨ts, hts⟩ := r.forward_parse s a t h
    rw [hts.tape]
    exact (Parser.yields_iff.1 (r.yields_coherent ih)).2 a t h
  | @advance s t _ h ih =>
    intro f hf
    rw [Input.furthest_of_advance h] at hf
    rw [Input.tape_of_advance h]
    exact ih f hf
  | @descend s t _ h ih =>
    cases Input.descend_eq_ok h
    exact ih

/-- From an input that the start of a tape leads to, a rule that matches leads to a place between
that input and the end of the same tape, with the same settings and the same depth, and what is
recorded there is about a token of the tape. A rule that fails reports an error about a token of the
tape that is not before the place where the rule began. -/
theorem Rule.parse_coherent {α : Type} (r : Rule α) {s : Input} (hs : s.Reachable) :
    (∀ a t, r.parse s = .ok (a, t) →
      t.tape = s.tape ∧ t.settings = s.settings ∧ s.position ≤ t.position ∧
        t.position ≤ s.tape.tokens.size ∧ t.depth = s.depth ∧
        ∀ f ∈ t.furthest, f.Coherent s.tape) ∧
      ∀ e, r.parse s = .error e → e.Coherent s.tape ∧ s.position ≤ e.index := by
  obtain ⟨herror, hok⟩ := Parser.yields_iff.1 (r.yields_coherent hs.records)
  constructor
  · intro a t h
    obtain ⟨ts, hts⟩ := r.forward_parse s a t h
    have hposition : s.position ≤ t.position := by
      rw [hts.position]
      omega
    exact ⟨hts.tape, hts.settings, hposition, hts.tape ▸ t.position_le, hts.depth, hok a t h⟩
  · intro e h
    exact ⟨herror e h, (r.steady_parse (ParseError.lasting_index 0)).onward s e h⟩

/-- Behind `let`, where a name is missing, the error is about the end of the tape. -/
theorem Rule.parse_coherent_identifier :
    ∃ x t e, (token .kwLet).parse
        (.ofTokens {} [⟨.kwLet, ['l', 'e', 't'], ⟨.start, .start⟩⟩]) = .ok (x, t) ∧
      (token .identifier).parse t = .error e ∧ e.Coherent t.tape ∧ t.position ≤ e.index := by
  have hs : (Input.ofTokens {} [⟨.kwLet, ['l', 'e', 't'], ⟨.start, .start⟩⟩]).Reachable :=
    .ofTokens _ _
  refine ⟨_, _, _, rfl, rfl, ?_⟩
  have ht := hs.parse (r := token .kwLet) rfl
  exact ((token .identifier).parse_coherent ht).2 _ rfl

end Descent
