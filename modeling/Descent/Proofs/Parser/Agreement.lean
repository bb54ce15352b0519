import Descent.Proofs.Parser.Acceptance
import Descent.Proofs.Parser.Blame

/-!
# Errors decide nothing

An input carries the furthest error of the attempts given up, and the settings say which errors are
selected. Both serve messages alone: whatever is recorded (`Rule.parse_recorded`) and whatever is
selected (`Rule.parse_selecting`), a rule matches or fails alike, and where it matches, it returns
the same value and stops at the same place. If the first errors are selected, the error is never
further on than with the furthest ones.

Both statements are about two runs of one rule, on inputs that lie `Beside` each other. That the
runs agree is shown of each way to build parsers, and so by induction of all rules
(`Rule.impartial_run`).
-/

namespace Descent

namespace Parser

variable {α β : Type} {R R' : Input → Input → Prop} {E : ParseError → ParseError → Prop}
  {m n : Except ParseError (α × Input)} {p : Parser α} {s t : Input}

/-- Both attempts match, with the same value and inputs behind it in the relation `R`, or both fail,
with errors in the relation `E`. -/
def Agree (R : Input → Input → Prop) (E : ParseError → ParseError → Prop)
    (m n : Except ParseError (α × Input)) : Prop :=
  (∃ a u v, m = .ok (a, u) ∧ n = .ok (a, v) ∧ R u v) ∨ ∃ e f, m = .error e ∧ n = .error f ∧ E e f

theorem Agree.ok {a : α} {u : Input} (h : Agree R E m n) (hm : m = .ok (a, u)) :
    ∃ v, n = .ok (a, v) ∧ R u v := by
  rcases h with ⟨b, w, v, hw, hv, hwv⟩ | ⟨e, f, he, -, -⟩
  · cases hm.symm.trans hw
    exact ⟨v, hv, hwv⟩
  · cases hm.symm.trans he

theorem Agree.error {e : ParseError} (h : Agree R E m n) (hm : m = .error e) :
    ∃ f, n = .error f ∧ E e f := by
  rcases h with ⟨b, w, v, hw, -, -⟩ | ⟨e', f, he, hf, hef⟩
  · cases hm.symm.trans hw
  · cases hm.symm.trans he
    exact ⟨f, hf, hef⟩

theorem Agree.bind {f : α → Parser β} (h : Agree R E (p s) (p t))
    (hf : ∀ a u v, p s = .ok (a, u) → R u v → Agree R' E (f a u) (f a v)) :
    Agree R' E (Parser.bind p f s) (Parser.bind p f t) := by
  unfold Parser.bind
  rcases h with ⟨a, u, v, hu, hv, huv⟩ | ⟨e, e', he, he', hee⟩
  · rw [hu, hv]
    exact hf a u v hu huv
  · rw [he, he']
    exact .inr ⟨e, e', rfl, rfl, hee⟩

/-- Repetitions agree if all single matches do, since both go on as often. -/
theorem Agree.atLeast (hleft : ∀ u v, R u v → v.left = u.left)
    (hp : ∀ u v, R u v → Agree R E (p u) (p v))
    (hrecord : ∀ u v e f, R u v → p u = .error e → E e f → R' (u.record e) (v.record f))
    (hR : ∀ u v, R u v → R' u v) (min : Nat) (h : R s t) :
    Agree R' E (atLeast min p s) (atLeast min p t) := by
  fun_induction Parser.atLeast min p s generalizing t with
  | case1 s e he =>
    obtain ⟨f, hf, hef⟩ := (hp s t h).error he
    rw [atLeast_of_error hf, if_pos rfl]
    exact .inl ⟨[], _, _, rfl, rfl, hrecord s t e f h he hef⟩
  | case2 min s e he hmin =>
    obtain ⟨f, hf, hef⟩ := (hp s t h).error he
    rw [atLeast_of_error hf, if_neg hmin]
    exact .inr ⟨e, f, rfl, rfl, hef⟩
  | case3 min s a u hu hlt as w hrest ih =>
    obtain ⟨v, hv, huv⟩ := (hp s t h).ok hu
    have hlt' : v.left < t.left := by rwa [hleft u v huv, hleft s t h]
    obtain ⟨w', hw', hww⟩ := (ih huv).ok hrest
    rw [atLeast_of_ok hv hlt', hw']
    exact .inl ⟨a :: as, w, w', rfl, rfl, hww⟩
  | case4 min s a u hu hlt e hrest ih =>
    obtain ⟨v, hv, huv⟩ := (hp s t h).ok hu
    have hlt' : v.left < t.left := by rwa [hleft u v huv, hleft s t h]
    obtain ⟨f, hf, hef⟩ := (ih huv).error hrest
    rw [atLeast_of_ok hv hlt', hf]
    exact .inr ⟨e, f, rfl, rfl, hef⟩
  | case5 min s a u hu hlt =>
    obtain ⟨v, hv, huv⟩ := (hp s t h).ok hu
    have hlt' : ¬v.left < t.left := by rwa [hleft u v huv, hleft s t h]
    rw [Parser.atLeast, hv]
    exact .inl ⟨[a], u, v, rfl, if_neg hlt', hR u v huv⟩

/-- Values are extended alike if each extension agrees. -/
theorem Agree.extendFrom {f : α → Parser (Option α)} (hleft : ∀ u v, R u v → v.left = u.left)
    (hf : ∀ a u v, R u v → Agree R E (f a u) (f a v)) (a : α) (h : R s t) :
    Agree R E (extendFrom f a s) (extendFrom f a t) := by
  fun_induction Parser.extendFrom f a s generalizing t with
  | case1 a s e he =>
    obtain ⟨e', he', hee⟩ := (hf a s t h).error he
    rw [Parser.extendFrom, he']
    exact .inr ⟨e, e', rfl, rfl, hee⟩
  | case2 a s u hu =>
    obtain ⟨v, hv, huv⟩ := (hf a s t h).ok hu
    rw [extendFrom_of_none hv]
    exact .inl ⟨a, u, v, rfl, rfl, huv⟩
  | case3 a s b u hu hlt ih =>
    obtain ⟨v, hv, huv⟩ := (hf a s t h).ok hu
    have hlt' : v.left < t.left := by rwa [hleft u v huv, hleft s t h]
    rw [extendFrom_of_some hv hlt']
    exact ih huv
  | case4 a s b u hu hlt =>
    obtain ⟨v, hv, huv⟩ := (hf a s t h).ok hu
    have hlt' : ¬v.left < t.left := by rwa [hleft u v huv, hleft s t h]
    rw [Parser.extendFrom, hv]
    exact .inl ⟨b, u, v, rfl, if_neg hlt', huv⟩

end Parser

namespace Input

variable {x : FailureSelection} {s t : Input}

/-- The inputs are at the same place, and the second one selects the errors `x`, while all other
settings are the same. What errors are recorded is left open. -/
structure Beside (x : FailureSelection) (s t : Input) : Prop where
  tape : t.tape = s.tape
  settings : t.settings = { s.settings with failureSelection := x }
  position : t.position = s.position
  depth : t.depth = s.depth

namespace Beside

theorem current (h : s.Beside x t) : t.current = s.current := by
  rw [current_eq_token, current_eq_token, h.tape, h.position]

theorem peek (h : s.Beside x t) (k : Nat) : t.peek k = s.peek k := by
  rw [Input.peek, Input.peek, h.tape, h.position]

theorem left (h : s.Beside x t) : t.left = s.left := by
  rw [Input.left, Input.left, h.tape, h.position]

theorem tieBreak (h : s.Beside x t) : t.settings.tieBreak = s.settings.tieBreak := by
  rw [h.settings]

theorem selection (h : s.Beside x t) : t.settings.failureSelection = x := by rw [h.settings]

/-- Inputs at the places of two that lie beside each other do so, too. -/
theorem of_passes {u v : Input} (h : s.Beside x t) (hs : s.Passes [] u) (ht : t.Passes [] v) :
    u.Beside x v where
  tape := by rw [ht.tape, hs.tape, h.tape]
  settings := by rw [ht.settings, hs.settings, h.settings]
  position := by rw [ht.position, hs.position, h.position]
  depth := by rw [ht.depth, hs.depth, h.depth]

theorem record? (h : s.Beside x t) (o o' : Option ParseError) :
    (s.record? o).Beside x (t.record? o') :=
  h.of_passes (s.record?_passes o) (t.record?_passes o')

theorem atDepth (h : s.Beside x t) (n : Nat) : (s.atDepth n).Beside x (t.atDepth n) :=
  ⟨h.tape, h.settings, h.position, rfl⟩

/-- Where the first errors are selected, an error is at the place where it is reported. -/
theorem index_report_le (h : s.Beside x t) (e : ParseError) {f : ParseError}
    (hf : f.index = e.index) (hx : x = .first) : (t.report f).index ≤ (s.report e).index := by
  have hreport : t.report f = f := by rw [report, h.selection, hx]
  rw [hreport, hf]
  exact s.index_le_report e

end Beside

end Input

namespace Parser

variable {α β : Type} {x : FailureSelection} {p : Parser α} {s t : Input}

/-- If the second attempt selects first errors, its error is not further on than that of the first
attempt. -/
def NotFurther (x : FailureSelection) (e f : ParseError) : Prop := x = .first → f.index ≤ e.index

/-- Beside each other, the parser does the same. -/
def Impartial (x : FailureSelection) (p : Parser α) : Prop :=
  ∀ s t, s.Beside x t → Agree (Input.Beside x) (NotFurther x) (p s) (p t)

namespace Impartial

theorem pure (a : α) : Impartial x (Parser.pure a) := fun s t h => .inl ⟨a, s, t, rfl, rfl, h⟩

theorem here : Impartial x here := by
  intro s t h
  refine .inl ⟨s.current.span.start, s, t, rfl, ?_, h⟩
  rw [Parser.here, h.current]

/-- Errors that are reported at the same place. -/
theorem of_report {e f : ParseError} (h : s.Beside x t) (he : e.index = s.position)
    (hf : f.index = t.position) : NotFurther x (s.report e) (t.report f) :=
  h.index_report_le e (by rw [he, hf, h.position])

theorem fail (cause : ParseError.Cause) : Impartial x (fail cause : Parser α) :=
  fun _ _ h => .inr ⟨_, _, rfl, rfl, of_report h rfl rfl⟩

theorem expect (y : Expectation) : Impartial x (expect y : Parser α) :=
  fun _ _ h => .inr ⟨_, _, rfl, rfl, of_report h rfl rfl⟩

theorem eoi : Impartial x eoi := by
  intro s t h
  have hend : t.atEnd = s.atEnd := by rw [Input.atEnd, Input.atEnd, h.tape, h.position]
  unfold Parser.eoi
  rw [hend]
  by_cases hs : s.atEnd
  · rw [if_pos hs, if_pos hs]
    exact .inl ⟨(), s, t, rfl, rfl, h⟩
  · rw [if_neg hs, if_neg hs]
    exact .inr ⟨_, _, rfl, rfl, of_report h rfl rfl⟩

theorem lookahead (k : Nat) : Impartial x (lookahead k) := by
  intro s t h
  have hdepth : t.settings.lookaheadDepth = s.settings.lookaheadDepth := by rw [h.settings]
  unfold Parser.lookahead Input.lookahead
  rw [hdepth, h.peek]
  by_cases hk : k < s.settings.lookaheadDepth
  · rw [if_pos hk, if_pos hk]
    exact .inl ⟨s.peek k, s, t, rfl, rfl, h⟩
  · rw [if_neg hk, if_neg hk]
    exact .inr ⟨_, _, rfl, rfl, of_report h rfl rfl⟩

theorem any : Impartial x any := by
  intro s t h
  have hpast : t.settings.advancePastEnd = s.settings.advancePastEnd := by rw [h.settings]
  unfold Parser.any Input.advance
  by_cases hs : s.position < s.tape.tokens.size
  · have ht : t.position < t.tape.tokens.size := by rw [h.tape, h.position]; exact hs
    rw [dif_pos hs, dif_pos ht]
    dsimp only
    rw [h.current]
    exact .inl ⟨s.current, _, _, rfl, rfl, h.tape, h.settings, congrArg (· + 1) h.position, h.depth⟩
  · have ht : ¬t.position < t.tape.tokens.size := by rw [h.tape, h.position]; exact hs
    rw [dif_neg hs, dif_neg ht, hpast]
    cases s.settings.advancePastEnd with
    | saturate => exact .inl ⟨s.current, s, t, rfl, by rw [h.current], h⟩
    | fail => exact .inr ⟨_, _, rfl, rfl, of_report h rfl rfl⟩

theorem token (k : Token.Kind) : Impartial x (token k) := by
  intro s t h
  unfold Parser.token
  rw [h.current]
  by_cases hk : s.current.kind = k
  · rw [if_pos hk, if_pos hk]
    exact any s t h
  · rw [if_neg hk, if_neg hk]
    exact .inr ⟨_, _, rfl, rfl, of_report h rfl rfl⟩

theorem bind {f : α → Parser β} (hp : Impartial x p) (hf : ∀ a, Impartial x (f a)) :
    Impartial x (Parser.bind p f) := by
  intro s t h
  exact (hp s t h).bind fun a u v _ huv => hf a u v huv

theorem refine {f : α → Except ParseError.Cause β} (hp : Impartial x p) :
    Impartial x (refine f p) := by
  intro s t h
  unfold Parser.refine
  rcases hp s t h with ⟨a, u, v, hu, hv, huv⟩ | ⟨e, e', he, he', hee⟩
  · rw [hu, hv]
    dsimp only
    cases f a with
    | ok b => exact .inl ⟨b, u, v, rfl, rfl, huv⟩
    | error cause => exact .inr ⟨_, _, rfl, rfl, of_report h rfl rfl⟩
  · rw [he, he']
    exact .inr ⟨e, e', rfl, rfl, hee⟩

theorem named {name : String} (hp : Impartial x p) : Impartial x (named name p) := by
  intro s t h
  have hindex (s : Input) (e : ParseError) :
      (if e.index = s.position then { e with expected := {.phrase name} } else e).index =
        e.index := by
    split <;> rfl
  unfold Parser.named
  rcases hp s t h with ⟨a, u, v, hu, hv, huv⟩ | ⟨e, e', he, he', hee⟩
  · rw [hu, hv]
    exact .inl ⟨a, u, v, rfl, rfl, huv⟩
  · rw [he, he']
    refine .inr ⟨_, _, rfl, rfl, fun hx => ?_⟩
    rw [hindex, hindex]
    exact hee hx

theorem nest (hp : Impartial x p) : Impartial x (nest p) := by
  intro s t h
  have hmax : t.settings.maxDepth = s.settings.maxDepth := by rw [h.settings]
  unfold Parser.nest Input.descend
  rw [hmax, h.depth]
  by_cases hdeep : s.settings.maxDepth.any (· < s.depth + 1)
  · rw [if_pos hdeep, if_pos hdeep]
    exact .inr ⟨_, _, rfl, rfl, of_report h rfl rfl⟩
  · rw [if_neg hdeep, if_neg hdeep]
    dsimp only
    rcases hp _ _ (h.atDepth (s.depth + 1)) with ⟨a, u, v, hu, hv, huv⟩ | ⟨e, e', he, he', hee⟩
    · rw [hu, hv]
      exact .inl ⟨a, _, _, rfl, rfl, huv.atDepth s.depth⟩
    · rw [he, he']
      exact .inr ⟨e, e', rfl, rfl, hee⟩

/-! ## Choice -/

/-- One more error keeps two collections of errors in their order. Under `first` the collection of
the second attempt stays what it is, under `furthest` that of the first attempt only moves on. -/
theorem notFurther_blame {g g' : Option ParseError} {e e' : ParseError} (h : s.Beside x t)
    (hg : Option.Rel (NotFurther x) g g') (he : NotFurther x e e') :
    NotFurther x (blame s.settings.failureSelection g e)
      (blame t.settings.failureSelection g' e') := by
  rw [h.selection]
  cases hg with
  | none => exact he
  | @some g g' hgg =>
    intro hx
    subst hx
    have hle := hgg rfl
    cases s.settings.failureSelection with
    | first => exact hle
    | furthest =>
      show g'.index ≤ (g.join e).index
      rw [ParseError.index_join]
      omega

/-- The same match is the longer one of both attempts. -/
theorem longer {best best' : Option (α × Input)} {a : α} {u v : Input}
    (hbest : Option.Rel (fun m n => m.1 = n.1 ∧ m.2.Beside x n.2) best best') (h : u.Beside x v) :
    (longer best (a, u)).1 = (longer best' (a, v)).1 ∧
      (longer best (a, u)).2.Beside x (longer best' (a, v)).2 := by
  cases hbest with
  | none => exact ⟨rfl, h⟩
  | @some m n hmn =>
    unfold Parser.longer
    dsimp only
    rw [hmn.2.position, h.position]
    by_cases hlt : m.2.position < u.position
    · rw [if_pos hlt, if_pos hlt]
      exact ⟨rfl, h⟩
    · rw [if_neg hlt, if_neg hlt]
      exact hmn

theorem choiceFrom {ps : List (Parser α)} (hps : ∀ p ∈ ps, Impartial x p) (h : s.Beside x t)
    {g g' : Option ParseError} {best best' : Option (α × Input)}
    (hg : Option.Rel (NotFurther x) g g')
    (hbest : Option.Rel (fun m n => m.1 = n.1 ∧ m.2.Beside x n.2) best best') :
    Agree (Input.Beside x) (NotFurther x) (choiceFrom s g best ps) (choiceFrom t g' best' ps) := by
  induction ps generalizing g g' best best' with
  | nil =>
    unfold Parser.choiceFrom
    cases hbest with
    | @some m n hmn =>
      obtain ⟨a, u⟩ := m
      obtain ⟨b, v⟩ := n
      obtain ⟨rfl, huv⟩ := hmn
      exact .inl ⟨a, _, _, rfl, rfl, huv.record? g g'⟩
    | none =>
      refine .inr ⟨_, _, rfl, rfl, ?_⟩
      cases hg with
      | some hgg => exact hgg
      | none => exact of_report h rfl rfl
  | cons p ps ih =>
    obtain ⟨hp, hps⟩ := List.forall_mem_cons.1 hps
    unfold Parser.choiceFrom
    rcases hp s t h with ⟨a, u, v, hu, hv, huv⟩ | ⟨e, e', he, he', hee⟩
    · rw [hu, hv, h.tieBreak]
      dsimp only
      cases s.settings.tieBreak with
      | firstMatch => exact .inl ⟨a, _, _, rfl, rfl, huv.record? g g'⟩
      | longestParse => exact ih hps hg (.some (longer hbest huv))
    · rw [he, he']
      exact ih hps (.some (notFurther_blame h hg hee)) hbest

theorem choice {ps : List (Parser α)} (hps : ∀ p ∈ ps, Impartial x p) :
    Impartial x (choice ps) := fun _ _ h => choiceFrom hps h .none .none

/-! ## Repetition -/

theorem atLeast (hp : Impartial x p) (min : Nat) : Impartial x (atLeast min p) := by
  intro s t h
  have hrecord (u v : Input) (e f : ParseError) (huv : u.Beside x v) :
      (u.record e).Beside x (v.record f) := huv.record? (some e) (some f)
  exact .atLeast (fun _ _ huv => huv.left) hp (fun u v e f huv _ _ => hrecord u v e f huv)
    (fun _ _ huv => huv) min h

theorem extendFrom {f : α → Parser (Option α)} (hf : ∀ a, Impartial x (f a)) (a : α) :
    Impartial x (extendFrom f a) := by
  intro s t h
  exact .extendFrom (fun _ _ huv => huv.left) hf a h

end Impartial

end Parser

section

variable {α : Type} {x : FailureSelection}

/-- Rules do the same beside each other as soon as the phrases do that they refer to. -/
theorem Rule.impartial_run {parse : (p : Phrase) → Parser p.Value}
    (hparse : ∀ p, Parser.Impartial x (parse p)) (r : Rule α) :
    Parser.Impartial x (r.run parse) := by
  induction r with
  | pure a => exact .pure a
  | bind _ _ ihr ihf => exact ihr.bind ihf
  | token k => exact .token k
  | any => exact .any
  | eoi => exact .eoi
  | lookahead k => exact .lookahead k
  | here => exact .here
  | fail cause => exact .fail cause
  | expect y => exact .expect y
  | refine _ _ ih => exact ih.refine
  | named _ _ ih => exact ih.named
  | oneOf n rs ih =>
    refine Parser.Impartial.choice fun p hp => ?_
    obtain ⟨i, rfl⟩ := List.mem_ofFn.1 hp
    exact ih i
  | nest _ ih => exact ih.nest
  | atLeast min _ ih => exact ih.atLeast min
  | extend _ _ ihr ihf => exact ihr.bind (Parser.Impartial.extendFrom ihf)
  | call p => exact hparse p

theorem Phrase.impartial_parseWithin (n : Nat) (p : Phrase) :
    Parser.Impartial x (p.parseWithin n) := by
  induction n generalizing p with
  | zero => exact .fail _
  | succ n ih => exact p.rule.impartial_run ih

theorem Phrase.impartial_parse (p : Phrase) : Parser.Impartial x p.parse := by
  intro s t h
  have hsteps : t.steps = s.steps := by rw [Input.steps, Input.steps, h.left]
  unfold Phrase.parse
  rw [hsteps]
  exact p.impartial_parseWithin s.steps s t h

/-- Every rule of the language does the same beside each other. -/
theorem Rule.impartial_parse (r : Rule α) : Parser.Impartial x r.parse :=
  r.impartial_run Phrase.impartial_parse

end

open Descent.Parser

/-! ## What is recorded, and what is selected -/

/-- What error is recorded on an input decides nothing: with any other one, or with none, a rule
matches or fails alike, and it matches with the same value, at the same place and depth. -/
theorem Rule.parse_recorded {α : Type} (r : Rule α) (s : Input) (o : Option ParseError) :
    (∃ a t u, r.parse s = .ok (a, t) ∧ r.parse { s with furthest := o } = .ok (a, u) ∧
      u.position = t.position ∧ u.depth = t.depth) ∨
    ∃ e f, r.parse s = .error e ∧ r.parse { s with furthest := o } = .error f := by
  have hbeside : s.Beside s.settings.failureSelection { s with furthest := o } :=
    ⟨rfl, rfl, rfl, rfl⟩
  rcases r.impartial_parse s _ hbeside with ⟨a, t, u, ht, hu, htu⟩ | ⟨e, f, he, hf, -⟩
  · exact .inl ⟨a, t, u, ht, hu, htu.position, htu.depth⟩
  · exact .inr ⟨e, f, he, hf⟩

/-- The input, with these errors selected. -/
def Input.selecting (x : FailureSelection) (s : Input) : Input :=
  { s with settings := { s.settings with failureSelection := x } }

/-- The settings, with these errors selected. -/
def Settings.selecting (x : FailureSelection) (s : Settings) : Settings :=
  { s with failureSelection := x }

theorem Input.beside_selecting (x y : FailureSelection) (s : Input) :
    (s.selecting x).Beside y (s.selecting y) := ⟨rfl, rfl, rfl, rfl⟩

/-- Which errors are selected makes no difference to what a rule reads off a text. -/
theorem Rule.parseText_selecting {α : Type} (r : Rule α) {settings : Settings} {text : List Char}
    {a : α} (x y : FailureSelection) (h : r.parseText (settings.selecting x) text = .ok a) :
    r.parseText (settings.selecting y) text = .ok a := by
  obtain ⟨tokens, htokens, t, ht⟩ := parseText_eq_ok.1 h
  have hbeside := Input.beside_selecting x y (.ofTokens settings tokens)
  obtain ⟨u, hu, -⟩ := (r.impartial_parse _ _ hbeside).ok ht
  exact parseText_eq_ok.2 ⟨tokens, htokens, u, hu⟩

/-- Which errors are selected decides only what is reported: with the furthest and with the first
ones, a rule matches or fails alike, and it matches with the same value, at the same place and
depth. The furthest error is no less far on than the first, which is not before the place where the
rule began. So a text is the same program and the same expression with either. -/
theorem Rule.parse_selecting :
    (∀ {α : Type} (r : Rule α) (s : Input),
      (∃ a t u, r.parse (s.selecting .furthest) = .ok (a, t) ∧
        r.parse (s.selecting .first) = .ok (a, u) ∧
        u.position = t.position ∧ u.depth = t.depth) ∨
      ∃ e f, r.parse (s.selecting .furthest) = .error e ∧
        r.parse (s.selecting .first) = .error f ∧
        f.index ≤ e.index ∧ s.position ≤ f.index) ∧
    ∀ (settings : Settings) (text : List Char),
      (∀ a, Program.parse (settings.selecting .furthest) text = .ok a ↔
        Program.parse (settings.selecting .first) text = .ok a) ∧
      ∀ a, Expr.parse (settings.selecting .furthest) text = .ok a ↔
        Expr.parse (settings.selecting .first) text = .ok a := by
  refine ⟨fun r s => ?_, fun settings text => ⟨fun a => ?_, fun a => ?_⟩⟩
  · have hbeside := s.beside_selecting .furthest .first
    rcases r.impartial_parse _ _ hbeside with ⟨a, t, u, ht, hu, htu⟩ | ⟨e, f, he, hf, hef⟩
    · exact .inl ⟨a, t, u, ht, hu, htu.position, htu.depth⟩
    · have hlasting : ParseError.Lasting fun _ => True :=
        ⟨fun _ _ _ => trivial, fun _ _ _ => trivial, fun _ _ _ => trivial⟩
      exact .inr ⟨e, f, he, hf, hef rfl, (r.steady_parse hlasting).onward (s.selecting .first) f hf⟩
  · exact ⟨parseText_selecting _ .furthest .first, parseText_selecting _ .first .furthest⟩
  · exact ⟨parseText_selecting _ .furthest .first, parseText_selecting _ .first .furthest⟩

end Descent
