import Descent.Proofs.Parser.Predictive

/-!
# Parsing comes to an end

`Phrase.parse` bounds how deep phrases may be nested, and the repetitions stop when nothing is read,
so that they are functions at all. `Rule.Returns` says what the rules do without such bounds: a
phrase is read by running its rule, and a value is extended until there is no extension. A run is a
finite tree, so what returns does so after finitely many steps.

Main statement: on every input, under any settings, every phrase and a program return, with one
outcome, that of the parser with the bounds (`Grammar.parse_terminates`). Phrases read at least one
token, and so do operators with their operands and calls, so every loop moves forward.
-/

namespace Descent

variable {α β : Type}

/-- The parser that has this outcome on any input. -/
def Parser.fixed (o : Except ParseError (α × Input)) : Parser α := fun _ => o

namespace Rule

/-- A run of the rule on the input comes to an end with this outcome. Of the branches of a choice,
all are tried, or where the first match counts, those up to the first one that does not fail. -/
inductive Returns : {α : Type} → Rule α → Input → Except ParseError (α × Input) → Prop where
  | pure {α : Type} (a : α) (s : Input) : Returns (.pure a) s (Parser.pure a s)
  | token (k : Token.Kind) (s : Input) : Returns (.token k) s (Parser.token k s)
  | any (s : Input) : Returns .any s (Parser.any s)
  | eoi (s : Input) : Returns .eoi s (Parser.eoi s)
  | lookahead (k : Nat) (s : Input) : Returns (.lookahead k) s (Parser.lookahead k s)
  | here (s : Input) : Returns .here s (Parser.here s)
  | fail {α : Type} (cause : ParseError.Cause) (s : Input) :
      @Returns α (.fail cause) s (Parser.fail cause s)
  | expect {α : Type} (x : Expectation) (s : Input) :
      @Returns α (.expect x) s (Parser.expect x s)
  | bindError {α β : Type} {r : Rule α} {f : α → Rule β} {s : Input} {e : ParseError} :
      Returns r s (.error e) → Returns (.bind r f) s (.error e)
  | bind {α β : Type} {r : Rule α} {f : α → Rule β} {s t : Input} {a : α}
      {o : Except ParseError (β × Input)} :
      Returns r s (.ok (a, t)) → Returns (f a) t o → Returns (.bind r f) s o
  | refine {α β : Type} {f : α → Except ParseError.Cause β} {r : Rule α} {s : Input}
      {o : Except ParseError (α × Input)} :
      Returns r s o → Returns (.refine f r) s (Parser.refine f (.fixed o) s)
  | named {α : Type} {name : String} {r : Rule α} {s : Input} {o : Except ParseError (α × Input)} :
      Returns r s o → Returns (.named name r) s (Parser.named name (.fixed o) s)
  | oneOf {α : Type} {n : Nat} {rs : Fin n → Rule α} {s : Input}
      {os : Fin n → Except ParseError (α × Input)} :
      (∀ i, (s.settings.tieBreak = .firstMatch → ∀ j < i, ∃ e, os j = .error e) →
        Returns (rs i) s (os i)) →
      Returns (.oneOf n rs) s (Parser.choice (List.ofFn fun i => .fixed (os i)) s)
  | tooDeep {α : Type} {r : Rule α} {s : Input} {e : ParseError} :
      s.descend = .error e → Returns (.nest r) s (.error e)
  | nest {α : Type} {r : Rule α} {s inner : Input} {o : Except ParseError (α × Input)} :
      s.descend = .ok inner → Returns r inner o →
      Returns (.nest r) s (Parser.nest (.fixed o) s)
  | stop {α : Type} {min : Nat} {r : Rule α} {s : Input} {e : ParseError} :
      Returns r s (.error e) →
      Returns (.atLeast min r) s (if min = 0 then .ok ([], s.record e) else .error e)
  | last {α : Type} {min : Nat} {r : Rule α} {s t : Input} {a : α} :
      Returns r s (.ok (a, t)) → ¬s.position < t.position →
      Returns (.atLeast min r) s (.ok ([a], t))
  | again {α : Type} {min : Nat} {r : Rule α} {s t : Input} {a : α}
      {o : Except ParseError (List α × Input)} :
      Returns r s (.ok (a, t)) → s.position < t.position → Returns (.atLeast (min - 1) r) t o →
      Returns (.atLeast min r) s (o.map fun m => (a :: m.1, m.2))
  | extendError {α : Type} {r : Rule α} {f : α → Rule (Option α)} {s : Input} {e : ParseError} :
      Returns r s (.error e) → Returns (.extend r f) s (.error e)
  | broken {α : Type} {r : Rule α} {f : α → Rule (Option α)} {s t : Input} {a : α}
      {e : ParseError} :
      Returns r s (.ok (a, t)) → Returns (f a) t (.error e) → Returns (.extend r f) s (.error e)
  | done {α : Type} {r : Rule α} {f : α → Rule (Option α)} {s t u : Input} {a : α} :
      Returns r s (.ok (a, t)) → Returns (f a) t (.ok (none, u)) →
      Returns (.extend r f) s (.ok (a, u))
  | more {α : Type} {r : Rule α} {f : α → Rule (Option α)} {s t u : Input} {a b : α}
      {o : Except ParseError (α × Input)} :
      Returns r s (.ok (a, t)) → Returns (f a) t (.ok (some b, u)) →
      Returns (.extend (.pure b) f) u o → Returns (.extend r f) s o
  | call {p : Phrase} {s : Input} {o : Except ParseError (p.Value × Input)} :
      Returns p.rule s o → Returns (.call p) s o

end Rule

/-! ## What returns is what the parser returns -/

namespace Parser

variable {s : Input}

/-- Branches that agree where they are tried make the same choice. -/
theorem choiceFrom_congr_of_tried {ps qs : List (Parser α)} {f : Option ParseError}
    {best : Option (α × Input)} (hlength : ps.length = qs.length)
    (h : ∀ i, (hp : i < ps.length) → (hq : i < qs.length) →
      (s.settings.tieBreak = .firstMatch → ∀ j, (hj : j < i) → ∃ e, qs[j] s = .error e) →
      ps[i] s = qs[i] s) : choiceFrom s f best ps = choiceFrom s f best qs := by
  induction ps generalizing qs f best with
  | nil =>
    obtain rfl := List.length_eq_zero_iff.1 hlength.symm
    rfl
  | cons p ps ih =>
    obtain ⟨q, qs, rfl⟩ := List.exists_cons_of_length_eq_add_one hlength.symm
    have hhead : p s = q s :=
      h 0 (Nat.succ_pos _) (Nat.succ_pos _) fun _ j hj => absurd hj (Nat.not_lt_zero j)
    have htail (hq : s.settings.tieBreak = .firstMatch → ∃ e, q s = .error e) :
        ∀ i, (hp : i < ps.length) → (hqi : i < qs.length) →
          (s.settings.tieBreak = .firstMatch → ∀ j, (hj : j < i) → ∃ e, qs[j] s = .error e) →
          ps[i] s = qs[i] s := fun i hp hqi before =>
      h (i + 1) (Nat.succ_lt_succ hp) (Nat.succ_lt_succ hqi) fun ht j hj => match j with
        | 0 => hq ht
        | j + 1 => before ht j (Nat.lt_of_succ_lt_succ hj)
    simp only [choiceFrom]
    rw [hhead]
    cases hq : q s with
    | error e => exact ih (Nat.succ.inj hlength) (htail fun _ => ⟨e, hq⟩)
    | ok m =>
      cases ht : s.settings.tieBreak with
      | firstMatch => rfl
      | longestParse => exact ih (Nat.succ.inj hlength) (htail fun h => by rw [ht] at h; cases h)

end Parser

theorem Input.Passes.left_lt_iff {s t : Input} {ts : List Token} (h : s.Passes ts t) :
    t.left < s.left ↔ s.position < t.position := by
  have := h.left
  have := h.position
  omega

theorem Parser.Forward.left_lt_iff {p : Parser α} {s t : Input} {a : α} (hp : p.Forward)
    (h : p s = .ok (a, t)) : t.left < s.left ↔ s.position < t.position := by
  obtain ⟨ts, hts⟩ := hp s a t h
  exact hts.left_lt_iff

namespace Rule

variable {r : Rule α} {s : Input} {o : Except ParseError (α × Input)}

/-- A predictive rule returns nothing else than the parser does. -/
theorem Returns.parse_eq (h : r.Returns s o) (hr : r.Predictive) : r.parse s = o := by
  induction h with
  | pure | token | any | eoi | lookahead | here | fail | expect => rfl
  | @bindError α β r f s e h ih => exact Parser.bind_eq_error.2 (.inl (ih hr.1))
  | @bind α β r f s t a o h hf ih ihf => exact (Parser.bind_of_ok (ih hr.1)).trans (ihf (hr.2 a))
  | @refine α β f r s o h ih => exact Parser.refine_congr (ih hr.predictive)
  | @named α name r s o h ih => exact Parser.named_congr (ih hr)
  | @oneOf α n rs s os h ih =>
    apply Parser.choiceFrom_congr_of_tried (by rw [List.length_ofFn, List.length_ofFn])
    intro i hi hi' before
    rw [List.length_ofFn] at hi
    simp only [List.getElem_ofFn] at before ⊢
    exact ih ⟨i, hi⟩ (fun ht j hj => before ht j hj) (hr.1 _)
  | @tooDeep α r s e h => exact Parser.nest_eq_error.2 (.inl h)
  | @nest α r s inner o hi h ih =>
    refine Parser.nest_congr fun inner' hi' => ?_
    cases hi.symm.trans hi'
    exact ih hr
  | @stop α min r s e h ih => exact Parser.atLeast_of_error (ih hr)
  | @last α min r s t a h hlt ih =>
    have hok := ih hr
    rw [← r.forward_parse.left_lt_iff hok] at hlt
    show Parser.atLeast min r.parse s = _
    rw [Parser.atLeast, hok]
    exact if_neg hlt
  | @again α min r s t a o h hlt hrest ih ihrest =>
    have hok := ih hr
    have hrest' : Parser.atLeast (min - 1) r.parse t = o := ihrest hr
    rw [← r.forward_parse.left_lt_iff hok] at hlt
    show Parser.atLeast min r.parse s = _
    rw [Parser.atLeast_of_ok hok hlt, hrest']
    cases o <;> rfl
  | @extendError α r f s e h ih => exact Parser.bind_eq_error.2 (.inl (ih hr.1))
  | @broken α r f s t a e h hf ih ihf =>
    refine (Parser.bind_of_ok (ih hr.1)).trans ?_
    rw [Parser.extendFrom, show (f a).run Phrase.parse t = _ from ihf (hr.2 a).1]
  | @done α r f s t u a h hf ih ihf =>
    exact (Parser.bind_of_ok (ih hr.1)).trans (Parser.extendFrom_of_none (ihf (hr.2 a).1))
  | @more α r f s t u a b o h hf hrest ih ihf ihrest =>
    have hmore := ihf (hr.2 a).1
    have hlt := (hr.2 a).2 t b u hmore
    refine (Parser.bind_of_ok (ih hr.1)).trans ?_
    rw [Parser.extendFrom_of_some hmore hlt]
    exact ihrest ⟨trivial, hr.2⟩
  | @call p s o h ih => exact (p.parse_eq s).trans (ih p.predictive_rule)

/-! ## Rules return -/

/-- The rule returns what the parser does. -/
def ReturnsAt (r : Rule α) (s : Input) : Prop := r.Returns s (r.parse s)

namespace ReturnsAt

theorem bind {f : α → Rule β} (h : r.ReturnsAt s)
    (hf : ∀ a t, r.parse s = .ok (a, t) → (f a).ReturnsAt t) : (Rule.bind r f).ReturnsAt s := by
  unfold ReturnsAt at h
  cases hr : r.parse s with
  | error e =>
    have hparse : (Rule.bind r f).parse s = .error e := Parser.bind_eq_error.2 (.inl hr)
    rw [ReturnsAt, hparse]
    exact .bindError (hr ▸ h)
  | ok m =>
    obtain ⟨a, t⟩ := m
    have hparse : (Rule.bind r f).parse s = (f a).parse t := Parser.bind_of_ok hr
    rw [ReturnsAt, hparse]
    exact .bind (hr ▸ h) (hf a t hr)

theorem refine {f : α → Except ParseError.Cause β} (h : r.ReturnsAt s) :
    (Rule.refine f r).ReturnsAt s := by
  have hparse : (Rule.refine f r).parse s = Parser.refine f (.fixed (r.parse s)) s :=
    Parser.refine_congr rfl
  rw [ReturnsAt, hparse]
  exact .refine h

theorem named {name : String} (h : r.ReturnsAt s) : (Rule.named name r).ReturnsAt s := by
  have hparse : (Rule.named name r).parse s = Parser.named name (.fixed (r.parse s)) s :=
    Parser.named_congr rfl
  rw [ReturnsAt, hparse]
  exact .named h

theorem oneOf {n : Nat} {rs : Fin n → Rule α} (h : ∀ i, (rs i).ReturnsAt s) :
    (Rule.oneOf n rs).ReturnsAt s := by
  have hparse : (Rule.oneOf n rs).parse s =
      Parser.choice (List.ofFn fun i => .fixed ((rs i).parse s)) s := by
    refine Parser.choiceFrom_congr ?_
    rw [List.map_ofFn, List.map_ofFn]
    rfl
  rw [ReturnsAt, hparse]
  exact .oneOf fun i _ => h i

theorem nest (h : ∀ inner, s.descend = .ok inner → r.ReturnsAt inner) :
    (Rule.nest r).ReturnsAt s := by
  cases hi : s.descend with
  | error e =>
    have hparse : (Rule.nest r).parse s = .error e := Parser.nest_eq_error.2 (.inl hi)
    rw [ReturnsAt, hparse]
    exact .tooDeep hi
  | ok inner =>
    have hparse : (Rule.nest r).parse s = Parser.nest (.fixed (r.parse inner)) s := by
      refine Parser.nest_congr fun inner' hi' => ?_
      cases hi.symm.trans hi'
      rfl
    rw [ReturnsAt, hparse]
    exact .nest hi (h inner hi)

theorem atLeast {s : Input} {min : Nat} (h : ∀ t : Input, t.left ≤ s.left → r.ReturnsAt t) :
    (Rule.atLeast min r).ReturnsAt s := by
  have honce := h s (Nat.le_refl _)
  unfold ReturnsAt at honce
  cases hr : r.parse s with
  | error e =>
    have hparse : (Rule.atLeast min r).parse s =
        if min = 0 then .ok ([], s.record e) else .error e := Parser.atLeast_of_error hr
    rw [ReturnsAt, hparse]
    exact .stop (hr ▸ honce)
  | ok m =>
    obtain ⟨a, t⟩ := m
    have hiff := r.forward_parse.left_lt_iff hr
    rw [hr] at honce
    by_cases hlt : t.left < s.left
    · have hrest : (Rule.atLeast (min - 1) r).ReturnsAt t := atLeast fun u hu => h u (by omega)
      have hparse : (Rule.atLeast min r).parse s =
          ((Rule.atLeast (min - 1) r).parse t).map fun m => (a :: m.1, m.2) := by
        refine (Parser.atLeast_of_ok hr hlt).trans ?_
        show _ = (Parser.atLeast (min - 1) r.parse t).map _
        cases Parser.atLeast (min - 1) r.parse t <;> rfl
      rw [ReturnsAt, hparse]
      exact .again honce (hiff.1 hlt) hrest
    · have hparse : (Rule.atLeast min r).parse s = .ok ([a], t) := by
        show Parser.atLeast min r.parse s = _
        rw [Parser.atLeast, hr]
        exact if_neg hlt
      rw [ReturnsAt, hparse]
      exact .last honce (mt hiff.2 hlt)
termination_by s.left

/-- Since every extension reads something, it does not go on for ever. -/
theorem extend {r : Rule α} {f : α → Rule (Option α)} {s : Input} (h : r.ReturnsAt s)
    (hf : ∀ a (t : Input), t.left ≤ s.left → (f a).ReturnsAt t) (hreads : ∀ a, (f a).Reads) :
    (Rule.extend r f).ReturnsAt s := by
  unfold ReturnsAt at h
  cases hr : r.parse s with
  | error e =>
    have hparse : (Rule.extend r f).parse s = .error e := Parser.bind_eq_error.2 (.inl hr)
    rw [ReturnsAt, hparse]
    exact .extendError (hr ▸ h)
  | ok m =>
    obtain ⟨a, t⟩ := m
    have hle : t.left ≤ s.left := r.forward_parse.left_le hr
    have hmore := hf a t hle
    have hparse : (Rule.extend r f).parse s =
        Parser.extendFrom (fun a => (f a).parse) a t := Parser.bind_of_ok hr
    unfold ReturnsAt at hmore ⊢
    rw [hr] at h
    rw [hparse]
    cases ha : (f a).parse t with
    | error e =>
      rw [ha] at hmore
      rw [Parser.extendFrom, ha]
      exact .broken h hmore
    | ok m =>
      obtain ⟨_ | b, u⟩ := m
      · rw [ha] at hmore
        rw [Parser.extendFrom_of_none ha]
        exact .done h hmore
      · have hlt := hreads a t b u ha
        rw [ha] at hmore
        rw [Parser.extendFrom_of_some ha hlt]
        -- What is left to do is an extension of `b`, from where fewer tokens are left.
        have hpure : (Rule.pure b).ReturnsAt u := .pure b u
        have hrest : (Rule.extend (.pure b) f).ReturnsAt u :=
          extend hpure (fun c v hv => hf c v (by omega)) hreads
        exact .more h hmore hrest
termination_by s.left

end ReturnsAt

/-- A predictive rule returns as soon as the phrases do that it reads. -/
theorem Predictive.returnsAt {C : Phrase → Input → Prop} (hC : ∀ p s, C p s → (call p).ReturnsAt s)
    (hr : r.Predictive) : ∀ s : Input, r.CallsOnly Phrase.parse C s → r.ReturnsAt s := by
  induction r with
  | pure a => exact fun s _ => .pure a s
  | bind r f ihr ihf =>
    exact fun s hs => (ihr hr.1 s hs.1).bind fun a t ht => ihf a (hr.2 a) t (hs.2 a t ht)
  | token k => exact fun s _ => .token k s
  | any => exact fun s _ => .any s
  | eoi => exact fun s _ => .eoi s
  | lookahead k => exact fun s _ => .lookahead k s
  | here => exact fun s _ => .here s
  | fail cause => exact fun s _ => .fail cause s
  | expect x => exact fun s _ => .expect x s
  | refine f r ih => exact fun s hs => (ih hr.predictive s hs).refine
  | named name r ih => exact fun s hs => (ih hr s hs).named
  | oneOf n rs ih => exact fun s hs => .oneOf fun i => ih i (hr.1 i) s (hs i)
  | nest r ih => exact fun s hs => .nest fun inner hi => ih hr inner (hs inner hi)
  | atLeast min r ih => exact fun s hs => .atLeast fun t ht => ih hr t (hs t ht)
  | extend r f ihr ihf =>
    exact fun s hs => .extend (ihr hr.1 s hs.1) (fun a t ht => ihf a (hr.2 a).1 t (hs.2 a t ht))
      fun a => (hr.2 a).2
  | call p => exact hC p

end Rule

/-- Phrases return: where they read other phrases, less is left or those are simpler. -/
theorem Phrase.returnsAt (p : Phrase) (s : Input) : (Rule.call p).ReturnsAt s := by
  have hrule : p.rule.ReturnsAt s :=
    p.predictive_rule.returnsAt (fun q t (_ : q.measure t < p.measure s) => returnsAt q t) s
      (p.rule_callsOnly Phrase.forward_parse s)
  have hparse : p.parse s = p.rule.parse s := p.parse_eq s
  show (Rule.call p).Returns s (p.parse s)
  rw [hparse]
  exact .call hrule
termination_by p.measure s

/-- A predictive rule returns on every input, and with one outcome, that of the parser. -/
theorem Rule.Predictive.returns_iff {r : Rule α} (hr : r.Predictive) {s : Input}
    {o : Except ParseError (α × Input)} : r.Returns s o ↔ r.parse s = o := by
  have hcalls : r.CallsOnly Phrase.parse (fun _ _ => True) s :=
    r.callsOnly_of_lt Phrase.forward_parse (fun _ _ _ => trivial) s (Nat.lt_succ_self s.left)
  refine ⟨fun h => h.parse_eq hr, ?_⟩
  rintro rfl
  exact hr.returnsAt (fun p t _ => p.returnsAt t) s hcalls

/-! ## Loops move forward -/

theorem Rule.Reads.position_lt {r : Rule (Option α)} (hr : r.Reads) {s t : Input} {b : α}
    (h : r.parse s = .ok (some b, t)) : s.position < t.position :=
  (r.forward_parse.left_lt_iff h).1 (hr s b t h)

namespace Grammar

open Rule

/-- Phrases are not empty. -/
theorem parse_left_lt {p : Phrase} {s t : Input} {a : p.Value} (h : p.parse s = .ok (a, t)) :
    t.left < s.left := by
  cases p with
  | expression => exact (begins_expression.ok s a t h).2
  | unary => exact ((Begins.of_rule (p := .unary) begins_unary).ok s a t h).2
  | statement => exact (begins_statement.ok s a t h).2
  | block =>
    have hblock : block.Begins (· = .openBrace) := .nest (.bind (.token nofun))
    exact ((Begins.of_rule (p := .block) hblock).ok s a t h).2

/-- Parsing comes to an end on any tokens, at any place and under any settings. A phrase and a
program return, with one outcome, although nothing but the tokens themselves keeps rules from
referring to one another and from being repeated without end. A phrase that is read takes at least
one token, and no more than there are before the end; so each statement of a block or program leads
forward, and so does each operator with its operand and each call. -/
theorem parse_terminates (s : Input) :
    (∀ (p : Phrase) o, (call p).Returns s o ↔ p.parse s = o) ∧
    (∀ o, program.Returns s o ↔ program.parse s = o) ∧
    (∀ (p : Phrase) a t, p.parse s = .ok (a, t) →
      s.position < t.position ∧ t.position ≤ s.tape.tokens.size) ∧
    (∀ op? ∈ [productOp?, sumOp?, comparisonOp?, equationOp?], ∀ operand left right t,
      (operationOf op? operand left).parse s = .ok (some right, t) → s.position < t.position) ∧
    ∀ callee e t, (callOf callee).parse s = .ok (some e, t) → s.position < t.position := by
  refine ⟨fun p o => ?_, fun o => predictive_program.returns_iff, fun p a t h => ?_,
    fun op? hop operand left right t h => ?_, fun callee e t h => (reads_callOf callee).position_lt h⟩
  · exact Predictive.returns_iff (r := call p) trivial
  · obtain ⟨ts, hts⟩ := p.forward_parse s a t h
    refine ⟨hts.position_lt (parse_left_lt h), ?_⟩
    rw [← hts.tape]
    exact t.position_le
  · have hend : op? .eof = none := by
      simp only [List.mem_cons, List.not_mem_nil, or_false] at hop
      rcases hop with rfl | rfl | rfl | rfl <;> rfl
    exact (reads_operationOf hend left).position_lt h

end Grammar

end Descent
