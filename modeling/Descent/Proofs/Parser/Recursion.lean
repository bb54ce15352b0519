import Descent.Parse
import Descent.Proofs.Parser.Forward

/-!
# Reading a phrase is running its rule

`Phrase.parse` reads phrases nested only so deep in one another. This is no restriction: whenever
the rule for a phrase refers to another phrase, a token has been read before, or the other phrase is
simpler. So what is left at each reference goes down, and the equation that the grammar suggests
holds: a phrase is read by running its rule, with the same reading for the phrases in it
(`Phrase.parse_eq`). What is proved about the parser rests on this equation alone.

`Rule.CallsOnly` says at which inputs the run of a rule refers to which phrases. Two ways to read
phrases that agree there give the rule the same outcome (`Rule.run_congr`).
-/

namespace Descent

namespace Parser

variable {α β : Type} {p q : Parser α} {s : Input}

/-! ## Parsers that agree where they are run -/

theorem bind_congr {f g : α → Parser β} (h : p s = q s)
    (hf : ∀ a t, p s = .ok (a, t) → f a t = g a t) : Parser.bind p f s = Parser.bind q g s := by
  unfold Parser.bind
  rw [← h]
  cases hp : p s with
  | error e => rfl
  | ok r => exact hf r.1 r.2 hp

theorem refine_congr {f : α → Except ParseError.Cause β} (h : p s = q s) :
    refine f p s = refine f q s := by
  unfold refine
  rw [h]

theorem named_congr {name : String} (h : p s = q s) : named name p s = named name q s := by
  unfold named
  rw [h]

theorem nest_congr (h : ∀ inner, s.descend = .ok inner → p inner = q inner) :
    nest p s = nest q s := by
  unfold nest
  cases hi : s.descend with
  | error e => rfl
  | ok inner => simp only [h inner hi]

theorem choiceFrom_congr {ps qs : List (Parser α)} {f : Option ParseError}
    {best : Option (α × Input)} (h : (ps.map fun p => p s) = qs.map fun q => q s) :
    choiceFrom s f best ps = choiceFrom s f best qs := by
  induction ps generalizing qs f best with
  | nil =>
    cases qs with
    | nil => rfl
    | cons q qs => cases h
  | cons p ps ih =>
    cases qs with
    | nil => cases h
    | cons q qs =>
      rw [List.map_cons, List.map_cons, List.cons.injEq] at h
      obtain ⟨hp, hps⟩ := h
      simp only [choiceFrom]
      rw [hp]
      cases q s with
      | error e => exact ih hps
      | ok r =>
        cases s.settings.tieBreak with
        | firstMatch => rfl
        | longestParse => exact ih hps

theorem atLeast_congr {s : Input} {m min : Nat} (h : ∀ t : Input, t.left ≤ m → p t = q t)
    (hs : s.left ≤ m) : atLeast min p s = atLeast min q s := by
  have hp := h s hs
  unfold atLeast
  rw [← hp]
  cases hps : p s with
  | error e => rfl
  | ok r =>
    by_cases hlt : r.2.left < s.left
    · simp only [if_pos hlt]
      have ih : atLeast (min - 1) p r.2 = atLeast (min - 1) q r.2 := atLeast_congr h (by omega)
      simp only [ih]
    · simp only [if_neg hlt]
termination_by s.left

theorem extendFrom_congr {f g : α → Parser (Option α)} {s : Input} {a : α} {m : Nat}
    (h : ∀ a (t : Input), t.left ≤ m → f a t = g a t) (hs : s.left ≤ m) :
    extendFrom f a s = extendFrom g a s := by
  have hf := h a s hs
  unfold extendFrom
  rw [← hf]
  cases hfs : f a s with
  | error e => rfl
  | ok r =>
    obtain ⟨_ | b, t⟩ := r
    · rfl
    · by_cases hlt : t.left < s.left
      · simp only [if_pos hlt]
        exact extendFrom_congr h (by omega)
      · simp only [if_neg hlt]
termination_by s.left

end Parser

/-! ## The phrases that a rule reads -/

/-- Wherever the rule reads a phrase in its run from the input, `C` holds of the phrase and the
place. What is repeated is only known to start where no more tokens are left. -/
def Rule.CallsOnly (parse : (p : Phrase) → Parser p.Value) (C : Phrase → Input → Prop) :
    {α : Type} → Rule α → Input → Prop
  | _, .bind r f, s =>
    r.CallsOnly parse C s ∧ ∀ a t, r.run parse s = .ok (a, t) → (f a).CallsOnly parse C t
  | _, .refine _ r, s => r.CallsOnly parse C s
  | _, .named _ r, s => r.CallsOnly parse C s
  | _, .oneOf _ rs, s => ∀ i, (rs i).CallsOnly parse C s
  | _, .nest r, s => ∀ inner, s.descend = .ok inner → r.CallsOnly parse C inner
  | _, .atLeast _ r, s => ∀ t, t.left ≤ s.left → r.CallsOnly parse C t
  | _, .extend r f, s =>
    r.CallsOnly parse C s ∧ ∀ a t, t.left ≤ s.left → (f a).CallsOnly parse C t
  | _, .call p, s => C p s
  | _, _, _ => True

section Calls

variable {α β : Type} {parse parse' : (p : Phrase) → Parser p.Value} {C : Phrase → Input → Prop}
  {m : Nat}

theorem Input.left_of_descend {s inner : Input} (h : s.descend = .ok inner) :
    inner.left = s.left := by
  cases descend_eq_ok h
  rfl

/-- Two readings of phrases that agree on the phrases a rule reads make no difference to it. -/
theorem Rule.run_congr (hparse : ∀ p, (parse p).Forward)
    (h : ∀ p t, C p t → parse p t = parse' p t) (r : Rule α) :
    ∀ s : Input, r.CallsOnly parse C s → r.run parse s = r.run parse' s := by
  induction r with
  | bind r f ihr ihf =>
    intro s hs
    exact Parser.bind_congr (ihr s hs.1) fun a t ht => ihf a t (hs.2 a t ht)
  | refine f r ih => exact fun s hs => Parser.refine_congr (ih s hs)
  | named name r ih => exact fun s hs => Parser.named_congr (ih s hs)
  | oneOf n rs ih =>
    intro s hs
    refine Parser.choiceFrom_congr ?_
    rw [List.map_ofFn, List.map_ofFn]
    congr 1
    funext i
    exact ih i s (hs i)
  | nest r ih => exact fun s hs => Parser.nest_congr fun inner hi => ih inner (hs inner hi)
  | atLeast min r ih =>
    exact fun s hs => Parser.atLeast_congr (fun t ht => ih t (hs t ht)) (Nat.le_refl _)
  | extend r f ihr ihf =>
    intro s hs
    refine Parser.bind_congr (ihr s hs.1) fun a t ht => ?_
    have hle := (r.forward_run hparse).left_le ht
    exact Parser.extendFrom_congr (fun a u hu => ihf a u (hs.2 a u hu)) hle
  | call p => exact h p
  | _ => exact fun _ _ => rfl

/-- Where fewer than `m` tokens are left, any phrase may be read. -/
theorem Rule.callsOnly_of_lt (hparse : ∀ p, (parse p).Forward)
    (below : ∀ p (t : Input), t.left < m → C p t) (r : Rule α) :
    ∀ s : Input, s.left < m → r.CallsOnly parse C s := by
  induction r with
  | bind r f ihr ihf =>
    refine fun s hs => ⟨ihr s hs, fun a t ht => ihf a t ?_⟩
    have := (r.forward_run hparse).left_le ht
    omega
  | refine f r ih => exact fun s hs => ih s hs
  | named name r ih => exact fun s hs => ih s hs
  | oneOf n rs ih => exact fun s hs i => ih i s hs
  | nest r ih => exact fun s hs inner hi => ih inner (Input.left_of_descend hi ▸ hs)
  | atLeast min r ih => exact fun s hs t ht => ih t (Nat.lt_of_le_of_lt ht hs)
  | extend r f ihr ihf =>
    exact fun s hs => ⟨ihr s hs, fun a t ht => ihf a t (Nat.lt_of_le_of_lt ht hs)⟩
  | call p => exact below p
  | _ => exact fun _ _ => trivial

/-- Wherever `m` tokens or fewer are left, the rule reads phrases only where `C` holds. -/
def Rule.CallsFrom (parse : (p : Phrase) → Parser p.Value) (C : Phrase → Input → Prop) (m : Nat)
    (r : Rule α) : Prop := ∀ s : Input, s.left ≤ m → r.CallsOnly parse C s

namespace Rule.CallsFrom

theorem bind {r : Rule α} {f : α → Rule β} (hparse : ∀ p, (parse p).Forward)
    (hr : CallsFrom parse C m r) (hf : ∀ a, CallsFrom parse C m (f a)) :
    CallsFrom parse C m (r >>= f) := by
  refine fun s hs => ⟨hr s hs, fun a t ht => hf a t ?_⟩
  have := (r.forward_run hparse).left_le ht
  omega

/-- Behind a token, fewer tokens are left. -/
theorem token_bind {k : Token.Kind} {f : Token → Rule β} (hparse : ∀ p, (parse p).Forward)
    (below : ∀ p (t : Input), t.left < m → C p t) (hk : k ≠ .eof) :
    CallsFrom parse C m (Rule.token k >>= f) := by
  refine fun s hs => ⟨trivial, fun x t ht => callsOnly_of_lt hparse below (f x) t ?_⟩
  have := (Parser.token_ok ht hk).2.left_lt (List.cons_ne_nil x [])
  omega

theorem any_bind {f : Token → Rule β} {s : Input} (hparse : ∀ p, (parse p).Forward)
    (below : ∀ p (t : Input), t.left < m → C p t) (hs : s.left ≤ m) (hc : s.current.kind ≠ .eof) :
    (Rule.any >>= f).CallsOnly parse C s := by
  refine ⟨trivial, fun x t ht => callsOnly_of_lt hparse below (f x) t ?_⟩
  have := (Parser.any_ok hc ht).2.left_lt (List.cons_ne_nil x [])
  omega

theorem choice {rs : List (Rule α)} (h : ∀ r ∈ rs, CallsFrom parse C m r) :
    CallsFrom parse C m (Rule.choice rs) :=
  fun s hs i => h _ (List.getElem_mem i.isLt) s hs

theorem nest {r : Rule α} (h : CallsFrom parse C m r) : CallsFrom parse C m (nest r) :=
  fun _ hs inner hi => h inner (Input.left_of_descend hi ▸ hs)

theorem extend {r : Rule α} {f : α → Rule (Option α)} (hr : CallsFrom parse C m r)
    (hf : ∀ a, CallsFrom parse C m (f a)) : CallsFrom parse C m (extend r f) :=
  fun s hs => ⟨hr s hs, fun a t ht => hf a t (Nat.le_trans ht hs)⟩

end Rule.CallsFrom

/-! ## The rules of the grammar -/

namespace Grammar

open Rule

variable (hparse : ∀ p, (parse p).Forward)
  (below : ∀ p (t : Input), t.left < m → C p t)

include hparse below

theorem calls_group : group.CallsFrom parse C m := .nest (.token_bind hparse below nofun)

theorem calls_conditional : conditional.CallsFrom parse C m :=
  .token_bind hparse below nofun

theorem calls_function : function.CallsFrom parse C m := .token_bind hparse below nofun

theorem calls_boolean : boolean.CallsFrom parse C m := by
  refine .choice fun r hr => ?_
  simp only [List.mem_cons, List.not_mem_nil, or_false] at hr
  rcases hr with rfl | rfl
  · exact .token_bind hparse below nofun
  · exact .token_bind hparse below nofun

theorem calls_primary : primary.CallsFrom parse C m := by
  refine CallsFrom.choice fun r hr => ?_
  simp only [List.mem_cons, List.not_mem_nil, or_false] at hr
  rcases hr with rfl | rfl | rfl | rfl | rfl | rfl
  · exact fun _ _ => trivial
  · exact calls_boolean hparse below
  · exact .bind hparse (.token_bind hparse below nofun) fun _ _ _ => trivial
  · exact calls_group hparse below
  · exact calls_conditional hparse below
  · exact calls_function hparse below

theorem calls_callOf (e : Expr) : (callOf e).CallsFrom parse C m := by
  refine .bind hparse (fun _ _ => trivial) fun t => ?_
  by_cases ht : t.kind = .openParen
  · rw [if_pos ht]
    refine .bind hparse (.nest (.bind hparse (.token_bind hparse below nofun) fun _ => ?_))
      fun _ _ _ => trivial
    exact .token_bind hparse below nofun
  · rw [if_neg ht]
    exact fun _ _ => trivial

theorem calls_calls : calls.CallsFrom parse C m :=
  .extend (calls_primary hparse below) (calls_callOf hparse below)

theorem calls_unary : unary.CallsFrom parse C m := by
  refine fun s hs => ⟨trivial, fun t u hu => ?_⟩
  obtain ⟨-, rfl, rfl⟩ := Parser.lookahead_eq_ok.1 hu
  dsimp only
  cases ho : unaryOp? s.current.kind with
  | none => exact calls_calls hparse below s hs
  | some op =>
    refine CallsFrom.any_bind hparse below hs fun he => ?_
    rw [he] at ho
    cases ho

theorem calls_operations {op? : Token.Kind → Option BinaryOp} {r : Rule Expr}
    (hop : op? .eof = none) (hr : r.CallsFrom parse C m) :
    (operations op? r).CallsFrom parse C m := by
  refine .extend hr fun e s hs => ⟨trivial, fun t u hu => ?_⟩
  obtain ⟨-, rfl, rfl⟩ := Parser.lookahead_eq_ok.1 hu
  dsimp only
  cases ho : op? s.current.kind with
  | none => trivial
  | some op =>
    refine CallsFrom.any_bind hparse below hs fun he => ?_
    rw [he, hop] at ho
    cases ho

theorem calls_expression (hu : (call .unary).CallsFrom parse C m) :
    expression.CallsFrom parse C m := by
  have hproduct : product.CallsFrom parse C m := calls_operations hparse below rfl hu
  have hsum : sum.CallsFrom parse C m := calls_operations hparse below rfl hproduct
  have hcomparison : comparison.CallsFrom parse C m := calls_operations hparse below rfl hsum
  exact calls_operations hparse below rfl hcomparison

theorem calls_block : block.CallsFrom parse C m := .nest (.token_bind hparse below nofun)

theorem calls_statement (he : (call .expression).CallsFrom parse C m) :
    statement.CallsFrom parse C m := by
  refine .choice fun r hr => ?_
  simp only [List.mem_cons, List.not_mem_nil, or_false] at hr
  rcases hr with rfl | rfl | rfl
  · exact .token_bind hparse below nofun
  · exact .token_bind hparse below nofun
  · refine .bind hparse he fun _ => .bind hparse (.choice fun r hr => ?_) fun _ _ _ => trivial
    simp only [List.mem_cons, List.not_mem_nil, or_false] at hr
    rcases hr with rfl | rfl
    · exact .token_bind hparse below nofun
    · exact fun _ _ => trivial

end Grammar

end Calls

/-! ## The equation -/

namespace Phrase

/-- How many references may still lead to a simpler phrase before a token is read. -/
def rank : Phrase → Nat
  | unary | block => 0
  | expression => 1
  | statement => 2

/-- What goes down at each reference to a phrase. -/
def measure (p : Phrase) (s : Input) : Nat := 3 * s.left + p.rank

theorem measure_lt_steps (p : Phrase) (s : Input) : p.measure s < s.steps := by
  cases p <;> simp [measure, rank, Input.steps]

/-- The rule for a phrase refers to phrases only where the measure is less. -/
theorem rule_callsOnly {parse : (p : Phrase) → Parser p.Value} (hparse : ∀ p, (parse p).Forward)
    (p : Phrase) (s : Input) :
    p.rule.CallsOnly parse (fun q t => q.measure t < p.measure s) s := by
  have below (q : Phrase) (t : Input) (ht : t.left < s.left) : q.measure t < p.measure s := by
    have := q.measure_lt_steps t
    simp only [Input.steps, measure] at *
    omega
  have same {q : Phrase} (hq : q.rank < p.rank) :
      (Rule.call q).CallsFrom parse (fun q t => q.measure t < p.measure s) s.left := by
    intro t ht
    show q.measure t < p.measure s
    simp only [measure]
    omega
  cases p with
  | unary => exact Grammar.calls_unary hparse below s (Nat.le_refl _)
  | block => exact Grammar.calls_block hparse below s (Nat.le_refl _)
  | expression =>
    exact Grammar.calls_expression hparse below (same (by decide)) s (Nat.le_refl _)
  | statement =>
    exact Grammar.calls_statement hparse below (same (by decide)) s (Nat.le_refl _)

/-- What is read of phrases where the measure is less decides what is read of a phrase. -/
theorem rule_congr {parse parse' : (p : Phrase) → Parser p.Value} (hparse : ∀ p, (parse p).Forward)
    (p : Phrase) (s : Input)
    (h : ∀ q (t : Input), q.measure t < p.measure s → parse q t = parse' q t) :
    p.rule.run parse s = p.rule.run parse' s :=
  p.rule.run_congr hparse h s (p.rule_callsOnly hparse s)

theorem forward_parseWithin (n : Nat) (p : Phrase) : (p.parseWithin n).Forward := by
  induction n generalizing p with
  | zero => exact fun _ _ _ h => by cases h
  | succ n ih => exact p.rule.forward_run ih

theorem forward_parse (p : Phrase) : p.parse.Forward :=
  fun s a t h => p.forward_parseWithin s.steps s a t h

/-- From a certain depth on, it does not matter how deep phrases may be nested. -/
theorem parseWithin_congr {n n' : Nat} {p : Phrase} {s : Input} (hn : p.measure s < n)
    (hn' : p.measure s < n') : p.parseWithin n s = p.parseWithin n' s := by
  induction n generalizing n' p s with
  | zero => omega
  | succ n ih =>
    cases n' with
    | zero => omega
    | succ n' =>
      exact rule_congr (forward_parseWithin n) p s fun q t ht => ih (by omega) (by omega)

/-- A phrase is read by running its rule, with the same reading for the phrases in it. -/
theorem parse_eq (p : Phrase) (s : Input) : p.parse s = p.rule.run Phrase.parse s := by
  have hsteps := p.measure_lt_steps s
  calc p.parse s = p.parseWithin (s.steps + 1) s :=
        parseWithin_congr hsteps (Nat.lt_succ_of_lt hsteps)
    _ = p.rule.run Phrase.parse s :=
        rule_congr (forward_parseWithin s.steps) p s fun q t ht =>
          parseWithin_congr (Nat.lt_trans ht hsteps) (q.measure_lt_steps t)

end Phrase

theorem Rule.forward_parse {α : Type} (r : Rule α) : r.parse.Forward :=
  r.forward_run Phrase.forward_parse

end Descent
