import Descent.Proofs.Language.Derivation
import Descent.Proofs.Parser.Blame
import Descent.Proofs.Parser.Matches

/-!
# How rules begin

A rule of the grammar can be told by its first token. Before any other token it does not match, and
its error then says nothing new about what lies ahead: it is at the place where the rule began,
unless an error further on had been recorded there already. `Rule.Begins` says both at once, and the
lemmas here show it of each rule of the grammar.
-/

namespace Descent

open Rule

/-! ## The tokens that begin a phrase -/

/-- Kinds of token that begin an expression without operators. -/
def StartsPrimary : Token.Kind → Bool
  | .integer | .kwTrue | .kwFalse | .identifier | .openParen | .kwIf | .kwFn => true
  | _ => false

/-- Kinds of token that begin an expression of a layer. -/
def Layer.Starts : Layer → Token.Kind → Bool
  | call, k | primary, k => StartsPrimary k
  | _, k => StartsPrimary k || k = .bang || k = .minus

/-- Kinds of token that begin a statement. -/
def StartsStatement (k : Token.Kind) : Bool :=
  Layer.equation.Starts k || k = .kwLet || k = .kwReturn

theorem Layer.starts_of_tighter {l : Layer} {k : Token.Kind} (h : l.tighter.Starts k) :
    l.Starts k := by
  cases l <;> first | exact h | exact Bool.or_eq_true_iff.2 (.inl (Bool.or_eq_true_iff.2 (.inl h)))

theorem Layer.starts_of_unaryOp {k : Token.Kind} {op : UnaryOp}
    (h : Grammar.unaryOp? k = some op) : Layer.unary.Starts k := by
  cases k <;> first | rfl | cases h

/-! ## How far errors lead -/

namespace Input

variable {s t : Input} {e : ParseError} {ts : List Token}

/-- How far errors have been reported: up to the one recorded, or to the place itself. -/
def reach (s : Input) : Nat :=
  match s.furthest with
  | none => s.position
  | some f => max s.position f.index

theorem position_le_reach (s : Input) : s.position ≤ s.reach := by
  unfold reach
  split
  · exact Nat.le_refl _
  · exact Nat.le_max_left _ _

/-- Reporting an error leads no further than it or what is recorded. -/
theorem index_report_le_reach (h : e.index ≤ s.reach) : (s.report e).index ≤ s.reach := by
  unfold report
  unfold reach at *
  cases s.settings.failureSelection with
  | first => exact h
  | furthest =>
    cases hf : s.furthest with
    | none =>
      rw [hf] at h
      exact h
    | some f =>
      rw [hf] at h
      show (e.join f).index ≤ max s.position f.index
      rw [ParseError.index_join]
      dsimp only at h
      omega

theorem index_error_le_reach (s : Input) (cause : ParseError.Cause) :
    (s.error cause).index ≤ s.reach := index_report_le_reach s.position_le_reach

theorem index_unexpected_le_reach (s : Input) (x : Expectation) :
    (s.unexpected x).index ≤ s.reach := index_report_le_reach s.position_le_reach

/-- Recording an error leads no further than it or what was recorded before. -/
theorem reach_record_le (h : e.index ≤ s.reach) : (s.record e).reach ≤ s.reach := by
  have hposition : (s.record e).position = s.position := (s.record_passes e).position
  cases hs : s.settings.failureSelection with
  | first =>
    have hrecord : s.record e = s := by rw [record, hs]
    exact Nat.le_of_eq (congrArg reach hrecord)
  | furthest =>
    have hfurthest := furthest_record hs e
    unfold reach at *
    rw [hfurthest, hposition]
    cases hf : s.furthest with
    | none =>
      rw [hf] at h
      show max s.position e.index ≤ s.position
      dsimp only at h
      omega
    | some f =>
      rw [hf] at h
      show max s.position (e.join f).index ≤ max s.position f.index
      rw [ParseError.index_join]
      dsimp only at h
      omega

theorem reach_record?_le {o : Option ParseError} (h : ∀ e ∈ o, e.index ≤ s.reach) :
    (s.record? o).reach ≤ s.reach := by
  cases o with
  | none => exact Nat.le_refl _
  | some e => exact reach_record_le (h e rfl)

/-- A passage over tokens goes on. -/
theorem Passes.position_lt (h : s.Passes ts t) (hlt : t.left < s.left) :
    s.position < t.position := by
  have := h.left
  have := h.position
  omega

end Input

namespace Rule

variable {α β : Type} {A B : Token.Kind → Prop} {r : Rule α}

/-- Before a token outside of `A`, an error of the rule leads no further than what is recorded. -/
def Prompt (A : Token.Kind → Prop) (r : Rule α) : Prop :=
  ∀ s e, ¬A s.current.kind → r.parse s = .error e → e.index ≤ s.reach

/-- The rule begins with a token in `A`: it matches only where one is ahead and reads it, and
elsewhere its errors lead no further than what is recorded. -/
structure Begins (A : Token.Kind → Prop) (r : Rule α) : Prop where
  ok : ∀ s a t, r.parse s = .ok (a, t) → A s.current.kind ∧ t.left < s.left
  prompt : r.Prompt A

theorem Prompt.mono (h : r.Prompt A) (hAB : ∀ k, A k → B k) : r.Prompt B :=
  fun s e hB he => h s e (fun hA => hB (hAB _ hA)) he

/-- A token fails where it is expected, whatever is ahead. -/
theorem prompt_token {k : Token.Kind} (hk : k ≠ .eof) : (token k).Prompt A := by
  intro s e _ he
  by_cases hc : s.current.kind = k
  · obtain ⟨us, hrest⟩ := Input.rest_of_current (hc ▸ hk)
    obtain ⟨u, hu, -⟩ := Parser.token_of_rest hrest hc
    cases hu.symm.trans he
  · cases (Parser.token_error hc).symm.trans he
    exact s.index_unexpected_le_reach _

theorem prompt_lookahead (n : Nat) : (lookahead n).Prompt A := by
  intro s e _ he
  change Parser.lookahead n s = .error e at he
  unfold Parser.lookahead Input.lookahead at he
  by_cases hn : n < s.settings.lookaheadDepth
  · rw [if_pos hn] at he
    cases he
  · rw [if_neg hn] at he
    cases he
    exact s.index_error_le_reach _

namespace Begins

theorem mono (h : r.Begins A) (hAB : ∀ k, A k → B k) : r.Begins B where
  ok s a t ht := (h.ok s a t ht).imp_left (hAB _)
  prompt := h.prompt.mono hAB

theorem first (h : r.Begins A) (s : Input) (a : α) (t : Input) (ht : r.parse s = .ok (a, t)) :
    A s.current.kind := (h.ok s a t ht).1

/-- Where no token in `A` is ahead, the rule fails without leading further. -/
theorem error (h : r.Begins A) {s : Input} (hA : ¬A s.current.kind) :
    ∃ e, r.parse s = .error e ∧ e.index ≤ s.reach := by
  cases hr : r.parse s with
  | ok m => exact absurd (h.first s m.1 m.2 hr) hA
  | error e => exact ⟨e, rfl, h.prompt s e hA hr⟩

theorem fails (h : r.Begins A) {s : Input} (hA : ¬A s.current.kind) :
    ∃ e, r.parse s = .error e := by
  obtain ⟨e, he, -⟩ := h.error hA
  exact ⟨e, he⟩

theorem token {k : Token.Kind} (hk : k ≠ .eof) : (token k).Begins (· = k) where
  ok s x t ht := by
    obtain ⟨hx, hp⟩ := Parser.token_ok ht hk
    exact ⟨by rw [Input.current_of_rest hp.rest, hx], hp.left_lt (List.cons_ne_nil _ _)⟩
  prompt := prompt_token hk

theorem bind {f : α → Rule β} (h : r.Begins A) : (r >>= f).Begins A where
  ok s b t ht := by
    obtain ⟨a, u, hu, ht⟩ := bind_eq_ok.1 ht
    obtain ⟨hA, hlt⟩ := h.ok s a u hu
    exact ⟨hA, Nat.lt_of_le_of_lt ((f a).forward_parse.left_le ht) hlt⟩
  prompt s e hA he := by
    rcases Parser.bind_eq_error.1 he with he | ⟨a, u, hu, -⟩
    · exact h.prompt s e hA he
    · exact absurd (h.first s a u hu) hA

theorem extend {f : α → Rule (Option α)} (h : r.Begins A) : (extend r f).Begins A where
  ok s b t ht := by
    obtain ⟨a, u, hu, ht⟩ := Parser.bind_eq_ok.1 ht
    obtain ⟨hA, hlt⟩ := h.ok s a u hu
    have hforward := Parser.forward_extendFrom (fun a => (f a).forward_parse) a
    exact ⟨hA, Nat.lt_of_le_of_lt (hforward.left_le ht) hlt⟩
  prompt s e hA he := by
    rcases Parser.bind_eq_error.1 he with he | ⟨a, u, hu, -⟩
    · exact h.prompt s e hA he
    · exact absurd (h.first s a u hu) hA

theorem refine {f : α → Except ParseError.Cause β} (h : r.Begins A) : (refine f r).Begins A where
  ok s b t ht := by
    obtain ⟨a, ha, -⟩ := Parser.refine_eq_ok.1 ht
    exact h.ok s a t ha
  prompt s e hA he := by
    rcases Parser.refine_eq_error.1 he with he | ⟨a, u, cause, hu, -, -⟩
    · exact h.prompt s e hA he
    · exact absurd (h.first s a u hu) hA

theorem named {name : String} (h : r.Begins A) : (named name r).Begins A where
  ok s a t ht := h.ok s a t (Parser.named_eq_ok.1 ht)
  prompt s e hA he := by
    obtain ⟨e', he', rfl⟩ := Parser.named_eq_error.1 he
    have := h.prompt s e' hA he'
    split <;> exact this

theorem nest (h : r.Begins A) : (nest r).Begins A where
  ok s a t ht := by
    obtain ⟨inner, u, hi, hu, rfl⟩ := Parser.nest_eq_ok.1 ht
    cases Input.descend_eq_ok hi
    exact h.ok (s.atDepth (s.depth + 1)) a u hu
  prompt s e hA he := by
    rcases Parser.nest_eq_error.1 he with hi | ⟨inner, hi, he⟩
    · cases Input.descend_eq_error hi
      exact s.index_error_le_reach _
    · cases Input.descend_eq_ok hi
      exact h.prompt (s.atDepth (s.depth + 1)) e hA he

theorem choice {rs : List (Rule α)} (hne : rs ≠ []) (h : ∀ r ∈ rs, r.Begins A) :
    (choice rs).Begins A where
  ok s a t ht := by
    obtain ⟨r, hr, u, hu, hp⟩ := choice_ok ht
    obtain ⟨hA, hlt⟩ := (h r hr).ok s a u hu
    exact ⟨hA, Nat.lt_of_le_of_lt (Nat.le_of_eq (by simpa using hp.left.symm)) hlt⟩
  prompt s e hA he := by
    rw [Rule.parse, run_choice] at he
    refine Parser.choiceFrom_error (Q := fun e => e.index ≤ s.reach) (fun e f he hf => ?_)
      (fun e he => by cases he) (fun p hp e he => ?_) (.inl (by simpa using hne)) he
    · rw [ParseError.index_join]
      omega
    · obtain ⟨r, hr, rfl⟩ := List.mem_map.1 hp
      exact (h r hr).prompt s e hA he

/-- What begins the rule of a phrase begins the phrase. -/
theorem of_rule {p : Phrase} (h : p.rule.Begins A) : (call p).Begins A where
  ok s a t ht := h.ok s a t ((p.parse_eq s).symm.trans ht)
  prompt s e hA he := h.prompt s e hA ((p.parse_eq s).symm.trans he)

end Begins

end Rule

namespace Grammar

/-! ## The rules of the grammar -/

theorem begins_ident : ident.Begins (· = .identifier) := .bind (.token nofun)

theorem begins_integer : integer.Begins (· = .integer) := .refine (.token nofun)

theorem begins_boolean : boolean.Begins fun k => k = .kwTrue ∨ k = .kwFalse := by
  refine .choice (List.cons_ne_nil _ _) ?_
  simp only [List.forall_mem_cons, List.not_mem_nil, false_implies, implies_true, and_true]
  exact ⟨.mono (.bind (.token nofun)) fun _ => .inl, .mono (.bind (.token nofun)) fun _ => .inr⟩

theorem begins_var : (Expr.var <$> ident).Begins (· = .identifier) := .bind begins_ident

theorem begins_group : group.Begins (· = .openParen) := .nest (.bind (.token nofun))

theorem begins_conditional : conditional.Begins (· = .kwIf) := .bind (.token nofun)

theorem begins_function : function.Begins (· = .kwFn) := .bind (.token nofun)

theorem begins_primary : primary.Begins fun k => StartsPrimary k := by
  refine .named (.choice (List.cons_ne_nil _ _) ?_)
  simp only [List.forall_mem_cons, List.not_mem_nil, false_implies, implies_true, and_true]
  exact ⟨begins_integer.mono fun k hk => hk ▸ rfl,
    begins_boolean.mono fun k hk => hk.elim (· ▸ rfl) (· ▸ rfl),
    begins_var.mono fun k hk => hk ▸ rfl, begins_group.mono fun k hk => hk ▸ rfl,
    begins_conditional.mono fun k hk => hk ▸ rfl, begins_function.mono fun k hk => hk ▸ rfl⟩

theorem begins_calls : calls.Begins fun k => StartsPrimary k := .extend begins_primary

theorem begins_unary : unary.Begins fun k => Layer.unary.Starts k where
  ok s e t ht := by
    obtain ⟨x, u, hx, ht⟩ := bind_eq_ok.1 ht
    obtain ⟨-, rfl, rfl⟩ := Parser.lookahead_eq_ok.1 hx
    cases hop : unaryOp? s.current.kind with
    | none =>
      simp only [hop] at ht
      exact (begins_calls.ok s e t ht).imp_left Layer.starts_of_tighter
    | some op =>
      simp only [hop] at ht
      obtain ⟨y, v, hy, ht⟩ := bind_eq_ok.1 ht
      have hne : s.current.kind ≠ .eof := by
        intro heof
        rw [heof] at hop
        cases hop
      have hlt := (Parser.any_ok hne hy).2.left_lt (List.cons_ne_nil _ _)
      exact ⟨Layer.starts_of_unaryOp hop,
        Nat.lt_of_le_of_lt (Parser.Forward.left_le (Rule.forward_parse _) ht) hlt⟩
  prompt s e hA he := by
    rcases Parser.bind_eq_error.1 he with he | ⟨x, u, hx, he⟩
    · exact prompt_lookahead (A := fun k => Layer.unary.Starts k) 0 s e hA he
    · obtain ⟨-, rfl, rfl⟩ := Parser.lookahead_eq_ok.1 hx
      cases hop : unaryOp? s.current.kind with
      | none =>
        simp only [hop] at he
        exact begins_calls.prompt s e (fun hk => hA (Layer.starts_of_tighter hk)) he
      | some op => exact absurd (Layer.starts_of_unaryOp hop) hA

theorem begins_expression : (call .expression).Begins fun k => Layer.equation.Starts k := by
  have hunary : (call .unary).Begins fun k => Layer.equation.Starts k := .of_rule begins_unary
  have hproduct : product.Begins fun k => Layer.equation.Starts k := .extend hunary
  have hsum : sum.Begins fun k => Layer.equation.Starts k := .extend hproduct
  have hcomparison : comparison.Begins fun k => Layer.equation.Starts k := .extend hsum
  exact .of_rule (p := .expression) (.extend hcomparison)

theorem begins_binding : binding.Begins (· = .kwLet) := .bind (.token nofun)

theorem begins_returning : returning.Begins (· = .kwReturn) := .bind (.token nofun)

theorem begins_evaluation : evaluation.Begins fun k => Layer.equation.Starts k :=
  .bind begins_expression

theorem begins_statement : (call .statement).Begins fun k => StartsStatement k := by
  refine .of_rule (p := .statement) (.choice (List.cons_ne_nil _ _) ?_)
  simp only [List.forall_mem_cons, List.not_mem_nil, false_implies, implies_true, and_true]
  exact ⟨begins_binding.mono fun k hk => hk ▸ rfl, begins_returning.mono fun k hk => hk ▸ rfl,
    begins_evaluation.mono fun k hk => by simp [StartsStatement, hk]⟩

end Grammar

end Descent
