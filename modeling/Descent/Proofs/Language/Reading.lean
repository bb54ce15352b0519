import Descent.Proofs.Language.Automaton

/-!
# What the automaton reads

Two facts tie the automaton to the productions. It reads every sequence of kinds that `program`
derives (`run_of_derives_program`), and from every state that it reaches, some further tokens bring
it to the end (`run_append_closing`), so that it stops as soon as a text cannot be completed.
-/

namespace Descent.Automaton

open Token (Kind)

namespace State

variable {a b c : State} {t : Kind} {u v w : List Kind}

/-- From `a`, tokens of these kinds lead to `b` or to a greater state. -/
def Leads (a : State) (w : List Kind) (b : State) : Prop := ∃ s, a.run w = some s ∧ b.Le s

theorem Le.run (h : a.Le b) (w : List Kind) : Outdone (a.run w) (b.run w) := by
  induction w generalizing a b with
  | nil => exact .some h
  | cons t w ih =>
    intro s hs
    rw [run_cons, Option.bind_eq_some_iff] at hs
    obtain ⟨a', ha', hs⟩ := hs
    obtain ⟨b', hb', hle⟩ := h.step t a' ha'
    obtain ⟨s', hs', hle'⟩ := ih hle s hs
    exact ⟨s', by rw [run_cons, hb']; exact hs', hle'⟩

theorem Leads.nil (h : b.Le a) : a.Leads [] b := ⟨a, rfl, h⟩

theorem Leads.cons (h : a.step t = some b) (h' : b.Leads w c) : a.Leads (t :: w) c := by
  obtain ⟨s, hs, hle⟩ := h'
  exact ⟨s, by rw [run_cons, h]; exact hs, hle⟩

theorem Leads.single (h : a.step t = some b) : a.Leads [t] b := .cons h (.nil (.refl b))

/-- What a state leads to, greater states lead to. -/
theorem Leads.of_le (h : a.Le b) (h' : a.Leads w c) : b.Leads w c := by
  obtain ⟨s, hs, hle⟩ := h'
  obtain ⟨s', hs', hle'⟩ := h.run w s hs
  exact ⟨s', hs', hle.trans hle'⟩

theorem Leads.le (h : a.Leads w b) (h' : c.Le b) : a.Leads w c := by
  obtain ⟨s, hs, hle⟩ := h
  exact ⟨s, hs, h'.trans hle⟩

theorem Leads.append (h : a.Leads u b) (h' : b.Leads v c) : a.Leads (u ++ v) c := by
  obtain ⟨s, hs, hle⟩ := h
  obtain ⟨s', hs', hle'⟩ := h'.of_le hle
  exact ⟨s', by rw [run_append, hs]; exact hs', hle'⟩

/-- A way that leads back may be gone any number of times. -/
theorem Leads.flatten {us : List (List Kind)} (h : ∀ u ∈ us, a.Leads u a) :
    a.Leads us.flatten a := by
  induction us with
  | nil => exact .nil (.refl a)
  | cons u us ih =>
    rw [List.flatten_cons]
    exact (h u (by simp)).append (ih fun v hv => h v (by simp [hv]))

end State

/-! ## All that the productions derive is read -/

open State (Leads)

/-- What the automaton makes of the phrases that a symbol names. -/
def Read : Symbol → List Kind → Prop
  | .program, w => State.start.Leads w .done
  | .statement, w | .binding, w | .returning, w | .evaluation, w =>
    ∀ k : Context, k.Body → Leads ⟨.statements, k⟩ w ⟨.statements, k⟩
  | .block, w => ∀ (c : Bool) (k : Context),
    Leads ⟨.blockOpen c, k⟩ w ⟨if c then .consequenceEnd else .operandEnd, k⟩
  | .arguments, w => ∀ k : Context,
    Leads ⟨.operand, .arguments k⟩ w ⟨.operandEnd, .arguments k⟩
  | _, w => ∀ k : Context, Leads ⟨.operand, k⟩ w ⟨.operandEnd, k⟩

variable {w : List Kind}

/-- Operands with operators between them are read as one operand. -/
theorem leads_operations {s t : Kind} (n : Symbol) (hs : IsOperator s) (ht : IsOperator t)
    (hn : ∀ u, Read n u → ∀ k : Context, Leads ⟨.operand, k⟩ u ⟨.operandEnd, k⟩)
    (h : (.symbol n ++ .many ((.kind s ||| .kind t) ++ .symbol n) : Form).Over Read w)
    (k : Context) : Leads ⟨.operand, k⟩ w ⟨.operandEnd, k⟩ := by
  have hstep {o : Kind} (ho : IsOperator o) :
      State.step ⟨.operandEnd, k⟩ o = some ⟨.operand, k.base⟩ := by
    have hne : o ≠ .openParen := by rintro rfl; cases ho
    show k.proceed o = _
    rw [Context.proceed, if_neg hne, if_pos ho]
  obtain ⟨u, _, rfl, hu, us, rfl, hus⟩ := h
  refine (hn u hu k).append (.flatten fun v hv => ?_)
  obtain ⟨_, x, rfl, ho, hx⟩ := hus v hv
  have hoperand : Leads ⟨.operand, k.base⟩ x ⟨.operandEnd, k⟩ :=
    (hn x hx k.base).le (.context _ (.base_right (.refl k)))
  rcases ho with rfl | rfl
  · exact .cons (hstep hs) hoperand
  · exact .cons (hstep ht) hoperand

/-- A statement without a semicolon leads to a state that is no less than the one before the next
statement. -/
theorem leads_semicolon {k : Context} (hk : k.Body)
    (h : (Form.opt (.kind .semicolon)).Over Read w) :
    Leads ⟨.operandEnd, k⟩ w ⟨.statements, k⟩ := by
  rcases h with rfl | rfl
  · exact .nil (.trans (.statementsEnded hk) (.endedOperandEnd k (.refl k)))
  · cases k <;> first | exact hk.elim | exact .single rfl

theorem leads_binding (h : Symbol.binding.production.Over Read w) : Read .binding w := by
  intro k hk
  obtain ⟨_, w₄, rfl, ⟨_, e, rfl, ⟨_, _, rfl, ⟨_, _, rfl, rfl, rfl⟩, rfl⟩, he⟩, hs⟩ := h
  have hlet : State.step ⟨.statements, k⟩ .kwLet = some ⟨.keywordLet, k⟩ := by
    cases k <;> first | rfl | exact hk.elim
  exact .append (.cons hlet (.cons rfl (.cons rfl (he k)))) (leads_semicolon hk hs)

theorem leads_returning (h : Symbol.returning.production.Over Read w) : Read .returning w := by
  intro k hk
  obtain ⟨_, w₄, rfl, ⟨_, e, rfl, rfl, he⟩, hs⟩ := h
  have hreturn : State.step ⟨.statements, k⟩ .kwReturn = some ⟨.operand, k⟩ := by
    cases k <;> first | rfl | exact hk.elim
  exact .append (.cons hreturn (he k)) (leads_semicolon hk hs)

theorem leads_evaluation (h : Symbol.evaluation.production.Over Read w) : Read .evaluation w := by
  intro k hk
  obtain ⟨e, v, rfl, he, hs⟩ := h
  exact (Leads.of_le (.operandStatements k) (he k)).append (leads_semicolon hk hs)

theorem leads_block (h : Symbol.block.production.Over Read w) : Read .block w := by
  intro c k
  obtain ⟨_, _, rfl, ⟨_, _, rfl, rfl, us, rfl, hus⟩, rfl⟩ := h
  have hstatements : Leads ⟨.statements, .block c k⟩ us.flatten ⟨.statements, .block c k⟩ :=
    .flatten fun u hu => hus u hu _ trivial
  exact .append (.cons rfl hstatements) (.single rfl)

theorem leads_program (h : Symbol.program.production.Over Read w) : Read .program w := by
  obtain ⟨_, _, rfl, ⟨us, rfl, hus⟩, rfl⟩ := h
  have hstatements : Leads .start us.flatten .start := .flatten fun u hu => hus u hu _ trivial
  exact hstatements.append (.single rfl)

theorem leads_unary (h : Symbol.unary.production.Over Read w) : Read .unary w := by
  intro k
  rcases h with ⟨_, v, rfl, ho, hv⟩ | hc
  · -- What leads to the end of the operand leads to the end of the whole.
    have hv : Leads ⟨.operand, .operand k⟩ v ⟨.operandEnd, k⟩ :=
      (hv (.operand k)).le (.context _ (.operandRight (.refl k)))
    rcases ho with rfl | rfl <;> exact .cons rfl hv
  · exact hc k

theorem leads_call (h : Symbol.call.production.Over Read w) : Read .call w := by
  intro k
  obtain ⟨u, _, rfl, hu, us, rfl, hus⟩ := h
  refine (hu k).append (.flatten fun v hv => ?_)
  obtain ⟨_, _, rfl, ⟨_, a, rfl, rfl, ha⟩, rfl⟩ := hus v hv
  rcases ha with rfl | ha
  · exact .cons rfl (.single rfl)
  · have ha : Leads ⟨.argumentsOpen, .arguments k⟩ a ⟨.operandEnd, .arguments k⟩ :=
      .of_le (.operandArgumentsOpen _) (ha k)
    exact .append (.cons rfl ha) (.single rfl)

theorem leads_arguments (h : Symbol.arguments.production.Over Read w) : Read .arguments w := by
  intro k
  obtain ⟨u, _, rfl, hu, us, rfl, hus⟩ := h
  refine (hu _).append (.flatten fun v hv => ?_)
  obtain ⟨_, e, rfl, rfl, he⟩ := hus v hv
  exact .cons rfl (he _)

theorem leads_group (h : Symbol.group.production.Over Read w) : Read .group w := by
  intro k
  obtain ⟨_, _, rfl, ⟨_, e, rfl, rfl, he⟩, rfl⟩ := h
  exact .append (.cons rfl (he (.group k))) (.single rfl)

theorem leads_conditional (h : Symbol.conditional.production.Over Read w) :
    Read .conditional w := by
  intro k
  obtain ⟨_, l, rfl, ⟨_, b, rfl, ⟨_, _, rfl, ⟨_, e, rfl, ⟨_, _, rfl, rfl, rfl⟩, he⟩, rfl⟩, hb⟩,
    hl⟩ := h
  have hcondition : Leads ⟨.operandEnd, .condition k⟩ [.closeParen] ⟨.blockOpen true, k⟩ :=
    .single rfl
  have hconsequence : Leads ⟨.blockOpen true, k⟩ b ⟨.consequenceEnd, k⟩ := hb true k
  have halternative : Leads ⟨.consequenceEnd, k⟩ l ⟨.operandEnd, k⟩ := by
    rcases hl with rfl | ⟨_, c, rfl, rfl, hc⟩
    · exact .nil (.operandEndConsequenceEnd k)
    · exact .cons rfl (hc false k)
  have hopen : Leads ⟨.operand, k⟩ ([.kwIf] ++ [.openParen] ++ e) ⟨.operandEnd, .condition k⟩ :=
    .cons rfl (.cons rfl (he (.condition k)))
  exact ((hopen.append hcondition).append hconsequence).append halternative

theorem leads_function (h : Symbol.function.production.Over Read w) : Read .function w := by
  intro k
  obtain ⟨_, b, rfl, ⟨_, _, rfl, ⟨_, p, rfl, ⟨_, _, rfl, rfl, rfl⟩, hp⟩, rfl⟩, hb⟩ := h
  have hbody : Leads ⟨.blockOpen false, k⟩ b ⟨.operandEnd, k⟩ := hb false k
  rcases hp with rfl | ⟨_, _, rfl, rfl, us, rfl, hus⟩
  · exact .append (.cons rfl (.cons rfl (.single rfl))) hbody
  · have hparams : Leads ⟨.param, k⟩ us.flatten ⟨.param, k⟩ := by
      refine .flatten fun v hv => ?_
      obtain ⟨_, _, rfl, rfl, rfl⟩ := hus v hv
      exact .cons rfl (.single rfl)
    exact .append (.append (.cons rfl (.cons rfl (.cons rfl hparams))) (.single rfl)) hbody

/-- What the automaton makes of phrases, the productions carry over to longer ones. -/
theorem read_of_over (n : Symbol) (w : List Kind) (h : n.production.Over Read w) : Read n w := by
  cases n with
  | program => exact leads_program h
  | statement => rcases h with (h | h) | h <;> exact h
  | binding => exact leads_binding h
  | returning => exact leads_returning h
  | evaluation => exact leads_evaluation h
  | block => exact leads_block h
  | expression => exact h
  | equation => exact leads_operations .comparison rfl rfl (fun _ h => h) h
  | comparison => exact leads_operations .sum rfl rfl (fun _ h => h) h
  | sum => exact leads_operations .product rfl rfl (fun _ h => h) h
  | product => exact leads_operations .unary rfl rfl (fun _ h => h) h
  | unary => exact leads_unary h
  | call => exact leads_call h
  | arguments => exact leads_arguments h
  | primary =>
    intro k
    rcases h with (((((rfl | rfl) | rfl) | rfl) | h) | h) | h
    · exact .single rfl
    · exact .single rfl
    · exact .single rfl
    · exact .single rfl
    · exact h k
    · exact h k
    · exact h k
  | group => exact leads_group h
  | conditional => exact leads_conditional h
  | function => exact leads_function h

theorem Read.of_derives {n : Symbol} (h : n.Derives w) : Read n w := h.over read_of_over

/-- The automaton reads every program. -/
theorem run_of_derives_program (h : Symbol.program.Derives w) : (State.start.run w).isSome := by
  obtain ⟨s, hs, -⟩ := Read.of_derives h
  simp [hs]

/-! ## What has been read can be completed -/

/-- Tokens that close all that is open behind an expression, up to the end of the program. -/
def Context.closing : Context → List Kind
  | .program => []
  | .block _ k => .closeBrace :: k.closing
  | .operand k => k.closing
  | .group k => .closeParen :: k.closing
  | .condition k => .closeParen :: .openBrace :: .closeBrace :: k.closing
  | .arguments k => .closeParen :: k.closing

/-- Tokens that complete the innermost phrase. -/
def Control.closing : Control → List Kind
  | .keywordLet => [.identifier, .assign, .identifier]
  | .name => [.assign, .identifier]
  | .operand | .argumentsOpen => [.identifier]
  | .keywordIf => [.openParen, .identifier, .closeParen, .openBrace, .closeBrace]
  | .keywordFn => [.openParen, .closeParen, .openBrace, .closeBrace]
  | .paramsOpen | .param => [.closeParen, .openBrace, .closeBrace]
  | .paramComma => [.identifier, .closeParen, .openBrace, .closeBrace]
  | .blockOpen _ => [.openBrace, .closeBrace]
  | _ => []

/-- Tokens that complete the program, without its end. -/
def State.closing (s : State) : List Kind := s.control.closing ++ s.context.closing

/-- What is true of all states behind a token: statements stand only where a program or a block has
them, the end of the input and nothing else ends a program, and trivia are not read. -/
structure State.Behind (t : Kind) (s : State) : Prop where
  body : s.control = .statements → s.context.Body
  eof : s.control = .done → t = .eof
  done : t = .eof → s.control = .done
  not_isTrivia : ¬t.isTrivia

/-- Whatever can follow an expression can follow it when it ends with a block. -/
theorem leads_of_ended {k : Context} {c : State} (b : Bool) (h : Leads ⟨.ended, k⟩ w c) :
    Leads ⟨if b then .consequenceEnd else .operandEnd, k⟩ w c := by
  have hend : Leads ⟨.operandEnd, k⟩ w c := .of_le (.endedOperandEnd k (.refl k)) h
  cases b
  · exact hend
  · exact .of_le (.operandEndConsequenceEnd k) hend

theorem leads_closing_of_ended (k : Context) : Leads ⟨.ended, k⟩ (k.closing ++ [.eof]) .done := by
  induction k with
  | program => exact .single rfl
  | operand k ih => exact .of_le (.context _ (.operandRight (.refl k))) ih
  | block c k ih => exact .cons rfl (leads_of_ended c ih)
  | group k ih => exact .cons rfl (leads_of_ended false ih)
  | condition k ih => exact .cons rfl (.cons rfl (.cons rfl (leads_of_ended true ih)))
  | arguments k ih => exact .cons rfl (leads_of_ended false ih)

/-- Whatever has been read can be completed to a program. -/
theorem State.leads_closing {s : State} (hs : s.control = .statements → s.context.Body)
    (hd : s.control ≠ .done) :
    s.Leads (s.closing ++ [.eof]) .done := by
  obtain ⟨c, k⟩ := s
  have hended := leads_closing_of_ended k
  have hend : Leads ⟨.operandEnd, k⟩ (k.closing ++ [.eof]) .done := leads_of_ended false hended
  cases c with
  | statements =>
    cases k with
    | program => exact .single rfl
    | block b k => exact .cons rfl (leads_of_ended b (leads_closing_of_ended k))
    | _ => exact (hs rfl).elim
  | keywordLet => exact .cons rfl (.cons rfl (.cons rfl hend))
  | name => exact .cons rfl (.cons rfl hend)
  | operand => exact .cons rfl hend
  | ended => exact hended
  | operandEnd => exact hend
  | consequenceEnd => exact leads_of_ended true hended
  | argumentsOpen => exact .of_le (.operandArgumentsOpen k) (.cons rfl hend)
  | keywordIf =>
    exact .cons rfl (.cons rfl (.cons rfl (.cons rfl (.cons rfl (leads_of_ended true hended)))))
  | keywordFn => exact .cons rfl (.cons rfl (.cons rfl (.cons rfl hend)))
  | paramsOpen => exact .cons rfl (.cons rfl (.cons rfl hend))
  | param => exact .cons rfl (.cons rfl (.cons rfl hend))
  | paramComma => exact .cons rfl (.cons rfl (.cons rfl (.cons rfl hend)))
  | blockOpen b => exact .cons rfl (.cons rfl (leads_of_ended b hended))
  | done => exact (hd rfl).elim

namespace Context

variable {k : Context} {t : Kind} {s : State}

theorem behind_startOperand (h : k.startOperand t = some s) : s.Behind t := by
  constructor <;> intro hs <;> cases t <;> cases h <;> cases hs

theorem behind_startStatement (h : k.startStatement t = some s) : s.Behind t := by
  induction k with
  | operand k ih => exact ih h
  | block c k =>
    constructor <;> intro hs <;> cases c <;> cases t <;> cases h <;> cases hs
  | _ => constructor <;> intro hs <;> cases t <;> cases h <;> first | rfl | cases hs

theorem behind_statements (h : k.Body) (ht : t = .semicolon ∨ t = .openBrace) :
    State.Behind t ⟨.statements, k⟩ := by
  rcases ht with rfl | rfl <;> exact ⟨fun _ => h, nofun, nofun, nofun⟩

theorem behind_resume (h : k.resume t = some s) : s.Behind t := by
  induction k with
  | operand k ih => exact ih h
  | program =>
    cases t <;> first
      | exact behind_startStatement h
      | (cases h; exact behind_statements trivial (.inl rfl))
  | block c k =>
    cases t <;> first
      | exact behind_startStatement h
      | (cases h; exact behind_statements trivial (.inl rfl))
  | _ => constructor <;> intro hs <;> cases t <;> cases h <;> cases hs

theorem behind_proceed (h : k.proceed t = some s) : s.Behind t := by
  unfold proceed at h
  split at h
  · next ht =>
    subst ht
    constructor <;> intro hs <;> cases h <;> cases hs
  · split at h
    · next ht => constructor <;> intro hs <;> cases h <;> cases t <;> cases ht <;> cases hs
    · exact behind_resume h

end Context

theorem State.behind_step {s s' : State} {t : Kind} (h : s.step t = some s') : s'.Behind t := by
  obtain ⟨c, k⟩ := s
  cases c with
  | statements => exact Context.behind_startStatement h
  | operand => exact Context.behind_startOperand h
  | ended => exact Context.behind_resume h
  | operandEnd => exact Context.behind_proceed h
  | consequenceEnd =>
    by_cases ht : t = .kwElse
    · subst ht
      constructor <;> intro hs <;> cases h <;> cases hs
    · exact Context.behind_proceed (by simpa [State.step, ht] using h)
  | argumentsOpen =>
    by_cases ht : t = .closeParen
    · subst ht
      exact Context.behind_resume h
    · exact Context.behind_startOperand (by simpa [State.step, ht] using h)
  | blockOpen b =>
    cases t <;> cases h
    exact Context.behind_statements trivial (.inr rfl)
  | _ => constructor <;> intro hs <;> cases t <;> cases h <;> cases hs

/-- What has been read of a program, if it does not end there, can be completed: the tokens in
`closing` and the end of the input may follow. -/
theorem run_append_closing {w : List Kind} {s : State} (h : State.start.run w = some s)
    (hw : .eof ∉ w) : (State.start.run (w ++ (s.closing ++ [.eof]))).isSome := by
  have hs : (s.control = .statements → s.context.Body) ∧ s.control ≠ .done := by
    rcases List.eq_nil_or_concat w with rfl | ⟨w, t, rfl⟩
    · cases h
      exact ⟨fun _ => trivial, by decide⟩
    · rw [List.concat_eq_append] at h hw
      rw [State.run_concat, Option.bind_eq_some_iff] at h
      obtain ⟨s', -, h⟩ := h
      have hbehind := State.behind_step h
      exact ⟨hbehind.body, fun hd => hw (by simp [hbehind.eof hd])⟩
  obtain ⟨s', hs', -⟩ := State.leads_closing hs.1 hs.2
  rw [State.run_append, h]
  simp [hs']

/-- The end of the input comes last in what the automaton reads, and there are no trivia. -/
theorem significant_of_run {w : List Kind} (h : (State.start.run (w ++ [.eof])).isSome) :
    ∀ t ∈ w, t ≠ .eof ∧ t.isTrivia = false := by
  intro t ht
  obtain ⟨u, v, rfl⟩ := List.append_of_mem ht
  obtain ⟨s, hs⟩ := Option.isSome_iff_exists.1 h
  rw [List.append_assoc, State.run_append, Option.bind_eq_some_iff] at hs
  obtain ⟨s', -, hs⟩ := hs
  rw [List.cons_append, State.run_cons, Option.bind_eq_some_iff] at hs
  obtain ⟨⟨c, k⟩, hstep, hs⟩ := hs
  have hbehind := State.behind_step hstep
  refine ⟨fun heof => ?_, Bool.eq_false_iff.2 hbehind.not_isTrivia⟩
  obtain rfl : c = .done := hbehind.done heof
  cases v <;> cases hs

end Descent.Automaton
