import Descent.Proofs.Language.Production

/-!
# A pushdown automaton for programs

The automaton reads one kind of token after the other. Its state says what has been read of the
innermost phrase, and its stack, a `Context`, what surrounds that phrase. It is deterministic: after
an operand, an opening parenthesis is that of a call and an operator goes on with the expression, so
a statement without a semicolon reaches as far as it can.

The productions leave that choice open. Nothing is lost by settling it, and the reason is an order
on states, `State.Le`, by which the state after a statement without a semicolon can do all that a
state before a new statement can: what could have begun a statement is then read as a call or as an
operation. Main statement of this module: what can follow in a state can follow in a greater one,
and leads to a greater one again (`State.Le.step`).
-/

namespace Descent.Automaton

open Token (Kind)

/-- What surrounds an expression. -/
inductive Context where
  /-- A statement of the program ends with the expression. -/
  | program
  /-- A statement of a block does. The block belongs to an operand in `k`, and `else` may follow it
  if it is the consequence of a conditional. -/
  | block (consequence : Bool) (k : Context)
  /-- The expression is the operand of a unary operator in `k`. -/
  | operand (k : Context)
  /-- It stands in parentheses. -/
  | group (k : Context)
  /-- It is the condition of a conditional in `k`. -/
  | condition (k : Context)
  /-- It is an argument of a call in `k`. -/
  | arguments (k : Context)
deriving DecidableEq, Repr

/-- What has been read of the innermost phrase. -/
inductive Control where
  /-- Nothing of the next statement. -/
  | statements
  /-- The keyword of a binding. -/
  | keywordLet
  /-- The keyword and the name of a binding. -/
  | name
  /-- Nothing of an operand that has to follow. -/
  | operand
  /-- An expression that no call and no operator goes on with. -/
  | ended
  /-- An operand. -/
  | operandEnd
  /-- A conditional without an alternative. -/
  | consequenceEnd
  /-- The opening parenthesis of a call. -/
  | argumentsOpen
  /-- The keyword of a conditional. -/
  | keywordIf
  /-- The keyword of a function. -/
  | keywordFn
  /-- The opening parenthesis of a function. -/
  | paramsOpen
  /-- The parameters of a function up to a name. -/
  | param
  /-- The parameters of a function up to a comma. -/
  | paramComma
  /-- All that stands before a block. -/
  | blockOpen (consequence : Bool)
  /-- The whole program, and its end. -/
  | done
deriving DecidableEq, Repr

/-- A state of the automaton, with its stack. -/
structure State where
  /-- What has been read of the innermost phrase. -/
  control : Control
  /-- What surrounds the phrase. -/
  context : Context
deriving DecidableEq, Repr

/-- Kinds that operators between operands have. -/
def IsOperator : Kind → Bool
  | .star | .slash | .plus | .minus | .less | .greater | .equal | .notEqual => true
  | _ => false

/-- Kinds of token that go on with an expression after an operand. -/
def Continues (t : Kind) : Prop := t = .openParen ∨ IsOperator t

instance (t : Kind) : Decidable (Continues t) := inferInstanceAs (Decidable (_ ∨ _))

namespace Context

/-- The context without the unary operators in front of the expression. -/
def base : Context → Context
  | operand k => k.base
  | k => k

/-- Whether statements stand in the context. -/
def Body : Context → Prop
  | program | block _ _ => True
  | _ => False

/-- The state after the first token of an operand. -/
def startOperand (k : Context) : Kind → Option State
  | .integer | .kwTrue | .kwFalse | .identifier => some ⟨.operandEnd, k⟩
  | .bang | .minus => some ⟨.operand, .operand k⟩
  | .openParen => some ⟨.operand, .group k⟩
  | .kwIf => some ⟨.keywordIf, k⟩
  | .kwFn => some ⟨.keywordFn, k⟩
  | _ => none

/-- The state after a token that begins a statement or ends the statements. -/
def startStatement : Context → Kind → Option State
  | operand k, t => k.startStatement t
  | k, .kwLet => some ⟨.keywordLet, k⟩
  | k, .kwReturn => some ⟨.operand, k⟩
  | program, .eof => some ⟨.done, program⟩
  | block c k, .closeBrace => some ⟨if c then .consequenceEnd else .operandEnd, k⟩
  | k, t => k.startOperand t

/-- The state after a token behind an expression that has ended. -/
def resume : Context → Kind → Option State
  | operand k, t => k.resume t
  | group k, .closeParen => some ⟨.operandEnd, k⟩
  | condition k, .closeParen => some ⟨.blockOpen true, k⟩
  | arguments k, .closeParen => some ⟨.operandEnd, k⟩
  | arguments k, .comma => some ⟨.operand, arguments k⟩
  | program, .semicolon => some ⟨.statements, program⟩
  | block c k, .semicolon => some ⟨.statements, block c k⟩
  | program, t => program.startStatement t
  | block c k, t => (block c k).startStatement t
  | _, _ => none

/-- The state after a token behind an operand. -/
def proceed (k : Context) (t : Kind) : Option State :=
  if t = .openParen then some ⟨.argumentsOpen, arguments k⟩
  else if IsOperator t then some ⟨.operand, k.base⟩
  else k.resume t

end Context

namespace State

/-- The state after a token of this kind, if one can follow. -/
def step (s : State) (t : Kind) : Option State :=
  match s.control, t with
  | .statements, t => s.context.startStatement t
  | .keywordLet, .identifier => some ⟨.name, s.context⟩
  | .name, .assign => some ⟨.operand, s.context⟩
  | .operand, t => s.context.startOperand t
  | .ended, t => s.context.resume t
  | .operandEnd, t => s.context.proceed t
  | .consequenceEnd, .kwElse => some ⟨.blockOpen false, s.context⟩
  | .consequenceEnd, t => s.context.proceed t
  | .argumentsOpen, .closeParen => s.context.resume .closeParen
  | .argumentsOpen, t => s.context.startOperand t
  | .keywordIf, .openParen => some ⟨.operand, .condition s.context⟩
  | .keywordFn, .openParen => some ⟨.paramsOpen, s.context⟩
  | .paramsOpen, .identifier => some ⟨.param, s.context⟩
  | .paramsOpen, .closeParen => some ⟨.blockOpen false, s.context⟩
  | .param, .comma => some ⟨.paramComma, s.context⟩
  | .param, .closeParen => some ⟨.blockOpen false, s.context⟩
  | .paramComma, .identifier => some ⟨.param, s.context⟩
  | .blockOpen c, .openBrace => some ⟨.statements, .block c s.context⟩
  | _, _ => none

/-- The state after tokens of these kinds. -/
def run (s : State) : List Kind → Option State
  | [] => some s
  | t :: w => (s.step t).bind fun s' => s'.run w

/-- The state before a program. -/
def start : State := ⟨.statements, .program⟩

/-- The state behind a program. -/
def done : State := ⟨.done, .program⟩

theorem run_cons (s : State) (t : Kind) (w : List Kind) :
    s.run (t :: w) = (s.step t).bind fun s' => s'.run w := rfl

theorem run_append (s : State) (u v : List Kind) :
    s.run (u ++ v) = (s.run u).bind fun s' => s'.run v := by
  induction u generalizing s with
  | nil => rfl
  | cons t u ih =>
    rw [List.cons_append, run_cons, run_cons]
    cases s.step t with
    | none => rfl
    | some s' => exact ih s'

theorem run_concat (s : State) (w : List Kind) (t : Kind) :
    s.run (w ++ [t]) = (s.run w).bind fun s' => s'.step t := by
  rw [run_append]
  congr 1
  funext s'
  rw [run_cons]
  cases s'.step t <;> rfl

end State

/-! ## The order on states -/

/-- In the greater context, all can follow that can follow in the smaller one. Unary operators in
front of an expression make no difference, and a call takes what parentheses take. -/
inductive Context.Le : Context → Context → Prop where
  | program : Le .program .program
  | block {k l : Context} (c : Bool) (h : Le k l) : Le (.block c k) (.block c l)
  | operandLeft {k l : Context} (h : Le k l) : Le (.operand k) l
  | operandRight {k l : Context} (h : Le k l) : Le k (.operand l)
  | group {k l : Context} (h : Le k l) : Le (.group k) (.group l)
  | condition {k l : Context} (h : Le k l) : Le (.condition k) (.condition l)
  | arguments {k l : Context} (h : Le k l) : Le (.arguments k) (.arguments l)
  | groupArguments {k l : Context} (h : Le k l) : Le (.group k) (.arguments l)

/-- In the greater state, all can follow that can follow in the smaller one. -/
inductive State.Le : State → State → Prop where
  | context {k l : Context} (c : Control) (h : k.Le l) : Le ⟨c, k⟩ ⟨c, l⟩
  | operandStatements (k : Context) : Le ⟨.operand, k⟩ ⟨.statements, k⟩
  | statementsEnded {k : Context} (h : k.Body) : Le ⟨.statements, k⟩ ⟨.ended, k⟩
  | endedOperandEnd {k : Context} (l : Context) (h : k.Le l) : Le ⟨.ended, k⟩ ⟨.operandEnd, l⟩
  | operandEndConsequenceEnd (k : Context) : Le ⟨.operandEnd, k⟩ ⟨.consequenceEnd, k⟩
  | operandArgumentsOpen (k : Context) : Le ⟨.operand, k⟩ ⟨.argumentsOpen, k⟩
  | trans {a b c : State} (h : Le a b) (h' : Le b c) : Le a c

namespace Context

theorem Le.refl (k : Context) : k.Le k := by
  induction k with
  | program => exact .program
  | block c k ih => exact .block c ih
  | operand k ih => exact .operandLeft (.operandRight ih)
  | group k ih => exact .group ih
  | condition k ih => exact .condition ih
  | arguments k ih => exact .arguments ih

theorem Le.base_left {k l : Context} (h : k.Le l) : k.base.Le l := by
  induction h with
  | program => exact .program
  | block c h _ => exact .block c h
  | operandLeft _ ih => exact ih
  | operandRight _ ih => exact .operandRight ih
  | group h _ => exact .group h
  | condition h _ => exact .condition h
  | arguments h _ => exact .arguments h
  | groupArguments h _ => exact .groupArguments h

theorem Le.base_right {k l : Context} (h : k.Le l) : k.Le l.base := by
  induction h with
  | program => exact .program
  | block c h _ => exact .block c h
  | operandLeft _ ih => exact .operandLeft ih
  | operandRight _ ih => exact ih
  | group h _ => exact .group h
  | condition h _ => exact .condition h
  | arguments h _ => exact .arguments h
  | groupArguments h _ => exact .groupArguments h

theorem Le.base {k l : Context} (h : k.Le l) : k.base.Le l.base := h.base_left.base_right

end Context

theorem State.Le.refl (s : State) : s.Le s := .context s.control (.refl s.context)

/-- Where the one outcome is a state, the other one is a state that is at least as great. -/
def Outdone (a b : Option State) : Prop := ∀ s, a = some s → ∃ s', b = some s' ∧ s.Le s'

theorem Outdone.refl (a : Option State) : Outdone a a := fun s h => ⟨s, h, .refl s⟩

theorem Outdone.none (b : Option State) : Outdone none b := fun _ h => by cases h

theorem Outdone.some {s s' : State} (h : s.Le s') : Outdone (some s) (some s') := by
  intro _ hs
  cases hs
  exact ⟨s', rfl, h⟩

theorem Outdone.trans {a b c : Option State} (h : Outdone a b) (h' : Outdone b c) :
    Outdone a c := by
  intro s hs
  obtain ⟨s', hs', hle⟩ := h s hs
  obtain ⟨s'', hs'', hle'⟩ := h' s' hs'
  exact ⟨s'', hs'', .trans hle hle'⟩

namespace Context

variable {k l : Context} {t : Kind} {s : State}

theorem outdone_startOperand (h : k.Le l) (t : Kind) :
    Outdone (k.startOperand t) (l.startOperand t) := by
  cases t <;> first
    | exact .none _
    | exact .some (.context _ h)
    | exact .some (.context _ (.operandLeft (.operandRight h)))
    | exact .some (.context _ (.group h))

theorem outdone_startStatement (h : k.Le l) (t : Kind) :
    Outdone (k.startStatement t) (l.startStatement t) := by
  induction h with
  | program => exact .refl _
  | operandLeft _ ih => exact ih
  | operandRight _ ih => exact ih
  | block c h =>
    cases t <;> first
      | exact .some (.context _ h)
      | exact .some (.context _ (.block c h))
      | exact outdone_startOperand (.block c h) _
  | group h => cases t <;> first
    | exact .some (.context _ (.group h))
    | exact outdone_startOperand (.group h) _
  | condition h => cases t <;> first
    | exact .some (.context _ (.condition h))
    | exact outdone_startOperand (.condition h) _
  | arguments h => cases t <;> first
    | exact .some (.context _ (.arguments h))
    | exact outdone_startOperand (.arguments h) _
  | groupArguments h => cases t <;> first
    | exact .some (.context _ (.groupArguments h))
    | exact outdone_startOperand (.groupArguments h) _

/-- What can begin an operand can begin a statement. -/
theorem outdone_startStatement_of_startOperand (k : Context) (t : Kind) :
    Outdone (k.startOperand t) (k.startStatement t) := by
  induction k with
  | operand k ih => exact (outdone_startOperand (.operandLeft (.refl k)) t).trans ih
  | _ => cases t <;> first | exact .none _ | exact .some (.refl _)

/-- In a body, what can begin a statement can follow an expression that has ended there. -/
theorem resume_of_startStatement (hk : k.Body) (h : k.startStatement t = some s) :
    k.resume t = some s := by
  cases k with
  | program => cases t <;> first | exact h | cases h
  | block c k => cases t <;> first | exact h | cases h
  | _ => exact hk.elim

theorem outdone_resume (h : k.Le l) (t : Kind) : Outdone (k.resume t) (l.resume t) := by
  induction h with
  | program => exact .refl _
  | operandLeft _ ih => exact ih
  | operandRight _ ih => exact ih
  | block c h =>
    cases t <;> first
      | exact .some (.context _ (.block c h))
      | exact outdone_startStatement (.block c h) _
  | group h => cases t <;> first | exact .none _ | exact .some (.context _ h)
  | condition h => cases t <;> first | exact .none _ | exact .some (.context _ h)
  | arguments h =>
    cases t <;> first
      | exact .none _
      | exact .some (.context _ h)
      | exact .some (.context _ (.arguments h))
  | groupArguments h => cases t <;> first | exact .none _ | exact .some (.context _ h)

/-- No alternative follows an expression but right behind its consequence. -/
theorem resume_kwElse (k : Context) : k.resume .kwElse = none := by
  induction k with
  | operand k ih => exact ih
  | _ => rfl

/-- Behind an ended expression, a parenthesis can only begin a statement. -/
theorem resume_openParen (h : k.resume .openParen = some s) : s = ⟨.operand, .group k.base⟩ := by
  induction k with
  | operand k ih => exact ih h
  | program => cases h; rfl
  | block c k => cases h; rfl
  | _ => cases h

/-- Behind an ended expression, an operator can only begin a statement. -/
theorem resume_of_isOperator (ht : IsOperator t) (h : k.resume t = some s) :
    s = ⟨.operand, .operand k.base⟩ := by
  induction k with
  | operand k ih => exact ih h
  | _ => cases t <;> simp_all [IsOperator, resume, startStatement, startOperand, base]

/-- What can follow an expression that has ended can follow an operand: a parenthesis is then that
of a call, and an operator goes on with the expression. -/
theorem outdone_proceed_of_resume (h : k.Le l) (t : Kind) :
    Outdone (k.resume t) (l.proceed t) := by
  intro s hs
  unfold proceed
  by_cases hp : t = .openParen
  · subst hp
    obtain rfl := resume_openParen hs
    exact ⟨_, if_pos rfl,
      .trans (.context _ (.groupArguments h.base_left)) (.operandArgumentsOpen _)⟩
  · rw [if_neg hp]
    by_cases ho : IsOperator t
    · obtain rfl := resume_of_isOperator ho hs
      exact ⟨_, if_pos ho, .context _ (.operandLeft h.base)⟩
    · rw [if_neg ho]
      exact outdone_resume h t s hs

theorem outdone_proceed (h : k.Le l) (t : Kind) : Outdone (k.proceed t) (l.proceed t) := by
  unfold proceed
  by_cases hp : t = .openParen
  · rw [if_pos hp, if_pos hp]
    exact .some (.context _ (.arguments h))
  · rw [if_neg hp, if_neg hp]
    by_cases ho : IsOperator t
    · rw [if_pos ho, if_pos ho]
      exact .some (.context _ h.base)
    · rw [if_neg ho, if_neg ho]
      exact outdone_resume h t

end Context

/-- What can follow in a state can follow in a greater one, and leads to a greater one again. -/
theorem State.Le.step {a b : State} (h : a.Le b) (t : Kind) : Outdone (a.step t) (b.step t) := by
  induction h with
  | context c h =>
    cases c with
    | statements => exact Context.outdone_startStatement h t
    | operand => exact Context.outdone_startOperand h t
    | ended => exact Context.outdone_resume h t
    | operandEnd => exact Context.outdone_proceed h t
    | consequenceEnd =>
      by_cases ht : t = .kwElse
      · subst ht
        exact .some (.context _ h)
      · simpa [State.step, ht] using Context.outdone_proceed h t
    | argumentsOpen =>
      by_cases ht : t = .closeParen
      · subst ht
        exact Context.outdone_resume h _
      · simpa [State.step, ht] using Context.outdone_startOperand h t
    | keywordIf => cases t <;> first | exact .none _ | exact .some (.context _ (.condition h))
    | blockOpen c => cases t <;> first | exact .none _ | exact .some (.context _ (.block c h))
    | _ => cases t <;> first | exact .none _ | exact .some (.context _ h)
  | operandStatements k => exact k.outdone_startStatement_of_startOperand t
  | statementsEnded h => exact fun s hs => ⟨s, Context.resume_of_startStatement h hs, .refl s⟩
  | endedOperandEnd l h => exact Context.outdone_proceed_of_resume h t
  | operandEndConsequenceEnd k =>
    by_cases ht : t = .kwElse
    · subst ht
      have := k.resume_kwElse
      simp [State.step, Context.proceed, IsOperator, this, Outdone.none]
    · simpa [State.step, ht] using Outdone.refl _
  | operandArgumentsOpen k =>
    by_cases ht : t = .closeParen
    · subst ht
      exact .none _
    · simpa [State.step, ht] using Outdone.refl _
  | trans _ _ ih ih' => exact ih.trans ih'

end Descent.Automaton
