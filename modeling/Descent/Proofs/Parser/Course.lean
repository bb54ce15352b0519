import Descent.Proofs.Language.Reading
import Descent.Proofs.Parser.Depth

/-!
# The automaton on a tape

The automaton of programs run over the tokens of a tape, with two restrictions that a parser has: a
numeral must stand for a value, and phrases must not nest too deep. `Tape.state` is the state before
each token of the tape, as far as the automaton gets.

An operand of a unary operator is a level of nesting that begins behind the operator. So the
operator itself may stand where no level is left, but no token can follow it then.
-/

namespace Descent

/-- A numeral stands for a value. -/
def Token.Readable (x : Token) : Prop :=
  x.kind = .integer → (Text.Decimal.toInt64? x.lexeme).isSome

instance (x : Token) : Decidable x.Readable := inferInstanceAs (Decidable (_ → _))

namespace Automaton

/-- The levels of nesting around an expression. -/
def Context.depth : Context → Nat
  | .program => 0
  | .block _ k | .operand k | .group k | .condition k | .arguments k => k.depth + 1

namespace State

/-- The levels of nesting around the last token. -/
def level : State → Nat
  | ⟨.operand, .operand k⟩ => k.depth
  | ⟨_, k⟩ => k.depth

/-- The state after a token, if it can follow within the restrictions. -/
def advance (max : Option Nat) (c : State) (x : Token) : Option State :=
  if x.Readable then (c.step x.kind).filter fun d => max.all (d.level ≤ ·) else none

/-- The state after several tokens, if they can follow within the restrictions. -/
def follow (max : Option Nat) (c : State) : List Token → Option State
  | [] => some c
  | x :: xs => (c.advance max x).bind fun d => d.follow max xs

variable {max : Option Nat} {c d : State} {x : Token} {ts us : List Token}

theorem advance_eq_some :
    c.advance max x = some d ↔ x.Readable ∧ c.step x.kind = some d ∧ ∀ m ∈ max, d.level ≤ m := by
  unfold advance
  by_cases hx : x.Readable
  · rw [if_pos hx, Option.filter_eq_some_iff, Option.all_eq_true]
    simp [hx]
  · simp [hx]

theorem follow_append (c : State) (ts us : List Token) :
    c.follow max (ts ++ us) = (c.follow max ts).bind fun d => d.follow max us := by
  induction ts generalizing c with
  | nil => rfl
  | cons x ts ih =>
    rw [List.cons_append, follow, follow]
    cases c.advance max x with
    | none => rfl
    | some d => exact ih d

/-- Within the restrictions the automaton runs as it does without. -/
theorem run_of_follow (h : c.follow max ts = some d) :
    c.run (ts.map Token.kind) = some d ∧ ∀ x ∈ ts, x.Readable := by
  induction ts generalizing c with
  | nil => exact ⟨h, nofun⟩
  | cons x ts ih =>
    obtain ⟨c', hc', h⟩ := Option.bind_eq_some_iff.1 h
    obtain ⟨hx, hstep, -⟩ := advance_eq_some.1 hc'
    obtain ⟨hrun, hts⟩ := ih h
    refine ⟨?_, List.forall_mem_cons.2 ⟨hx, hts⟩⟩
    rw [List.map_cons, run_cons, hstep]
    exact hrun

/-- If nesting is not restricted and all numerals stand for values, there are no restrictions. -/
theorem follow_of_readable (hts : ∀ x ∈ ts, x.Readable) :
    c.follow none ts = c.run (ts.map Token.kind) := by
  induction ts generalizing c with
  | nil => rfl
  | cons x ts ih =>
    obtain ⟨hx, hts⟩ := List.forall_mem_cons.1 hts
    have hadvance : c.advance none x = c.step x.kind := by
      rw [advance, if_pos hx]
      cases c.step x.kind <;> rfl
    rw [follow, List.map_cons, run_cons, hadvance]
    congr 1
    funext d
    exact ih hts

end State

end Automaton

open Automaton (State)

namespace Tape

variable {tape : Tape} {max : Option Nat} {i j : Nat} {c : State}

/-- The token at an index, which behind the last token is the end. -/
def token (tape : Tape) (i : Nat) : Token := tape.tokens[i]?.getD tape.eof

/-- The state of the automaton before a token of the tape, if it gets there. -/
def state (tape : Tape) (max : Option Nat) (i : Nat) : Option State :=
  State.start.follow max (tape.toList.take i)

theorem length_toList (tape : Tape) : tape.toList.length = tape.tokens.size + 1 := by
  rw [toList, List.length_append, Array.length_toList, List.length_singleton]

theorem getElem_toList (hi : i < tape.toList.length) : tape.toList[i] = tape.token i := by
  by_cases h : i < tape.tokens.size
  · simp [toList, Tape.token, h]
  · have : i = tape.tokens.size := by
      rw [length_toList] at hi
      omega
    subst this
    simp [toList, Tape.token]

theorem getElem?_toList (hi : i ≤ tape.tokens.size) : tape.toList[i]? = some (tape.token i) := by
  have hlt : i < tape.toList.length := by
    rw [length_toList]
    omega
  rw [List.getElem?_eq_getElem hlt, getElem_toList hlt]

theorem take_succ_toList (hi : i ≤ tape.tokens.size) :
    tape.toList.take (i + 1) = tape.toList.take i ++ [tape.token i] := by
  rw [List.take_add_one, getElem?_toList hi]
  rfl

theorem state_succ (hi : i ≤ tape.tokens.size) :
    tape.state max (i + 1) = (tape.state max i).bind fun c => c.advance max (tape.token i) := by
  rw [state, take_succ_toList hi, Automaton.State.follow_append]
  congr 1
  funext c
  simp only [State.follow]
  cases c.advance max (tape.token i) <;> rfl

/-- Where the automaton does not get, it does not get further. -/
theorem state_eq_none_of_le (h : tape.state max i = none) (hij : i ≤ j) :
    tape.state max j = none := by
  have hsplit : tape.toList.take j = tape.toList.take i ++ (tape.toList.take j).drop i := by
    have h := List.take_append_drop i (tape.toList.take j)
    rw [List.take_take, Nat.min_eq_left hij] at h
    exact h.symm
  rw [state, hsplit, Automaton.State.follow_append]
  exact congrArg (fun o => Option.bind o _) h

end Tape

theorem Input.current_eq_token (s : Input) : s.current = s.tape.token s.position := rfl

end Descent
