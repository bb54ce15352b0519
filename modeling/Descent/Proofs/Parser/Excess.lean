import Descent.Proofs.Parser.Deepest
import Descent.Proofs.Parser.Horizon
import Descent.Proofs.Parser.Limits
import Descent.Proofs.Parser.ViablePrefix

/-!
# Levels past the limit

An error for nesting too deep should point at a token that opens a level past the limit. Which
tokens open levels is told by the automaton (`Automaton.State.opens_step`): parentheses and braces,
and the first token of the operand of a unary operator. So where the tokens up to an error begin a
program, only the limit is in the way, and the token that the error points at opens a level past it
(`Program.viable_iff_exceeds`).

The parser asks whether a level is left before it looks for the token that opens it, and an error is
put down to an unexpected token only if nothing else failed there
(`Rule.cause_eq_unexpectedToken_iff`). So at the limit a token that cannot stand where an expression
begins is reported as nesting too deep, although it opens nothing (`Grammar.program_error_tooDeep`).
-/

namespace Descent

open Automaton (State Context)

namespace Automaton

variable {k l : Context} {c d : State} {t : Token.Kind}

namespace Context

theorem depth_base_le (k : Context) : k.base.depth ≤ k.depth := by
  induction k with
  | operand k ih => exact Nat.le_succ_of_le ih
  | _ => exact Nat.le_refl _

theorem base_ne_operand (k : Context) : k.base ≠ .operand l := by
  induction k with
  | operand k ih => exact ih
  | _ => nofun

theorem level_le (control : Control) (k : Context) : State.level ⟨control, k⟩ ≤ k.depth := by
  cases control <;> cases k <;> first | exact Nat.le_refl _ | exact Nat.le_succ _

/-- What is true of the state after a token in a context: no level is opened but by a parenthesis,
no unary operator waits for its operand in the middle of a binding, and one that waits has just been
read. -/
structure Yields (k : Context) (t : Token.Kind) (d : State) : Prop where
  level : t ≠ .openParen → d.level ≤ k.depth
  binding : d.control = .keywordLet ∨ d.control = .name → d.context.Plain
  unary : ∀ l, d = ⟨.operand, .operand l⟩ → t = .bang ∨ t = .minus

/-- The operand of a unary operator is a level of its own. -/
theorem Yields.operand (h : k.Yields t d) : (operand k).Yields t d :=
  ⟨fun ht => Nat.le_succ_of_le (h.level ht), h.binding, h.unary⟩

theorem yields_same (hk : k.Plain) (control : Control) : k.Yields t ⟨control, k⟩ :=
  ⟨fun _ => level_le control k, fun _ => hk, fun l hd => by cases hd; exact hk.elim⟩

theorem yields_outer {control : Control} (hle : l.depth ≤ k.depth)
    (hc : control ≠ .keywordLet ∧ control ≠ .name ∧ control ≠ .operand) :
    k.Yields t ⟨control, l⟩ :=
  ⟨fun _ => Nat.le_trans (level_le control l) hle,
    fun hd => hd.elim (absurd · hc.1) (absurd · hc.2.1),
    fun _ hd => absurd (congrArg State.control hd) hc.2.2⟩

theorem yields_startOperand (h : k.startOperand t = some d) : k.Yields t d := by
  cases t <;> first
    | (cases h; exact yields_outer (Nat.le_refl _) ⟨nofun, nofun, nofun⟩)
    | (cases h; exact ⟨fun _ => Nat.le_refl _, by simp, fun _ _ => by simp⟩)
    | (cases h; exact ⟨fun ht => absurd rfl ht, by simp, nofun⟩)
    | cases h

theorem yields_startStatement (h : k.startStatement t = some d) : k.Yields t d := by
  induction k with
  | operand k ih => exact (ih h).operand
  | block b k =>
    cases t <;> first
      | exact yields_startOperand h
      | (cases h; exact yields_same (by trivial) _)
      | (cases b <;> cases h <;> exact yields_outer (Nat.le_succ _) ⟨nofun, nofun, nofun⟩)
  | _ =>
    cases t <;> first
      | exact yields_startOperand h
      | (cases h; exact yields_same (by trivial) _)

theorem yields_resume (h : k.resume t = some d) : k.Yields t d := by
  induction k with
  | operand k ih => exact (ih h).operand
  | program =>
    cases t <;> first
      | exact yields_startStatement h
      | (cases h; exact yields_same (by trivial) _)
  | block b k =>
    cases t <;> first
      | exact yields_startStatement h
      | (cases h; exact yields_same (by trivial) _)
  | _ =>
    cases t <;> first
      | (cases h; exact yields_outer (Nat.le_succ _) ⟨nofun, nofun, nofun⟩)
      | (cases h; exact yields_same (by trivial) _)
      | cases h

theorem yields_proceed (h : k.proceed t = some d) : k.Yields t d := by
  unfold proceed at h
  split at h
  · next ht =>
    cases h
    exact ⟨fun hne => absurd ht hne, by simp, nofun⟩
  · split at h
    · cases h
      refine ⟨fun _ => Nat.le_trans (level_le _ _) k.depth_base_le, by simp, fun l hd => ?_⟩
      exact absurd (congrArg State.context hd) (base_ne_operand k)
    · exact yields_resume h

end Context

namespace State

/-- In the middle of a binding, no unary operator waits for its operand. -/
def Binds (c : State) : Prop :=
  c.control = .keywordLet ∨ c.control = .name → c.context.Plain

/-- What a token does to the levels: it opens one only if it is an opening parenthesis or brace or
begins the operand of a unary operator, and such an operand is waited for only behind a unary
operator. -/
structure Opens (c : State) (t : Token.Kind) (d : State) : Prop where
  level : c.level < d.level → t = .openParen ∨ t = .openBrace ∨ ∃ l, c = ⟨.operand, .operand l⟩
  binds : d.Binds
  unary : ∀ l, d = ⟨.operand, .operand l⟩ → t = .bang ∨ t = .minus

/-- Where the level is that of the context. -/
theorem opens_of_yields (h : k.Yields t d)
    (hc : c.level < k.depth → ∃ l, c = ⟨.operand, .operand l⟩) : c.Opens t d := by
  refine ⟨fun hlt => ?_, h.binding, h.unary⟩
  by_cases ht : t = .openParen
  · exact .inl ht
  · exact .inr (.inr (hc (Nat.lt_of_lt_of_le hlt (h.level ht))))

theorem opens_step (hc : c.Binds) (h : c.step t = some d) : c.Opens t d := by
  obtain ⟨control, k⟩ := c
  have plain (hlevel : level ⟨control, k⟩ = k.depth) (h : k.Yields t d) : Opens ⟨control, k⟩ t d :=
    opens_of_yields h fun hlt => absurd hlt (by omega)
  cases control with
  | statements => exact plain rfl (Context.yields_startStatement h)
  | keywordLet =>
    cases t <;> cases h
    exact plain rfl (Context.yields_same (hc (.inl rfl)) _)
  | name =>
    cases t <;> cases h
    exact plain rfl (Context.yields_same (hc (.inr rfl)) _)
  | operand =>
    refine opens_of_yields (Context.yields_startOperand h) fun hlt => ?_
    cases k with
    | operand l => exact ⟨l, rfl⟩
    | _ => exact absurd hlt (Nat.lt_irrefl _)
  | ended => exact plain rfl (Context.yields_resume h)
  | operandEnd => exact plain rfl (Context.yields_proceed h)
  | consequenceEnd =>
    by_cases ht : t = .kwElse
    · subst ht
      cases h
      exact plain rfl (Context.yields_outer (Nat.le_refl _) (by simp))
    · exact plain rfl (Context.yields_proceed (by simpa [step, ht] using h))
  | argumentsOpen =>
    by_cases ht : t = .closeParen
    · subst ht
      exact plain rfl (Context.yields_resume h)
    · exact plain rfl (Context.yields_startOperand (by simpa [step, ht] using h))
  | keywordIf =>
    cases t <;> cases h
    exact ⟨fun _ => .inl rfl, by simp [Binds], by simp⟩
  | blockOpen b =>
    cases t <;> cases h
    exact ⟨fun _ => .inr (.inl rfl), by simp [Binds], by simp⟩
  | _ =>
    cases t <;> cases h <;>
      exact plain rfl (Context.yields_outer (Nat.le_refl _) (by simp))

theorem binds_start : start.Binds := by simp [Binds, start]

theorem binds_follow {max : Option Nat} {ts : List Token} (hc : c.Binds)
    (h : c.follow max ts = some d) : d.Binds := by
  induction ts generalizing c with
  | nil =>
    cases h
    exact hc
  | cons x ts ih =>
    obtain ⟨c', hc', h⟩ := Option.bind_eq_some_iff.1 h
    exact ih (opens_step hc (advance_eq_some.1 hc').2.1).binds h

end State

end Automaton

/-! ## The token that an error points at -/

namespace Tape

variable {tape : Tape} {i j d : Nat} {c : State}

/-- The automaton reads tokens of the tape, without the limit, exactly if they begin a sentence. -/
theorem viable_take_iff (hi : i ≤ tape.tokens.size + 1) :
    Viable (tape.toList.take i) ↔ (tape.state none i).isSome := by
  constructor
  · intro h
    rw [← List.append_nil (tape.toList.take i)] at h
    obtain ⟨c, hc, -, hread⟩ := h.run
    rw [state, Automaton.State.follow_of_readable hread, hc]
    rfl
  · intro h
    obtain ⟨c, hc⟩ := Option.isSome_iff_exists.1 h
    obtain ⟨hrun, hread⟩ := Automaton.State.run_of_follow hc
    rcases Nat.lt_or_eq_of_le hi with hlt | rfl
    · refine viable_of_run hread (fun x hx => ?_) hrun
      rw [toList, List.take_append_of_le_length (by simpa using Nat.le_of_lt_succ hlt)] at hx
      exact (tape.tokens_significant x (by simpa using List.mem_of_mem_take hx)).1
    · rw [← length_toList, List.take_length] at hrun hread ⊢
      refine ⟨[], ?_, by simpa using hread⟩
      have hkinds : tape.toList.map Token.kind = tape.tokens.toList.map Token.kind ++ [.eof] := by
        rw [toList, List.map_append, List.map_singleton, tape.eof_kind]
      rw [hkinds] at hrun
      rw [List.append_nil, hkinds]
      exact Automaton.derives_of_run (by rw [hrun]; rfl)

theorem binds_of_state {max : Option Nat} (h : tape.state max i = some c) : c.Binds :=
  Automaton.State.binds_follow Automaton.State.binds_start h

/-- Within the limit, the automaton is at the states that it is at without. -/
theorem state_none {max : Option Nat} (h : tape.state max i = some c) :
    tape.state none i = some c := by
  obtain ⟨hrun, hread⟩ := Automaton.State.run_of_follow h
  rw [state, Automaton.State.follow_of_readable hread]
  exact hrun

/-- The token is a unary operator: its operand has to follow. -/
structure IsPrefix (tape : Tape) (j : Nat) : Prop where
  kind : (tape.token j).kind = .bang ∨ (tape.token j).kind = .minus
  operand : ∃ c l, tape.state none j = some c ∧
    c.step (tape.token j).kind = some ⟨.operand, .operand l⟩

/-- The token really opens a level of nesting past `d`: it can follow, more than `d` levels are
around it then, and it is an opening parenthesis or brace or the first of the operand of a unary
operator. -/
structure Exceeds (tape : Tape) (d i : Nat) : Prop where
  level : ∃ c, tape.state none (i + 1) = some c ∧ d < c.level
  opens : (tape.token i).kind = .openParen ∨ (tape.token i).kind = .openBrace ∨
    ∃ j, i = j + 1 ∧ tape.IsPrefix j

theorem level_le_of_state (h : tape.state (some d) i = some c) (hi : i ≤ tape.tokens.size + 1) :
    c.level ≤ d := by
  cases i with
  | zero =>
    cases h
    exact Nat.zero_le d
  | succ j =>
    rw [state_succ (Nat.le_of_succ_le_succ hi)] at h
    obtain ⟨b, -, hadvance⟩ := Option.bind_eq_some_iff.1 h
    exact (Automaton.State.advance_eq_some.1 hadvance).2.2 d rfl

/-- A token that only the limit keeps the automaton from reading opens a level past it. -/
theorem exceeds_of_state (hi : i ≤ tape.tokens.size) (hc : tape.state (some d) i = some c)
    (hstop : tape.state (some d) (i + 1) = none) {c' : State}
    (hc' : tape.state none (i + 1) = some c') : tape.Exceeds d i := by
  have hnone := state_none hc
  rw [state_succ hi, hnone] at hc'
  obtain ⟨hread, hstep, -⟩ := Automaton.State.advance_eq_some.1 hc'
  have hlevel : d < c'.level := by
    refine Nat.lt_of_not_le fun hle => ?_
    have hadvance : c.advance (some d) (tape.token i) = some c' :=
      Automaton.State.advance_eq_some.2 ⟨hread, hstep, fun m hm => by cases hm; exact hle⟩
    rw [state_succ hi, hc, Option.bind_some, hadvance] at hstop
    cases hstop
  have hlt : c.level < c'.level :=
    Nat.lt_of_le_of_lt (level_le_of_state hc (Nat.le_succ_of_le hi)) hlevel
  refine ⟨⟨c', by rw [state_succ hi, hnone]; exact hc', hlevel⟩, ?_⟩
  refine (Automaton.State.opens_step (binds_of_state hc) hstep).level hlt |>.imp_right
    (Or.imp_right ?_)
  rintro ⟨l, rfl⟩
  -- The automaton starts before a statement, so what waits for its operand has been read.
  cases i with
  | zero => cases hnone
  | succ j =>
    have hbefore := hnone
    rw [state_succ (Nat.le_of_succ_le hi)] at hbefore
    obtain ⟨b, hb, hadvance⟩ := Option.bind_eq_some_iff.1 hbefore
    obtain ⟨-, hoperator, -⟩ := Automaton.State.advance_eq_some.1 hadvance
    have hopens := Automaton.State.opens_step (binds_of_state hb) hoperator
    exact ⟨j, rfl, hopens.unary l rfl, b, l, hb, hoperator⟩

end Tape

/-- An error for nesting too deep is about real nesting exactly if the tokens up to the one that it
points at begin a program: that token opens a level past the limit then. Any other error is at a
token that cannot stand where it does, whatever the limit. -/
theorem Program.viable_iff_exceeds (settings : Settings)
    (hs : settings.failureSelection = .furthest) (hu : settings.Usable) {d : Nat}
    (hd : settings.maxDepth = some d) {text : List Char} {e : ParseError}
    (h : parse settings text = .error (.syntactic e)) :
    ∃ tokens, Token.ofText settings text = .ok tokens ∧
      (Viable ((Tape.ofTokens tokens).toList.take (e.index + 1)) ↔
        e.cause = .tooDeep ∧ (Tape.ofTokens tokens).Exceeds d e.index) := by
  obtain ⟨tokens, htokens, hparse⟩ := parse_eq_syntactic.1 h
  obtain ⟨hjustifies, hdecides⟩ := Grammar.program_error hs hu hparse
  have hi := hjustifies.index_le
  obtain ⟨c, hc, -⟩ := hjustifies.state
  refine ⟨tokens, htokens, ?_⟩
  rw [Tape.viable_take_iff (Nat.succ_le_succ hi)]
  constructor
  · intro hnext
    obtain ⟨c', hc'⟩ := Option.isSome_iff_exists.1 hnext
    have hstep := hc'
    rw [Tape.state_succ hi, Tape.state_none hc] at hstep
    obtain ⟨hread, hstep, -⟩ := Automaton.State.advance_eq_some.1 hstep
    refine ⟨Grammar.cause_of_step hs hu hparse hc hread hstep, ?_⟩
    rw [Tape.Decides, hc] at hdecides
    rw [hd] at hc hdecides
    exact Tape.exceeds_of_state hi hc (hdecides.resolve_left (Option.some_ne_none c)).1 hc'
  · rintro ⟨-, ⟨c', hc', -⟩, -⟩
    rw [hc']
    rfl

/-- A parenthesis that opens a level too many is reported as such. -/
theorem Program.viable_iff_exceeds_openParen : ∃ e tokens,
    parse { maxDepth := some 0 } ['('] = .error (.syntactic e) ∧
      Token.ofText { maxDepth := some 0 } ['('] = .ok tokens ∧
      e.cause = .tooDeep ∧ (Tape.ofTokens tokens).Exceeds 0 e.index := by
  have hcut : Token.Cut ['('] [(.openParen, ['('])] := .symbol rfl rfl .nil
  obtain ⟨tokens, htokens, hwords⟩ := hcut.ofText { maxDepth := some 0 }
  obtain ⟨x, hx, hword⟩ := List.map_eq_singleton_iff.1 hwords
  have hkind : x.kind = .openParen := congrArg Prod.fst hword
  have htape : (Tape.ofTokens tokens).toList = [x, (Tape.ofTokens tokens).eof] := by
    rw [Tape.toList, hx]
    rfl
  have hread : x.Readable := fun h => by cases hkind.symm.trans h
  cases hparse : Grammar.program.parse (.ofTokens { maxDepth := some 0 } tokens) with
  | ok r =>
    have hrun := Automaton.run_of_derives_program
      (Grammar.spells_of_program_parse (a := r.1) (t := r.2) hparse).derives
    rw [htape, List.map_cons, List.map_singleton, hkind, Tape.eof_kind] at hrun
    cases hrun
  | error e =>
    have herror := parse_eq_syntactic.2 ⟨tokens, htokens, hparse⟩
    obtain ⟨_, htokens', hiff⟩ :=
      viable_iff_exceeds { maxDepth := some 0 } rfl (by decide) rfl herror
    cases htokens.symm.trans htokens'
    -- With no level left, the automaton stops before the parenthesis.
    have hindex : e.index = 0 := by
      obtain ⟨hjustifies, -⟩ := Grammar.program_error rfl (by decide) hparse
      obtain ⟨c, hc, -⟩ := hjustifies.state
      refine Nat.eq_zero_of_not_pos fun hpos => ?_
      have hone : (Tape.ofTokens tokens).state (some 0) 1 = none := by
        rw [Tape.state, htape]
        show (State.start.advance (some 0) x).bind _ = none
        rw [State.advance, if_pos hread, hkind]
        rfl
      cases (Tape.state_eq_none_of_le hone hpos).symm.trans hc
    have hviable : Viable [x] := by
      refine viable_of_run (c := ⟨.operand, .group .program⟩) ?_ ?_ ?_
      · exact List.forall_mem_singleton.2 hread
      · exact List.forall_mem_singleton.2 (by rw [hkind]; decide)
      · rw [List.map_singleton, hkind]
        rfl
    exact ⟨e, tokens, herror, htokens, hiff.1 (by rwa [hindex, htape])⟩

/-! ## Errors at the limit that are not about nesting -/

/-- Another error at the same token does not take a special cause away. -/
theorem ParseError.lasting_cause (n : Nat) :
    Lasting fun e => n < e.index ∨ (e.index = n ∧ e.cause ≠ .unexpectedToken) where
  left e f he := by
    unfold join
    split
    · exact .inl (by omega)
    · split
      · refine he.imp_right fun h => ⟨h.1, ?_⟩
        cases hc : e.cause <;> first | exact absurd hc h.2 | nofun
      · exact he
  right e f he := by
    unfold join
    split
    · exact he
    · split
      · next heq =>
        refine he.imp (by simp only; omega) fun h => ⟨by simp only; omega, ?_⟩
        cases hc : f.cause <;> first | exact h.2 | nofun
      · exact .inl (by omega)
  expected _ _ h := h

/-- An error is put down to an unexpected token only if no part of the rule fails at that token for
another reason. -/
theorem Rule.cause_eq_unexpectedToken_iff {α : Type} {r : Rule α} {s : Input} {e : ParseError}
    (hr : r.RefinesTokens) (ht : s.settings.tieBreak = .firstMatch)
    (hs : s.settings.failureSelection = .furthest) (hnone : s.furthest = none)
    (he : r.parse s = .error e) :
    e.cause = .unexpectedToken ↔
      ∀ u x, r.Raises s u x → x.index = e.index → x.cause = .unexpectedToken := by
  constructor
  · intro hcause u x hx hindex
    by_contra hspecial
    have hlasting := ParseError.lasting_cause x.index
    have hkeeps := hx.keeps hlasting hr ht hs
      (Input.report_of_lasting hlasting (.inr ⟨rfl, hspecial⟩))
    rw [he] at hkeeps
    obtain hlt | ⟨-, hne⟩ := hkeeps
    · exact absurd hindex (Nat.ne_of_lt hlt)
    · exact hne hcause
  · intro hall
    have hclosed : ParseError.Closed fun e => e.cause ≠ .unexpectedToken →
        ∃ u x, r.Raises s u x ∧ x.index = e.index ∧ x.cause ≠ .unexpectedToken := by
      refine ⟨fun e f he hf => ?_, fun e x he => he⟩
      unfold ParseError.join
      split
      · exact hf
      · split
        · next heq =>
          intro hne
          by_cases hcause : e.cause = .unexpectedToken
          · obtain ⟨u, x, hx, hindex, hspecial⟩ := hf fun h => hne (by rw [hcause, h]; rfl)
            exact ⟨u, x, hx, hindex.trans heq.symm, hspecial⟩
          · exact he hcause
        · exact he
    have hgathers := Parser.yields_iff.1 <| r.gathers hclosed s
      (fun f hf => by cases hnone.symm.trans hf) fun u x hx hne => ⟨u, x, hx, rfl, hne⟩
    by_contra hne
    obtain ⟨u, x, hx, hindex, hspecial⟩ := hgathers.1 e he hne
    exact hspecial (hall u x hx hindex)

namespace Grammar

open Rule

variable {s : Input} {x : ParseError}

/-- Before a token that begins no primary expression, an expression in parentheses is tried. -/
theorem raises_primary (hstart : ¬StartsPrimary s.current.kind) (hd : s.descend = .error x) :
    primary.Raises s s (s.bare ∅ .tooDeep) := by
  have hnone : primaryOf? s.current.kind = none := by
    generalize s.current.kind = k at hstart
    cases k <;> first | rfl | exact absurd rfl hstart
  refine .named (.branch ⟨3, by decide⟩ (fun _ j _ => ?_) (.self (.descend hd)))
  exact (begins_primaryOf? _ (List.get_mem _ j)).fails fun h => by cases hnone.symm.trans h

/-- Before a token that begins no statement, an expression in parentheses is tried. -/
theorem raises_statement (hu : s.settings.Usable) (hstart : ¬StartsStatement s.current.kind)
    (hd : s.descend = .error x) : (call .statement).Raises s s (s.bare ∅ .tooDeep) := by
  have hlayer : ¬Layer.unary.Starts s.current.kind := fun h =>
    hstart (Bool.or_eq_true_iff.2 (.inl (Bool.or_eq_true_iff.2 (.inl h))))
  have hunary : unaryOp? s.current.kind = none := by
    cases hop : unaryOp? s.current.kind with
    | none => rfl
    | some op => exact absurd (Layer.starts_of_unaryOp hop) hlayer
  have hcalls : calls.Raises s s (s.bare ∅ .tooDeep) :=
    .start (raises_primary (fun h => hlayer (Layer.starts_of_tighter h)) hd)
  have hoperand : (call .unary).Raises s s (s.bare ∅ .tooDeep) := by
    refine .call (.next (lookahead_of_usable hu) ?_)
    simp only [hunary]
    exact hcalls
  have hexpression : (call .expression).Raises s s (s.bare ∅ .tooDeep) :=
    .call (.start (.start (.start (.start hoperand))))
  refine .call (.branch ⟨2, by decide⟩ (fun _ j hj => ?_) (.first hexpression))
  match j, hj with
  | ⟨0, _⟩, _ => exact begins_binding.fails fun h => hstart (by rw [h]; rfl)
  | ⟨1, _⟩, _ => exact begins_returning.fails fun h => hstart (by rw [h]; rfl)

/-- With no level of nesting allowed, a first token that begins no statement is reported as nesting
too deep. -/
theorem program_error_tooDeep {settings : Settings} {tokens : List Token}
    (ht : settings.tieBreak = .firstMatch) (hs : settings.failureSelection = .furthest)
    (hu : settings.Usable) (hd : settings.maxDepth = some 0)
    (hstart : ¬StartsStatement ((Tape.ofTokens tokens).token 0).kind)
    (hend : ((Tape.ofTokens tokens).token 0).kind ≠ .eof) :
    ∃ e, program.parse (.ofTokens settings tokens) = .error e ∧ e.index = 0 ∧
      e.cause = .tooDeep := by
  let s := Input.ofTokens settings tokens
  obtain ⟨e, he, hle⟩ := program_error_of_start (s := s) hstart fun h =>
    hend (s.atEnd_iff_current.1 h)
  have hindex : e.index = 0 := Nat.le_zero.1 hle
  have hdescend : s.descend = .error (s.error .tooDeep) :=
    if_pos (by rw [show s.settings.maxDepth = some 0 from hd]; rfl)
  have hraises : program.Raises s s (s.bare ∅ .tooDeep) :=
    .next rfl (.first (.first (.once (raises_statement hu hstart hdescend))))
  obtain ⟨hjustifies, -⟩ := program_error hs hu he
  obtain ⟨c, -, -, happlies⟩ := hjustifies.state
  refine ⟨e, he, hindex, ?_⟩
  cases hkind : e.cause with
  | tooDeep => rfl
  | unexpectedToken =>
    have hall := (cause_eq_unexpectedToken_iff (r := program) (s := s)
      predictive_program.refinesTokens ht hs rfl he).1 hkind
    cases hall s _ hraises hindex.symm
  | invalidLiteral =>
    rw [hkind, hindex] at happlies
    have hinteger := (Decidable.not_imp_iff_and_not.1 happlies.1).1
    exact absurd (by rw [hinteger]; rfl) hstart
  | beyondLookahead | pastEnd =>
    rw [hkind] at happlies
    exact happlies.elim

end Grammar

/-- A parenthesis that closes nothing is reported as nesting too deep where no level is allowed. -/
theorem Program.error_tooDeep_closeParen : ∃ e tokens,
    parse { maxDepth := some 0 } [')'] = .error (.syntactic e) ∧
      Token.ofText { maxDepth := some 0 } [')'] = .ok tokens ∧ e.cause = .tooDeep ∧
      e.index = 0 ∧ ((Tape.ofTokens tokens).token 0).kind = .closeParen ∧
      ¬(Tape.ofTokens tokens).Exceeds 0 0 := by
  have hcut : Token.Cut [')'] [(.closeParen, [')'])] := .symbol rfl rfl .nil
  obtain ⟨tokens, htokens, hwords⟩ := hcut.ofText { maxDepth := some 0 }
  obtain ⟨x, hx, hword⟩ := List.map_eq_singleton_iff.1 hwords
  have hkind : ((Tape.ofTokens tokens).token 0).kind = .closeParen := by
    rw [Tape.token, ← Array.getElem?_toList, hx]
    exact congrArg Prod.fst hword
  obtain ⟨e, he, hindex, hcause⟩ : ∃ e,
      Grammar.program.parse (.ofTokens { maxDepth := some 0 } tokens) = .error e ∧ e.index = 0 ∧
        e.cause = .tooDeep :=
    Grammar.program_error_tooDeep rfl rfl (by decide) rfl (by rw [hkind]; decide)
      (by rw [hkind]; decide)
  refine ⟨e, tokens, parse_eq_syntactic.2 ⟨tokens, htokens, he⟩, htokens, hcause, hindex, hkind, ?_⟩
  rintro ⟨-, ho | ho | ⟨j, hj, -⟩⟩
  · cases hkind.symm.trans ho
  · cases hkind.symm.trans ho
  · cases hj

end Descent
