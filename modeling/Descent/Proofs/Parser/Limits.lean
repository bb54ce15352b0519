import Descent.Proofs.Parser.Acceptance
import Descent.Proofs.Token.Cutting

/-!
# What a limit on nesting does

Main statement: with a limit, the parser reads the programs whose trees need no more levels than the
limit allows, and it returns the trees that it returns without a limit (`Program.parse_limited`).
The error at a level too many is raised inside repetitions and options, which give an attempt up and
go on. That never leads to another tree, and the error is not lost: if the furthest errors are
selected, a program that nests too deep is reported as such, since nothing else stops the automaton.
-/

namespace Descent

namespace Grammar

variable {settings : Settings} {tokens : List Token} {a : Program} {d : Nat}

/-- Whatever the limit, the tokens decide on the tree, and its need on whether it is read. -/
theorem program_parse_limited (hu : settings.Usable) (max : Option Nat) :
    (∃ t, program.parse (.ofTokens { settings with maxDepth := max } tokens) = .ok (a, t)) ↔
      Spells .program (Tape.ofTokens tokens).toList a ∧ ∀ d ∈ max, a.need ≤ d := by
  constructor
  · rintro ⟨t, h⟩
    obtain ⟨hspells, hneed⟩ := sound_program Phrase.sound_parse h
    exact ⟨hspells, fun d hd =>
      Nat.le_trans (Nat.le_add_left _ _) (hneed (fun m _ => Nat.zero_le m) d hd)⟩
  · rintro ⟨hspells, hneed⟩
    refine hspells.program_parse (s := .ofTokens { settings with maxDepth := max } tokens) hu
      fun d hd => ?_
    exact (Nat.zero_add a.need).symm ▸ hneed d hd

/-- Tokens spell at most one program. -/
theorem program_unique {b : Program} (ha : Spells .program (Tape.ofTokens tokens).toList a)
    (hb : Spells .program (Tape.ofTokens tokens).toList b) : a = b := by
  have hu : ({} : Settings).Usable := by decide
  obtain ⟨t, ht⟩ := (program_parse_limited hu none).2 ⟨ha, nofun⟩
  obtain ⟨u, hu⟩ := (program_parse_limited hu none).2 ⟨hb, nofun⟩
  cases ht.symm.trans hu
  rfl

/-- An error at a token that could follow, but for the limit, is that it nests too deep. -/
theorem cause_of_step {e : ParseError} {c c' : Automaton.State}
    (hs : settings.failureSelection = .furthest) (hu : settings.Usable)
    (he : program.parse (.ofTokens settings tokens) = .error e)
    (hc : (Tape.ofTokens tokens).state settings.maxDepth e.index = some c)
    (hread : ((Tape.ofTokens tokens).token e.index).Readable)
    (hstep : c.step ((Tape.ofTokens tokens).token e.index).kind = some c') :
    e.cause = .tooDeep := by
  obtain ⟨hjustifies, hdecides⟩ := program_error hs hu he
  obtain ⟨d, hd, -, hcause⟩ := hjustifies.state
  cases hkind : e.cause with
  | tooDeep => rfl
  | unexpectedToken =>
    rcases hdecides with hnone | ⟨-, hunexpected⟩
    · cases hnone.symm.trans hc
    · cases (hunexpected hkind c hc).symm.trans hstep
  | invalidLiteral =>
    rw [hkind] at hcause
    exact absurd hread hcause.1
  | beyondLookahead | pastEnd =>
    rw [hkind] at hcause
    exact hcause.elim

/-- An error in a sentence, all of which the automaton could read, is that it nests too deep. -/
theorem cause_of_sentence {e : ParseError}
    (hs : settings.failureSelection = .furthest) (hu : settings.Usable)
    (h : Sentence (Tape.ofTokens tokens).toList)
    (he : program.parse (.ofTokens settings tokens) = .error e) : e.cause = .tooDeep := by
  obtain ⟨hjustifies, -⟩ := program_error hs hu he
  obtain ⟨c, hc, -⟩ := hjustifies.state
  have hrun := Automaton.run_of_derives_program h.derives
  -- Without the limit, the automaton gets to the error in the same state, and one token further.
  have hsame : (Tape.ofTokens tokens).state none e.index = some c := by
    obtain ⟨hstate, hreadable⟩ := Automaton.State.run_of_follow hc
    rw [Tape.state, Automaton.State.follow_of_readable hreadable]
    exact hstate
  have hnext := Tape.isSome_state hrun h.readable (e.index + 1)
  rw [Tape.state_succ hjustifies.index_le, hsame] at hnext
  obtain ⟨c', hc'⟩ := Option.isSome_iff_exists.1 hnext
  obtain ⟨hread, hstep, -⟩ := Automaton.State.advance_eq_some.1 hc'
  exact cause_of_step hs hu he hc hread hstep

end Grammar

/-- With a limit on nesting, a text is read if and only if it is read without one and its tree needs
no more levels than the limit. The tree is the same. If the furthest errors are selected, the error
of a program that needs more levels says so. -/
theorem Program.parse_limited (settings : Settings) (hu : settings.Usable) (text : List Char)
    (d : Nat) :
    (∀ a, parse { settings with maxDepth := some d } text = .ok a ↔
      parse { settings with maxDepth := none } text = .ok a ∧ a.need ≤ d) ∧
    (settings.failureSelection = .furthest →
      ∀ a, parse { settings with maxDepth := none } text = .ok a → d < a.need →
        ∃ e, parse { settings with maxDepth := some d } text = .error (.syntactic e) ∧
          e.cause = .tooDeep) := by
  constructor
  · intro a
    rw [parse_eq_ok, parse_eq_ok]
    constructor
    · rintro ⟨tokens, htokens, hparse⟩
      obtain ⟨hspells, hneed⟩ := (Grammar.program_parse_limited hu (some d)).1 hparse
      exact ⟨⟨tokens, htokens, (Grammar.program_parse_limited hu none).2 ⟨hspells, nofun⟩⟩,
        hneed d rfl⟩
    · rintro ⟨⟨tokens, htokens, hparse⟩, hneed⟩
      obtain ⟨hspells, -⟩ := (Grammar.program_parse_limited hu none).1 hparse
      refine ⟨tokens, htokens, (Grammar.program_parse_limited hu (some d)).2 ⟨hspells, ?_⟩⟩
      rintro _ ⟨⟩
      exact hneed
  · intro hs a ha hdeep
    obtain ⟨tokens, htokens, hparse⟩ := parse_eq_ok.1 ha
    obtain ⟨hspells, -⟩ := (Grammar.program_parse_limited hu none).1 hparse
    let limited := { settings with maxDepth := some d }
    have hfurthest : limited.failureSelection = .furthest := hs
    cases hlimited : Grammar.program.parse (.ofTokens limited tokens) with
    | ok r =>
      obtain ⟨hspells', hneed⟩ := (Grammar.program_parse_limited hu (some d)).1 ⟨r.2, hlimited⟩
      cases Grammar.program_unique hspells hspells'
      exact absurd (hneed d rfl) (Nat.not_le.2 hdeep)
    | error e =>
      exact ⟨e, parse_eq_syntactic.2 ⟨tokens, htokens, hlimited⟩,
        Grammar.cause_of_sentence hfurthest hu hspells.sentence hlimited⟩

/-- A variable in parentheses needs one level. -/
theorem Program.parse_limited_group :
    (∃ a, parse { maxDepth := some 1 } ['(', 'x', ')'] = .ok a) ∧
      ∃ e, parse { maxDepth := some 0 } ['(', 'x', ')'] = .error (.syntactic e) ∧
        e.cause = .tooDeep := by
  have hname : Token.Cut ['x', ')'] [(.identifier, ['x']), (.closeParen, [')'])] :=
    .name (w := ['x']) (by decide) (fun _ hc => by cases hc; rfl) (.symbol rfl rfl .nil)
  have hcut : Token.Cut ['(', 'x', ')'] ((.openParen, ['(']) :: _) := .symbol rfl rfl hname
  obtain ⟨tokens, htokens, hwords⟩ := hcut.ofText {}
  obtain ⟨o, us, hus, ho, hrest⟩ := List.map_eq_cons_iff.1 hwords
  obtain ⟨x, vs, rfl, hx, hend⟩ := List.map_eq_cons_iff.1 hrest
  obtain ⟨c, rfl, hc⟩ := List.map_eq_singleton_iff.1 hend
  have hvar := (Spells.var (congrArg Prod.fst hx)).equation
  have hgroup := Spells.group (congrArg Prod.fst ho) hvar (congrArg Prod.fst hc)
  have hstmt := Spells.evaluation none hgroup.equation fun t ht => by cases ht
  have hstmts := Spells.stmts hstmt (.inr fun u hu => by cases hu) .noStmts
  obtain ⟨a, ha, hneed⟩ : ∃ a, Spells .program (Tape.ofTokens tokens).toList a ∧ a.need = 1 := by
    rw [Tape.toList, hus]
    exact ⟨_, .program hstmts (Tape.ofTokens tokens).eof_kind, rfl⟩
  have hu : ({} : Settings).Usable := by decide
  have hparse := parse_eq_ok.2 ⟨tokens, htokens,
    (Grammar.program_parse_limited hu none).2 ⟨ha, fun d hd => by cases hd⟩⟩
  obtain ⟨hone, -⟩ := parse_limited {} hu ['(', 'x', ')'] 1
  obtain ⟨-, hzero⟩ := parse_limited {} hu ['(', 'x', ')'] 0
  exact ⟨⟨a, (hone a).2 ⟨hparse, Nat.le_of_eq hneed⟩⟩, hzero rfl a hparse (hneed ▸ Nat.one_pos)⟩

end Descent
