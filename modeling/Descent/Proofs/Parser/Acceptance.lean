import Descent.Proofs.Parser.Completeness
import Descent.Proofs.Parser.Diagnosis
import Descent.Proofs.Token.Cutting

/-!
# Which programs are read

Main statement: where nesting is not limited, the parser reads what the productions derive, and
nothing else (`Grammar.program_parse_iff`). The parser settles where statements end without ever
trying another way, so that it reads all that is derivable is not a matter of following a
derivation. It comes from the automaton: the automaton reads what is derivable to the end, and where
the parser fails, the automaton stops.

The other way round, what the automaton reads up to the end of the input is derivable, since the
parser reads it and returns a tree (`Automaton.derives_of_run`).
-/

namespace Descent

open Automaton (State)

/-- The tokens are those of a program with its end: their kinds are derivable, and all numerals
among them stand for values. -/
structure Sentence (ts : List Token) : Prop where
  derives : Symbol.program.Derives (ts.map Token.kind)
  readable : ∀ x ∈ ts, x.Readable

namespace Tape

/-- Where the automaton reads a whole tape, it gets to every place of it. -/
theorem isSome_state {tape : Tape} (h : (State.start.run (tape.toList.map Token.kind)).isSome)
    (hr : ∀ x ∈ tape.toList, x.Readable) (i : Nat) : (tape.state none i).isSome := by
  rw [state, Automaton.State.follow_of_readable fun x hx => hr x (List.mem_of_mem_take hx)]
  rw [← List.take_append_drop i tape.toList, List.map_append, Automaton.State.run_append] at h
  cases hrun : State.start.run ((tape.toList.take i).map Token.kind) with
  | none =>
    rw [hrun] at h
    cases h
  | some c => rfl

/-- Tokens that are sorted already make up the tape as they are. -/
theorem toList_ofTokens {ts : List Token} {x : Token}
    (hts : ∀ t ∈ ts, t.kind ≠ .eof ∧ t.kind.isTrivia = false) (hx : x.kind = .eof) :
    (Tape.ofTokens (ts ++ [x])).toList = ts ++ [x] := by
  obtain ⟨htokens, hend⟩ := Tape.ofTokens_concat (fun t ht => (hts t ht).1) hx
  rw [toList, htokens, hend, List.filter_eq_self.2 fun t ht => by simp [hts t ht]]

end Tape

namespace Grammar

variable {settings : Settings} {tokens : List Token} {a : Program} {t : Input}

/-- What the automaton reads to the end is read by the parser, if nesting is not limited. -/
theorem program_parse_of_run (hd : settings.maxDepth = none) (hu : settings.Usable)
    (h : (State.start.run ((Tape.ofTokens tokens).toList.map Token.kind)).isSome)
    (hr : ∀ x ∈ (Tape.ofTokens tokens).toList, x.Readable) :
    ∃ a t, program.parse (.ofTokens settings tokens) = .ok (a, t) := by
  -- Errors point at where the automaton stops only if the furthest ones are selected. The tree does
  -- not depend on that choice.
  let furthest := { settings with failureSelection := .furthest }
  have hfurthest : furthest.failureSelection = .furthest := rfl
  cases hp : program.parse (.ofTokens furthest tokens) with
  | ok r =>
    obtain ⟨hspells, -⟩ := sound_program Phrase.sound_parse hp
    refine ⟨r.1, hspells.program_parse (s := .ofTokens settings tokens) hu fun max hmax => ?_⟩
    cases hd.symm.trans hmax
  | error e =>
    obtain ⟨-, hdecides⟩ := program_error hfurthest hu hp
    have hstate (i : Nat) : (Tape.ofTokens tokens).state furthest.maxDepth i ≠ none := by
      rw [show furthest.maxDepth = none from hd, ← Option.isSome_iff_ne_none]
      exact Tape.isSome_state h hr i
    rcases hdecides with hnone | ⟨hnone, -⟩
    · exact absurd hnone (hstate _)
    · exact absurd hnone (hstate _)

theorem program_parse_eq (s : Input) :
    program.parse s = Parser.bind (Rule.many (.call .statement) <* Rule.eoi).parse
      (fun as => Parser.bind .here fun stop => .pure ⟨as, ⟨s.current.span.start, stop⟩⟩) s := rfl

/-- A program is read where its statements reach to the end. -/
theorem program_parse_eq_ok {s : Input} : program.parse s = .ok (a, t) ↔
    (Rule.many (.call .statement) <* Rule.eoi).parse s = .ok (a.statements, t) ∧
      a.span = ⟨s.current.span.start, t.current.span.start⟩ := by
  rw [program_parse_eq, Parser.bind_eq_ok]
  constructor
  · rintro ⟨as, u, hu, h⟩
    cases h
    exact ⟨hu, rfl⟩
  · rintro ⟨h, hspan⟩
    obtain ⟨as, span⟩ := a
    cases hspan
    exact ⟨as, t, h, rfl⟩

/-- A program fails where its statements do not reach to the end. -/
theorem program_parse_eq_error {s : Input} {e : ParseError} :
    program.parse s = .error e ↔
      (Rule.many (.call .statement) <* Rule.eoi).parse s = .error e := by
  rw [program_parse_eq, Parser.bind_eq_error]
  refine or_iff_left ?_
  rintro ⟨as, t, -, h⟩
  cases h

theorem spells_of_program_parse (h : program.parse (.ofTokens settings tokens) = .ok (a, t)) :
    Spells .program (Tape.ofTokens tokens).toList a :=
  (sound_program Phrase.sound_parse h).1

end Grammar

theorem Token.readable_of_ne {x : Token} {k : Token.Kind} (hx : x.kind = k) (hk : k ≠ .integer) :
    x.Readable := fun h => absurd (hx.symm.trans h) hk

theorem Token.readable_of_op {l : Layer} {x : Token} {op : BinaryOp}
    (h : l.op? x.kind = some op) : x.Readable := fun hx => by
  rw [hx] at h
  cases l <;> cases h

theorem Token.readable_of_unaryOp {x : Token} {op : UnaryOp}
    (h : Grammar.unaryOp? x.kind = some op) : x.Readable := fun hx => by
  rw [hx] at h
  cases h

/-- All numerals of a phrase that has a tree stand for values. -/
theorem Spells.readable {p : Part} {ts : List Token} {a : p.Tree} (h : Spells p ts a) :
    ∀ x ∈ ts, x.Readable := by
  have hne {x : Token} {k : Token.Kind} (hx : x.kind = k) (hk : k ≠ .integer) : x.Readable :=
    Token.readable_of_ne hx hk
  have hsemicolon {o : Option Token} (ho : ∀ x ∈ o, x.kind = .semicolon) :
      ∀ x ∈ o.toList, x.Readable := by
    intro x hx
    exact hne (ho x (Option.mem_toList.1 hx)) nofun
  induction h with
  | integer ht hn => exact List.forall_mem_singleton.2 fun _ => hn ▸ rfl
  | boolean b ht => exact List.forall_mem_singleton.2 (hne ht (by cases b <;> nofun))
  | var ht => exact List.forall_mem_singleton.2 (hne ht nofun)
  | group ho _ hc ih => simp +contextual [hne ho, hne hc, or_imp, ih]
  | conditional hi ho _ hc _ ih ihb =>
    simp +contextual [hne hi, hne ho, hne hc, or_imp, ih, ihb]
  | alternative hi ho _ hc _ hl _ ih ihb ihd =>
    simp +contextual [hne hi, hne ho, hne hc, hne hl, or_imp, ih, ihb, ihd]
  | function hf ho _ hc _ ih ihb =>
    simp +contextual [hne hf, hne ho, hne hc, or_imp, ih, ihb]
  | call _ ho _ hc ih iha => simp +contextual [hne ho, hne hc, or_imp, ih, iha]
  | unary ht _ ih => exact List.forall_mem_cons.2 ⟨Token.readable_of_unaryOp ht, ih⟩
  | binary _ ht _ ih ihf => simp +contextual [Token.readable_of_op ht, or_imp, ih, ihf]
  | tighter _ ih => exact ih
  | arguments _ _ ih ihs | stmts _ _ _ ih ihs => exact List.forall_mem_append.2 ⟨ih, ihs⟩
  | moreArguments hc _ _ ih ihs => simp +contextual [hne hc, or_imp, ih, ihs]
  | params ht _ ih => simp +contextual [hne ht, or_imp, ih]
  | moreParams hc ht _ ih => simp +contextual [hne hc, hne ht, or_imp, ih]
  | binding o hk hi ha _ hs ih =>
    simp +contextual [hne hk, hne hi, hne ha, or_imp, ih, hsemicolon hs]
  | returning o hk _ hs ih => simp +contextual [hne hk, or_imp, ih, hsemicolon hs]
  | evaluation o _ hs ih => exact List.forall_mem_append.2 ⟨ih, hsemicolon hs⟩
  | block ho _ hc ih => simp +contextual [hne ho, hne hc, or_imp, ih]
  | program _ ht ih =>
    exact List.forall_mem_append.2 ⟨ih, List.forall_mem_singleton.2 (hne ht nofun)⟩
  | _ => nofun

/-- The tokens of a program that has a tree are a sentence. -/
theorem Spells.sentence {ts : List Token} {a : Program} (h : Spells .program ts a) : Sentence ts :=
  ⟨h.derives, h.readable⟩

/-- Where nesting is not limited, a program is read if and only if its significant tokens are a
sentence, and they spell the tree that is read: each is used once, in order, operators bind by
layers and group to the left, and statements reach as far as they can. -/
theorem Grammar.program_parse_iff (settings : Settings) (hd : settings.maxDepth = none)
    (hu : settings.Usable) (tokens : List Token) :
    ((∃ a t, program.parse (.ofTokens settings tokens) = .ok (a, t)) ↔
      Sentence (Tape.ofTokens tokens).toList) ∧
    ∀ a t, program.parse (.ofTokens settings tokens) = .ok (a, t) →
      Spells .program (Tape.ofTokens tokens).toList a := by
  refine ⟨⟨?_, fun h => ?_⟩, fun a t h => spells_of_program_parse h⟩
  · rintro ⟨a, t, h⟩
    exact (spells_of_program_parse h).sentence
  · exact program_parse_of_run hd hu (Automaton.run_of_derives_program h.derives) h.readable

/-- A call is read. Its callee alone would be a statement, but none begins with what follows it. -/
theorem Grammar.program_parse_iff_call :
    let x (k : Token.Kind) : Token := ⟨k, ['x'], ⟨.start, .start⟩⟩
    ∃ a t, program.parse (.ofTokens {} [x .identifier, x .openParen, x .closeParen]) =
      .ok (a, t) := by
  intro x
  have hcallee : ∃ e, Spells (.expr .call) [x .identifier] e := ⟨_, .tighter (.var rfl)⟩
  obtain ⟨e, he⟩ := hcallee
  have hcall := Spells.call he (o := x .openParen) rfl .noArguments (c := x .closeParen) rfl
  have hstmt := Spells.evaluation none hcall.equation nofun
  have hstmts := Spells.stmts hstmt (.inr fun u hu => by cases hu) .noStmts
  have hprogram := Spells.program hstmts (t := .eofAt .start) rfl
  exact (program_parse_iff {} rfl (by decide) _).1.2 hprogram.sentence

/-- A token of the kind, which stands for a value if it is a numeral. -/
def Token.sample (k : Token.Kind) : Token := ⟨k, ['0'], ⟨.start, .start⟩⟩

theorem Token.readable_sample (k : Token.Kind) : (sample k).Readable :=
  fun _ => show (Text.Decimal.toInt64? ['0']).isSome by decide

theorem Token.map_kind_sample (w : List Token.Kind) : (w.map sample).map kind = w := by
  rw [List.map_map]
  exact List.map_id w

/-- What the automaton reads up to the end of the input is derivable. -/
theorem Automaton.derives_of_run {w : List Token.Kind}
    (h : (State.start.run (w ++ [.eof])).isSome) : Symbol.program.Derives (w ++ [.eof]) := by
  let tokens := w.map Token.sample ++ [Token.sample .eof]
  have htape : (Tape.ofTokens tokens).toList = tokens := by
    refine Tape.toList_ofTokens (fun t ht => ?_) rfl
    obtain ⟨k, hk, rfl⟩ := List.mem_map.1 ht
    exact significant_of_run h k hk
  have hkinds : tokens.map Token.kind = w ++ [.eof] := by
    rw [List.map_append, Token.map_kind_sample]
    rfl
  have hreadable : ∀ x ∈ tokens, x.Readable := by
    intro x hx
    rcases List.mem_append.1 hx with hx | hx
    · obtain ⟨k, -, rfl⟩ := List.mem_map.1 hx
      exact Token.readable_sample k
    · rw [List.mem_singleton.1 hx]
      exact Token.readable_sample .eof
  have hparse : ∃ a t, Grammar.program.parse (.ofTokens {} tokens) = .ok (a, t) :=
    Grammar.program_parse_of_run rfl (by decide) (by rwa [htape, hkinds]) (by rwa [htape])
  obtain ⟨a, t, hparse⟩ := hparse
  have hspells := Grammar.spells_of_program_parse hparse
  rw [htape] at hspells
  exact hkinds ▸ hspells.derives

/-! ## Texts -/

namespace Rule

variable {α : Type} {r : Rule α} {settings : Settings} {text : List Char} {a : α} {e : ParseError}

theorem parseText_eq_ok : r.parseText settings text = .ok a ↔ ∃ tokens,
    Token.ofText settings text = .ok tokens ∧
    ∃ t, r.parse (.ofTokens settings tokens) = .ok (a, t) := by
  unfold parseText Input.ofText
  cases Token.ofText settings text with
  | error f => simp
  | ok tokens =>
    cases h : r.parse (.ofTokens settings tokens) with
    | error f => simp [h]
    | ok p => simp [h, Prod.ext_iff]

theorem parseText_eq_lexical {e : LexError} :
    r.parseText settings text = .error (.lexical e) ↔ Token.ofText settings text = .error e := by
  unfold parseText Input.ofText
  cases Token.ofText settings text with
  | error f => simp
  | ok tokens => cases h : r.parse (.ofTokens settings tokens) <;> simp [h]

theorem parseText_eq_syntactic : r.parseText settings text = .error (.syntactic e) ↔ ∃ tokens,
    Token.ofText settings text = .ok tokens ∧
    r.parse (.ofTokens settings tokens) = .error e := by
  unfold parseText Input.ofText
  cases Token.ofText settings text with
  | error f => simp
  | ok tokens =>
    cases h : r.parse (.ofTokens settings tokens) with
    | error f => simp [h]
    | ok p => simp [h]

end Rule

theorem Program.parse_eq_ok {settings : Settings} {text : List Char} {p : Program} :
    parse settings text = .ok p ↔ ∃ tokens, Token.ofText settings text = .ok tokens ∧
      ∃ t, Grammar.program.parse (.ofTokens settings tokens) = .ok (p, t) :=
  Rule.parseText_eq_ok

theorem Program.parse_eq_lexical {settings : Settings} {text : List Char} {e : LexError} :
    parse settings text = .error (.lexical e) ↔ Token.ofText settings text = .error e :=
  Rule.parseText_eq_lexical

theorem Program.parse_eq_syntactic {settings : Settings} {text : List Char} {e : ParseError} :
    parse settings text = .error (.syntactic e) ↔ ∃ tokens,
      Token.ofText settings text = .ok tokens ∧
      Grammar.program.parse (.ofTokens settings tokens) = .error e :=
  Rule.parseText_eq_syntactic

theorem Expr.parse_eq_ok {settings : Settings} {text : List Char} {e : Expr} :
    parse settings text = .ok e ↔ ∃ tokens, Token.ofText settings text = .ok tokens ∧
      ∃ t, (Grammar.expression <* Rule.eoi).parse (.ofTokens settings tokens) = .ok (e, t) :=
  Rule.parseText_eq_ok

end Descent
