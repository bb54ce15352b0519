import Descent.CommandLine
import Descent.Proofs.Settings
import Descent.Proofs.Tree.RoundTrip

/-!
# Formatting twice

Main statement: what was printed is printed again as it is, under the same settings, if and only if
it nests no deeper than they allow (`CommandLine.output_output`). The canonical text has parentheses
around every operation, and a limit on nesting counts them when the text is read: a source that was
within the limit may have a text that is not. Such a text is rejected. No text is ever printed as
another one.
-/

namespace Descent.CommandLine

variable {held : Option ByteArray} {input : ByteArray} {s : Settings} {t text : List Char}

/-- The bytes of a text in UTF-8. -/
def utf8 (t : List Char) : ByteArray := (String.ofList t).toUTF8

/-- The bytes of a text hold it. -/
@[simp]
theorem text?_utf8 (t : List Char) : text? (utf8 t) = some t := by
  have hdecoded : String.fromUTF8? (utf8 t) = some (String.ofList t) :=
    dif_pos (String.ofList t).isValidUTF8
  rw [text?, hdecoded, Option.map_some, String.toList_ofList]

/-- The settings of a run are usable, whether they are given or not. -/
theorem usable_of_settings (h : settings held = .ok s) : s.Usable := by
  unfold settings at h
  split at h
  · cases h
    decide
  · split at h
    · next s' hs =>
      cases h
      exact Settings.usable_of_ofText hs
    · cases h

/-- Settings in the environment are those of the text there. -/
theorem settings_utf8 (h : Settings.ofText t = .ok s) : settings (some (utf8 t)) = .ok s := by
  simp [settings, h]

/-- The canonical text of a program that is read is printed. -/
theorem output_of_ok {p : Program} (hs : settings held = .ok s) (ht : text? input = some t)
    (hp : Program.parse s t = .ok p) : output held input = .ok p.pretty := by
  simp [output, hs, ht, hp, bind, Except.bind, pure, Except.pure]

/-- A diagnostic of the parser ends the run. -/
theorem output_of_error {d : Diagnostic} (hs : settings held = .ok s) (ht : text? input = some t)
    (hd : Program.parse s t = .error d) : output held input = .error (.rejected d) := by
  simp [output, hs, ht, hd, bind, Except.bind, throw, throwThe, MonadExceptOf.throw]

/-- What is printed is the canonical text of a program that is read. -/
theorem exists_of_output (h : output held input = .ok text) : ∃ s t p, settings held = .ok s ∧
    text? input = some t ∧ Program.parse s t = .ok p ∧ text = p.pretty := by
  cases hs : settings held with
  | error f => simp [output, hs, bind, Except.bind] at h
  | ok s =>
    cases ht : text? input with
    | none => simp [output, hs, ht, bind, Except.bind, throw, throwThe, MonadExceptOf.throw] at h
    | some t =>
      cases hp : Program.parse s t with
      | error d => cases h.symm.trans (output_of_error hs ht hp)
      | ok p =>
        cases h.symm.trans (output_of_ok hs ht hp)
        exact ⟨s, t, p, rfl, rfl, hp, rfl⟩

/-- A sum is read under any limit, and its text has parentheses. -/
theorem exists_parse_sum (hu : s.Usable) : ∃ p, Program.parse s ['1', '+', '2'] = .ok p ∧
    p.pretty = ['(', '1', ' ', '+', ' ', '2', ')', ';', '\n'] ∧ p.prettyNeed = 1 := by
  have hlast : Token.Cut ['2'] [(.integer, ['2'])] :=
    .integer (w := ['2']) (by decide) (List.forall_mem_singleton.2 rfl)
      (fun _ hc => by cases hc) .nil
  have hcut : Token.Cut ['1', '+', '2'] ((.integer, ['1']) :: (.plus, ['+']) :: _) :=
    .integer (w := ['1']) (by decide) (List.forall_mem_singleton.2 rfl)
      (fun _ hc => by cases hc; rfl) (.symbol rfl rfl hlast)
  obtain ⟨tokens, htokens, hwords⟩ := hcut.ofText s
  obtain ⟨x, us, hus, hx, hrest⟩ := List.map_eq_cons_iff.1 hwords
  obtain ⟨o, vs, rfl, ho, hend⟩ := List.map_eq_cons_iff.1 hrest
  obtain ⟨y, rfl, hy⟩ := List.map_eq_singleton_iff.1 hend
  have hone : Text.Decimal.toInt64? x.lexeme = some 1 := by
    rw [show x.lexeme = ['1'] from congrArg Prod.snd hx]
    decide
  have htwo : Text.Decimal.toInt64? y.lexeme = some 2 := by
    rw [show y.lexeme = ['2'] from congrArg Prod.snd hy]
    decide
  have hplus : Layer.sum.op? o.kind = some .add := by
    rw [show o.kind = .plus from congrArg Prod.fst ho]
    rfl
  have hleft : Spells (.expr .call) [x] _ := .tighter (.integer (congrArg Prod.fst hx) hone)
  have hright : Spells (.expr .call) [y] _ := .tighter (.integer (congrArg Prod.fst hy) htwo)
  have hsum := Spells.binary (hleft.of_call (by decide)) hplus (hright.of_call (by decide))
  have hstmt := Spells.evaluation none hsum.equation fun t ht => by cases ht
  have hstmts := Spells.stmts hstmt (.inr fun u hu => by cases hu) .noStmts
  obtain ⟨p, hspells, hneed, htext⟩ : ∃ p, Spells .program (Tape.ofTokens tokens).toList p ∧
      p.need = 0 ∧ p.pretty = ['(', '1', ' ', '+', ' ', '2', ')', ';', '\n'] ∧
      p.prettyNeed = 1 := by
    rw [Tape.toList, hus]
    exact ⟨_, .program hstmts (Tape.ofTokens tokens).eof_kind, rfl, rfl, rfl⟩
  have hparse := (Grammar.program_parse_limited hu s.maxDepth).2
    ⟨hspells, fun d _ => hneed ▸ Nat.zero_le d⟩
  exact ⟨p, Program.parse_eq_ok.2 ⟨tokens, htokens, hparse⟩, htext⟩

/-- Formatting again what was printed, under the same settings, prints it again, and nothing else,
if and only if it nests no deeper than the settings allow. Otherwise it is rejected, and if the
furthest errors are selected, as nested too deep. -/
theorem output_output (h : output held input = .ok text) : ∃ s t p, settings held = .ok s ∧
    text? input = some t ∧ Program.parse s t = .ok p ∧ text = p.pretty ∧
    (output held (utf8 text) = .ok text ↔ ∀ d ∈ s.maxDepth, p.prettyNeed ≤ d) ∧
    ∀ d ∈ s.maxDepth, d < p.prettyNeed → ∃ e,
      output held (utf8 text) = .error (.rejected (.syntactic e)) ∧
      (s.failureSelection = .furthest → e.cause = .tooDeep) := by
  obtain ⟨s, t, p, hs, ht, hparse, rfl⟩ := exists_of_output h
  have hu := usable_of_settings hs
  have hp := Program.printable_of_parse hparse
  have hrejected : ∀ d ∈ s.maxDepth, d < p.prettyNeed → ∃ e,
      output held (utf8 p.pretty) = .error (.rejected (.syntactic e)) ∧
      (s.failureSelection = .furthest → e.cause = .tooDeep) := by
    intro d hd hlt
    obtain ⟨e, he, hcause⟩ := Program.parse_pretty_of_lt s hu hp hd hlt
    exact ⟨e, output_of_error hs (text?_utf8 p.pretty) he, hcause⟩
  refine ⟨s, t, p, hs, ht, hparse, rfl, ⟨fun hsame d hd => ?_, fun hle => ?_⟩, hrejected⟩
  · refine Nat.not_lt.1 fun hlt => ?_
    obtain ⟨e, he, -⟩ := hrejected d hd hlt
    cases hsame.symm.trans he
  · obtain ⟨q, hq, herase⟩ := Program.exists_parse_pretty_of_le s hu hp hle
    have hpretty : q.pretty = p.pretty := by rw [← q.pretty_erase, herase, p.pretty_erase]
    rw [output_of_ok hs (text?_utf8 p.pretty) hq, hpretty]

/-- The text of a sum has one level of nesting, and where one is allowed, it is printed again. -/
theorem output_output_one :
    let held := some (utf8
      ['\x7b', '"', 'm', 'a', 'x', 'D', 'e', 'p', 't', 'h', '"', ':', '1', '\x7d'])
    let text := ['(', '1', ' ', '+', ' ', '2', ')', ';', '\n']
    output held (utf8 ['1', '+', '2']) = .ok text ∧ output held (utf8 text) = .ok text := by
  intro held text
  have hs : settings held = .ok { maxDepth := some 1 } := settings_utf8 rfl
  obtain ⟨p, hp, hpretty, hneed⟩ := exists_parse_sum (s := { maxDepth := some 1 }) (by decide)
  have hfirst : output held (utf8 ['1', '+', '2']) = .ok text :=
    (output_of_ok hs (text?_utf8 _) hp).trans (congrArg Except.ok hpretty)
  obtain ⟨s, t, q, hs', ht, hq, -, hagain, -⟩ := output_output hfirst
  cases hs.symm.trans hs'
  cases (text?_utf8 _).symm.trans ht
  cases hp.symm.trans hq
  refine ⟨hfirst, hagain.2 ?_⟩
  rintro d ⟨⟩
  exact Nat.le_of_eq hneed

/-- Where no nesting is allowed, a sum is printed, but what was printed is rejected. -/
theorem output_output_zero :
    let held := some (utf8
      ['\x7b', '"', 'm', 'a', 'x', 'D', 'e', 'p', 't', 'h', '"', ':', '0', '\x7d'])
    let text := ['(', '1', ' ', '+', ' ', '2', ')', ';', '\n']
    output held (utf8 ['1', '+', '2']) = .ok text ∧
      ∃ e, output held (utf8 text) = .error (.rejected (.syntactic e)) ∧ e.cause = .tooDeep := by
  intro held text
  have hu : ({ maxDepth := some 0 } : Settings).Usable := by decide
  have hs : settings held = .ok { maxDepth := some 0 } := settings_utf8 rfl
  obtain ⟨p, hp, hpretty, hneed⟩ := exists_parse_sum hu
  obtain ⟨e, he, hcause⟩ := Program.parse_pretty_of_lt _ hu (Program.printable_of_parse hp) rfl
    (hneed ▸ Nat.one_pos)
  rw [hpretty] at he
  exact ⟨(output_of_ok hs (text?_utf8 _) hp).trans (congrArg Except.ok hpretty), e,
    output_of_error hs (text?_utf8 _) he, hcause rfl⟩

end Descent.CommandLine
