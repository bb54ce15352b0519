import Descent.Proofs.Parser.Acceptance
import Descent.Proofs.Token.Cutting
import Descent.Proofs.Tree.Erasure

/-!
# Trees that are read are printable

The tokens of a text are what their kinds say: identifiers are names and numerals have no sign. So
names and integers in a tree that is read from a text have texts that are read as they are
(`Program.printable_of_parse`).
-/

namespace Descent

/-- A numeral without a sign does not stand for a negative value. -/
theorem Text.Decimal.nonneg_of_toInt64? {w : List Char} {n : Int64} (hw : w ≠ [])
    (hdigits : ∀ c ∈ w, c.isDigit) (h : toInt64? w = some n) : 0 ≤ n.toInt := by
  obtain ⟨c, w, rfl⟩ := List.exists_cons_of_ne_nil hw
  rw [toInt64?_of_head_isDigit (hdigits c List.mem_cons_self)] at h
  obtain ⟨k, -, hk⟩ := Option.bind_eq_some_iff.1 h
  unfold fit? at hk
  split at hk
  · next hfits =>
    cases hk
    rw [Int64.toInt_minValue, Int64.toInt_maxValue] at hfits
    rw [Int64.toInt_ofInt_of_le hfits.1 (Int.lt_of_le_sub_one hfits.2)]
    exact Int.natCast_nonneg k
  · cases hk

/-- The lexeme of the token is one of its kind, if a tree shows it. -/
structure Token.Proper (x : Token) : Prop where
  isName : x.kind = .identifier → IsName x.lexeme
  isDigit : x.kind = .integer → x.lexeme ≠ [] ∧ ∀ c ∈ x.lexeme, c.isDigit

theorem Token.proper_of_eof {x : Token} (hx : x.kind = .eof) : x.Proper :=
  ⟨fun h => absurd (hx.symm.trans h) nofun, fun h => absurd (hx.symm.trans h) nofun⟩

theorem Token.proper_of_ofText {settings : Settings} {text : List Char} {tokens : List Token}
    (h : ofText settings text = .ok tokens) : ∀ x ∈ tokens, x.Proper := by
  intro x hx
  by_cases heof : x.kind = .eof
  · exact proper_of_eof heof
  · have hmatched := Caret.matched_of_tokens h x hx heof
    exact ⟨hmatched.isName, hmatched.isDigit⟩

/-- Trees of all sorts of phrases whose names are names and whose integers have no signs. -/
def Part.Printable : (p : Part) → p.Tree → Prop
  | expr _, e => e.Printable
  | arguments, es | moreArguments, es => Expr.AllPrintable es
  | params, is | moreParams, is => ∀ i ∈ is, i.Printable
  | stmt, s => s.Printable
  | stmts, ss => Stmt.AllPrintable ss
  | block, b => b.Printable
  | program, p => p.Printable

/-- A tree that proper tokens spell is printable. -/
theorem Spells.printable {p : Part} {ts : List Token} {a : p.Tree} (h : Spells p ts a)
    (hts : ∀ x ∈ ts, x.Proper) : p.Printable a := by
  induction h with
  | integer ht hn =>
    obtain ⟨hne, hdigits⟩ := (hts _ List.mem_cons_self).isDigit ht
    exact Text.Decimal.nonneg_of_toInt64? hne hdigits hn
  | boolean => trivial
  | var ht => exact (hts _ List.mem_cons_self).isName ht
  | group _ _ _ ih => exact ih fun x hx => hts x (by simp [hx])
  | conditional _ _ _ _ _ ih ihb =>
    exact ⟨ih fun x hx => hts x (by simp [hx]), ihb fun x hx => hts x (by simp [hx])⟩
  | alternative _ _ _ _ _ _ _ ih ihb ihd =>
    exact ⟨ih fun x hx => hts x (by simp [hx]), ihb fun x hx => hts x (by simp [hx]),
      ihd fun x hx => hts x (by simp [hx])⟩
  | function _ _ _ _ _ ih ihb =>
    exact ⟨ih fun x hx => hts x (by simp [hx]), ihb fun x hx => hts x (by simp [hx])⟩
  | call _ _ _ _ ih iha =>
    exact ⟨ih fun x hx => hts x (by simp [hx]), iha fun x hx => hts x (by simp [hx])⟩
  | unary _ _ ih => exact ih fun x hx => hts x (by simp [hx])
  | binary _ _ _ ih ihf =>
    exact ⟨ih fun x hx => hts x (by simp [hx]), ihf fun x hx => hts x (by simp [hx])⟩
  | tighter _ ih => exact ih hts
  | noArguments | noMoreArguments | noStmts => trivial
  | arguments _ _ ih ihs | moreArguments _ _ _ ih ihs | stmts _ _ _ ih ihs =>
    exact ⟨ih fun x hx => hts x (by simp [hx]), ihs fun x hx => hts x (by simp [hx])⟩
  | noParams | noMoreParams => exact fun _ hi => absurd hi List.not_mem_nil
  | params ht _ ih =>
    exact List.forall_mem_cons.2 ⟨(hts _ (by simp)).isName ht, ih fun x hx => hts x (by simp [hx])⟩
  | moreParams _ ht _ ih =>
    exact List.forall_mem_cons.2 ⟨(hts _ (by simp)).isName ht, ih fun x hx => hts x (by simp [hx])⟩
  | binding _ _ hi _ _ _ ih =>
    exact ⟨(hts _ (by simp)).isName hi, ih fun x hx => hts x (by simp [hx])⟩
  | returning _ _ _ _ ih | evaluation _ _ _ ih => exact ih fun x hx => hts x (by simp [hx])
  | block _ _ _ ih => exact ih fun x hx => hts x (by simp [hx])
  | program _ _ ih => exact ih fun x hx => hts x (by simp [hx])

/-- All tokens on the tape of a text are proper. -/
theorem Tape.proper_of_ofText {settings : Settings} {text : List Char} {tokens : List Token}
    (h : Token.ofText settings text = .ok tokens) : ∀ x ∈ (ofTokens tokens).toList, x.Proper := by
  intro x hx
  rcases List.mem_append.1 hx with hx | hx
  · have hmem : x ∈ tokens.filter _ := List.mem_toArray.1 (Array.mem_toList_iff.1 hx)
    exact Token.proper_of_ofText h x ((List.mem_filter.1 hmem).1)
  · rw [List.mem_singleton.1 hx]
    exact Token.proper_of_eof (ofTokens tokens).eof_kind

/-- A program that is read from a text is printable. -/
theorem Program.printable_of_parse {settings : Settings} {text : List Char} {p : Program}
    (h : parse settings text = .ok p) : p.Printable := by
  obtain ⟨tokens, htokens, t, hparse⟩ := parse_eq_ok.1 h
  exact (Grammar.spells_of_program_parse hparse).printable (Tape.proper_of_ofText htokens)

/-- An expression that is read from a text is printable. -/
theorem Expr.printable_of_parse {settings : Settings} {text : List Char} {e : Expr}
    (h : parse settings text = .ok e) : e.Printable := by
  obtain ⟨tokens, htokens, t, hparse⟩ := parse_eq_ok.1 h
  obtain ⟨u, v, hexpr, -⟩ := Rule.seqLeft_eq_ok.1 hparse
  obtain ⟨ts, hreads, -⟩ := Grammar.sound_expression_rule Phrase.sound_parse hexpr
  refine hreads.spells.printable fun x hx => Tape.proper_of_ofText htokens x ?_
  have hrest : (Tape.ofTokens tokens).tokens.toList = ts ++ _ := hreads.passes.rest
  rw [Tape.toList, hrest]
  simp [hx]

end Descent
