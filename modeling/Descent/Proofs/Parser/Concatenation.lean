import Descent.Proofs.Parser.Horizon
import Descent.Proofs.Parser.Naturality
import Descent.Proofs.Parser.Outcome
import Descent.Proofs.Parser.Rereading
import Descent.Proofs.Token.Concatenation

/-!
# One program below another

Nothing leaks over a semicolon. The statement before it is complete whatever follows, and no error
that an attempt inside the statement has left is at the place behind it or further on
(`Grammar.pending_of_semicolon`). So a program whose statements end with one and a text below it are
read one after the other: the result is that of the program, followed by what the text is alone, at
its new place (`Program.parse_below`).
-/

namespace Descent

open Input (Calm Settled)

namespace Input

variable {s t : Input} {ts us : List Token}

/-- The same place with nothing recorded. -/
def clear (s : Input) : Input := { s with furthest := none }

theorem Alike.clear (h : s.Alike s) (hp : s.pending = none) : s.Alike s.clear :=
  ⟨rfl, rfl, rfl, rfl, h.usable_left, h.usable_left, rfl, rfl, hp.symm, h.ordinary⟩

theorem Passes.unique (h : s.Passes ts t) (h' : s.Passes us t) : ts = us :=
  List.append_cancel_right (h.rest.symm.trans h'.rest)

theorem settled_of_pending (h : s.pending = none) : s.Settled := by
  rw [Settled, reach_eq, h]

/-- Behind a token, nothing is pending that was recorded before it. -/
theorem Settled.pending_past (h : s.Settled) (hp : s.Passes ts t) (hts : ts ≠ [])
    (hf : t.furthest = s.furthest) : t.pending = none := by
  have hlength := List.length_pos_iff.2 hts
  have hposition := hp.position
  rw [pending_of_passes hp hf]
  cases hs : s.pending with
  | none => rfl
  | some f =>
    rw [Settled, reach_eq, hs] at h
    exact Option.filter_some_neg (decide_eq_false (Nat.not_le.2 (by dsimp only at h; omega)))

end Input

/-! ## The end of a statement -/

namespace Rule.Even

variable {α : Type} {r : Rule α} {P Q : Input → Prop} {s t : Input} {a : α}

/-- What is shown of two inputs that are alike holds of one. -/
theorem self (hr : r.Even (s.left + 1) P Q) (hs : s.Alike s) (hP : P s)
    (h : r.parse s = .ok (a, t)) : t.Alike t ∧ Q t := by
  obtain ⟨u, hu, htu, hQ⟩ := (hr s s (Nat.lt_succ_self _) hs hP).ok h
  cases h.symm.trans hu
  exact ⟨htu, hQ⟩

end Rule.Even

namespace Grammar

open Rule hiding pure

variable {s t : Input} {ts us : List Token} {a : Stmt} {x : Token}

/-- An expression does not end with a semicolon, so the one that ends the statement is read behind
it, where no alternative can follow. -/
theorem pending_of_ending {s₀ : Input} {f : Expr → Option Token → Stmt} (hpre : s₀.Passes us s)
    (hs : s.Alike s) (hsettled : s.Settled)
    (h : (call .expression >>= fun e =>
      optional (token .semicolon) >>= fun o => pure (f e o)).parse s = .ok (a, t))
    (hp : s₀.Passes ts t) (hx : ts.getLast? = some x) (hk : x.kind = .semicolon) :
    t.pending = none := by
  obtain ⟨e, u, he, h⟩ := bind_eq_ok.1 h
  obtain ⟨o, v, ho, h⟩ := bind_eq_ok.1 h
  obtain ⟨-, rfl⟩ := pure_eq_ok.1 h
  obtain ⟨-, hcalm⟩ := (Phrase.evenBelow (s.left + 1)).expression.self hs hsettled.calm he
  cases hsemicolon : (token .semicolon).parse u with
  | error e' =>
    cases (Parser.optional_eq_none hsemicolon).symm.trans ho
    obtain ⟨⟨vs, hvs⟩, -⟩ := sound_expression Phrase.sound_parse he
    have hall := hpre.trans (hvs.passes.trans (u.record_passes e'))
    obtain ⟨ws, y, rfl, hy⟩ := hvs.spells.finishes
    rw [hp.unique hall, List.append_nil, ← List.append_assoc, List.getLast?_concat] at hx
    cases hx
    exact absurd hk hy
  | ok m =>
    obtain ⟨y, w⟩ := m
    have hw : v = w := by
      have hle := (forward_parse _).position_le hsemicolon
      cases (Parser.optional_eq_some hle hsemicolon).symm.trans ho
      rfl
    obtain ⟨hy, hpass⟩ := token_ok hsemicolon nofun
    have hcurrent : u.current.kind ≠ .kwElse := by
      rw [Input.current_of_rest hpass.rest, hy]
      nofun
    have hfurthest : w.furthest = u.furthest :=
      Input.furthest_of_advance (Parser.token_eq_ok.1 hsemicolon).2.2
    rw [hw]
    exact (hcalm.settled hcurrent).pending_past hpass (List.cons_ne_nil _ _) hfurthest

/-- Behind a statement that ends with a semicolon, nothing is pending. -/
theorem pending_of_semicolon (hs : s.Alike s) (hsettled : s.Settled)
    (h : statement.parse s = .ok (a, t)) (hp : s.Passes ts t) (hx : ts.getLast? = some x)
    (hk : x.kind = .semicolon) : t.pending = none := by
  obtain ⟨r, hr, u, hu, hut⟩ := choice_ok h
  have hlt := ((begins_statementOf r hr).ok s a u hu).2
  have hpu : s.Passes ts u := by
    obtain ⟨vs, hvs⟩ := r.forward_parse s a u hu
    rw [hp.unique (hvs.trans hut), List.append_nil]
    exact hvs
  obtain ⟨o, hchoice, ho⟩ := Even.choice_of_match hr hu
    (Even.behind_of_select begins_statementOf hr hsettled hu)
  cases hchoice.symm.trans h
  rw [Input.pending_record?_of_lt fun e he => Nat.lt_of_le_of_lt (ho e he) (hpu.position_lt hlt)]
  have heven {k : Token.Kind} (m : Nat) (hk : k ≠ .eof) : (token k).Even m Settled Settled :=
    (Even.token (A := fun _ => False) hk id).settled
  simp only [List.mem_cons, List.not_mem_nil, or_false] at hr
  rcases hr with rfl | rfl | rfl
  · obtain ⟨k, v, hv, hu⟩ := bind_eq_ok.1 hu
    obtain ⟨i, w, hw, hu⟩ := bind_eq_ok.1 hu
    have hname : (ident <* token .assign).Even (v.left + 1) Settled Settled :=
      .seqLeft (even_ident (A := fun _ => False) id).settled (heven _ nofun)
    obtain ⟨hvv, hvs⟩ := (heven (k := .kwLet) _ nofun).self hs hsettled hv
    obtain ⟨hww, hws⟩ := hname.self hvv hvs hw
    obtain ⟨vs, hvp⟩ := (token .kwLet).forward_parse s k v hv
    obtain ⟨ws, hwp⟩ := (ident <* token .assign).forward_parse v i w hw
    exact pending_of_ending (hvp.trans hwp) hww hws hu hpu hx hk
  · obtain ⟨k, v, hv, hu⟩ := bind_eq_ok.1 hu
    obtain ⟨hvv, hvs⟩ := (heven (k := .kwReturn) _ nofun).self hs hsettled hv
    obtain ⟨vs, hvp⟩ := (token .kwReturn).forward_parse s k v hv
    exact pending_of_ending hvp hvv hvs hu hpu hx hk
  · exact pending_of_ending (.refl s) hs hsettled hu hpu hx hk

/-! ## Statements before others -/

/-- Statements the last of which ends with a semicolon are read whatever follows, and nothing is
pending behind them. -/
theorem statements_parse {as : List Stmt} (h : Spells .stmts ts as)
    (hlast : ∀ x ∈ ts.getLast?, x.kind = .semicolon) {s : Input}
    (hoffers : s.Offers (Stmt.needAll as) ts us) (hs : s.Alike s) (hsettled : s.Settled)
    (hnil : ts = [] → s.pending = none) :
    ∃ t, s.Passes ts t ∧ t.Alike t ∧ t.pending = none ∧ ∀ bs u,
      (many (call .statement)).parse t = .ok (bs, u) →
      (many (call .statement)).parse s = .ok (as ++ bs, u) := by
  induction as generalizing ts s with
  | nil =>
    cases h
    exact ⟨s, .refl s, hs, hnil rfl, fun bs u h => h⟩
  | cons a as ih =>
    cases h with
    | @stmts ts vs _ _ h hb has =>
    have hend : vs = [] → ∃ x, ts.getLast? = some x ∧ x.kind = .semicolon := by
      rintro rfl
      obtain ⟨x, ws, rfl, -⟩ := h.begins
      rw [List.append_nil] at hlast
      exact ⟨_, List.getLast?_cons, hlast _ List.getLast?_cons⟩
    have hfol : Part.stmt.Follows ts (s.tape.next (vs ++ us)) :=
      Part.Complete.follows_stmts hb has fun hv => .inl (hend hv)
    obtain ⟨t, hst, ht⟩ := h.complete s (vs ++ us)
      ((hoffers.mono (Nat.le_max_left _ _)).of_eq (List.append_assoc _ _ _)) hfol
    have hcall : (call .statement).parse s = .ok (a, t) := (Phrase.parse_eq .statement s).trans ht
    have hlt : t.left < s.left := (begins_statement.ok s a t hcall).2
    obtain ⟨htt, hcalm⟩ := (Phrase.evenBelow (s.left + 1)).statement.self hs hsettled.calm hcall
    have hofft : t.Offers (Stmt.needAll as) vs us := (hoffers.past hst).mono (Nat.le_max_right _ _)
    have hpending (hv : vs = []) : t.pending = none := by
      obtain ⟨x, hx, hk⟩ := hend hv
      exact pending_of_semicolon hs hsettled ht hst hx hk
    have hsettledt : t.Settled := by
      cases has with
      | noStmts => exact Input.settled_of_pending (hpending rfl)
      | stmts h' =>
        obtain ⟨y, ws, rfl, hy⟩ := h'.begins
        refine hcalm.settled fun helse => ?_
        rw [Input.current_of_rest (hofft.rest.trans rfl)] at helse
        rw [helse] at hy
        cases hy
    have hlastt : ∀ x ∈ vs.getLast?, x.kind = .semicolon := by
      intro x hx
      exact hlast x (by rw [List.getLast?_append, Option.mem_def.1 hx]; rfl)
    obtain ⟨u, htu, huu, hu, hmany⟩ := ih has hlastt hofft htt hsettledt hpending
    refine ⟨u, hst.trans htu, huu, hu, fun bs v hv => ?_⟩
    exact many_of_ok hcall hlt (hmany bs v hv)

/-- Behind statements the last of which ends with a semicolon, it goes on as from a place where
nothing is recorded. -/
theorem statements_below {as : List Stmt} (h : Spells .stmts ts as)
    (hlast : ∀ x ∈ ts.getLast?, x.kind = .semicolon) (hrest : s.rest = ts ++ us)
    (hallows : s.Allows (Stmt.needAll as)) (hu : as ≠ [] → s.settings.Usable)
    (hs : s.furthest = none) :
    ∃ u : Input, s.Passes ts u ∧ u.furthest = none ∧
      (∀ bs v, (many (call .statement) <* eoi).parse u = .ok (bs, v) →
        ∃ w, (many (call .statement) <* eoi).parse s = .ok (as ++ bs, w)) ∧
      ∀ e, (many (call .statement) <* eoi).parse u = .error e →
        (many (call .statement) <* eoi).parse s = .error e := by
  cases as with
  | nil =>
    cases h
    exact ⟨s, .refl s, hs, fun bs v hv => ⟨v, hv⟩, fun e he => he⟩
  | cons a as =>
    have hu := hu (List.cons_ne_nil a as)
    have hpending : s.pending = none := by rw [Input.pending, hs]; rfl
    have halike : s.Alike s := ⟨rfl, rfl, rfl, rfl, hu, hu, rfl, rfl, rfl, by simp [hpending]⟩
    obtain ⟨u, hpass, huu, hpu, hmany⟩ := statements_parse h hlast ⟨hu, hallows, hrest⟩ halike
      (Input.settled_of_pending hpending) fun _ => hpending
    have heven : (many (call .statement) <* eoi).Even (u.left + 1) Settled _ :=
      .seqLeft (even_statements (Phrase.evenBelow _).statement).settled .eoi
    have hagree := heven u u.clear (Nat.lt_succ_self _) (huu.clear hpu)
      (Input.settled_of_pending hpu)
    have hclear : u.Passes [] u.clear := ⟨rfl, rfl, rfl, rfl⟩
    refine ⟨u.clear, (hpass.trans hclear).of_eq (List.append_nil ts), rfl, ?_, ?_⟩
    · intro bs v hv
      rcases hagree with ⟨cs, v', w, hv', hw, -⟩ | ⟨e, f, -, hf, -⟩
      · cases hv.symm.trans hw
        obtain ⟨x, y, hx, hy⟩ := seqLeft_eq_ok.1 hv'
        exact ⟨v', seqLeft_eq_ok.2 ⟨x, y, hmany _ _ hx, hy⟩⟩
      · cases hv.symm.trans hf
    · intro e he
      rcases hagree with ⟨cs, v', w, -, hw, -⟩ | ⟨f, f', hf, hf', rfl, -⟩
      · cases he.symm.trans hw
      · cases he.symm.trans hf'
        rcases seqLeft_eq_error.1 hf with hf | ⟨bs, w, hw, hf⟩
        · exact absurd hf (Parser.many_ne_error u _)
        · exact seqLeft_eq_error.2 (.inr ⟨_, w, hmany bs w hw, hf⟩)

end Grammar

/-! ## Programs -/

/-- The tape has the tokens of the first one at their new places, if they come behind as many others
as have to be before them. -/
theorem Tape.moves_of_append {ρ : Relocation} {tape tape' : Tape} {ts : List Token}
    (hts : ts.length = ρ.before)
    (h : tape'.tokens.toList = ts ++ tape.tokens.toList.map (Token.move ρ))
    (heof : tape'.eof = tape.eof.move ρ) : tape.Moves ρ tape' where
  tokens := by rw [h, ← hts, List.drop_left]
  size := by
    have hlength := congrArg List.length h
    simp only [Array.length_toList, List.length_append, List.length_map] at hlength
    omega
  eof := heof

theorem Spells.statements {ts : List Token} {x : Token} {p : Program}
    (h : Spells .program (ts ++ [x]) p) : Spells .stmts ts p.statements := by
  generalize hw : ts ++ [x] = w at h
  cases h with
  | program hs _ =>
    obtain ⟨rfl, -⟩ := List.append_inj' hw rfl
    exact hs

section

variable {settings : Settings} {tokens : List Token} {p : Program}

open Rule in
/-- Behind the tokens of a program that ends with a semicolon, others are read as they are alone, at
their new places. -/
theorem Grammar.program_below {ρ : Relocation} {us vs : List Token} {t : Input}
    (h : program.parse (.ofTokens settings tokens) = .ok (p, t))
    (hlast : ∀ x ∈ (Tape.ofTokens tokens).tokens.back?, x.kind = .semicolon)
    (hρ : ρ.before = (Tape.ofTokens tokens).tokens.size)
    (hvs : (Tape.ofTokens vs).tokens.toList = (Tape.ofTokens tokens).tokens.toList ++
      (Tape.ofTokens us).tokens.toList.map (Token.move ρ))
    (heof : (Tape.ofTokens vs).eof = (Tape.ofTokens us).eof.move ρ) :
    (∀ q u, program.parse (.ofTokens settings us) = .ok (q, u) →
      ∃ r v, program.parse (.ofTokens settings vs) = .ok (r, v) ∧
        r.statements = p.statements ++ q.statements.map (Stmt.move ρ)) ∧
    ∀ e, program.parse (.ofTokens settings us) = .error e →
      program.parse (.ofTokens settings vs) = .error (e.move ρ) := by
  have hspells := (spells_of_program_parse h).statements
  obtain ⟨-, hneed⟩ := sound_program Phrase.sound_parse h
  have hu : p.statements ≠ [] → settings.Usable := usable_of_program_parse h
  rw [← Array.getLast?_toList] at hlast
  obtain ⟨w, hpass, hfurthest, hok, herror⟩ := statements_below (s := .ofTokens settings vs)
    hspells hlast hvs (hneed fun m _ => Nat.zero_le m) hu rfl
  have hmoves : (Input.ofTokens settings us).Moves ρ w := by
    refine ⟨?_, hpass.settings, ?_, hpass.depth, hfurthest⟩
    · rw [hpass.tape]
      exact Tape.moves_of_append hρ.symm hvs heof
    · rw [hρ]
      exact hpass.position
  have hnatural : Rule.Natural ρ Phrase.parse (List.map (Stmt.move ρ))
      (many (call .statement) <* eoi) (many (call .statement) <* eoi) :=
    .seqLeft (natural_statements Phrase.natural_parse) .eoi
  have hmoved := hnatural _ _ hmoves
  constructor
  · intro q u hq
    obtain ⟨hq, -⟩ := program_parse_eq_ok.1 hq
    rw [show (many (call .statement) <* eoi).run Phrase.parse _ = _ from hq] at hmoved
    obtain ⟨w', hw', -⟩ := hmoved
    obtain ⟨v, hv⟩ := hok _ w' hw'
    exact ⟨⟨_, ⟨_, _⟩⟩, v, program_parse_eq_ok.2 ⟨hv, rfl⟩, rfl⟩
  · intro e he
    have he := program_parse_eq_error.1 he
    rw [show (many (call .statement) <* eoi).run Phrase.parse _ = _ from he] at hmoved
    exact program_parse_eq_error.2 (herror _ hmoved)

/-- A program that ends with a semicolon, or that has no tokens at all, and a text below it are read
one after the other. The whole is a program if and only if the text is one. Then its statements are
those of the program and those of the text at their new places: the offset is greater by the
characters above, with the line break, and so is the line by the line breaks; the column stays. If
the text is no program, the whole has the same error at its new place, behind as many tokens more as
the program has. -/
theorem Program.parse_below {text : List Char} (h : parse settings text = .ok p)
    (ht : Token.ofText settings text = .ok tokens)
    (hlast : ∀ x ∈ (Tape.ofTokens tokens).tokens.back?, x.kind = .semicolon) (text' : List Char) :
    let ρ := Relocation.below text (Tape.ofTokens tokens).tokens.size
    (∀ q, parse settings text' = .ok q → ∃ r, parse settings (text ++ '\n' :: text') = .ok r ∧
      r.statements = p.statements ++ q.statements.map (Stmt.move ρ)) ∧
    ∀ d, parse settings text' = .error d →
      parse settings (text ++ '\n' :: text') = .error (d.move ρ) := by
  intro ρ
  obtain ⟨_, ht', t, hparse⟩ := parse_eq_ok.1 h
  cases ht.symm.trans ht'
  rcases Token.ofText_below ht text' ρ.before with
    ⟨e, he, he'⟩ | ⟨us, vs, hus, hvs, htokens, heof⟩
  · have hparse' := parse_eq_lexical.2 he
    constructor
    · intro q hq
      cases hparse'.symm.trans hq
    · intro d hd
      cases hparse'.symm.trans hd
      exact parse_eq_lexical.2 he'
  · obtain ⟨hok, herror⟩ := Grammar.program_below hparse hlast rfl htokens heof
    constructor
    · intro q hq
      obtain ⟨_, hus', u, hq⟩ := parse_eq_ok.1 hq
      cases hus.symm.trans hus'
      obtain ⟨r, v, hr, hstatements⟩ := hok q u hq
      exact ⟨r, parse_eq_ok.2 ⟨vs, hvs, v, hr⟩, hstatements⟩
    · intro d hd
      cases d with
      | lexical e => cases hus.symm.trans (parse_eq_lexical.1 hd)
      | syntactic e =>
        obtain ⟨_, hus', he⟩ := parse_eq_syntactic.1 hd
        cases hus.symm.trans hus'
        exact parse_eq_syntactic.2 ⟨vs, hvs, herror e he⟩

end

/-- A parenthesis that closes nothing is the same error below a statement. -/
theorem Program.parse_below_closeParen : ∃ d, parse {} [')'] = .error d ∧
    parse {} ['x', ';', '\n', ')'] = .error (d.move (.below ['x', ';'] 2)) := by
  have htokens : Token.ofText {} ['x', ';'] = .ok
      [⟨.identifier, ['x'], ⟨⟨0, 1, 1⟩, ⟨1, 1, 2⟩⟩⟩, ⟨.semicolon, [';'], ⟨⟨1, 1, 2⟩, ⟨2, 1, 3⟩⟩⟩,
        .eofAt ⟨2, 1, 3⟩] := by
    rw [Token.ofText, Caret.tokens_of_kept _ (m := ⟨.identifier, 1, by decide⟩) rfl rfl,
      Caret.tokens_of_kept _ (m := ⟨.semicolon, 1, by decide⟩) rfl rfl, Caret.tokens_of_atEnd rfl]
    rfl
  have htokens' : Token.ofText {} [')'] = .ok
      [⟨.closeParen, [')'], ⟨⟨0, 1, 1⟩, ⟨1, 1, 2⟩⟩⟩, .eofAt ⟨1, 1, 2⟩] := by
    rw [Token.ofText, Caret.tokens_of_kept _ (m := ⟨.closeParen, 1, by decide⟩) rfl rfl,
      Caret.tokens_of_atEnd rfl]
    rfl
  have hstmt := Spells.evaluation (some ⟨.semicolon, [';'], ⟨⟨1, 1, 2⟩, ⟨2, 1, 3⟩⟩⟩)
    (Spells.var (t := ⟨.identifier, ['x'], ⟨⟨0, 1, 1⟩, ⟨1, 1, 2⟩⟩⟩) rfl).equation
    fun t ht => by cases ht; rfl
  have hprogram := Spells.program (t := .eofAt ⟨2, 1, 3⟩)
    (.stmts hstmt (.inr fun u hu => by cases hu) .noStmts) rfl
  obtain ⟨t, ht⟩ := Spells.program_parse (s := .ofTokens {}
    [⟨.identifier, ['x'], ⟨⟨0, 1, 1⟩, ⟨1, 1, 2⟩⟩⟩, ⟨.semicolon, [';'], ⟨⟨1, 1, 2⟩, ⟨2, 1, 3⟩⟩⟩,
      .eofAt ⟨2, 1, 3⟩]) hprogram (by decide) fun d hd => by cases hd
  obtain ⟨e, he, -⟩ := Grammar.program_error_of_start (s := .ofTokens {}
    [⟨.closeParen, [')'], ⟨⟨0, 1, 1⟩, ⟨1, 1, 2⟩⟩⟩, .eofAt ⟨1, 1, 2⟩]) (by decide) (by decide)
  have hparse := parse_eq_syntactic.2 ⟨_, htokens', he⟩
  obtain ⟨-, herror⟩ := parse_below (parse_eq_ok.2 ⟨_, htokens, t, ht⟩) htokens
    (fun x hx => by cases hx; rfl) [')']
  exact ⟨_, hparse, herror _ hparse⟩

end Descent
