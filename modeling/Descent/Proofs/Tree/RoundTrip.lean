import Descent.Proofs.Parser.Limits
import Descent.Proofs.Tree.Printable

/-!
# Reading what was written

Main statement: the canonical text of a printable tree is read, and what is read is the same tree,
apart from groups and places (`parse_pretty`).

The text is written in front of what follows it, and it is cut into tokens from the end as well: in
front of a text that is cut into words, the text of a tree is cut into the words of the tree. That
no two tokens grow together takes a look at the one character behind the first of them. The words
spell a tree with groups where the text has parentheses of its own. These groups are levels of
nesting, so a limit on nesting may reject the text of a tree that was read under the same limit
(`Program.parse_pretty_of_lt`).
-/

namespace Descent

open Token (Cut EndsWord)

/-! ## The text is cut into the words of the tree -/

namespace Pretty

variable {ws : List Word} {tail t : List Char} {c : Char}

theorem endsWord_cons (hc : Token.continuesIdentifier c = false) : EndsWord (c :: t) :=
  fun _ hd => by cases hd; exact hc

theorem cut_indent (depth : Nat) (h : Cut t ws) : Cut (indent depth t) ws := by
  unfold indent
  induction 4 * depth with
  | zero => exact h
  | succ n ih => exact .space rfl ih

theorem cut_boolean (b : Bool) (ht : EndsWord t) (h : Cut t ws) :
    Cut (boolean b t) ((if b then (.kwTrue, ['t', 'r', 'u', 'e'])
      else (.kwFalse, ['f', 'a', 'l', 's', 'e'])) :: ws) := by
  cases b with
  | true => exact .keyword (by decide) ht h
  | false => exact .keyword (by decide) ht h

theorem cut_integer {n : Int64} (hn : 0 ≤ n.toInt) (ht : EndsWord t) (h : Cut t ws) :
    Cut (Text.Decimal.ofInt64 n ++ t) ((.integer, Text.Decimal.ofInt64 n) :: ws) := by
  rw [Text.Decimal.ofInt64, if_neg (Int.not_lt.2 hn)]
  exact .integer (Text.Decimal.ofNat_ne_nil _) (fun c => Text.Decimal.isDigit_of_mem_ofNat) ht h

theorem endsWord_moreNames (is : List Ident) (ht : EndsWord t) : EndsWord (moreNames is t) := by
  cases is with
  | nil => exact ht
  | cons i is => exact endsWord_cons rfl

theorem cut_moreNames {is : List Ident} (his : ∀ i ∈ is, i.Printable) (ht : EndsWord t)
    (h : Cut t ws) : Cut (moreNames is t) (Ident.moreWords is ++ ws) := by
  induction is with
  | nil => exact h
  | cons i is ih =>
    obtain ⟨hi, his⟩ := List.forall_mem_cons.1 his
    have hname := Cut.name hi (endsWord_moreNames is ht) (ih his)
    rw [moreNames, List.append_assoc]
    exact .symbol rfl rfl (.space rfl hname)

theorem cut_names {is : List Ident} (his : ∀ i ∈ is, i.Printable) (ht : EndsWord t)
    (h : Cut t ws) : Cut (names is t) (Ident.words is ++ ws) := by
  cases is with
  | nil => exact h
  | cons i is =>
    obtain ⟨hi, his⟩ := List.forall_mem_cons.1 his
    exact .name hi (endsWord_moreNames is ht) (cut_moreNames his ht h)

theorem endsWord_moreExprs (depth : Nat) (es : List Expr) (ht : EndsWord t) :
    EndsWord (moreExprs depth es t) := by
  cases es with
  | nil => exact ht
  | cons e es => exact endsWord_cons rfl

theorem cut_binaryOp (op : BinaryOp) (h : Cut t ws) :
    Cut ([' '] ++ op.symbol ++ [' '] ++ t) (op.word :: ws) := by
  refine .space rfl ?_
  have hspace : Cut (' ' :: t) ws := .space rfl h
  cases op with
  | equal => exact .word (m := ⟨.equal, 2, Nat.two_pos⟩) rfl rfl hspace
  | notEqual => exact .word (m := ⟨.notEqual, 2, Nat.two_pos⟩) rfl rfl hspace
  | _ => exact .symbol rfl rfl hspace

theorem head_cons_ne (hc : c ≠ '=') : (c :: t).head? ≠ some '=' := fun h => hc (Option.some.inj h)

theorem head_ne_of_isWord {w : List Char} (hw : Token.IsWord w) : (w ++ t).head? ≠ some '=' := by
  cases w with
  | nil => cases hw
  | cons c w =>
    refine head_cons_ne ?_
    rintro rfl
    cases hw

/-- The text of an expression does not begin with what would make another sign of one before it. -/
theorem head_expr_ne (depth : Nat) : ∀ (e : Expr) (t : List Char), e.Printable →
    (expr depth e t).head? ≠ some '='
  | .integer n _, t, he => by
    obtain ⟨c, w, hw⟩ := List.exists_cons_of_ne_nil (Text.Decimal.ofNat_ne_nil n.toInt.natAbs)
    have hc : c.isDigit := Text.Decimal.isDigit_of_mem_ofNat (hw ▸ List.mem_cons_self)
    rw [expr, Text.Decimal.ofInt64, if_neg (Int.not_lt.2 he), hw]
    refine head_cons_ne ?_
    rintro rfl
    cases hc
  | .boolean b _, _, _ => by cases b <;> exact head_cons_ne (by decide)
  | .var i, _, he => head_ne_of_isWord he.1
  | .unary .., _, _ => head_cons_ne (by decide)
  | .binary .., _, _ => head_cons_ne (by decide)
  | .call e es _, t, he => head_expr_ne depth e _ he.1
  | .group e _, t, he => head_expr_ne depth e t he
  | .cond e b none _, _, _ => head_cons_ne (by decide)
  | .cond e b (some c) _, _, _ => head_cons_ne (by decide)
  | .function .., _, _ => head_cons_ne (by decide)

theorem cut_unaryOp (op : UnaryOp) (ht : t.head? ≠ some '=') (h : Cut t ws) :
    Cut (op.symbol ++ t) (op.word :: ws) := by
  cases op with
  | not => exact .symbol (Token.bestMatch_bang ht) rfl h
  | negate => exact .symbol rfl rfl h

theorem cut_space (h : Cut t ws) : Cut (' ' :: t) ws := .space rfl h

/-- A keyword and a space. -/
theorem cut_keyword (kind : Token.Kind) (w : List Char) (hw : (kind, w) ∈ Token.reserved)
    (h : Cut t ws) : Cut (w ++ ' ' :: t) ((kind, w) :: ws) :=
  .keyword hw (endsWord_cons rfl) (cut_space h)

theorem cut_openParen (h : Cut t ws) : Cut ('(' :: t) ((.openParen, ['(']) :: ws) :=
  .symbol rfl rfl h

theorem cut_closeParen (h : Cut t ws) : Cut (')' :: t) ((.closeParen, [')']) :: ws) :=
  .symbol rfl rfl h

theorem cut_semicolon (h : Cut t ws) : Cut (';' :: t) ((.semicolon, [';']) :: ws) :=
  .symbol rfl rfl h

mutual

theorem cut_expr (depth : Nat) : ∀ (e : Expr) {t : List Char} {ws : List Word}, e.Printable →
    EndsWord t → Cut t ws → Cut (expr depth e t) (e.words ++ ws)
  | .integer n _, _, _, he, ht, h => cut_integer he ht h
  | .boolean b _, _, _, _, ht, h => cut_boolean b ht h
  | .var i, _, _, he, ht, h => .name he ht h
  | .unary op e _, t, ws, he, ht, h => by
    have hclose := cut_closeParen h
    have hoperand := cut_expr depth e he (endsWord_cons rfl) hclose
    have hop := cut_unaryOp op (head_expr_ne depth e _ he) hoperand
    rw [expr, Expr.words, Word.parens]
    simpa using Cut.symbol rfl rfl hop
  | .binary op e f _, t, ws, he, ht, h => by
    have hclose := cut_closeParen h
    have hright := cut_expr depth f he.2 (endsWord_cons rfl) hclose
    have hleft := cut_expr depth e he.1 (endsWord_cons rfl) (cut_binaryOp op hright)
    rw [expr, Expr.words, Word.parens]
    simpa using Cut.symbol rfl rfl hleft
  | .call e es _, t, ws, he, ht, h => by
    have hclose := cut_closeParen h
    have hargs := cut_exprs depth es he.2 (endsWord_cons rfl) hclose
    have hopen := cut_openParen hargs
    rw [expr, Expr.words, Word.parens]
    simpa using cut_expr depth e he.1 (endsWord_cons rfl) hopen
  | .group e _, _, _, he, ht, h => cut_expr depth e he ht h
  | .cond e b none _, t, ws, he, ht, h => by
    have hblock := cut_closeParen (cut_space (cut_block depth b he.2 h))
    have hcond := cut_openParen (cut_expr depth e he.1 (endsWord_cons rfl) hblock)
    have hif := cut_keyword .kwIf ['i', 'f'] (by decide) hcond
    rw [expr, Expr.words, Word.parens]
    simpa using hif
  | .cond e b (some d) _, t, ws, he, ht, h => by
    have helse := cut_keyword .kwElse ['e', 'l', 's', 'e'] (by decide)
      (cut_block depth d he.2.2 h)
    have hblock := cut_closeParen (cut_space (cut_block depth b he.2.1 (cut_space helse)))
    have hcond := cut_openParen (cut_expr depth e he.1 (endsWord_cons rfl) hblock)
    have hif := cut_keyword .kwIf ['i', 'f'] (by decide) hcond
    rw [expr, Expr.words, Word.parens]
    simpa using hif
  | .function is b _, t, ws, he, ht, h => by
    have hblock := cut_closeParen (cut_space (cut_block depth b he.2 h))
    have hparams := cut_openParen (cut_names he.1 (endsWord_cons rfl) hblock)
    have hfn : Cut (['f', 'n'] ++ '(' :: _) ((.kwFn, ['f', 'n']) :: _) :=
      .keyword (by decide) (endsWord_cons rfl) hparams
    rw [expr, Expr.words, Word.parens]
    simpa using hfn

theorem cut_exprs (depth : Nat) : ∀ (es : List Expr) {t : List Char} {ws : List Word},
    Expr.AllPrintable es → EndsWord t → Cut t ws →
    Cut (exprs depth es t) (Expr.argumentWords es ++ ws)
  | [], _, _, _, _, h => h
  | e :: es, t, ws, he, ht, h => by
    have hmore := cut_moreExprs depth es he.2 ht h
    rw [exprs, Expr.argumentWords, List.append_assoc]
    exact cut_expr depth e he.1 (endsWord_moreExprs depth es ht) hmore

theorem cut_moreExprs (depth : Nat) : ∀ (es : List Expr) {t : List Char} {ws : List Word},
    Expr.AllPrintable es → EndsWord t → Cut t ws →
    Cut (moreExprs depth es t) (Expr.moreWords es ++ ws)
  | [], _, _, _, _, h => h
  | e :: es, t, ws, he, ht, h => by
    have hmore := cut_moreExprs depth es he.2 ht h
    have hexpr := cut_expr depth e he.1 (endsWord_moreExprs depth es ht) hmore
    have hcomma : Cut (',' :: ' ' :: _) ((.comma, [',']) :: _) :=
      .symbol rfl rfl (.space rfl hexpr)
    rw [moreExprs, Expr.moreWords]
    simpa using hcomma

theorem cut_stmt (depth : Nat) : ∀ (s : Stmt) {t : List Char} {ws : List Word}, s.Printable →
    Cut t ws → Cut (stmt depth s t) (s.words ++ ws)
  | .bind i e _, t, ws, hs, h => by
    have hend := cut_semicolon h
    have hexpr := cut_expr depth e hs.2 (endsWord_cons rfl) hend
    have hassign : Cut ('=' :: ' ' :: expr depth e (';' :: t)) _ :=
      .symbol rfl rfl (.space rfl hexpr)
    have hname := Cut.name hs.1 (endsWord_cons rfl) (cut_space hassign)
    have hlet := cut_keyword .kwLet ['l', 'e', 't'] (by decide) hname
    rw [stmt, Stmt.words]
    simpa [Ident.word] using hlet
  | .ret e _, t, ws, hs, h => by
    have hend := cut_semicolon h
    have hexpr := cut_expr depth e hs (endsWord_cons rfl) hend
    have hreturn := cut_keyword .kwReturn ['r', 'e', 't', 'u', 'r', 'n'] (by decide) hexpr
    rw [stmt, Stmt.words]
    simpa using hreturn
  | .eval e _, t, ws, hs, h => by
    have hend := cut_semicolon h
    rw [stmt, Stmt.words, List.append_assoc]
    exact cut_expr depth e hs (endsWord_cons rfl) hend

theorem cut_stmts (depth : Nat) : ∀ (ss : List Stmt) {t : List Char} {ws : List Word},
    Stmt.AllPrintable ss → Cut t ws → Cut (stmts depth ss t) (Stmt.allWords ss ++ ws)
  | [], _, _, _, h => h
  | s :: ss, t, ws, hs, h => by
    rw [stmts, Stmt.allWords, List.append_assoc]
    exact cut_indent depth (cut_stmt depth s hs.1 (.space rfl (cut_stmts depth ss hs.2 h)))

theorem cut_block (depth : Nat) : ∀ (b : Block) {t : List Char} {ws : List Word}, b.Printable →
    Cut t ws → Cut (block depth b t) (b.words ++ ws)
  | .mk [] _, _, _, _, h => .symbol rfl rfl (.symbol rfl rfl h)
  | .mk (s :: ss) _, t, ws, hb, h => by
    have hclose : Cut ('\x7d' :: t) ((.closeBrace, ['\x7d']) :: ws) := .symbol rfl rfl h
    have hstmts := cut_stmts (depth + 1) (s :: ss) hb (cut_indent depth hclose)
    have hopen : Cut ('\x7b' :: '\n' :: _) ((.openBrace, ['\x7b']) :: _) :=
      .symbol rfl rfl (.space rfl hstmts)
    rw [block, Block.words]
    simpa using hopen

end

end Pretty

/-! ## The words spell the tree -/

namespace Spells

variable {ts us : List Token} {ws : List Word} {e : Expr}

/-- Words in parentheses are tokens in parentheses. -/
theorem of_parens (h : ts.map Token.word = Word.parens ws) : ∃ o us c, ts = o :: (us ++ [c]) ∧
    o.kind = .openParen ∧ us.map Token.word = ws ∧ c.kind = .closeParen := by
  obtain ⟨o, vs, rfl, ho, hvs⟩ := List.map_eq_cons_iff.1 h
  obtain ⟨us, cs, rfl, hus, hcs⟩ := List.map_eq_append_iff.1 hvs
  obtain ⟨c, rfl, hc⟩ := List.map_eq_singleton_iff.1 hcs
  exact ⟨o, us, c, rfl, congrArg Prod.fst ho, hus, congrArg Prod.fst hc⟩

theorem of_ident {x : Token} {i : Ident} (h : x.word = i.word) :
    x.kind = .identifier ∧ Ident.erase ⟨x.lexeme, x.span⟩ = i.erase :=
  ⟨congrArg Prod.fst h, congrArg (Ident.mk · {}) (congrArg Prod.snd h)⟩

theorem of_moreNames {is : List Ident} (h : ts.map Token.word = Ident.moreWords is) :
    ∃ js, Spells .moreParams ts js ∧ js.map Ident.erase = is.map Ident.erase := by
  induction is generalizing ts with
  | nil =>
    rw [List.map_eq_nil_iff.1 h]
    exact ⟨[], .noMoreParams, rfl⟩
  | cons i is ih =>
    obtain ⟨c, us, rfl, hc, hus⟩ := List.map_eq_cons_iff.1 h
    obtain ⟨x, vs, rfl, hx, hvs⟩ := List.map_eq_cons_iff.1 hus
    obtain ⟨js, hjs, heq⟩ := ih hvs
    obtain ⟨hkind, herase⟩ := of_ident hx
    refine ⟨_, .moreParams (congrArg Prod.fst hc) hkind hjs, ?_⟩
    rw [List.map_cons, List.map_cons, heq, herase]

theorem of_names {is : List Ident} (h : ts.map Token.word = Ident.words is) :
    ∃ js, Spells .params ts js ∧ js.map Ident.erase = is.map Ident.erase := by
  cases is with
  | nil =>
    rw [List.map_eq_nil_iff.1 h]
    exact ⟨[], .noParams, rfl⟩
  | cons i is =>
    obtain ⟨x, us, rfl, hx, hus⟩ := List.map_eq_cons_iff.1 h
    obtain ⟨js, hjs, heq⟩ := of_moreNames hus
    obtain ⟨hkind, herase⟩ := of_ident hx
    refine ⟨_, .params hkind hjs, ?_⟩
    rw [List.map_cons, List.map_cons, heq, herase]

theorem unaryOp_of_word {x : Token} {op : UnaryOp} (h : x.word = op.word) :
    Grammar.unaryOp? x.kind = some op := by
  rw [show x.kind = op.word.1 from congrArg Prod.fst h]
  cases op <;> rfl

/-- Operands of an operator, in parentheses with it. -/
theorem of_binaryOp {o x c : Token} {op : BinaryOp} {f : Expr} (ho : o.kind = .openParen)
    (he : Spells (.expr .call) ts e) (hx : x.word = op.word) (hf : Spells (.expr .call) us f)
    (hc : c.kind = .closeParen) : Spells (.expr .call) (o :: (ts ++ x :: us ++ [c]))
      (.group (.binary op e f (e.span.join f.span)) (o.span.join c.span)) := by
  have hop : ∃ l : Layer, l.op? x.kind = some op ∧ l ≠ .primary ∧ l.tighter ≠ .primary := by
    rw [show x.kind = op.word.1 from congrArg Prod.fst hx]
    cases op with
    | mul | div => exact ⟨.product, rfl, nofun, nofun⟩
    | add | sub => exact ⟨.sum, rfl, nofun, nofun⟩
    | less | greater => exact ⟨.comparison, rfl, nofun, nofun⟩
    | equal | notEqual => exact ⟨.equation, rfl, nofun, nofun⟩
  obtain ⟨l, hop, hl, hl'⟩ := hop
  exact .tighter (.group ho (.equation (.binary (of_call he hl) hop (of_call hf hl'))) hc)

end Spells

mutual

/-- The tokens of the text of an expression spell it, apart from groups and places. What they spell
nests as deep as the text. -/
theorem Expr.spells : ∀ (e : Expr) {ts : List Token}, ts.map Token.word = e.words →
    ∃ f, Spells (.expr .call) ts f ∧ f.erase = e.erase ∧ f.need = e.prettyNeed
  | .integer n _, ts, h => by
    obtain ⟨x, rfl, hx⟩ := List.map_eq_singleton_iff.1 h
    have hn : Text.Decimal.toInt64? x.lexeme = some n := by
      rw [show x.lexeme = Text.Decimal.ofInt64 n from congrArg Prod.snd hx]
      exact Text.Decimal.toInt64?_ofInt64 n
    exact ⟨_, .tighter (.integer (congrArg Prod.fst hx) hn), rfl, rfl⟩
  | .boolean b _, ts, h => by
    obtain ⟨x, rfl, hx⟩ := List.map_eq_singleton_iff.1 h
    have hkind : x.kind = if b then .kwTrue else .kwFalse := by
      cases b <;> exact congrArg Prod.fst hx
    exact ⟨_, .tighter (.boolean b hkind), rfl, rfl⟩
  | .var i, ts, h => by
    obtain ⟨x, rfl, hx⟩ := List.map_eq_singleton_iff.1 h
    obtain ⟨hkind, herase⟩ := Spells.of_ident hx
    exact ⟨_, .tighter (.var hkind), congrArg Expr.var herase, rfl⟩
  | .unary op e _, ts, h => by
    obtain ⟨o, us, c, rfl, ho, hus, hc⟩ := Spells.of_parens h
    obtain ⟨x, vs, rfl, hx, hvs⟩ := List.map_eq_cons_iff.1 hus
    obtain ⟨f, hf, herase, hneed⟩ := e.spells hvs
    have hunary := Spells.unary (Spells.unaryOp_of_word hx) (.tighter hf)
    refine ⟨_, .tighter (.group ho hunary.equation hc), ?_, ?_⟩
    · rw [Expr.erase, Expr.erase, Expr.erase, herase]
    · rw [Expr.need, Expr.need, Expr.prettyNeed, hneed]
  | .binary op e f _, ts, h => by
    obtain ⟨o, us, c, rfl, ho, hus, hc⟩ := Spells.of_parens h
    obtain ⟨vs, ws, rfl, hvs, hws⟩ := List.map_eq_append_iff.1 hus
    obtain ⟨x, rs, rfl, hx, hrs⟩ := List.map_eq_cons_iff.1 hws
    obtain ⟨e', he', herase, hneed⟩ := e.spells hvs
    obtain ⟨f', hf', herase', hneed'⟩ := f.spells hrs
    refine ⟨_, Spells.of_binaryOp ho he' hx hf' hc, ?_, ?_⟩
    · rw [Expr.erase, Expr.erase, Expr.erase, herase, herase']
    · rw [Expr.need, Expr.need, Expr.prettyNeed, hneed, hneed']
  | .call e es _, ts, h => by
    obtain ⟨us, vs, rfl, hus, hvs⟩ := List.map_eq_append_iff.1 h
    obtain ⟨o, ws, c, rfl, ho, hws, hc⟩ := Spells.of_parens hvs
    obtain ⟨f, hf, herase, hneed⟩ := e.spells hus
    obtain ⟨fs, hfs, herases, hneeds⟩ := Expr.spells_arguments es hws
    refine ⟨_, .call hf ho hfs hc, ?_, ?_⟩
    · rw [Expr.erase, Expr.erase, herase, herases]
    · rw [Expr.need, Expr.prettyNeed, hneed, hneeds]
  | .group e _, ts, h => e.spells h
  | .cond e b none _, ts, h => by
    obtain ⟨i, us, rfl, hi, hus⟩ := List.map_eq_cons_iff.1 h
    obtain ⟨vs, bs, rfl, hvs, hbs⟩ := List.map_eq_append_iff.1 hus
    obtain ⟨o, ws, c, rfl, ho, hws, hc⟩ := Spells.of_parens hvs
    obtain ⟨f, hf, herase, hneed⟩ := e.spells hws
    obtain ⟨d, hd, herased, hneedd⟩ := b.spells hbs
    have hcond := Spells.conditional (congrArg Prod.fst hi) ho (hf.of_call nofun) hc hd
    rw [List.cons_append, List.append_assoc, List.singleton_append]
    refine ⟨_, .tighter hcond, ?_, ?_⟩
    · rw [Expr.erase, Expr.erase, herase, herased]
    · rw [Expr.need, Expr.prettyNeed, hneed, hneedd]
  | .cond e b (some c) _, ts, h => by
    obtain ⟨i, us, rfl, hi, hus⟩ := List.map_eq_cons_iff.1 h
    obtain ⟨vs, rs, rfl, hvs, hrs⟩ := List.map_eq_append_iff.1 hus
    obtain ⟨o, ws, p, rfl, ho, hws, hp⟩ := Spells.of_parens hvs
    obtain ⟨bs, ds, rfl, hbs, hds⟩ := List.map_eq_append_iff.1 hrs
    obtain ⟨l, cs, rfl, hl, hcs⟩ := List.map_eq_cons_iff.1 hds
    obtain ⟨f, hf, herase, hneed⟩ := e.spells hws
    obtain ⟨b', hb', herased, hneedb⟩ := b.spells hbs
    obtain ⟨c', hc', herased', hneedc⟩ := c.spells hcs
    have hcond := Spells.alternative (congrArg Prod.fst hi) ho (hf.of_call nofun) hp hb'
      (congrArg Prod.fst hl) hc'
    rw [List.cons_append, List.append_assoc, List.singleton_append]
    refine ⟨_, .tighter hcond, ?_, ?_⟩
    · rw [Expr.erase, Expr.erase, herase, herased, herased']
    · rw [Expr.need, Expr.prettyNeed, hneed, hneedb, hneedc]
  | .function is b _, ts, h => by
    obtain ⟨f, us, rfl, hf, hus⟩ := List.map_eq_cons_iff.1 h
    obtain ⟨vs, bs, rfl, hvs, hbs⟩ := List.map_eq_append_iff.1 hus
    obtain ⟨o, ws, c, rfl, ho, hws, hc⟩ := Spells.of_parens hvs
    obtain ⟨js, hjs, herase⟩ := Spells.of_names hws
    obtain ⟨d, hd, herased, hneed⟩ := b.spells hbs
    have hfunction := Spells.function (congrArg Prod.fst hf) ho hjs hc hd
    rw [List.cons_append, List.append_assoc, List.singleton_append]
    refine ⟨_, .tighter hfunction, ?_, ?_⟩
    · rw [Expr.erase, Expr.erase, herase, herased]
    · rw [Expr.need, Expr.prettyNeed, hneed]

theorem Expr.spells_arguments : ∀ (es : List Expr) {ts : List Token},
    ts.map Token.word = Expr.argumentWords es →
    ∃ fs, Spells .arguments ts fs ∧ Expr.eraseAll fs = Expr.eraseAll es ∧
      Expr.needAll fs = Expr.prettyNeedAll es
  | [], ts, h => by
    rw [List.map_eq_nil_iff.1 h]
    exact ⟨[], .noArguments, rfl, rfl⟩
  | e :: es, ts, h => by
    obtain ⟨us, vs, rfl, hus, hvs⟩ := List.map_eq_append_iff.1 h
    obtain ⟨f, hf, herase, hneed⟩ := e.spells hus
    obtain ⟨fs, hfs, herases, hneeds⟩ := Expr.spells_moreArguments es hvs
    refine ⟨f :: fs, .arguments (hf.of_call nofun) hfs, ?_, ?_⟩
    · rw [Expr.eraseAll, Expr.eraseAll, herase, herases]
    · rw [Expr.needAll, Expr.prettyNeedAll, hneed, hneeds]

theorem Expr.spells_moreArguments : ∀ (es : List Expr) {ts : List Token},
    ts.map Token.word = Expr.moreWords es →
    ∃ fs, Spells .moreArguments ts fs ∧ Expr.eraseAll fs = Expr.eraseAll es ∧
      Expr.needAll fs = Expr.prettyNeedAll es
  | [], ts, h => by
    rw [List.map_eq_nil_iff.1 h]
    exact ⟨[], .noMoreArguments, rfl, rfl⟩
  | e :: es, ts, h => by
    obtain ⟨c, us, rfl, hc, hus⟩ := List.map_eq_cons_iff.1 h
    obtain ⟨vs, rs, rfl, hvs, hrs⟩ := List.map_eq_append_iff.1 hus
    obtain ⟨f, hf, herase, hneed⟩ := e.spells hvs
    obtain ⟨fs, hfs, herases, hneeds⟩ := Expr.spells_moreArguments es hrs
    refine ⟨f :: fs, .moreArguments (congrArg Prod.fst hc) (hf.of_call nofun) hfs, ?_, ?_⟩
    · rw [Expr.eraseAll, Expr.eraseAll, herase, herases]
    · rw [Expr.needAll, Expr.prettyNeedAll, hneed, hneeds]

/-- The tokens of the text of a statement spell it, apart from groups and places. The last one is a
semicolon. -/
theorem Stmt.spells : ∀ (s : Stmt) {ts : List Token}, ts.map Token.word = s.words →
    ∃ r, Spells .stmt ts r ∧ r.erase = s.erase ∧ r.need = s.prettyNeed ∧
      ∃ us x, ts = us ++ [x] ∧ x.kind = .semicolon
  | .bind i e _, ts, h => by
    obtain ⟨k, us, rfl, hk, hus⟩ := List.map_eq_cons_iff.1 h
    obtain ⟨x, vs, rfl, hx, hvs⟩ := List.map_eq_cons_iff.1 hus
    obtain ⟨a, rs, rfl, ha, hrs⟩ := List.map_eq_cons_iff.1 hvs
    obtain ⟨ws, cs, rfl, hws, hcs⟩ := List.map_eq_append_iff.1 hrs
    obtain ⟨c, rfl, hc⟩ := List.map_eq_singleton_iff.1 hcs
    obtain ⟨f, hf, herase, hneed⟩ := e.spells hws
    obtain ⟨hkind, herased⟩ := Spells.of_ident hx
    have hsemicolon : c.kind = .semicolon := congrArg Prod.fst hc
    refine ⟨_, .binding (some c) (congrArg Prod.fst hk) hkind (congrArg Prod.fst ha)
      (hf.of_call nofun) fun t ht => by cases ht; exact hsemicolon, ?_, hneed,
      k :: x :: a :: ws, c, rfl, hsemicolon⟩
    rw [Stmt.erase, Stmt.erase, herase, herased]
  | .ret e _, ts, h => by
    obtain ⟨k, us, rfl, hk, hus⟩ := List.map_eq_cons_iff.1 h
    obtain ⟨ws, cs, rfl, hws, hcs⟩ := List.map_eq_append_iff.1 hus
    obtain ⟨c, rfl, hc⟩ := List.map_eq_singleton_iff.1 hcs
    obtain ⟨f, hf, herase, hneed⟩ := e.spells hws
    have hsemicolon : c.kind = .semicolon := congrArg Prod.fst hc
    refine ⟨_, .returning (some c) (congrArg Prod.fst hk) (hf.of_call nofun)
      fun t ht => by cases ht; exact hsemicolon, ?_, hneed, k :: ws, c, rfl, hsemicolon⟩
    rw [Stmt.erase, Stmt.erase, herase]
  | .eval e _, ts, h => by
    obtain ⟨ws, cs, rfl, hws, hcs⟩ := List.map_eq_append_iff.1 h
    obtain ⟨c, rfl, hc⟩ := List.map_eq_singleton_iff.1 hcs
    obtain ⟨f, hf, herase, hneed⟩ := e.spells hws
    have hsemicolon : c.kind = .semicolon := congrArg Prod.fst hc
    refine ⟨_, .evaluation (some c) (hf.of_call nofun)
      fun t ht => by cases ht; exact hsemicolon, ?_, hneed, ws, c, rfl, hsemicolon⟩
    rw [Stmt.erase, Stmt.erase, herase]

/-- The tokens of the text of statements spell them, apart from groups and places. -/
theorem Stmt.spells_all : ∀ (ss : List Stmt) {ts : List Token},
    ts.map Token.word = Stmt.allWords ss →
    ∃ rs, Spells .stmts ts rs ∧ Stmt.eraseAll rs = Stmt.eraseAll ss ∧
      Stmt.needAll rs = Stmt.prettyNeedAll ss
  | [], ts, h => by
    rw [List.map_eq_nil_iff.1 h]
    exact ⟨[], .noStmts, rfl, rfl⟩
  | s :: ss, ts, h => by
    obtain ⟨us, vs, rfl, hus, hvs⟩ := List.map_eq_append_iff.1 h
    obtain ⟨r, hr, herase, hneed, ws, x, rfl, hx⟩ := s.spells hus
    obtain ⟨rs, hrs, herases, hneeds⟩ := Stmt.spells_all ss hvs
    refine ⟨r :: rs, .stmts hr (.inl ⟨x, List.getLast?_concat, hx⟩) hrs, ?_, ?_⟩
    · rw [Stmt.eraseAll, Stmt.eraseAll, herase, herases]
    · rw [Stmt.needAll, Stmt.prettyNeedAll, hneed, hneeds]

theorem Block.spells : ∀ (b : Block) {ts : List Token}, ts.map Token.word = b.words →
    ∃ d, Spells .block ts d ∧ d.erase = b.erase ∧ d.need = b.prettyNeed
  | .mk ss _, ts, h => by
    obtain ⟨o, us, rfl, ho, hus⟩ := List.map_eq_cons_iff.1 h
    obtain ⟨vs, cs, rfl, hvs, hcs⟩ := List.map_eq_append_iff.1 hus
    obtain ⟨c, rfl, hc⟩ := List.map_eq_singleton_iff.1 hcs
    obtain ⟨rs, hrs, herases, hneeds⟩ := Stmt.spells_all ss hvs
    refine ⟨_, .block (congrArg Prod.fst ho) hrs (congrArg Prod.fst hc), ?_, ?_⟩
    · rw [Block.erase, Block.erase, herases]
    · rw [Block.need, Block.prettyNeed, hneeds]

end

/-! ## Texts of trees are read -/

namespace Program

variable {p q : Program}

/-- The tokens of the text of a printable program spell it, apart from groups and places. -/
theorem exists_spells_pretty (settings : Settings) (hp : p.Printable) :
    ∃ tokens q, Token.ofText settings p.pretty = .ok tokens ∧
      Spells .program (Tape.ofTokens tokens).toList q ∧ q.erase = p.erase ∧
      q.need = p.prettyNeed := by
  have hcut := Pretty.cut_stmts 0 p.statements hp .nil
  rw [List.append_nil] at hcut
  obtain ⟨tokens, htokens, hwords⟩ := hcut.ofText settings
  obtain ⟨ss, hss, herase, hneed⟩ := Stmt.spells_all p.statements hwords
  exact ⟨tokens, _, htokens, .program hss (Tape.ofTokens tokens).eof_kind,
    congrArg (Program.mk · {}) herase, hneed⟩

/-- Where nesting is limited, the text of a printable program is read if it nests no deeper than
the limit. -/
theorem exists_parse_pretty_of_le (settings : Settings) (hu : settings.Usable) (hp : p.Printable)
    (hd : ∀ d ∈ settings.maxDepth, p.prettyNeed ≤ d) :
    ∃ q, parse settings p.pretty = .ok q ∧ q.erase = p.erase := by
  obtain ⟨tokens, q, htokens, hspells, herase, hneed⟩ := exists_spells_pretty settings hp
  have hparse := (Grammar.program_parse_limited hu settings.maxDepth).2
    ⟨hspells, fun d hd' => hneed ▸ hd d hd'⟩
  exact ⟨q, parse_eq_ok.2 ⟨tokens, htokens, hparse⟩, herase⟩

/-- The text of a printable program that nests deeper than the limit is rejected. -/
theorem parse_pretty_of_lt (settings : Settings) (hu : settings.Usable) (hp : p.Printable) {d : Nat}
    (hd : d ∈ settings.maxDepth) (hlt : d < p.prettyNeed) :
    ∃ e, parse settings p.pretty = .error (.syntactic e) ∧
      (settings.failureSelection = .furthest → e.cause = .tooDeep) := by
  obtain ⟨tokens, q, htokens, hspells, -, hneed⟩ := exists_spells_pretty settings hp
  cases hparse : Grammar.program.parse (.ofTokens settings tokens) with
  | ok r =>
    obtain ⟨hspells', hallowed⟩ :=
      (Grammar.program_parse_limited hu settings.maxDepth).1 ⟨r.2, hparse⟩
    cases Grammar.program_unique hspells hspells'
    have := hallowed d hd
    omega
  | error e =>
    exact ⟨e, parse_eq_syntactic.2 ⟨tokens, htokens, hparse⟩,
      fun hs => Grammar.cause_of_sentence hs hu hspells.sentence hparse⟩

theorem exists_parse_pretty (settings : Settings) (hd : settings.maxDepth = none)
    (hu : settings.Usable) (hp : p.Printable) :
    ∃ q, parse settings p.pretty = .ok q ∧ q.erase = p.erase :=
  exists_parse_pretty_of_le settings hu hp fun d hd' => by cases hd.symm.trans hd'

/-- Programs with one text are the same, apart from groups and places. -/
theorem erase_eq_of_pretty_eq (hp : p.Printable) (hq : q.Printable) (h : p.pretty = q.pretty) :
    p.erase = q.erase := by
  obtain ⟨p', hp', herase⟩ := exists_parse_pretty {} rfl (by decide) hp
  obtain ⟨q', hq', herase'⟩ := exists_parse_pretty {} rfl (by decide) hq
  rw [h] at hp'
  cases hp'.symm.trans hq'
  rw [← herase, herase']

end Program

namespace Expr

variable {e f : Expr}

theorem exists_parse_pretty (settings : Settings) (hd : settings.maxDepth = none)
    (hu : settings.Usable) (he : e.Printable) :
    ∃ f, parse settings e.pretty = .ok f ∧ f.erase = e.erase := by
  have hcut := Pretty.cut_expr 0 e he (fun _ hc => by cases hc) .nil
  rw [List.append_nil] at hcut
  obtain ⟨tokens, htokens, hwords⟩ := hcut.ofText settings
  obtain ⟨f, hf, herase, -⟩ := e.spells hwords
  have hspells : Spells (.expr .equation) (Input.ofTokens settings tokens).rest f :=
    hf.of_call nofun
  obtain ⟨t, ht⟩ := hspells.expression_parse hu fun m hm => by cases hd.symm.trans hm
  exact ⟨f, parse_eq_ok.2 ⟨tokens, htokens, t, ht⟩, herase⟩

/-- Expressions with one text are the same, apart from groups and places. -/
theorem erase_eq_of_pretty_eq (he : e.Printable) (hf : f.Printable) (h : e.pretty = f.pretty) :
    e.erase = f.erase := by
  obtain ⟨e', he', herase⟩ := exists_parse_pretty {} rfl (by decide) he
  obtain ⟨f', hf', herase'⟩ := exists_parse_pretty {} rfl (by decide) hf
  rw [h] at he'
  cases he'.symm.trans hf'
  rw [← herase, herase']

end Expr

/-- Where nesting is not limited, the canonical text of a printable tree is read as the same tree,
apart from groups and places, which has the same text. Printable trees have the same text only if
they are the same, apart from groups and places. All trees that are read are printable. -/
theorem parse_pretty (settings : Settings) (hd : settings.maxDepth = none)
    (hu : settings.Usable) :
    (∀ p : Program, p.Printable → ∃ q, Program.parse settings p.pretty = .ok q ∧
      q.erase = p.erase ∧ q.pretty = p.pretty) ∧
    (∀ p q : Program, p.Printable → q.Printable → p.pretty = q.pretty → p.erase = q.erase) ∧
    (∀ other text p, Program.parse other text = .ok p → p.Printable) ∧
    (∀ e : Expr, e.Printable → ∃ f, Expr.parse settings e.pretty = .ok f ∧
      f.erase = e.erase ∧ f.pretty = e.pretty) ∧
    (∀ e f : Expr, e.Printable → f.Printable → e.pretty = f.pretty → e.erase = f.erase) ∧
    ∀ other text e, Expr.parse other text = .ok e → e.Printable := by
  refine ⟨fun p hp => ?_, fun p q => Program.erase_eq_of_pretty_eq,
    fun other text p => Program.printable_of_parse, fun e he => ?_,
    fun e f => Expr.erase_eq_of_pretty_eq, fun other text e => Expr.printable_of_parse⟩
  · obtain ⟨q, hq, herase⟩ := Program.exists_parse_pretty settings hd hu hp
    refine ⟨q, hq, herase, ?_⟩
    rw [← q.pretty_erase, herase, p.pretty_erase]
  · obtain ⟨f, hf, herase⟩ := Expr.exists_parse_pretty settings hd hu he
    refine ⟨f, hf, herase, ?_⟩
    rw [← f.pretty_erase, herase, e.pretty_erase]

/-- The negation of a negative value is read as one, although the group in it has no text. -/
theorem parse_pretty_negate :
    let e : Expr := .unary .negate (.group (.unary .negate (.integer 7 {}) {}) {}) {}
    e.pretty = ['(', '-', '(', '-', '7', ')', ')'] ∧
      ∃ f, Expr.parse {} e.pretty = .ok f ∧ f.erase = e.erase ∧ f.pretty = e.pretty := by
  refine ⟨rfl, ?_⟩
  obtain ⟨-, -, -, hread, -⟩ := parse_pretty {} rfl (by decide)
  exact hread _ (show 0 ≤ (7 : Int64).toInt by decide)

end Descent
