import Mathlib.Data.List.Forall2
import Descent.Parse
import Descent.Proofs.Parser.Forward
import Descent.Proofs.Tree.Relocation

/-!
# Parsing does not look at positions

Rules decide by kinds and lexemes of tokens alone; positions only end up in spans and in errors. So
on a tape that has the same tokens at other places, perhaps behind other tokens, a rule of the
grammar does the same: it reads the tree at its new place, or reports the error at its new place
(`Rule.Natural`). This cannot be said of all rules, since a rule may make anything of the tokens it
reads; it is proved for those of the grammar one by one.
-/

namespace Descent

variable {ρ : Relocation}

/-- The tape has the tokens of the first one at their new places, behind other tokens. -/
structure Tape.Moves (ρ : Relocation) (tape tape' : Tape) : Prop where
  tokens : tape'.tokens.toList.drop ρ.before = tape.tokens.toList.map (Token.move ρ)
  size : tape'.tokens.size = tape.tokens.size + ρ.before
  eof : tape'.eof = tape.eof.move ρ

namespace Input

/-- The input is the first one on the tape with the new places. -/
structure Moves (ρ : Relocation) (s s' : Input) : Prop where
  tape : s.tape.Moves ρ s'.tape
  settings : s'.settings = s.settings
  position : s'.position = s.position + ρ.before
  depth : s'.depth = s.depth
  furthest : s'.furthest = s.furthest.map (ParseError.move ρ)

namespace Moves

variable {s s' : Input}

theorem left (h : s.Moves ρ s') : s'.left = s.left := by
  have hsize := h.tape.size
  have hposition := h.position
  unfold Input.left
  omega

theorem peek (h : s.Moves ρ s') (k : Nat) : s'.peek k = (s.peek k).move ρ := by
  have hindex : s'.position + k = ρ.before + (s.position + k) := by
    have hposition := h.position
    omega
  have htoken : s'.tape.tokens[s'.position + k]? =
      s.tape.tokens[s.position + k]?.map (Token.move ρ) := by
    rw [← Array.getElem?_toList, ← Array.getElem?_toList, hindex, ← List.getElem?_drop,
      h.tape.tokens, List.getElem?_map]
  unfold Input.peek
  rw [htoken, h.tape.eof]
  cases s.tape.tokens[s.position + k]? <;> rfl

theorem current (h : s.Moves ρ s') : s'.current = s.current.move ρ := h.peek 0

theorem atEnd (h : s.Moves ρ s') : s'.atEnd = s.atEnd := by
  have hsize := h.tape.size
  have hposition := h.position
  have hle := s.position_le
  rw [Bool.eq_iff_iff]
  simp only [Input.atEnd, beq_iff_eq]
  omega

theorem report (h : s.Moves ρ s') (e : ParseError) :
    s'.report (e.move ρ) = (s.report e).move ρ := by
  simp only [Input.report, h.settings, h.furthest]
  cases s.settings.failureSelection with
  | furthest => exact (e.join?_move s.furthest).symm
  | first => rfl

theorem error (h : s.Moves ρ s') (cause : ParseError.Cause) :
    s'.error cause = (s.error cause).move ρ := by
  unfold Input.error
  rw [← h.report, h.current, h.position]
  rfl

theorem unexpected (h : s.Moves ρ s') (x : Expectation) :
    s'.unexpected x = (s.unexpected x).move ρ := by
  unfold Input.unexpected
  rw [← h.report, h.current, h.position]
  rfl

theorem atDepth (h : s.Moves ρ s') (n : Nat) : (s.atDepth n).Moves ρ (s'.atDepth n) :=
  ⟨h.tape, h.settings, h.position, rfl, h.furthest⟩

theorem record (h : s.Moves ρ s') (e : ParseError) :
    (s.record e).Moves ρ (s'.record (e.move ρ)) := by
  have hfurthest := h.furthest
  unfold Input.record
  cases hselection : s.settings.failureSelection with
  | first =>
    have hselection' : s'.settings.failureSelection = .first := h.settings ▸ hselection
    simp only [hselection']
    exact h
  | furthest =>
    have hselection' : s'.settings.failureSelection = .furthest := h.settings ▸ hselection
    simp only [hselection']
    cases hf : s.furthest with
    | none =>
      rw [hf] at hfurthest
      simp only [hfurthest, Option.map_none]
      exact ⟨h.tape, h.settings, h.position, h.depth, rfl⟩
    | some f =>
      rw [hf] at hfurthest
      have hlt : (e.move ρ).index < (f.move ρ).index ↔ e.index < f.index :=
        Nat.add_lt_add_iff_right
      simp only [hfurthest, Option.map_some, hlt]
      by_cases he : e.index < f.index
      · rw [if_pos he, if_pos he]
        exact h
      · rw [if_neg he, if_neg he]
        exact ⟨h.tape, h.settings, h.position, h.depth, congrArg some (e.join_move f).symm⟩

theorem record? (h : s.Moves ρ s') (o : Option ParseError) :
    (s.record? o).Moves ρ (s'.record? (o.map (ParseError.move ρ))) := by
  cases o with
  | none => exact h
  | some e => exact h.record e

/-- One token further on, or past the end. -/
theorem advance (h : s.Moves ρ s') :
    (∃ t t', s.advance = .ok t ∧ s'.advance = .ok t' ∧ t.Moves ρ t') ∨
      ∃ e, s.advance = .error e ∧ s'.advance = .error (e.move ρ) := by
  have hsize := h.tape.size
  have hposition := h.position
  unfold Input.advance
  by_cases hlt : s.position < s.tape.tokens.size
  · have hlt' : s'.position < s'.tape.tokens.size := by omega
    rw [dif_pos hlt, dif_pos hlt']
    refine .inl ⟨_, _, rfl, rfl, h.tape, h.settings, ?_, h.depth, h.furthest⟩
    show s'.position + 1 = s.position + 1 + ρ.before
    omega
  · have hlt' : ¬s'.position < s'.tape.tokens.size := by omega
    rw [dif_neg hlt, dif_neg hlt', h.settings]
    cases s.settings.advancePastEnd with
    | saturate => exact .inl ⟨s, s', rfl, rfl, h⟩
    | fail => exact .inr ⟨_, rfl, congrArg Except.error (h.error .pastEnd)⟩

end Moves

end Input

namespace Parser

variable {α β : Type} {φ : α → α} {ψ : β → β} {p q : Parser α}

/-- The second outcome is the first one on the tape with the new places. -/
def Moved (ρ : Relocation) (φ : α → α) :
    Except ParseError (α × Input) → Except ParseError (α × Input) → Prop
  | .error e, o => o = .error (e.move ρ)
  | .ok (a, t), o => ∃ t', o = .ok (φ a, t') ∧ t.Moves ρ t'

/-- On the tape with the new places, the second parser does what the first one does. Where `p` reads
`a`, it reads `φ a`. -/
def Natural (ρ : Relocation) (φ : α → α) (p q : Parser α) : Prop :=
  ∀ s s', s.Moves ρ s' → Moved ρ φ (p s) (q s')

namespace Natural

theorem pure {a b : α} (h : φ a = b) : Natural ρ φ (Parser.pure a) (Parser.pure b) :=
  fun _ s' hs => ⟨s', by rw [h]; rfl, hs⟩

theorem bind {f g : α → Parser β} (hp : Natural ρ φ p q) (hf : ∀ a, Natural ρ ψ (f a) (g (φ a))) :
    Natural ρ ψ (Parser.bind p f) (Parser.bind q g) := by
  intro s s' hs
  have h := hp s s' hs
  unfold Parser.bind
  cases hps : p s with
  | error e =>
    rw [hps] at h
    rw [show q s' = _ from h]
    rfl
  | ok m =>
    obtain ⟨a, t⟩ := m
    rw [hps] at h
    obtain ⟨t', hq, ht⟩ := h
    rw [hq]
    exact hf a t t' ht

theorem any : Natural ρ (Token.move ρ) any any := by
  intro s s' hs
  unfold Parser.any
  rcases hs.advance with ⟨t, t', ht, ht', hmoves⟩ | ⟨e, he, he'⟩
  · rw [ht, ht']
    exact ⟨t', by rw [hs.current], hmoves⟩
  · rw [he, he']
    rfl

theorem token (k : Token.Kind) : Natural ρ (Token.move ρ) (token k) (token k) := by
  intro s s' hs
  unfold Parser.token
  rw [hs.current, Token.kind_move]
  by_cases hk : s.current.kind = k
  · rw [if_pos hk, if_pos hk]
    exact any s s' hs
  · rw [if_neg hk, if_neg hk]
    exact congrArg Except.error (hs.unexpected _)

theorem eoi : Natural ρ id eoi eoi := by
  intro s s' hs
  unfold Parser.eoi
  rw [hs.atEnd]
  by_cases hend : s.atEnd
  · rw [if_pos hend, if_pos hend]
    exact ⟨s', rfl, hs⟩
  · rw [if_neg hend, if_neg hend]
    exact congrArg Except.error (hs.unexpected _)

theorem lookahead (k : Nat) : Natural ρ (Token.move ρ) (lookahead k) (lookahead k) := by
  intro s s' hs
  unfold Parser.lookahead Input.lookahead
  rw [hs.settings]
  by_cases hk : k < s.settings.lookaheadDepth
  · rw [if_pos hk, if_pos hk]
    exact ⟨s', by rw [hs.peek], hs⟩
  · rw [if_neg hk, if_neg hk]
    exact congrArg Except.error (hs.error _)

theorem here : Natural ρ ρ.place here here := by
  intro s s' hs
  refine ⟨s', ?_, hs⟩
  unfold Parser.here
  rw [hs.current]
  rfl

theorem fail (cause : ParseError.Cause) : Natural ρ φ (fail cause) (fail cause) :=
  fun _ _ hs => congrArg Except.error (hs.error cause)

theorem refine {f g : α → Except ParseError.Cause β} (hp : Natural ρ φ p q)
    (hf : ∀ a, g (φ a) = (f a).map ψ) : Natural ρ ψ (refine f p) (refine g q) := by
  intro s s' hs
  have h := hp s s' hs
  unfold Parser.refine
  cases hps : p s with
  | error e =>
    rw [hps] at h
    rw [show q s' = _ from h]
    rfl
  | ok m =>
    obtain ⟨a, t⟩ := m
    rw [hps] at h
    obtain ⟨t', hq, ht⟩ := h
    rw [hq]
    simp only [hf]
    cases f a with
    | error cause => exact congrArg Except.error (hs.error cause)
    | ok b => exact ⟨t', rfl, ht⟩

theorem named {name : String} (hp : Natural ρ φ p q) : Natural ρ φ (named name p) (named name q) := by
  intro s s' hs
  have h := hp s s' hs
  unfold Parser.named
  cases hps : p s with
  | error e =>
    rw [hps] at h
    have hindex : (e.move ρ).index = s'.position ↔ e.index = s.position := by
      rw [hs.position]
      exact Nat.add_right_cancel_iff
    rw [show q s' = _ from h]
    simp only [hindex]
    by_cases he : e.index = s.position
    · rw [if_pos he, if_pos he]
      rfl
    · rw [if_neg he, if_neg he]
      rfl
  | ok m =>
    rw [hps] at h
    obtain ⟨t', hq, ht⟩ := h
    rw [hq]
    exact ⟨t', rfl, ht⟩

theorem nest (hp : Natural ρ φ p q) : Natural ρ φ (nest p) (nest q) := by
  intro s s' hs
  unfold Parser.nest Input.descend
  rw [hs.settings, hs.depth]
  by_cases hmax : s.settings.maxDepth.any (· < s.depth + 1)
  · rw [if_pos hmax, if_pos hmax]
    exact congrArg Except.error (hs.error _)
  · rw [if_neg hmax, if_neg hmax]
    have h := hp _ _ (hs.atDepth (s.depth + 1))
    simp only
    cases hps : p (s.atDepth (s.depth + 1)) with
    | error e =>
      rw [hps] at h
      rw [show q _ = _ from h]
      rfl
    | ok m =>
      obtain ⟨a, t⟩ := m
      rw [hps] at h
      obtain ⟨t', hq, ht⟩ := h
      rw [hq]
      exact ⟨_, rfl, ht.atDepth s.depth⟩

theorem choiceFrom {s s' : Input} (hs : s.Moves ρ s') {ps qs : List (Parser α)}
    (hps : List.Forall₂ (Natural ρ φ) ps qs) (f : Option ParseError) {best best' : Option (α × Input)}
    (hbest : (best = none ∧ best' = none) ∨
      ∃ a t t', best = some (a, t) ∧ best' = some (φ a, t') ∧ t.Moves ρ t') :
    Moved ρ φ (choiceFrom s f best ps) (choiceFrom s' (f.map (ParseError.move ρ)) best' qs) := by
  induction hps generalizing f best best' with
  | nil =>
    obtain ⟨rfl, rfl⟩ | ⟨a, t, t', rfl, rfl, ht⟩ := hbest
    · simp only [Parser.choiceFrom]
      cases f with
      | none => exact congrArg Except.error (hs.error _)
      | some e => rfl
    · exact ⟨_, rfl, ht.record? f⟩
  | @cons p q ps qs hpq _ ih =>
    have h := hpq s s' hs
    simp only [Parser.choiceFrom]
    cases hp : p s with
    | error e =>
      have hblame : blame s'.settings.failureSelection (f.map (ParseError.move ρ)) (e.move ρ) =
          (blame s.settings.failureSelection f e).move ρ := by
        rw [hs.settings]
        cases f with
        | none => rfl
        | some f =>
          cases s.settings.failureSelection with
          | first => rfl
          | furthest => exact (f.join_move e).symm
      rw [hp] at h
      rw [show q s' = _ from h]
      simp only [hblame]
      exact ih (some _) hbest
    | ok m =>
      obtain ⟨a, t⟩ := m
      rw [hp] at h
      obtain ⟨t', hq, ht⟩ := h
      rw [hq, hs.settings]
      simp only
      cases s.settings.tieBreak with
      | firstMatch => exact ⟨_, rfl, ht.record? f⟩
      | longestParse =>
        apply ih f
        obtain ⟨rfl, rfl⟩ | ⟨b, u, u', rfl, rfl, hu⟩ := hbest
        · exact .inr ⟨a, t, t', rfl, rfl, ht⟩
        · have hlt : u'.position < t'.position ↔ u.position < t.position := by
            rw [hu.position, ht.position]
            exact Nat.add_lt_add_iff_right
          simp only [longer, hlt]
          by_cases hfurther : u.position < t.position
          · rw [if_pos hfurther, if_pos hfurther]
            exact .inr ⟨a, t, t', rfl, rfl, ht⟩
          · rw [if_neg hfurther, if_neg hfurther]
            exact .inr ⟨b, u, u', rfl, rfl, hu⟩

theorem atLeast (hp : Natural ρ φ p q) {min : Nat} {s s' : Input} (hs : s.Moves ρ s') :
    Moved ρ (List.map φ) (atLeast min p s) (atLeast min q s') := by
  have h := hp s s' hs
  cases hps : p s with
  | error e =>
    rw [hps] at h
    rw [atLeast_of_error hps, atLeast_of_error h]
    by_cases hmin : min = 0
    · rw [if_pos hmin, if_pos hmin]
      exact ⟨_, rfl, hs.record e⟩
    · rw [if_neg hmin, if_neg hmin]
      rfl
  | ok m =>
    obtain ⟨a, t⟩ := m
    rw [hps] at h
    obtain ⟨t', hq, ht⟩ := h
    have hlt : t'.left < s'.left ↔ t.left < s.left := by rw [ht.left, hs.left]
    by_cases hless : t.left < s.left
    · have hrest : Moved ρ (List.map φ) (Parser.atLeast (min - 1) p t)
          (Parser.atLeast (min - 1) q t') := atLeast hp ht
      rw [atLeast_of_ok hps hless, atLeast_of_ok hq (hlt.2 hless)]
      cases hp' : Parser.atLeast (min - 1) p t with
      | error e =>
        rw [hp'] at hrest
        rw [show Parser.atLeast (min - 1) q t' = _ from hrest]
        rfl
      | ok m =>
        rw [hp'] at hrest
        obtain ⟨u', hq', hu⟩ := hrest
        rw [hq']
        exact ⟨u', rfl, hu⟩
    · rw [Parser.atLeast, Parser.atLeast, hps, hq]
      simp only [hlt, if_neg hless]
      exact ⟨t', rfl, ht⟩
termination_by s.left

theorem extendFrom {f g : α → Parser (Option α)}
    (hf : ∀ a, Natural ρ (Option.map φ) (f a) (g (φ a))) {a : α} {s s' : Input}
    (hs : s.Moves ρ s') : Moved ρ φ (extendFrom f a s) (extendFrom g (φ a) s') := by
  have h := hf a s s' hs
  cases hfs : f a s with
  | error e =>
    rw [hfs] at h
    rw [Parser.extendFrom, Parser.extendFrom, hfs, show g (φ a) s' = _ from h]
    rfl
  | ok m =>
    obtain ⟨_ | b, t⟩ := m
    · rw [hfs] at h
      obtain ⟨t', hg, ht⟩ := h
      rw [extendFrom_of_none hfs, extendFrom_of_none hg]
      exact ⟨t', rfl, ht⟩
    · rw [hfs] at h
      obtain ⟨t', hg, ht⟩ := h
      have hlt : t'.left < s'.left ↔ t.left < s.left := by rw [ht.left, hs.left]
      by_cases hless : t.left < s.left
      · rw [extendFrom_of_some hfs hless, extendFrom_of_some hg (hlt.2 hless)]
        exact extendFrom hf ht
      · rw [Parser.extendFrom, Parser.extendFrom, hfs, hg]
        simp only [Option.map_some, hlt, if_neg hless]
        exact ⟨t', rfl, ht⟩
termination_by s.left

end Natural

end Parser

/-! ## Rules -/

/-- The tree of a phrase at its new place. -/
def Phrase.move (ρ : Relocation) : (p : Phrase) → p.Value → p.Value
  | expression | unary => Expr.move ρ
  | statement => Stmt.move ρ
  | block => Block.move ρ

namespace Rule

variable {α β : Type} {parse : (p : Phrase) → Parser p.Value} {φ : α → α} {ψ : β → β}
  {r r' : Rule α} {q q' : Rule β}

/-- On the tape with the new places, the second rule does what the first one does. Where `r` reads
`a`, it reads `φ a`. -/
def Natural (ρ : Relocation) (parse : (p : Phrase) → Parser p.Value) (φ : α → α)
    (r r' : Rule α) : Prop := Parser.Natural ρ φ (r.run parse) (r'.run parse)

namespace Natural

theorem leave {a b : α} (h : φ a = b) : Natural ρ parse φ (Pure.pure a) (Pure.pure b) :=
  Parser.Natural.pure h

theorem token (k : Token.Kind) : Natural ρ parse (Token.move ρ) (token k) (token k) :=
  Parser.Natural.token k

theorem any : Natural ρ parse (Token.move ρ) any any := Parser.Natural.any

theorem eoi : Natural ρ parse id eoi eoi := Parser.Natural.eoi

theorem lookahead (k : Nat) : Natural ρ parse (Token.move ρ) (lookahead k) (lookahead k) :=
  Parser.Natural.lookahead k

theorem here : Natural ρ parse ρ.place here here := Parser.Natural.here

theorem bind {f g : α → Rule β} (hr : Natural ρ parse φ r r')
    (hf : ∀ a, Natural ρ parse ψ (f a) (g (φ a))) : Natural ρ parse ψ (r >>= f) (r' >>= g) :=
  Parser.Natural.bind hr hf

theorem map {f g : α → β} (hr : Natural ρ parse φ r r') (hf : ∀ a, ψ (f a) = g (φ a)) :
    Natural ρ parse ψ (f <$> r) (g <$> r') := bind hr fun a => leave (hf a)

theorem seqRight (hr : Natural ρ parse φ r r') (hq : Natural ρ parse ψ q q') :
    Natural ρ parse ψ (r *> q) (r' *> q') := bind hr fun _ => hq

theorem seqLeft (hr : Natural ρ parse φ r r') (hq : Natural ρ parse ψ q q') :
    Natural ρ parse φ (r <* q) (r' <* q') := bind hr fun _ => bind hq fun _ => leave rfl

theorem nest (hr : Natural ρ parse φ r r') : Natural ρ parse φ (nest r) (nest r') :=
  Parser.Natural.nest hr

theorem choice {rs : List (Rule α)} (h : ∀ r ∈ rs, Natural ρ parse φ r r) :
    Natural ρ parse φ (choice rs) (choice rs) := by
  intro s s' hs
  rw [run_choice]
  apply Parser.Natural.choiceFrom hs _ none (.inl ⟨rfl, rfl⟩)
  rw [List.forall₂_same]
  intro p hp
  obtain ⟨r, hr, rfl⟩ := List.mem_map.1 hp
  exact h r hr

theorem optional (hr : Natural ρ parse φ r r) :
    Natural ρ parse (Option.map φ) (optional r) (optional r) := by
  apply choice
  intro q hq
  simp only [List.mem_cons, List.not_mem_nil, or_false] at hq
  rcases hq with rfl | rfl
  · exact hr.map fun _ => rfl
  · exact leave rfl

theorem many (hr : Natural ρ parse φ r r) : Natural ρ parse (List.map φ) (many r) (many r) :=
  fun _ _ hs => Parser.Natural.atLeast hr hs

theorem sepBy (hr : Natural ρ parse φ r r) (hq : Natural ρ parse ψ q q) :
    Natural ρ parse (List.map φ) (sepBy r q) (sepBy r q) := by
  have hmore : Natural ρ parse (List.map φ) (Rule.many (q *> r)) (Rule.many (q *> r)) :=
    many (hq.seqRight hr)
  have hboth : Natural ρ parse (Prod.map φ (List.map φ)) (both r (Rule.many (q *> r)))
      (both r (Rule.many (q *> r))) := hr.bind fun _ => hmore.bind fun _ => leave rfl
  apply hboth.optional.bind
  intro o
  cases o with
  | none => exact leave rfl
  | some m => exact leave rfl

theorem extend {f g : α → Rule (Option α)} (hr : Natural ρ parse φ r r')
    (hf : ∀ a, Natural ρ parse (Option.map φ) (f a) (g (φ a))) :
    Natural ρ parse φ (extend r f) (extend r' g) :=
  Parser.Natural.bind hr fun _ _ _ hs => Parser.Natural.extendFrom hf hs

end Natural

end Rule

/-! ## The rules of the grammar -/

namespace Grammar

open Rule

variable {parse : (p : Phrase) → Parser p.Value}

theorem natural_ident : Natural ρ parse (Ident.move ρ) ident ident :=
  .bind (.token _) fun _ => .leave rfl

theorem natural_integer : Natural ρ parse (Expr.move ρ) integer integer := by
  apply Parser.Natural.refine (Parser.Natural.token _)
  intro t
  show integerOf (t.move ρ) = _
  unfold integerOf
  rw [show (t.move ρ).lexeme = t.lexeme from rfl]
  cases Text.Decimal.toInt64? t.lexeme <;> rfl

theorem natural_boolean : Natural ρ parse (Expr.move ρ) boolean boolean := by
  apply Natural.choice
  intro r hr
  simp only [List.mem_cons, List.not_mem_nil, or_false] at hr
  rcases hr with rfl | rfl
  · exact .bind (.token _) fun _ => .leave rfl
  · exact .bind (.token _) fun _ => .leave rfl

theorem natural_operations {op? : Token.Kind → Option BinaryOp} {r : Rule Expr}
    (hr : Natural ρ parse (Expr.move ρ) r r) :
    Natural ρ parse (Expr.move ρ) (operations op? r) (operations op? r) := by
  apply Natural.extend hr
  intro e
  apply Natural.bind (Natural.lookahead 0)
  intro t
  rw [Token.kind_move]
  cases op? t.kind with
  | none => exact .leave rfl
  | some op =>
    apply Natural.bind Natural.any
    intro _
    apply Natural.bind hr
    intro f
    apply Natural.leave
    simp [Expr.move]

theorem natural_semicolon : Natural ρ parse (Option.map (Token.move ρ))
    (optional (token .semicolon)) (optional (token .semicolon)) := .optional (.token _)

theorem terminated_move (start body : Span) (o : Option Token) :
    (terminated start body o).move ρ =
      terminated (start.move ρ) (body.move ρ) (o.map (Token.move ρ)) := by
  cases o <;> simp [terminated]

section

variable (hparse : ∀ p, Parser.Natural ρ (p.move ρ) (parse p) (parse p))

include hparse

theorem natural_call_expression :
    Natural ρ parse (Expr.move ρ) (call .expression) (call .expression) := hparse .expression

theorem natural_call_block : Natural ρ parse (Block.move ρ) (call .block) (call .block) :=
  hparse .block

theorem natural_group : Natural ρ parse (Expr.move ρ) group group := by
  apply Natural.nest
  apply Natural.bind (.token _)
  intro o
  apply Natural.bind (natural_call_expression hparse)
  intro e
  apply Natural.bind (.token _)
  intro c
  apply Natural.leave
  simp [Expr.move]

theorem natural_conditional : Natural ρ parse (Expr.move ρ) conditional conditional := by
  have hcondition : Natural ρ parse (Expr.move ρ)
      (nest (token .openParen *> call .expression <* token .closeParen))
      (nest (token .openParen *> call .expression <* token .closeParen)) :=
    .nest (.seqLeft (.seqRight (.token _) (natural_call_expression hparse)) (.token _))
  have halternative : Natural ρ parse (Option.map (Block.move ρ))
      (optional (token .kwElse *> call .block)) (optional (token .kwElse *> call .block)) :=
    .optional (.seqRight (.token _) (natural_call_block hparse))
  apply Natural.bind (.token _)
  intro i
  apply Natural.bind hcondition
  intro e
  apply Natural.bind (natural_call_block hparse)
  intro b
  apply Natural.bind halternative
  intro o
  apply Natural.leave
  rw [Expr.move_cond]
  cases o <;> simp

theorem natural_function : Natural ρ parse (Expr.move ρ) function function := by
  have hparams : Natural ρ parse (List.map (Ident.move ρ))
      (token .openParen *> sepBy ident (token .comma) <* token .closeParen)
      (token .openParen *> sepBy ident (token .comma) <* token .closeParen) :=
    .seqLeft (.seqRight (.token _) (.sepBy natural_ident (.token _))) (.token _)
  apply Natural.bind (.token _)
  intro f
  apply Natural.bind hparams
  intro is
  apply Natural.bind (natural_call_block hparse)
  intro b
  apply Natural.leave
  simp [Expr.move]

theorem natural_primary : Natural ρ parse (Expr.move ρ) primary primary := by
  apply Parser.Natural.named
  apply Natural.choice
  intro r hr
  simp only [List.mem_cons, List.not_mem_nil, or_false] at hr
  rcases hr with rfl | rfl | rfl | rfl | rfl | rfl
  · exact natural_integer
  · exact natural_boolean
  · exact .map natural_ident fun _ => rfl
  · exact natural_group hparse
  · exact natural_conditional hparse
  · exact natural_function hparse

theorem natural_callOf (e : Expr) :
    Natural ρ parse (Option.map (Expr.move ρ)) (callOf e) (callOf (e.move ρ)) := by
  have hlist : Natural ρ parse (List.map (Expr.move ρ))
      (token .openParen *> sepBy (call .expression) (token .comma))
      (token .openParen *> sepBy (call .expression) (token .comma)) :=
    .seqRight (.token _) (.sepBy (natural_call_expression hparse) (.token _))
  have harguments : Natural ρ parse (Prod.map (List.map (Expr.move ρ)) (Token.move ρ))
      arguments arguments := .nest (.bind hlist fun _ => .bind (.token _) fun _ => .leave rfl)
  apply Natural.bind (Natural.lookahead 0)
  intro t
  rw [Token.kind_move]
  by_cases ht : t.kind = .openParen
  · rw [if_pos ht, if_pos ht]
    apply Natural.bind harguments
    intro m
    apply Natural.leave
    simp [Expr.move, Expr.moveAll_eq_map]
  · rw [if_neg ht, if_neg ht]
    exact .leave rfl

theorem natural_calls : Natural ρ parse (Expr.move ρ) calls calls :=
  .extend (natural_primary hparse) (natural_callOf hparse)

theorem natural_unary : Natural ρ parse (Expr.move ρ) unary unary := by
  apply Natural.bind (Natural.lookahead 0)
  intro t
  rw [Token.kind_move]
  cases unaryOp? t.kind with
  | none => exact natural_calls hparse
  | some op =>
    apply Natural.bind Natural.any
    intro _
    have hoperand : Natural ρ parse (Expr.move ρ) (call .unary) (call .unary) := hparse .unary
    apply Natural.bind hoperand.nest
    intro e
    apply Natural.leave
    simp [Expr.move]

theorem natural_expression : Natural ρ parse (Expr.move ρ) expression expression := by
  have hproduct : Natural ρ parse (Expr.move ρ) product product :=
    natural_operations (hparse .unary)
  have hsum : Natural ρ parse (Expr.move ρ) sum sum := natural_operations hproduct
  have hcomparison : Natural ρ parse (Expr.move ρ) comparison comparison := natural_operations hsum
  exact natural_operations hcomparison

theorem natural_statement : Natural ρ parse (Stmt.move ρ) statement statement := by
  apply Natural.choice
  intro r hr
  simp only [List.mem_cons, List.not_mem_nil, or_false] at hr
  rcases hr with rfl | rfl | rfl
  · apply Natural.bind (.token _)
    intro x
    apply Natural.bind (.seqLeft natural_ident (.token _))
    intro i
    apply Natural.bind (natural_call_expression hparse)
    intro e
    apply Natural.bind natural_semicolon
    intro o
    apply Natural.leave
    simp [Stmt.move, terminated_move]
  · apply Natural.bind (.token _)
    intro x
    apply Natural.bind (natural_call_expression hparse)
    intro e
    apply Natural.bind natural_semicolon
    intro o
    apply Natural.leave
    simp [Stmt.move, terminated_move]
  · apply Natural.bind (natural_call_expression hparse)
    intro e
    apply Natural.bind natural_semicolon
    intro o
    apply Natural.leave
    simp [Stmt.move, terminated_move]

theorem natural_statements :
    Natural ρ parse (List.map (Stmt.move ρ)) (many (call .statement)) (many (call .statement)) :=
  .many (hparse .statement)

theorem natural_block : Natural ρ parse (Block.move ρ) block block := by
  apply Natural.nest
  apply Natural.bind (.token _)
  intro o
  apply Natural.bind (natural_statements hparse)
  intro as
  apply Natural.bind (.token _)
  intro c
  apply Natural.leave
  simp [Block.move, Stmt.moveAll_eq_map]

theorem natural_program : Natural ρ parse (Program.move ρ) program program := by
  apply Natural.bind Natural.here
  intro start
  apply Natural.bind (.seqLeft (natural_statements hparse) Natural.eoi)
  intro as
  apply Natural.bind Natural.here
  intro stop
  exact .leave rfl

end

end Grammar

/-! ## Phrases -/

namespace Phrase

theorem natural_rule {parse : (p : Phrase) → Parser p.Value}
    (hparse : ∀ p, Parser.Natural ρ (p.move ρ) (parse p) (parse p)) (p : Phrase) :
    Rule.Natural ρ parse (p.move ρ) p.rule p.rule := by
  cases p with
  | expression => exact Grammar.natural_expression hparse
  | unary => exact Grammar.natural_unary hparse
  | statement => exact Grammar.natural_statement hparse
  | block => exact Grammar.natural_block hparse

theorem natural_parseWithin (n : Nat) (p : Phrase) :
    Parser.Natural ρ (p.move ρ) (p.parseWithin n) (p.parseWithin n) := by
  induction n generalizing p with
  | zero => exact .fail _
  | succ n ih => exact p.natural_rule ih

/-- On a tape with other places, a phrase is read at its new place. -/
theorem natural_parse (p : Phrase) : Parser.Natural ρ (p.move ρ) p.parse p.parse := by
  intro s s' hs
  have hsteps : s'.steps = s.steps := by
    unfold Input.steps
    rw [hs.left]
  unfold Phrase.parse
  rw [hsteps]
  exact p.natural_parseWithin s.steps s s' hs

end Phrase

end Descent
