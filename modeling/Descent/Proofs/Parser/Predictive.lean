import Descent.Proofs.Parser.Branches

/-!
# Predictive rules

The rules of the grammar decide by the token ahead. None looks further than that; of the branches of
a choice at most one reads anything, so the order of trials does not matter; what is refined is a
single token; and a value is extended only by what has been read. `Rule.Predictive` says all this of
a rule, and the lemmas here show it of each rule of the grammar, so that a property of predictive
rules is one of the grammar (`Phrase.predictive_rule`, `Grammar.predictive_program`).
-/

namespace Descent

namespace Rule

variable {α β : Type} {r q : Rule α}

/-- The rule reads a token of some kind. -/
def IsToken : {α : Type} → Rule α → Prop
  | _, .token _ => True
  | _, _ => False

/-- Where `r` matches, `q` does not read anything else: it fails, reads nothing or matches alike. -/
def Precedes (r q : Rule α) : Prop :=
  ∀ s m, r.parse s = .ok m →
    (∃ e, q.parse s = .error e) ∨ (∃ b, q.parse s = .ok (b, s)) ∨ q.parse s = .ok m

/-- Where the rule returns something, it has read something. -/
def Reads (r : Rule (Option α)) : Prop :=
  ∀ s b t, r.parse s = .ok (some b, t) → t.left < s.left

/-- The rule decides by the token ahead. -/
def Predictive : {α : Type} → Rule α → Prop
  | _, .bind r f => r.Predictive ∧ ∀ a, (f a).Predictive
  | _, .lookahead k => k = 0
  | _, .refine _ r => r.IsToken
  | _, .named _ r => r.Predictive
  | _, .oneOf _ rs => (∀ i, (rs i).Predictive) ∧ ∀ i j, i < j → (rs i).Precedes (rs j)
  | _, .nest r => r.Predictive
  | _, .atLeast _ r => r.Predictive
  | _, .extend r f => r.Predictive ∧ ∀ a, (f a).Predictive ∧ (f a).Reads
  | _, _ => True

theorem IsToken.predictive (h : r.IsToken) : r.Predictive := by
  cases r with
  | token => trivial
  | _ => exact h.elim

/-- Rules that begin with different tokens precede one another in any order. -/
theorem precedes_of_begins {A B : Token.Kind → Prop} (hr : r.Begins A) (hq : q.Begins B)
    (h : ∀ k, A k → B k → r = q) : r.Precedes q := by
  intro s m hm
  have hA := hr.first s m.1 m.2 hm
  by_cases hB : B s.current.kind
  · exact .inr (.inr (h _ hA hB ▸ hm))
  · exact .inl (hq.fails hB)

/-- Branches that the token ahead selects precede one another in any order. -/
theorem precedes_of_select {rs : List (Rule α)} {select : Token.Kind → Option (Rule α)}
    (h : ∀ r ∈ rs, r.Begins fun k => select k = some r) : rs.Pairwise Precedes :=
  List.pairwise_of_forall_mem_list fun r hr q hq =>
    precedes_of_begins (h r hr) (h q hq) fun _ hrk hqk => Option.some.inj (hrk.symm.trans hqk)

namespace Predictive

theorem bind {f : α → Rule β} (hr : r.Predictive) (hf : ∀ a, (f a).Predictive) :
    (r >>= f).Predictive := ⟨hr, hf⟩

theorem map (f : α → β) (hr : r.Predictive) : (f <$> r).Predictive := ⟨hr, fun _ => trivial⟩

theorem seqRight {q : Rule β} (hr : r.Predictive) (hq : q.Predictive) :
    (r *> q).Predictive := ⟨hr, fun _ => hq⟩

theorem seqLeft {q : Rule β} (hr : r.Predictive) (hq : q.Predictive) :
    (r <* q).Predictive := ⟨hr, fun _ => ⟨hq, fun _ => trivial⟩⟩

theorem choice {rs : List (Rule α)} (h : ∀ r ∈ rs, r.Predictive) (hrs : rs.Pairwise Precedes) :
    (Rule.choice rs).Predictive :=
  ⟨fun i => h _ (List.getElem_mem i.isLt),
    fun i j hij => List.pairwise_iff_getElem.1 hrs i j i.isLt j.isLt hij⟩

theorem optional (hr : r.Predictive) : (Rule.optional r).Predictive := by
  apply choice
  · simp only [List.forall_mem_cons, List.not_mem_nil, false_implies, implies_true, and_true]
    exact ⟨hr.map some, trivial⟩
  · exact List.pairwise_pair.2 fun s _ _ => .inr (.inl ⟨none, rfl⟩)

theorem sepBy {q : Rule β} (hr : r.Predictive) (hq : q.Predictive) :
    (Rule.sepBy r q).Predictive := by
  have hmore : (Rule.many (q *> r)).Predictive := hq.seqRight hr
  have hboth : (Rule.both r (Rule.many (q *> r))).Predictive :=
    hr.bind fun _ => hmore.bind fun _ => trivial
  apply hboth.optional.bind
  intro o
  cases o <;> trivial

end Predictive

end Rule

/-! ## The rules of the grammar -/

namespace Grammar

open Rule

theorem predictive_ident : ident.Predictive := ⟨trivial, fun _ => trivial⟩

theorem predictive_group : group.Predictive :=
  ⟨trivial, fun _ => ⟨trivial, fun _ => ⟨trivial, fun _ => trivial⟩⟩⟩

theorem predictive_conditional : conditional.Predictive := by
  have hcondition : (nest (token .openParen *> call .expression <* token .closeParen)).Predictive :=
    Predictive.seqLeft (Predictive.seqRight trivial trivial) trivial
  have halternative : (optional (token .kwElse *> call .block)).Predictive :=
    Predictive.optional (Predictive.seqRight trivial trivial)
  exact .bind trivial fun _ => hcondition.bind fun _ => .bind trivial fun _ =>
    halternative.bind fun _ => trivial

theorem predictive_function : function.Predictive := by
  have hparams : (token .openParen *> sepBy ident (token .comma) <* token .closeParen).Predictive :=
    Predictive.seqLeft (Predictive.seqRight trivial (predictive_ident.sepBy trivial)) trivial
  exact .bind trivial fun _ => hparams.bind fun _ => .bind trivial fun _ => trivial

theorem predictive_boolean : boolean.Predictive := by
  apply Predictive.choice
  · simp only [List.forall_mem_cons, List.not_mem_nil, false_implies, implies_true, and_true]
    exact ⟨⟨trivial, fun _ => trivial⟩, ⟨trivial, fun _ => trivial⟩⟩
  · refine List.pairwise_pair.2 (precedes_of_begins (.bind (.token nofun)) (.bind (.token nofun)) ?_)
    rintro _ rfl ⟨⟩

theorem predictive_primary : primary.Predictive := by
  apply Predictive.choice
  · simp only [List.forall_mem_cons, List.not_mem_nil, false_implies, implies_true, and_true]
    exact ⟨trivial, predictive_boolean, predictive_ident.map _, predictive_group,
      predictive_conditional, predictive_function⟩
  · exact precedes_of_select begins_primaryOf?

theorem begins_arguments : arguments.Begins (· = .openParen) :=
  .nest (.bind (.bind (.token nofun)))

theorem predictive_callOf (e : Expr) : (callOf e).Predictive := by
  have hargs : (token .openParen *> sepBy (call .expression) (token .comma)).Predictive :=
    Predictive.seqRight trivial (Predictive.sepBy trivial trivial)
  have harguments : arguments.Predictive := hargs.bind fun _ => ⟨trivial, fun _ => trivial⟩
  refine .bind rfl fun t => ?_
  by_cases ht : t.kind = .openParen
  · rw [if_pos ht]
    exact harguments.bind fun _ => trivial
  · rw [if_neg ht]
    trivial

/-- A call has at least its parentheses. -/
theorem reads_callOf (e : Expr) : (callOf e).Reads := by
  intro s b t h
  obtain ⟨x, u, hx, h⟩ := bind_eq_ok.1 h
  obtain ⟨-, -, rfl⟩ := Parser.lookahead_eq_ok.1 hx
  by_cases hk : x.kind = .openParen
  · rw [if_pos hk] at h
    exact ((begins_arguments.bind).ok s (some b) t h).2
  · rw [if_neg hk] at h
    cases h

theorem predictive_calls : calls.Predictive :=
  ⟨predictive_primary, fun e => ⟨predictive_callOf e, reads_callOf e⟩⟩

theorem predictive_unary : unary.Predictive := by
  refine .bind rfl fun t => ?_
  cases unaryOp? t.kind with
  | none => exact predictive_calls
  | some op => exact ⟨trivial, fun _ => ⟨trivial, fun _ => trivial⟩⟩

section

variable {op? : Token.Kind → Option BinaryOp} {r : Rule Expr}

theorem predictive_operationOf (hr : r.Predictive) (e : Expr) :
    (operationOf op? r e).Predictive := by
  refine .bind rfl fun t => ?_
  cases op? t.kind with
  | none => trivial
  | some op => exact ⟨trivial, fun _ => hr.bind fun _ => trivial⟩

/-- An operation has at least its operator. -/
theorem reads_operationOf (hop : op? .eof = none) (e : Expr) : (operationOf op? r e).Reads := by
  intro s b t h
  obtain ⟨x, u, hx, h⟩ := bind_eq_ok.1 h
  obtain ⟨-, rfl, rfl⟩ := Parser.lookahead_eq_ok.1 hx
  cases ho : op? s.current.kind with
  | none =>
    simp only [ho] at h
    cases h
  | some op =>
    simp only [ho] at h
    obtain ⟨y, v, hy, h⟩ := bind_eq_ok.1 h
    have hne : s.current.kind ≠ .eof := by
      intro heof
      rw [heof, hop] at ho
      cases ho
    have hlt := (Parser.any_ok hne hy).2.left_lt (List.cons_ne_nil _ _)
    exact Nat.lt_of_le_of_lt (Parser.Forward.left_le (Rule.forward_parse _) h) hlt

theorem predictive_operations (hop : op? .eof = none) (hr : r.Predictive) :
    (operations op? r).Predictive :=
  ⟨hr, fun e => ⟨predictive_operationOf hr e, reads_operationOf hop e⟩⟩

end

theorem predictive_statement : statement.Predictive := by
  have hsemicolon : (optional (token .semicolon)).Predictive := Predictive.optional trivial
  have hname : (ident <* token .assign).Predictive := predictive_ident.seqLeft trivial
  apply Predictive.choice
  · simp only [List.forall_mem_cons, List.not_mem_nil, false_implies, implies_true, and_true]
    refine ⟨?_, ?_, ?_⟩
    · exact .bind trivial fun _ => hname.bind fun _ => .bind trivial fun _ =>
        hsemicolon.bind fun _ => trivial
    · exact .bind trivial fun _ => .bind trivial fun _ => hsemicolon.bind fun _ => trivial
    · exact .bind trivial fun _ => hsemicolon.bind fun _ => trivial
  · exact precedes_of_select begins_statementOf

theorem predictive_block : block.Predictive :=
  ⟨trivial, fun _ => .bind trivial fun _ => ⟨trivial, fun _ => trivial⟩⟩

theorem predictive_program : program.Predictive :=
  ⟨trivial, fun _ => .bind (.seqLeft trivial trivial) fun _ => ⟨trivial, fun _ => trivial⟩⟩

end Grammar

/-- The phrases of the grammar decide by the token ahead. -/
theorem Phrase.predictive_rule (p : Phrase) : p.rule.Predictive := by
  open Grammar in
  cases p with
  | unary => exact predictive_unary
  | block => exact predictive_block
  | statement => exact predictive_statement
  | expression =>
    have hproduct : product.Predictive := predictive_operations rfl trivial
    have hsum : sum.Predictive := predictive_operations rfl hproduct
    have hcomparison : comparison.Predictive := predictive_operations rfl hsum
    exact predictive_operations rfl hcomparison

end Descent
