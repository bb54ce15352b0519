import Descent.Proofs.Parser.Beginning
import Descent.Proofs.Parser.Soundness

/-!
# Which branch matches

The first token of a phrase says what phrase it is: of the branches of a primary expression, and of
those of a statement, at most one matches, and the token ahead selects it. So a choice between them
comes to the same whether the first or the longest match counts.
-/

namespace Descent

/-! ## How phrases begin and end -/

/-- How the tokens of a phrase begin. -/
def Part.Begins (ts : List Token) : Part → Prop
  | expr l => ∃ x us, ts = x :: us ∧ l.Starts x.kind
  | stmt => ∃ x us, ts = x :: us ∧ StartsStatement x.kind
  | _ => True

/-- The first token of a phrase is one that can begin it. -/
theorem Spells.begins {p : Part} {ts : List Token} {a : p.Tree} (h : Spells p ts a) :
    p.Begins ts := by
  induction h with
  | integer ht => exact ⟨_, _, rfl, by rw [ht]; rfl⟩
  | boolean b ht => exact ⟨_, _, rfl, by rw [ht]; cases b <;> rfl⟩
  | var ht => exact ⟨_, _, rfl, by rw [ht]; rfl⟩
  | group ho => exact ⟨_, _, rfl, by rw [ho]; rfl⟩
  | conditional hi => exact ⟨_, _, rfl, by rw [hi]; rfl⟩
  | alternative hi => exact ⟨_, _, rfl, by rw [hi]; rfl⟩
  | function hf => exact ⟨_, _, rfl, by rw [hf]; rfl⟩
  | call _ _ _ _ ih =>
    obtain ⟨x, us, rfl, hx⟩ := ih
    exact ⟨x, _, rfl, hx⟩
  | unary ht => exact ⟨_, _, rfl, Layer.starts_of_unaryOp ht⟩
  | binary _ _ _ ih =>
    obtain ⟨x, us, rfl, hx⟩ := ih
    exact ⟨x, _, rfl, hx⟩
  | tighter _ ih =>
    obtain ⟨x, us, rfl, hx⟩ := ih
    exact ⟨x, us, rfl, Layer.starts_of_tighter hx⟩
  | binding _ hk => exact ⟨_, _, rfl, by rw [hk]; rfl⟩
  | returning _ hk => exact ⟨_, _, rfl, by rw [hk]; rfl⟩
  | evaluation _ _ _ ih =>
    obtain ⟨x, us, rfl, hx⟩ := ih
    exact ⟨x, _, rfl, by simp [StartsStatement, hx]⟩
  | _ => trivial

/-- How the tokens of a phrase that may stand before a semicolon end. -/
def Part.Finishes (ts : List Token) : Part → Prop
  | expr _ | block => ∃ us x, ts = us ++ [x] ∧ x.kind ≠ .semicolon
  | _ => True

/-- An expression does not end with a semicolon. -/
theorem Spells.finishes {p : Part} {ts : List Token} {a : p.Tree} (h : Spells p ts a) :
    p.Finishes ts := by
  induction h with
  | integer ht => exact ⟨[], _, rfl, by rw [ht]; nofun⟩
  | boolean b ht => exact ⟨[], _, rfl, by rw [ht]; cases b <;> nofun⟩
  | var ht => exact ⟨[], _, rfl, by rw [ht]; nofun⟩
  | group _ _ hc => exact ⟨_ :: _, _, rfl, by rw [hc]; nofun⟩
  | @conditional i o c ts us _ _ _ _ _ _ _ _ ih =>
    obtain ⟨vs, x, rfl, hx⟩ := ih
    exact ⟨i :: o :: (ts ++ c :: vs), x, by simp, hx⟩
  | @alternative i o c l ts us vs _ _ _ _ _ _ _ _ _ _ _ _ ih =>
    obtain ⟨ws, x, rfl, hx⟩ := ih
    exact ⟨i :: o :: (ts ++ c :: (us ++ l :: ws)), x, by simp, hx⟩
  | @function f o c ts us _ _ _ _ _ _ _ _ ih =>
    obtain ⟨vs, x, rfl, hx⟩ := ih
    exact ⟨f :: o :: (ts ++ c :: vs), x, by simp, hx⟩
  | @call o c ts us _ _ _ _ _ hc => exact ⟨ts ++ o :: us, c, by simp, by rw [hc]; nofun⟩
  | @unary t _ _ _ _ _ ih =>
    obtain ⟨vs, x, rfl, hx⟩ := ih
    exact ⟨t :: vs, x, by simp, hx⟩
  | @binary _ t ts _ _ _ _ _ _ _ _ ih =>
    obtain ⟨vs, x, rfl, hx⟩ := ih
    exact ⟨ts ++ t :: vs, x, by simp, hx⟩
  | tighter _ ih => exact ih
  | @block o c ts _ _ _ hc => exact ⟨o :: ts, c, by simp, by rw [hc]; nofun⟩
  | _ => trivial

/-! ## Branches -/

open Rule in
/-- If the token ahead selects among the branches, the choice is what the branch makes of it that
matches, whichever match counts. -/
theorem Rule.choice_of_branch {α : Type} {rs : List (Rule α)}
    {select : Token.Kind → Option (Rule α)} (h : ∀ r ∈ rs, r.Begins fun k => select k = some r)
    {r : Rule α} (hr : r ∈ rs) {s t : Input} {a : α} (ht : r.parse s = .ok (a, t)) :
    ∃ u, (choice rs).parse s = .ok (a, u) ∧ t.Passes [] u := by
  have hselect := (h r hr).first s a t ht
  refine choice_of_agree (fun q hq => ?_) ⟨r, hr, ht⟩
  by_cases hqr : q = r
  · exact .inr (hqr ▸ ht)
  · exact .inl ((h q hq).fails fun hq => hqr (Option.some.inj (hq.symm.trans hselect)))

namespace Grammar

open Rule

variable {s t : Input} {k : Token.Kind}

/-- The branch of a primary expression that a token selects. -/
def primaryOf? : Token.Kind → Option (Rule Expr)
  | .integer => some integer
  | .kwTrue | .kwFalse => some boolean
  | .identifier => some (.var <$> ident)
  | .openParen => some group
  | .kwIf => some conditional
  | .kwFn => some function
  | _ => none

/-- Each branch of a primary expression begins with the tokens that select it. -/
theorem begins_primaryOf? : ∀ r ∈ [integer, boolean, .var <$> ident, group, conditional, function],
    r.Begins fun k => primaryOf? k = some r := by
  simp only [List.forall_mem_cons, List.not_mem_nil, false_implies, implies_true, and_true]
  exact ⟨begins_integer.mono fun k hk => hk ▸ rfl,
    begins_boolean.mono fun k hk => hk.elim (· ▸ rfl) (· ▸ rfl),
    begins_var.mono fun k hk => hk ▸ rfl, begins_group.mono fun k hk => hk ▸ rfl,
    begins_conditional.mono fun k hk => hk ▸ rfl, begins_function.mono fun k hk => hk ▸ rfl⟩

/-- A primary expression is what the branch makes of it that the token ahead selects. -/
theorem primary_of_branch {r : Rule Expr} {e : Expr} (hr : primaryOf? s.current.kind = some r)
    (h : r.parse s = .ok (e, t)) : ∃ u, primary.parse s = .ok (e, u) ∧ t.Passes [] u := by
  have hmem : r ∈ [integer, boolean, .var <$> ident, group, conditional, function] := by
    generalize s.current.kind = k at hr
    cases k <;> cases hr <;> simp
  obtain ⟨u, hu, hp⟩ := choice_of_branch begins_primaryOf? hmem h
  exact ⟨u, Parser.named_eq_ok.2 hu, hp⟩

/-- The branch of a statement that a token selects. -/
def statementOf : Token.Kind → Rule Stmt
  | .kwLet => binding
  | .kwReturn => returning
  | _ => evaluation

/-- Each branch of a statement begins with tokens that select it. -/
theorem begins_statementOf : ∀ r ∈ [binding, returning, evaluation],
    r.Begins fun k => some (statementOf k) = some r := by
  simp only [List.forall_mem_cons, List.not_mem_nil, false_implies, implies_true, and_true]
  refine ⟨begins_binding.mono fun k hk => hk ▸ rfl, begins_returning.mono fun k hk => hk ▸ rfl,
    begins_evaluation.mono fun k hk => ?_⟩
  cases k <;> first | rfl | cases hk

/-- A statement is what the branch makes of it that the token ahead selects. -/
theorem statement_of_branch {a : Stmt} (h : (statementOf s.current.kind).parse s = .ok (a, t)) :
    ∃ u, statement.parse s = .ok (a, u) ∧ t.Passes [] u := by
  have hmem : statementOf s.current.kind ∈ [binding, returning, evaluation] := by
    generalize s.current.kind = k
    cases k <;> simp [statementOf]
  exact choice_of_branch begins_statementOf hmem h

end Grammar

end Descent
