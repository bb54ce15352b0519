import Descent.Proofs.Parser.Grouping

/-!
# Errors of outvoted branches

If the longest match counts, the branches of a choice that do not match leave their errors on the
input that follows, as they do if the first match counts. What was recorded in a branch that matches
is left there only if its match is the longest: with an outvoted match goes what was recorded in it,
however far on (`Rule.choice_outvoted`). So the record is as far on as all errors of the branches
exactly if an error that is kept is as far on as those of the outvoted branches
(`Rule.covers_choice`).
-/

namespace Descent

namespace Input

variable {s : Input} {i : Nat}

/-- An error at the token with this index, or further on, is recorded. -/
def Covers (s : Input) (i : Nat) : Prop := ∃ f ∈ s.furthest, i ≤ f.index

theorem covers_record (hs : s.settings.failureSelection = .furthest) (e : ParseError) :
    (s.record e).Covers i ↔ i ≤ e.index ∨ s.Covers i := by
  unfold Covers
  rw [furthest_record hs]
  cases s.furthest with
  | none => simp [ParseError.join?]
  | some f => simp [ParseError.join?, ParseError.index_join]

theorem covers_record? (hs : s.settings.failureSelection = .furthest) (o : Option ParseError) :
    (s.record? o).Covers i ↔ (∃ e ∈ o, i ≤ e.index) ∨ s.Covers i := by
  cases o with
  | none => simp [record?]
  | some e => simpa [record?] using covers_record hs e

end Input

namespace Parser

variable {α : Type} {s t : Input} {a : α} {f : Option ParseError} {b : Option (α × Input)}
  {ps : List (Parser α)} {i : Nat}

theorem le_index_blame {e : ParseError} :
    i ≤ (blame .furthest f e).index ↔ (∃ x ∈ f, i ≤ x.index) ∨ i ≤ e.index := by
  cases f with
  | none => simp [blame]
  | some x => simp [blame, ParseError.index_join]

theorem longer_eq (b : Option (α × Input)) (m : α × Input) : longer b m ∈ b ∨ longer b m = m := by
  cases b with
  | none => exact .inr rfl
  | some x =>
    unfold longer
    dsimp only
    split
    · exact .inr rfl
    · exact .inl rfl

/-- If the longest match counts, what is recorded behind a choice is the record of the match that is
chosen, with the errors of the branches that do not match. -/
theorem covers_choiceFrom (ht : s.settings.tieBreak = .longestParse)
    (hs : s.settings.failureSelection = .furthest) (hps : ∀ p ∈ ps, Forward p)
    (hb : ∀ m ∈ b, m.2.settings = s.settings) (h : choiceFrom s f b ps = .ok (a, t)) :
    ∃ t₀, ((a, t₀) ∈ b ∨ ∃ p ∈ ps, p s = .ok (a, t₀)) ∧ t.clear = t₀.clear ∧
      ∀ i, t.Covers i ↔ (∃ e ∈ f, i ≤ e.index) ∨
        (∃ p ∈ ps, ∃ e, p s = .error e ∧ i ≤ e.index) ∨ t₀.Covers i := by
  induction ps generalizing f b with
  | nil =>
    cases b with
    | none => cases h
    | some m =>
      cases h
      refine ⟨m.2, .inl rfl, clear_record? _ _, fun i => ?_⟩
      rw [Input.covers_record? ((congrArg Settings.failureSelection (hb m rfl)).trans hs)]
      simp
  | cons p ps ih =>
    obtain ⟨hp, hps⟩ := List.forall_mem_cons.1 hps
    rw [choiceFrom] at h
    cases hrun : p s with
    | error e =>
      rw [hrun, hs] at h
      obtain ⟨t₀, hchosen, hclear, hcovers⟩ := ih hps hb h
      refine ⟨t₀, hchosen.imp_right (Exists.imp fun q => And.imp_left (List.mem_cons_of_mem p)),
        hclear, fun i => ?_⟩
      rw [hcovers]
      simp [hrun, le_index_blame, or_assoc]
    | ok m =>
      rw [hrun] at h
      simp only [ht] at h
      have hlonger := longer_eq b m
      obtain ⟨ts, hts⟩ := hp s m.1 m.2 hrun
      have hbest : ∀ x ∈ some (longer b m), x.2.settings = s.settings := by
        rintro x ⟨⟩
        rcases hlonger with hm | hm
        · exact hb _ hm
        · rw [hm]
          exact hts.settings
      obtain ⟨t₀, hchosen, hclear, hcovers⟩ := ih hps hbest h
      refine ⟨t₀, ?_, hclear, fun i => ?_⟩
      · rcases hchosen with hm | ⟨q, hq, hm⟩
        · have hm : longer b m = (a, t₀) := Option.some.inj hm
          rw [hm] at hlonger
          exact hlonger.imp_right fun hm => ⟨p, List.mem_cons_self, by rw [hrun, hm]⟩
        · exact .inr ⟨q, List.mem_cons_of_mem p hq, hm⟩
      · rw [hcovers]
        simp [hrun]

end Parser

namespace Rule

variable {α : Type}

/-- A name, then perhaps two more and a semicolon. -/
def nameThenNames : Rule Token := do
  let x ← token .identifier
  let _ ← optional (token .identifier *> token .identifier *> token .semicolon)
  return x

/-- Three names on one line. -/
def threeNames : List Token := [
  ⟨.identifier, ['a'], ⟨⟨0, 1, 1⟩, ⟨1, 1, 2⟩⟩⟩,
  ⟨.identifier, ['b'], ⟨⟨2, 1, 3⟩, ⟨3, 1, 4⟩⟩⟩,
  ⟨.identifier, ['c'], ⟨⟨4, 1, 5⟩, ⟨5, 1, 6⟩⟩⟩]

/-- If the longest match counts and the furthest errors are selected, what is recorded behind a
choice is as far on as the errors of all branches that do not match and as the record of the branch
that is chosen. It is as far on as the records of the others, too, exactly if none of them is
further on than all of these: of an outvoted branch, nothing is kept. -/
theorem covers_choice (rs : List (Rule α)) {s t : Input} {a : α}
    (ht : s.settings.tieBreak = .longestParse) (hs : s.settings.failureSelection = .furthest)
    (h : (choice rs).parse s = .ok (a, t)) :
    ∃ r₀ ∈ rs, ∃ t₀, r₀.parse s = .ok (a, t₀) ∧ t.clear = t₀.clear ∧
      (∀ r ∈ rs, ∀ e, r.parse s = .error e → t.Covers e.index) ∧
      (∀ f ∈ t₀.furthest, t.Covers f.index) ∧
      ((∀ r ∈ rs, ∀ b u, r.parse s = .ok (b, u) → ∀ f ∈ u.furthest, t.Covers f.index) ↔
        ∀ r ∈ rs, ∀ b u, r.parse s = .ok (b, u) → ∀ f ∈ u.furthest,
          (∃ q ∈ rs, ∃ e, q.parse s = .error e ∧ f.index ≤ e.index) ∨ t₀.Covers f.index) := by
  rw [parse, run_choice] at h
  have hforward : ∀ p ∈ rs.map fun r => r.run Phrase.parse, p.Forward := by
    intro p hp
    obtain ⟨r, -, rfl⟩ := List.mem_map.1 hp
    exact r.forward_parse
  obtain ⟨t₀, hchosen, hclear, hcovers⟩ := Parser.covers_choiceFrom ht hs hforward (by simp) h
  obtain hnone | ⟨p, hp, hmatch⟩ := hchosen
  · cases hnone
  obtain ⟨r₀, hr₀, rfl⟩ := List.mem_map.1 hp
  have hcovers (i : Nat) : t.Covers i ↔
      (∃ r ∈ rs, ∃ e, r.parse s = .error e ∧ i ≤ e.index) ∨ t₀.Covers i := by
    simpa [parse] using hcovers i
  refine ⟨r₀, hr₀, t₀, hmatch, hclear, fun r hr e he => ?_, fun f hf => ?_, ?_⟩
  · exact (hcovers _).2 (.inl ⟨r, hr, e, he, Nat.le_refl _⟩)
  · exact (hcovers _).2 (.inr ⟨f, hf, Nat.le_refl _⟩)
  · simp only [hcovers]

/-- Behind three names of which two are read, the missing semicolon is recorded if a branch that
does not match misses it, too: then no outvoted record is further on. -/
theorem covers_choice_names : ∃ t,
    (choice [nameThenNames, token .identifier *> token .identifier,
        token .identifier *> token .identifier *> token .identifier *> token .semicolon]).parse
      (.ofTokens { tieBreak := .longestParse } threeNames) = .ok (threeNames[1], t) ∧
    ∀ r ∈ [nameThenNames, token .identifier *> token .identifier,
        token .identifier *> token .identifier *> token .identifier *> token .semicolon],
      ∀ b u, r.parse (.ofTokens { tieBreak := .longestParse } threeNames) = .ok (b, u) →
        ∀ f ∈ u.furthest, t.Covers f.index := by
  have hfails : ∃ e, (token .identifier *> token .identifier *> token .identifier *>
      token .semicolon).parse (.ofTokens { tieBreak := .longestParse } threeNames) = .error e ∧
      e.index = 3 := ⟨_, rfl, rfl⟩
  obtain ⟨e, he, hindex⟩ := hfails
  obtain ⟨t, ht⟩ : ∃ t, (choice [nameThenNames, token .identifier *> token .identifier,
      token .identifier *> token .identifier *> token .identifier *> token .semicolon]).parse
      (.ofTokens { tieBreak := .longestParse } threeNames) = .ok (threeNames[1], t) := ⟨_, rfl⟩
  obtain ⟨r₀, -, t₀, -, -, -, -, hiff⟩ := covers_choice _ rfl rfl ht
  refine ⟨t, ht, hiff.2 fun r hr b u hu f hf => .inl ⟨_, by simp, e, he, ?_⟩⟩
  simp only [List.mem_cons, List.not_mem_nil, or_false] at hr
  rcases hr with rfl | rfl | rfl
  · cases hu
    cases hf
    exact Nat.le_of_eq hindex.symm
  · cases hu
    cases hf
  · cases hu

/-- Three names of which two are read, since that is more than one. A semicolon was expected behind
the third, and that is recorded in the outvoted match of one name, but not on the input that
follows: an error that is reported later is at the third name. -/
theorem choice_outvoted : ∃ t u f,
    (choice [nameThenNames, token .identifier *> token .identifier]).parse
      (.ofTokens { tieBreak := .longestParse } threeNames) = .ok (threeNames[1], t) ∧
    t.furthest = none ∧
    nameThenNames.parse (.ofTokens { tieBreak := .longestParse } threeNames) =
      .ok (threeNames[0], u) ∧
    u.furthest = some f ∧ f.index = 3 ∧ ¬t.Covers f.index ∧
    ∃ e, (choice [nameThenNames, token .identifier *> token .identifier] *> token .integer).parse
      (.ofTokens { tieBreak := .longestParse } threeNames) = .error e ∧ e.index = 2 := by
  refine ⟨_, _, _, rfl, rfl, rfl, rfl, rfl, ?_, _, rfl, rfl⟩
  rintro ⟨f, hf, -⟩
  cases hf

end Rule

end Descent
