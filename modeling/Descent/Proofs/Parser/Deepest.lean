import Mathlib.Data.Set.Basic
import Mathlib.Order.Bounds.Defs
import Descent.Proofs.Parser.Blame
import Descent.Proofs.Parser.Origin
import Descent.Proofs.Parser.Predictive

/-!
# The furthest error is not lost

When the first match counts and the furthest errors are selected, the error that a rule reports is
as far on as any that a part of it reported in its run, whatever became of that error, and as far on
as what was recorded where the rule began; and if the rule matches, an error as far on as all these
is left on the input (`Rule.parse_deepest`).

Only one way to build rules may lose an error: refining a match puts the error at the place where
the match began, and what was recorded in the match is gone. The grammar refines single tokens only,
in which nothing is recorded, and so do the rules considered here (`Rule.RefinesTokens`).
-/

namespace Descent

namespace Parser

variable {α : Type} {P : ParseError → Prop} {p : Parser α} {s : Input}

theorem Steady.yields (h : Steady P p) (hs : s.Blames P) : Yields P (·.Blames P) (p s) :=
  yields_iff.2 ⟨fun e he => h.blames s e he hs, fun a t ht => h.keeps s a t ht hs⟩

/-- A choice in which the first match counts does not lose an error of a branch that it tries. -/
theorem choiceFrom_keeps (hP : ParseError.Lasting P) (ht : s.settings.tieBreak = .firstMatch)
    (hs : s.settings.failureSelection = .furthest) {ps : List (Parser α)}
    (hps : ∀ p ∈ ps, Forward p) {f : Option ParseError}
    (h : (∃ x ∈ f, P x) ∨ ∃ (i : Nat) (p : Parser α), ps[i]? = some p ∧
      Yields P (·.Blames P) (p s) ∧
      ∀ (j : Nat) (q : Parser α), j < i → ps[j]? = some q → ∃ e, q s = .error e) :
    Yields P (·.Blames P) (choiceFrom s f none ps) := by
  induction ps generalizing f with
  | nil =>
    obtain ⟨x, hx, hPx⟩ | ⟨i, p, hp, -⟩ := h
    · cases hx
      exact hPx
    · rw [List.getElem?_nil] at hp
      cases hp
  | cons p ps ih =>
    simp only [choiceFrom]
    cases hp : p s with
    | error e =>
      refine ih (fun q hq => hps q (List.mem_cons_of_mem p hq)) ?_
      rw [hs]
      obtain ⟨x, hx, hPx⟩ | ⟨i, q, hq, hyields, before⟩ := h
      · cases hx
        exact .inl ⟨_, rfl, hP.left x e hPx⟩
      · cases i with
        | zero =>
          obtain rfl : p = q := by simpa using hq
          have he : P e := by
            rw [hp] at hyields
            exact hyields
          refine .inl ⟨_, rfl, ?_⟩
          cases f with
          | none => exact he
          | some f => exact hP.right e f he
        | succ i =>
          rw [List.getElem?_cons_succ] at hq
          exact .inr ⟨i, q, hq, hyields, fun j r hj hr => before (j + 1) r (Nat.succ_lt_succ hj) hr⟩
    | ok m =>
      obtain ⟨a, t⟩ := m
      obtain ⟨ts, hts⟩ := hps p List.mem_cons_self s a t hp
      simp only [ht]
      obtain ⟨x, hx, hPx⟩ | ⟨i, q, hq, hyields, before⟩ := h
      · cases hx
        exact Input.blames_record hP (hts.settings ▸ hs) hPx
      · cases i with
        | zero =>
          obtain rfl : p = q := by simpa using hq
          rw [hp] at hyields
          exact Input.Blames.record? hP hyields f
        | succ i =>
          obtain ⟨e, he⟩ := before 0 p (Nat.succ_pos i) rfl
          cases he.symm.trans hp

end Parser

/-! ## Rules that refine single tokens only -/

namespace Rule

variable {α β : Type} {r : Rule α}

/-- What the rule refines are single tokens. -/
def RefinesTokens : {α : Type} → Rule α → Prop
  | _, .bind r f => r.RefinesTokens ∧ ∀ a, (f a).RefinesTokens
  | _, .refine _ r => r.IsToken
  | _, .named _ r => r.RefinesTokens
  | _, .oneOf _ rs => ∀ i, (rs i).RefinesTokens
  | _, .nest r => r.RefinesTokens
  | _, .atLeast _ r => r.RefinesTokens
  | _, .extend r f => r.RefinesTokens ∧ ∀ a, (f a).RefinesTokens
  | _, _ => True

theorem IsToken.refinesTokens (h : r.IsToken) : r.RefinesTokens := by
  cases r with
  | token => trivial
  | _ => exact h.elim

theorem Predictive.refinesTokens (h : r.Predictive) : r.RefinesTokens := by
  induction r with
  | bind _ _ ihr ihf => exact ⟨ihr h.1, fun a => ihf a (h.2 a)⟩
  | refine _ _ _ => exact h
  | named _ _ ih => exact ih h
  | oneOf _ _ ih => exact fun i => ih i (h.1 i)
  | nest _ ih => exact ih h
  | atLeast _ _ ih => exact ih h
  | extend _ _ ihr ihf => exact ⟨ihr h.1, fun a => ihf a (h.2 a).1⟩
  | _ => trivial

/-- A token leaves what is recorded as it is. -/
theorem IsToken.furthest {s t : Input} {a : α} (h : r.IsToken) (hr : r.parse s = .ok (a, t)) :
    t.furthest = s.furthest := by
  cases r with
  | token => exact Input.furthest_of_advance (Parser.token_eq_ok.1 hr).2.2
  | _ => exact h.elim

namespace RefinesTokens

theorem map (f : α → β) (hr : r.RefinesTokens) : (f <$> r).RefinesTokens := ⟨hr, fun _ => trivial⟩

theorem seqRight {q : Rule β} (hr : r.RefinesTokens) (hq : q.RefinesTokens) :
    (r *> q).RefinesTokens := ⟨hr, fun _ => hq⟩

theorem choice {rs : List (Rule α)} (h : ∀ r ∈ rs, r.RefinesTokens) :
    (Rule.choice rs).RefinesTokens := fun i => h _ (List.getElem_mem i.isLt)

theorem optional (hr : r.RefinesTokens) : (Rule.optional r).RefinesTokens := by
  apply choice
  intro q hq
  simp only [List.mem_cons, List.not_mem_nil, or_false] at hq
  rcases hq with rfl | rfl
  · exact hr.map some
  · trivial

end RefinesTokens

end Rule

/-- In the rules of the grammar, single tokens are refined only. -/
theorem Phrase.refinesTokens_rule (p : Phrase) : p.rule.RefinesTokens :=
  p.predictive_rule.refinesTokens

/-! ## The furthest error -/

namespace Rule

open Descent.Parser (Yields)

variable {α : Type} {P : ParseError → Prop} {r : Rule α}

/-- An error that a part of the rule reports is not lost: what lasts and is true of it is true of
what the rule reports or leaves behind. -/
theorem Raises.keeps (hP : ParseError.Lasting P) {s u : Input} {e : ParseError}
    (h : r.Raises s u e) (hr : r.RefinesTokens) (ht : s.settings.tieBreak = .firstMatch)
    (hs : s.settings.failureSelection = .furthest) (he : P (u.report e)) :
    Yields P (·.Blames P) (r.parse s) := by
  induction h with
  | self h =>
    rw [h.parse_eq]
    exact he
  | @first α β r f s u e h ih =>
    exact Yields.bind (ih hr.1 ht hs he) fun a t _ hb => ((f a).steady_parse hP).yields hb
  | @next α β r f s t u a e ha h ih =>
    obtain ⟨ts, hts⟩ := r.forward_parse s a t ha
    show Yields P _ (Parser.bind r.parse (fun a => (f a).parse) s)
    rw [Parser.bind_of_ok ha]
    exact ih (hr.2 a) (hts.settings ▸ ht) (hts.settings ▸ hs) he
  | @refine α β f r s u e h ih =>
    apply Yields.refine (ih hr.refinesTokens ht hs he)
    -- A token has been read, with nothing recorded: the error lies on the input before it, too.
    intro a t cause ha hb _
    obtain ⟨x, hx, hPx⟩ := hb.recorded
    have hblames : s.Blames P := ⟨hs, x, (hr.furthest ha).symm.trans hx, hPx⟩
    exact hblames.report hP _
  | named h ih => exact Yields.named (ih hr ht hs he) hP.expected
  | @branch α n rs s u e i before h ih =>
    refine Parser.choiceFrom_keeps hP ht hs (fun p hp => ?_) (.inr ⟨i, (rs i).parse, ?_, ?_, ?_⟩)
    · obtain ⟨j, rfl⟩ := List.mem_ofFn.1 hp
      exact (rs j).forward_parse
    · exact List.getElem?_ofFn.trans (dif_pos i.isLt)
    · exact ih (hr i) ht hs he
    · intro j q hj hq
      rw [List.getElem?_ofFn, dif_pos (Nat.lt_trans hj i.isLt)] at hq
      cases hq
      exact before ht ⟨j, Nat.lt_trans hj i.isLt⟩ hj
  | @nest α r s inner u e hi h ih =>
    have hsettings : inner.settings = s.settings := by
      cases Input.descend_eq_ok hi
      rfl
    have hinner := ih hr (hsettings ▸ ht) (hsettings ▸ hs) he
    exact Yields.nest hi hinner fun _ n hb => hb.atDepth n
  | @once α min r s u e h ih =>
    apply Yields.atLeast (ih hr ht hs he) (fun x hx => Input.blames_record hP hs hx)
    intro a t _ _ hb
    exact ((atLeast (min - 1) r).steady_parse hP).yields hb
  | @again α min r s t u a e ha hlt h ih =>
    obtain ⟨ts, hts⟩ := r.forward_parse s a t ha
    exact Yields.atLeast_of_ok ha hlt (ih hr (hts.settings ▸ ht) (hts.settings ▸ hs) he)
  | @start α r f s u e h ih =>
    apply Yields.bind (ih hr.1 ht hs he)
    intro a t _ hb
    exact (Parser.Steady.extendFrom (fun a => (f a).steady_parse hP) a).yields hb
  | @more α r f s t u a e ha h ih =>
    obtain ⟨ts, hts⟩ := r.forward_parse s a t ha
    show Yields P _ (Parser.bind r.parse (Parser.extendFrom fun a => (f a).parse) s)
    rw [Parser.bind_of_ok ha]
    apply Yields.extendFrom (ih (hr.2 a) (hts.settings ▸ ht) (hts.settings ▸ hs) he)
    intro b v _ _ hb
    exact (Parser.Steady.extendFrom (fun a => (f a).steady_parse hP) b).yields hb
  | @further α r f s t v u a b e ha hb hlt h ih =>
    obtain ⟨ts, hts⟩ := r.forward_parse s a t ha
    obtain ⟨us, hus⟩ := (f a).forward_parse t _ v hb
    have hsettings : v.settings = s.settings := hus.settings.trans hts.settings
    have hrest := ih ⟨trivial, hr.2⟩ (hsettings ▸ ht) (hsettings ▸ hs) he
    show Yields P _ (Parser.bind r.parse (Parser.extendFrom fun a => (f a).parse) s)
    rw [Parser.bind_of_ok ha, Parser.extendFrom_of_some hb hlt]
    exact hrest
  | @call p s u e h ih =>
    show Yields P _ (p.parse s)
    rw [p.parse_eq s]
    exact ih p.refinesTokens_rule ht hs he

/-- The places of all errors that a run of the rule could blame: of the one that is recorded where
it begins, and of those that its parts report, whatever becomes of them. -/
def marks (r : Rule α) (s : Input) : Set Nat :=
  {i | (∃ f ∈ s.furthest, f.index = i) ∨ ∃ u e, r.Raises s u e ∧ (u.report e).index = i}

/-- No mark is further on than what the rule reports or leaves behind. -/
theorem yields_of_mem_marks {s : Input} {i : Nat} (hr : r.RefinesTokens)
    (ht : s.settings.tieBreak = .firstMatch) (hs : s.settings.failureSelection = .furthest)
    (hi : i ∈ r.marks s) : Yields (i ≤ ·.index) (·.Blames (i ≤ ·.index)) (r.parse s) := by
  have hP := ParseError.lasting_index i
  obtain ⟨f, hf, hfi⟩ | ⟨u, e, he, hei⟩ := hi
  · have hblames : s.Blames (i ≤ ·.index) := ⟨hs, f, hf, Nat.le_of_eq hfi.symm⟩
    exact (r.steady_parse hP).yields hblames
  · exact he.keeps hP hr ht hs (Nat.le_of_eq hei.symm)

/-- An error that stands where a part of the rule fails, or where an error was recorded, is the
furthest if no mark is further on. -/
theorem isGreatest_marks {s : Input} {f : ParseError}
    (hf : (∃ g ∈ s.furthest, g.index = f.index) ∨ ∃ u e, r.Raises s u e ∧ e.index = f.index)
    (hle : ∀ i ∈ r.marks s, i ≤ f.index) : IsGreatest (r.marks s) f.index := by
  refine ⟨?_, hle⟩
  obtain hf | ⟨u, e, he, hef⟩ := hf
  · exact .inl hf
  · have hmark : (u.report e).index ∈ r.marks s := .inr ⟨u, e, he, rfl⟩
    have hreport := u.index_le_report e
    have hmax := hle _ hmark
    have heq : (u.report e).index = f.index := by omega
    exact heq ▸ hmark

/-- When the first match counts and the furthest errors are selected, the error of a rule is as far
on as the furthest of the error recorded where it begins and all that its parts report in the run;
and if it matches, the error recorded on the input behind it is, as soon as there is any of these. -/
theorem parse_deepest (r : Rule α) (hr : r.RefinesTokens) (s : Input)
    (ht : s.settings.tieBreak = .firstMatch) (hs : s.settings.failureSelection = .furthest) :
    (∀ e, r.parse s = .error e → IsGreatest (r.marks s) e.index) ∧
      ∀ a t, r.parse s = .ok (a, t) → (t.furthest = none ∧ r.marks s = ∅) ∨
        ∃ f, t.furthest = some f ∧ IsGreatest (r.marks s) f.index := by
  have hQ : ParseError.Closed fun f =>
      (∃ g ∈ s.furthest, g.index = f.index) ∨ ∃ u e, r.Raises s u e ∧ e.index = f.index := by
    refine ⟨fun e f he hf => ?_, fun e x he => he⟩
    simp only [ParseError.index_join]
    rcases Nat.le_total e.index f.index with hle | hle
    · rwa [Nat.max_eq_right hle]
    · rwa [Nat.max_eq_left hle]
  have hgathers := Parser.yields_iff.1 <| r.gathers hQ s (fun f hf => .inl ⟨f, hf, rfl⟩)
    fun u e he => .inr ⟨u, e, he, rfl⟩
  have hmarks (i : Nat) (hi : i ∈ r.marks s) :=
    Parser.yields_iff.1 (yields_of_mem_marks hr ht hs hi)
  refine ⟨fun e he => ?_, fun a t hat => ?_⟩
  · exact isGreatest_marks (hgathers.1 e he) fun i hi => (hmarks i hi).1 e he
  · cases hf : t.furthest with
    | none =>
      refine .inl ⟨rfl, Set.eq_empty_of_forall_notMem fun i hi => ?_⟩
      obtain ⟨g, hg, -⟩ := ((hmarks i hi).2 a t hat).recorded
      rw [hf] at hg
      cases hg
    | some f =>
      refine .inr ⟨f, rfl, isGreatest_marks (hgathers.2 a t hat f hf) fun i hi => ?_⟩
      obtain ⟨g, hg, hle⟩ := ((hmarks i hi).2 a t hat).recorded
      rw [hf] at hg
      cases hg
      exact hle

/-- A name after `let` is optional here, and missing: the rule matches nothing, and the error at
the place of the name is the furthest. -/
theorem parse_deepest_optional :
    ∃ t f, (optional (token .kwLet *> token .identifier)).parse
        (.ofTokens {} [⟨.kwLet, ['l', 'e', 't'], ⟨.start, .start⟩⟩]) = .ok (none, t) ∧
      t.furthest = some f ∧ f.index = 1 ∧
      IsGreatest ((optional (token .kwLet *> token .identifier)).marks
        (.ofTokens {} [⟨.kwLet, ['l', 'e', 't'], ⟨.start, .start⟩⟩])) 1 := by
  have hr : (optional (token .kwLet *> token .identifier)).RefinesTokens :=
    RefinesTokens.optional (RefinesTokens.seqRight trivial trivial)
  obtain ⟨-, h⟩ := parse_deepest _ hr
    (.ofTokens {} [⟨.kwLet, ['l', 'e', 't'], ⟨.start, .start⟩⟩]) rfl rfl
  obtain ⟨hnone, -⟩ | ⟨f, hf, hgreatest⟩ := h none _ rfl
  · cases hnone
  · cases hf
    exact ⟨_, _, rfl, rfl, rfl, hgreatest⟩

end Rule

end Descent
