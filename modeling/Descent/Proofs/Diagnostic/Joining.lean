import Mathlib.Data.List.Sort
import Descent.Proofs.Parser.Blame

/-!
# Joining errors

How errors are grouped when they are joined makes no difference (`ParseError.join_assoc`), and
neither does recording them one by one or joined (`Input.record_record`). Their order does: of two
errors at one token, the first gives the place and the cause.
-/

namespace Descent

namespace Expectation

instance : Std.Irrefl (α := Expectation) (· < ·) := ⟨lt_irrefl⟩

instance : Std.Antisymm (α := Expectation) (· < ·) :=
  ⟨fun e _ h h' => absurd (lt_trans h h') (lt_irrefl e)⟩

end Expectation

namespace Expectations

/-- Sets with the same members are the same. -/
theorem ext_mem {s t : Expectations} (h : ∀ e, e ∈ s ↔ e ∈ t) : s = t :=
  Expectations.ext (s.sorted.eq_of_mem_iff t.sorted h)

theorem union_assoc (s t u : Expectations) : s ∪ t ∪ u = s ∪ (t ∪ u) :=
  ext_mem fun e => by simp only [mem_union, or_assoc]

end Expectations

namespace ParseError

theorem Cause.orElse_assoc (c d e : Cause) : (c.orElse d).orElse e = c.orElse (d.orElse e) := by
  cases c <;> rfl

theorem join_of_index_lt {e f : ParseError} (h : e.index < f.index) : e.join f = f := if_pos h

theorem join_of_index_gt {e f : ParseError} (h : f.index < e.index) : e.join f = e := by
  rw [join, if_neg (Nat.lt_asymm h), if_neg (Nat.ne_of_gt h)]

theorem join_of_index_eq {e f : ParseError} (h : e.index = f.index) : e.join f =
    { e with expected := e.expected ∪ f.expected, cause := e.cause.orElse f.cause } := by
  rw [join, if_neg (Nat.not_lt.2 (Nat.le_of_eq h.symm)), if_pos h]

/-- How errors are grouped makes no difference: what counts is the furthest token, and of the errors
at that token their order. -/
theorem join_assoc (e f g : ParseError) : (e.join f).join g = e.join (f.join g) := by
  have hindex := index_join f g
  rcases Nat.lt_trichotomy e.index f.index with hef | hef | hef
  · rw [join_of_index_lt hef, join_of_index_lt (e := e) (f := f.join g) (by omega)]
  · rcases Nat.lt_trichotomy f.index g.index with hfg | hfg | hfg
    · have hjoined : (e.join f).index < g.index := by rw [index_join]; omega
      rw [join_of_index_lt hjoined, join_of_index_lt hfg, join_of_index_lt (by omega)]
    · have hjoined : (e.join f).index = g.index := by rw [index_join]; omega
      rw [join_of_index_eq hjoined, join_of_index_eq (e := e) (f := f.join g) (by omega),
        join_of_index_eq hef, join_of_index_eq hfg]
      simp only [Expectations.union_assoc, Cause.orElse_assoc]
    · have hjoined : g.index < (e.join f).index := by rw [index_join]; omega
      rw [join_of_index_gt hjoined, join_of_index_gt hfg]
  · rw [join_of_index_gt hef]
    rcases Nat.lt_or_ge g.index e.index with heg | heg
    · rw [join_of_index_gt heg, join_of_index_gt (e := e) (f := f.join g) (by omega)]
    · rw [join_of_index_lt (e := f) (f := g) (by omega)]

theorem join?_join? (e f : ParseError) (o : Option ParseError) :
    e.join (f.join? o) = (e.join f).join? o := by
  cases o with
  | none => rfl
  | some g => exact (join_assoc e f g).symm

end ParseError

namespace Input

variable {s : Input}

theorem record_of_first (h : s.settings.failureSelection = .first) (e : ParseError) :
    s.record e = s := by
  rw [record, h]

theorem record_of_furthest (h : s.settings.failureSelection = .furthest) (e : ParseError) :
    s.record e = { s with furthest := some (e.join? s.furthest) } := by
  rw [← furthest_record h, record, h]
  cases s.furthest with
  | none => rfl
  | some f =>
    simp only
    split <;> rfl

/-- What is recorded later is further on in the text or comes first. -/
theorem record_record (s : Input) (e f : ParseError) :
    (s.record e).record f = s.record (f.join e) := by
  have hsettings : (s.record e).settings = s.settings := (s.record_passes e).settings
  cases h : s.settings.failureSelection with
  | first => rw [record_of_first h, record_of_first h, record_of_first h]
  | furthest =>
    rw [record_of_furthest (hsettings ▸ h), furthest_record h, record_of_furthest h,
      record_of_furthest h, ← ParseError.join?_join?]
    rfl

end Input

end Descent
