import Descent.Proofs.Parser.Forward

/-!
# Outcomes of parsers

A parser fails with an error or leaves an input behind. `Yields E R` says of an outcome that the
error satisfies `E`, or the input `R`. The lemmas here say for each way to build parsers what its
parts must yield for the whole to do so.
-/

namespace Descent.Parser

variable {α β : Type} {E : ParseError → Prop} {R R' : Input → Prop} {p : Parser α} {s : Input}

/-- The error satisfies `E`, or the input after the match satisfies `R`. -/
def Yields (E : ParseError → Prop) (R : Input → Prop) : Except ParseError (α × Input) → Prop
  | .error e => E e
  | .ok (_, t) => R t

theorem yields_iff {o : Except ParseError (α × Input)} :
    Yields E R o ↔ (∀ e, o = .error e → E e) ∧ ∀ a t, o = .ok (a, t) → R t := by
  cases o with
  | error e => simp [Yields]
  | ok m => simp [Yields, Prod.ext_iff]

namespace Yields

theorem bind {f : α → Parser β} (h : Yields E R (p s))
    (hf : ∀ a t, p s = .ok (a, t) → R t → Yields E R' (f a t)) :
    Yields E R' (Parser.bind p f s) := by
  cases hp : p s with
  | error e =>
    rw [hp] at h
    rw [Parser.bind, hp]
    exact h
  | ok m =>
    obtain ⟨a, t⟩ := m
    rw [hp] at h
    rw [bind_of_ok hp]
    exact hf a t hp h

theorem refine {f : α → Except ParseError.Cause β} (h : Yields E R (p s))
    (hf : ∀ a t cause, p s = .ok (a, t) → R t → f a = .error cause → E (s.error cause)) :
    Yields E R (Parser.refine f p s) := by
  rw [Parser.refine]
  cases hp : p s with
  | error e =>
    rw [hp] at h
    exact h
  | ok m =>
    obtain ⟨a, t⟩ := m
    rw [hp] at h
    cases hb : f a with
    | error cause =>
      simp only [hb]
      exact hf a t cause hp h hb
    | ok b =>
      simp only [hb]
      exact h

theorem named {name : String} (h : Yields E R (p s))
    (hE : ∀ (e : ParseError) (x : Expectations), E e → E { e with expected := x }) :
    Yields E R (Parser.named name p s) := by
  rw [Parser.named]
  cases hp : p s with
  | error e =>
    rw [hp] at h
    simp only
    split
    · exact hE e _ h
    · exact h
  | ok m =>
    rw [hp] at h
    exact h

theorem nest {inner : Input} (hi : s.descend = .ok inner) (h : Yields E R (p inner))
    (hR : ∀ t n, R t → R (t.atDepth n)) : Yields E R (Parser.nest p s) := by
  rw [Parser.nest, hi]
  simp only
  cases hp : p inner with
  | error e =>
    rw [hp] at h
    exact h
  | ok m =>
    rw [hp] at h
    exact hR m.2 _ h

/-- After a match that reads something, a repetition goes on. -/
theorem atLeast_of_ok {min : Nat} {a : α} {t : Input} (hp : p s = .ok (a, t))
    (hlt : t.left < s.left) (h : Yields E R (Parser.atLeast (min - 1) p t)) :
    Yields E R (Parser.atLeast min p s) := by
  rw [Parser.atLeast_of_ok hp hlt]
  cases hrest : Parser.atLeast (min - 1) p t with
  | error e =>
    rw [hrest] at h
    exact h
  | ok m =>
    rw [hrest] at h
    exact h

/-- A repetition is one match and another repetition, or ends with an error that it records. -/
theorem atLeast {min : Nat} (h : Yields E R (p s)) (stop : ∀ e, E e → R (s.record e))
    (next : ∀ a t, p s = .ok (a, t) → t.left < s.left → R t →
      Yields E R (Parser.atLeast (min - 1) p t)) :
    Yields E R (Parser.atLeast min p s) := by
  cases hp : p s with
  | error e =>
    rw [hp] at h
    rw [atLeast_of_error hp]
    by_cases hmin : min = 0
    · rw [if_pos hmin]
      exact stop e h
    · rw [if_neg hmin]
      exact h
  | ok m =>
    obtain ⟨a, t⟩ := m
    rw [hp] at h
    by_cases hlt : t.left < s.left
    · exact atLeast_of_ok hp hlt (next a t hp hlt h)
    · rw [Parser.atLeast, hp]
      simp only [if_neg hlt]
      exact h

/-- Extending a value is one step, and extending what it makes of the value. -/
theorem extendFrom {f : α → Parser (Option α)} {a : α} (h : Yields E R (f a s))
    (next : ∀ b t, f a s = .ok (some b, t) → t.left < s.left → R t →
      Yields E R (Parser.extendFrom f b t)) :
    Yields E R (Parser.extendFrom f a s) := by
  cases hf : f a s with
  | error e =>
    rw [hf] at h
    rw [Parser.extendFrom]
    simp only [hf]
    exact h
  | ok m =>
    obtain ⟨_ | b, t⟩ := m
    · rw [hf] at h
      rw [extendFrom_of_none hf]
      exact h
    · rw [hf] at h
      by_cases hlt : t.left < s.left
      · rw [extendFrom_of_some hf hlt]
        exact next b t hf hlt h
      · rw [Parser.extendFrom]
        simp only [hf, if_neg hlt]
        exact h

end Yields

end Descent.Parser
