import Descent.Proofs.Parser.Outvoted
import Descent.Proofs.Parser.Repetition

/-!
# Separated lists

A separated list of items is an item, and behind it perhaps a separator and another such list
(`Parser.Separated`). Of the lists that begin at an input one is the longest: the one behind which
no separator comes, or a separator with no item behind it. Main statement: this is the list that
`sepBy` reads, and the error that ends it is recorded (`Parser.sepBy_exact`).
-/

namespace Descent

namespace Input

/-- The second place is on the same tape, under the same settings, and not before the first. -/
structure NotBefore (s t : Input) : Prop where
  tape : t.tape = s.tape
  settings : t.settings = s.settings
  position_le : s.position ≤ t.position

theorem NotBefore.trans {s t u : Input} (hst : s.NotBefore t) (htu : t.NotBefore u) :
    s.NotBefore u :=
  ⟨htu.tape.trans hst.tape, htu.settings.trans hst.settings,
    Nat.le_trans hst.position_le htu.position_le⟩

end Input

namespace Parser

variable {α β : Type} {item : Parser α} {separator : Parser β} {s t u : Input} {a : α}
  {as bs : List α} {ms : List (Input × α)} {e : ParseError}

/-- A match stays on its tape, keeps the settings and does not lead back. -/
def Orderly (p : Parser α) : Prop := ∀ s a t, p s = .ok (a, t) → s.NotBefore t

theorem Forward.orderly {p : Parser α} (hp : p.Forward) : p.Orderly := by
  intro s a t h
  obtain ⟨ts, hts⟩ := hp s a t h
  exact ⟨hts.tape, hts.settings, hp.position_le h⟩

theorem Orderly.onward {p : Parser α} (hp : p.Orderly) : p.Onward := by
  intro s a t h
  have hst := hp s a t h
  exact ⟨hst.position_le, by rw [hst.tape]⟩

theorem Orderly.seqRight {p : Parser α} {q : Parser β} (hp : p.Orderly) (hq : q.Orderly) :
    (p *> q).Orderly := by
  intro s b u h
  obtain ⟨a, t, ht, hu⟩ := bind_eq_ok.1 h
  exact (hp s a t ht).trans (hq t b u hu)

/-- Items with a separator between any two of them lead from `s` to `t`. Listed are their values. -/
inductive Separated (item : Parser α) (separator : Parser β) : Input → List α → Input → Prop where
  | one {s t : Input} {a : α} (h : item s = .ok (a, t)) : Separated item separator s [a] t
  | more {s t u v : Input} {a : α} {b : β} {as : List α} (h : item s = .ok (a, t))
      (hsep : separator t = .ok (b, u)) (hrest : Separated item separator u as v) :
      Separated item separator s (a :: as) v

/-- Behind this place a separated list does not go on, for this error: there is no separator, or one
with no item behind it. -/
def EndsList (item : Parser α) (separator : Parser β) (t : Input) (e : ParseError) : Prop :=
  separator t = .error e ∨ ∃ b u, separator t = .ok (b, u) ∧ item u = .error e

theorem endsList_iff : EndsList item separator t e ↔ (separator *> item) t = .error e :=
  bind_eq_error.symm

namespace Separated

theorem ne_nil (h : Separated item separator s as t) : as ≠ [] := by
  cases h <;> exact List.cons_ne_nil _ _

theorem notBefore (hitem : item.Orderly) (hsep : separator.Orderly)
    (h : Separated item separator s as t) : s.NotBefore t := by
  induction h with
  | one h => exact hitem _ _ _ h
  | more h hseparator _ ih => exact ((hitem _ _ _ h).trans (hsep _ _ _ hseparator)).trans ih

/-- How far a list leads is told by its values. -/
theorem unique (h : Separated item separator s as t) (h' : Separated item separator s as u) :
    t = u := by
  induction h with
  | one ht =>
    cases h' with
    | one hu =>
      cases ht.symm.trans hu
      rfl
    | more _ _ hrest => cases hrest
  | more ht hsep hrest ih =>
    cases h' with
    | one _ => cases hrest
    | more ht' hsep' hrest' =>
      cases ht.symm.trans ht'
      cases hsep.symm.trans hsep'
      exact ih hrest'

/-- If a list does not go on, all others are beginnings of it. -/
theorem isPrefix (h : Separated item separator s as t) (hend : EndsList item separator t e)
    (h' : Separated item separator s bs u) : bs <+: as := by
  induction h generalizing bs u with
  | one ht =>
    cases h' with
    | one hu =>
      cases ht.symm.trans hu
      exact List.prefix_refl _
    | more hu hsep hrest =>
      cases ht.symm.trans hu
      rcases hend with hnone | ⟨b, v, hb, hnone⟩
      · cases hnone.symm.trans hsep
      · cases hb.symm.trans hsep
        cases hrest with
        | one h => cases hnone.symm.trans h
        | more h => cases hnone.symm.trans h
  | more ht hsep hrest ih =>
    cases h' with
    | one hu =>
      cases ht.symm.trans hu
      exact List.prefix_cons_iff.2 (.inr ⟨_, rfl, List.nil_prefix⟩)
    | more hu hsep' hrest' =>
      cases ht.symm.trans hu
      cases hsep.symm.trans hsep'
      exact List.cons_prefix_cons.2 ⟨rfl, ih hend hrest'⟩

/-- Only one list does not go on. -/
theorem eq_of_endsList {e' : ParseError} (h : Separated item separator s as t)
    (hend : EndsList item separator t e) (h' : Separated item separator s bs u)
    (hend' : EndsList item separator u e') : bs = as ∧ u = t := by
  have hle := h.isPrefix hend h'
  have hge := h'.isPrefix hend' h
  obtain rfl : bs = as := hle.eq_of_length_le hge.length_le
  exact ⟨rfl, h'.unique h⟩

/-- An item, and matches of separators with items, are a list. -/
theorem of_advances (hitem : item s = .ok (a, t)) (h : (separator *> item).Advances t ms u) :
    Separated item separator s (a :: ms.map Prod.snd) u := by
  induction h generalizing s a with
  | done t => exact .one hitem
  | more hmatch _ _ ih =>
    obtain ⟨b, v, hsep, hnext⟩ := bind_eq_ok.1 hmatch
    exact .more hitem hsep (ih hnext)

end Separated

theorem sepBy_of_error (h : item s = .error e) : sepBy item separator s = .ok ([], s.record e) :=
  bind_eq_ok.2 ⟨none, s.record e, optional_eq_none (bind_eq_error.2 (.inl h)), rfl⟩

theorem sepBy_of_ok (h : item s = .ok (a, t)) (hrest : many (separator *> item) t = .ok (as, u))
    (hle : s.position ≤ u.position) : sepBy item separator s = .ok (a :: as, u) := by
  have hboth : both item (many (separator *> item)) s = .ok ((a, as), u) :=
    bind_eq_ok.2 ⟨a, t, h, bind_eq_ok.2 ⟨as, u, hrest, rfl⟩⟩
  exact bind_eq_ok.2 ⟨some (a, as), u, optional_eq_some hle hboth, rfl⟩

/-- Where an item is, a list begins that does not go on. It is what `sepBy` reads. -/
theorem exists_separated (hitem : item.Orderly) (hsep : separator.Orderly)
    (hprogress : ∀ s a t, (separator *> item) s = .ok (a, t) → s.position < t.position)
    (h : item s = .ok (a, t)) : ∃ as u e, Separated item separator s as u ∧
      EndsList item separator u e ∧ sepBy item separator s = .ok (as, u.record e) := by
  have honward : (separator *> item).Onward := (hsep.seqRight hitem).onward
  obtain ⟨ms, u, hms, hstop⟩ := honward.exists_advances t
  have hlist : Separated item separator s (a :: ms.map Prod.snd) u := .of_advances h hms
  cases hu : (separator *> item) u with
  | ok m => exact absurd (hstop m.1 m.2 hu) (Nat.ne_of_gt (hprogress u m.1 m.2 hu))
  | error e =>
    have hmany : many (separator *> item) t = .ok (ms.map Prod.snd, u.record e) :=
      (hms.atLeast_of_error honward hu).trans (if_neg (Nat.not_lt_zero _))
    have hle : s.position ≤ (u.record e).position := by
      rw [u.record_eq e]
      exact (hlist.notBefore hitem hsep).position_le
    exact ⟨_, u, e, hlist, endsList_iff.2 hu, sepBy_of_ok h hmany hle⟩

/-- A separated list of items, where items and separators stay on their tapes, keep the settings and
do not lead back, and a separator with an item behind it always reads something. The list is always
read: none of it fails. It is empty exactly if there is no item, and then the place is the same.
Otherwise it is the one list that does not go on, of which all others are beginnings, and the place
behind it is where its last item ends: a separator with no item behind it is not read. If the
furthest errors are selected, the error for which there is no item, or no further one, is joined
with what was recorded, and so an error at least as far on is recorded. -/
theorem sepBy_exact (hitem : item.Orderly) (hsep : separator.Orderly)
    (hprogress : ∀ s a t, (separator *> item) s = .ok (a, t) → s.position < t.position)
    (s : Input) : ∃ as t u e, sepBy item separator s = .ok (as, t) ∧
      (as = [] ↔ ∃ e, item s = .error e) ∧
      (as = [] → u = s ∧ item s = .error e) ∧
      (as ≠ [] → Separated item separator s as u ∧ EndsList item separator u e ∧
        (∀ bs v, Separated item separator s bs v → bs <+: as) ∧
        ∀ bs v e', Separated item separator s bs v → EndsList item separator v e' →
          bs = as ∧ v = u) ∧
      t = { u with furthest := t.furthest } ∧
      (s.settings.failureSelection = .furthest →
        t.furthest = some (e.join? u.furthest) ∧ t.Covers e.index) := by
  have hrecorded {u : Input} (e : ParseError) (hsu : u.settings = s.settings)
      (hs : s.settings.failureSelection = .furthest) :
      (u.record e).furthest = some (e.join? u.furthest) ∧ (u.record e).Covers e.index := by
    rw [← hsu] at hs
    exact ⟨Input.furthest_record hs e, (Input.covers_record hs e).2 (.inl (Nat.le_refl _))⟩
  cases h : item s with
  | error e =>
    exact ⟨[], s.record e, s, e, sepBy_of_error h, ⟨fun _ => ⟨e, rfl⟩, fun _ => rfl⟩,
      fun _ => ⟨rfl, rfl⟩, absurd rfl, s.record_eq e, hrecorded e rfl⟩
  | ok m =>
    obtain ⟨as, u, e, hlist, hend, hread⟩ := exists_separated hitem hsep hprogress h
    refine ⟨as, u.record e, u, e, hread, ?_, fun hnil => absurd hnil hlist.ne_nil,
      fun _ => ⟨hlist, hend, fun bs v => hlist.isPrefix hend,
        fun bs v e' => hlist.eq_of_endsList hend⟩,
      u.record_eq e, hrecorded e (hlist.notBefore hitem hsep).settings⟩
    exact ⟨fun hnil => absurd hnil hlist.ne_nil, nofun⟩

/-- Two names, each with a comma behind it. -/
def namesWithCommas : List Token := [
  ⟨.identifier, ['a'], ⟨⟨0, 1, 1⟩, ⟨1, 1, 2⟩⟩⟩,
  ⟨.comma, [','], ⟨⟨1, 1, 2⟩, ⟨2, 1, 3⟩⟩⟩,
  ⟨.identifier, ['b'], ⟨⟨2, 1, 3⟩, ⟨3, 1, 4⟩⟩⟩,
  ⟨.comma, [','], ⟨⟨3, 1, 4⟩, ⟨4, 1, 5⟩⟩⟩]

/-- Both names are read. The last comma is not, and that no name follows it is recorded. -/
theorem sepBy_exact_comma :
    (token .identifier).Orderly ∧ (token .comma).Orderly ∧
    (∀ s a t, (token .comma *> token .identifier) s = .ok (a, t) → s.position < t.position) ∧
    ∃ t, sepBy (token .identifier) (token .comma) (.ofTokens {} namesWithCommas) =
        .ok ([namesWithCommas[0], namesWithCommas[2]], t) ∧
      t.position = 3 ∧ t.Covers 4 := by
  have hname : (token .identifier).Orderly := (forward_token _).orderly
  have hcomma : (token .comma).Orderly := (forward_token _).orderly
  have hprogress : ∀ s a t, (token .comma *> token .identifier) s = .ok (a, t) →
      s.position < t.position := by
    intro s a t h
    obtain ⟨x, u, hx, ha⟩ := bind_eq_ok.1 h
    obtain ⟨-, hpass⟩ := token_ok hx nofun
    have hle := (hname u a t ha).position_le
    rw [hpass.position] at hle
    exact hle
  refine ⟨hname, hcomma, hprogress, ?_⟩
  obtain ⟨as, t, u, e, hread, hnil, -, hlist, hplace, hrecord⟩ :=
    sepBy_exact hname hcomma hprogress (.ofTokens {} namesWithCommas)
  have hne : as ≠ [] := by
    intro has
    obtain ⟨x, hx⟩ := hnil.1 has
    cases hx
  obtain ⟨-, hend, -, honly⟩ := hlist hne
  have hboth : Separated (token .identifier) (token .comma) (.ofTokens {} namesWithCommas)
      [namesWithCommas[0], namesWithCommas[2]] _ := .more rfl rfl (.one rfl)
  obtain ⟨rfl, rfl⟩ := honly _ _ _ hboth (.inr ⟨_, _, rfl, rfl⟩)
  have hindex : e.index = 4 := by
    rcases hend with hnone | ⟨b, v, hb, hnone⟩
    · cases hnone
    · cases hb
      cases hnone
      rfl
  refine ⟨t, hread, ?_, hindex ▸ (hrecord rfl).2⟩
  rw [hplace]
  rfl

end Parser

end Descent
