import Descent.Proofs.Diagnostic.Joining
import Descent.Proofs.Parser.Concatenation

/-!
# Choices within choices

Main statement: how the branches of a choice are grouped into choices makes no difference to which
of them is chosen or to the error if none matches, whatever functions they are
(`Parser.choice_assoc`). If the first match counts, it makes none to what is recorded behind the
match either, unless the branch turns from selecting the first errors to selecting the furthest
(`Parser.choice_restart`): then more is recorded behind a group than in a single choice.

A choice that goes on behind a group of branches goes on as it does behind the choice of the group:
if none of them matches, with the errors of the group joined to those before
(`choiceFrom_append_of_error`), if the first match counts, with the first match of the group
(`choiceFrom_append_of_first`), and if the longest counts, with the longest of the group
(`choiceFrom_append_of_longest`).
-/

namespace Descent.Parser

variable {α : Type} {s t u : Input} {a : α} {e : ParseError} {selection : FailureSelection}
  {f f₀ : Option ParseError} {b b₀ : Option (α × Input)} {ps g : List (Parser α)}
  {q : Parser α}

/-- The parsers do the same on `s`: they fail with the same error or match with the same value in
the same place. What is recorded there is the same, too, if the first match counts and does not
select the furthest errors where `s` selects the first. -/
structure Interchangeable (s : Input) (p q : Parser α) : Prop where
  error : ∀ e, p s = .error e ↔ q s = .error e
  ok : ∀ a t, p s = .ok (a, t) → ∃ u, q s = .ok (a, u) ∧ u.clear = t.clear ∧
    (s.settings.tieBreak = .firstMatch → (s.settings.failureSelection = .first →
      t.settings.failureSelection = .first) → u = t)

/-- `q` tries the parsers in this order, put into groups and groups of groups. -/
inductive Grouped : List (Parser α) → Parser α → Prop where
  | single (p : Parser α) : Grouped [p] p
  | group {gs : List (List (Parser α) × Parser α)} (hne : gs ≠ [])
      (h : ∀ g ∈ gs, Grouped g.1 g.2) : Grouped (gs.map Prod.fst).flatten (choice (gs.map Prod.snd))

/-! ## Errors and matches of a group -/

/-- The error of some branches, with that of a group of others. -/
def blame? (selection : FailureSelection) (f : Option ParseError) :
    Option ParseError → Option ParseError
  | none => f
  | some e => some (blame selection f e)

/-- The longest match of some branches and of a group of others. -/
def longer? (b : Option (α × Input)) : Option (α × Input) → Option (α × Input)
  | none => b
  | some m => some (longer b m)

theorem blame?_blame (e : ParseError) : blame? selection f (some (blame selection f₀ e)) =
    some (blame selection (blame? selection f f₀) e) := by
  cases f₀ with
  | none => rfl
  | some x =>
    cases f with
    | none => rfl
    | some y =>
      cases selection with
      | first => rfl
      | furthest => exact congrArg some (ParseError.join_assoc y x e).symm

theorem longer?_longer (m : α × Input) :
    longer? b (some (longer b₀ m)) = some (longer (longer? b b₀) m) := by
  cases b₀ with
  | none => rfl
  | some x =>
    cases b with
    | none => rfl
    | some y =>
      simp only [longer?, longer]
      split_ifs <;> first | rfl | omega

/-- Behind branches that do not match, a choice goes on with their error. -/
theorem choiceFrom_append_of_error (rest : List (Parser α))
    (h : choiceFrom s f₀ none g = .error e) (hne : g ≠ [] ∨ f₀ ≠ none) :
    choiceFrom s (blame? s.settings.failureSelection f f₀) b (g ++ rest) =
      choiceFrom s (some (blame s.settings.failureSelection f e)) b rest := by
  induction g generalizing f₀ with
  | nil =>
    cases f₀ with
    | none => exact hne.elim (absurd rfl) (absurd rfl)
    | some x =>
      cases h
      rfl
  | cons p g ih =>
    obtain ⟨e', hp, hrest⟩ := choiceFrom_cons_error h
    rw [List.cons_append, choiceFrom, hp, ← ih hrest (.inr (Option.some_ne_none _)), blame?_blame]

/-- If the first match counts, that of a group ends the choice. -/
theorem choiceFrom_append_of_first (rest : List (Parser α))
    (hfirst : s.settings.tieBreak = .firstMatch) (h : choiceFrom s f₀ none g = .ok (a, t)) :
    ∃ (t₀ : Input) (f₁ : Option ParseError), t = t₀.record? f₁ ∧
      choiceFrom s (blame? s.settings.failureSelection f f₀) b (g ++ rest) =
        .ok (a, t₀.record? (blame? s.settings.failureSelection f f₁)) := by
  induction g generalizing f₀ with
  | nil => cases h
  | cons p g ih =>
    rw [choiceFrom] at h
    rw [List.cons_append, choiceFrom]
    cases hp : p s with
    | error e =>
      rw [hp] at h
      simp only [← blame?_blame]
      exact ih h
    | ok m =>
      rw [hp] at h
      simp only [hfirst] at h ⊢
      cases h
      exact ⟨m.2, f₀, rfl, rfl⟩

/-- If the longest match counts, a choice goes on with that of a group. -/
theorem choiceFrom_append_of_longest (rest : List (Parser α))
    (hlongest : s.settings.tieBreak = .longestParse) (h : choiceFrom s f₀ b₀ g = .ok (a, t)) :
    ∃ (t₀ : Input) (f₁ f' : Option ParseError), t = t₀.record? f₁ ∧
      choiceFrom s f (longer? b b₀) (g ++ rest) =
        choiceFrom s f' (some (longer b (a, t₀))) rest := by
  induction g generalizing f f₀ b₀ with
  | nil =>
    cases b₀ with
    | none => cases h
    | some m =>
      cases h
      exact ⟨m.2, f₀, f, rfl, rfl⟩
  | cons p g ih =>
    rw [choiceFrom] at h
    rw [List.cons_append, choiceFrom]
    cases hp : p s with
    | error e =>
      rw [hp] at h
      exact ih h
    | ok m =>
      rw [hp] at h
      simp only [hlongest] at h ⊢
      rw [← longer?_longer]
      exact ih h

/-! ## Groups of groups -/

theorem clear_record? (t : Input) (f : Option ParseError) : (t.record? f).clear = t.clear := by
  cases f with
  | none => rfl
  | some e =>
    cases h : t.settings.failureSelection with
    | first => exact (congrArg Input.clear (Input.record_of_first h e) :)
    | furthest => exact (congrArg Input.clear (Input.record_of_furthest h e) :)

/-- Recording the errors of a group and then those before it is recording all of them. -/
theorem record?_record? (h : selection = .first → t.settings.failureSelection = .first) :
    (t.record? f₀).record? f = t.record? (blame? selection f f₀) := by
  cases f₀ with
  | none => rfl
  | some e =>
    cases f with
    | none => rfl
    | some x =>
      have hboth : (t.record e).record x = t.record (x.join e) := t.record_record e x
      cases selection with
      | furthest => exact hboth
      | first =>
        have hfirst := h rfl
        refine hboth.trans ?_
        exact (Input.record_of_first hfirst _).trans (Input.record_of_first hfirst x).symm

/-- Which match is longer does not depend on what is recorded. -/
theorem clear_longer {b : α} {t' u' : Input} (hu : u.clear = t.clear) (hu' : u'.clear = t'.clear) :
    ∃ v, longer (some (b, u')) (a, u) = ((longer (some (b, t')) (a, t)).1, v) ∧
      v.clear = (longer (some (b, t')) (a, t)).2.clear := by
  have hposition : u.position = t.position := (congrArg Input.position hu :)
  have hposition' : u'.position = t'.position := (congrArg Input.position hu' :)
  simp only [longer, hposition, hposition']
  split
  · exact ⟨u, rfl, hu⟩
  · exact ⟨u', rfl, hu'⟩

variable {gs : List (List (Parser α) × Parser α)}

/-- Once a branch has matched and the longest match counts, groups and their branches lead to the
same match, whatever errors there were. -/
theorem choiceFrom_flatten_of_longest (hlongest : s.settings.tieBreak = .longestParse)
    (h : ∀ g ∈ gs, g.1 ≠ [] ∧ Interchangeable s (choice g.1) g.2) (f f' : Option ParseError)
    (hu : u.clear = t.clear) : ∃ b t' u',
      choiceFrom s f (some (a, t)) (gs.map Prod.fst).flatten = .ok (b, t') ∧
      choiceFrom s f' (some (a, u)) (gs.map Prod.snd) = .ok (b, u') ∧ u'.clear = t'.clear := by
  induction gs generalizing f f' a t u with
  | nil => exact ⟨a, _, _, rfl, rfl, by rw [clear_record?, clear_record?, hu]⟩
  | cons g gs ih =>
    obtain ⟨⟨hne, hg⟩, hgs⟩ := List.forall_mem_cons.1 h
    rw [List.map_cons, List.flatten_cons, List.map_cons, choiceFrom]
    cases hc : choice g.1 s with
    | error e =>
      rw [(hg.error e).1 hc]
      have hflat := choiceFrom_append_of_error (f := f) (b := some (a, t))
        (gs.map Prod.fst).flatten hc (.inl hne)
      rw [show f = blame? s.settings.failureSelection f none from rfl, hflat]
      exact ih hgs _ _ hu
    | ok m =>
      obtain ⟨v, hv, hclear, -⟩ := hg.ok m.1 m.2 hc
      obtain ⟨t₀, f₁, f₂, ht₀, hflat⟩ := choiceFrom_append_of_longest (f := f) (b := some (a, t))
        (gs.map Prod.fst).flatten hlongest hc
      rw [hv]
      simp only [hlongest]
      rw [show some (a, t) = longer? (some (a, t)) none from rfl, hflat]
      rw [ht₀, clear_record?] at hclear
      obtain ⟨w, hw, hw'⟩ := clear_longer (a := m.1) (b := a) hclear hu
      rw [hw]
      exact ih hgs _ _ hw'

namespace Interchangeable

variable {p p' q q' : Parser α}

theorem refl (s : Input) (p : Parser α) : Interchangeable s p p :=
  ⟨fun _ => .rfl, fun _ t h => ⟨t, h, rfl, fun _ _ => rfl⟩⟩

theorem of_eq (h : Interchangeable s p' q') (hp : p s = p' s) (hq : q s = q' s) :
    Interchangeable s p q := by
  constructor
  · rw [hp, hq]
    exact h.error
  · rw [hp, hq]
    exact h.ok

theorem of_ok (hp : p s = .ok (a, t)) (hq : q s = .ok (a, u)) (hclear : u.clear = t.clear)
    (hsame : s.settings.tieBreak = .firstMatch → (s.settings.failureSelection = .first →
      t.settings.failureSelection = .first) → u = t) :
    Interchangeable s p q := by
  constructor
  · intro e
    rw [hp, hq]
    exact iff_of_false nofun nofun
  · intro b v hv
    cases hp.symm.trans hv
    exact ⟨u, hq, hclear, hsame⟩

end Interchangeable

/-- Groups may stand for their branches, whatever branches did not match before. -/
theorem interchangeable_flatten (f : Option ParseError)
    (h : ∀ g ∈ gs, g.1 ≠ [] ∧ Interchangeable s (choice g.1) g.2) :
    Interchangeable s (fun s => choiceFrom s f none (gs.map Prod.fst).flatten)
      (fun s => choiceFrom s f none (gs.map Prod.snd)) := by
  induction gs generalizing f with
  | nil => exact .refl _ _
  | cons g gs ih =>
    obtain ⟨⟨hne, hg⟩, hgs⟩ := List.forall_mem_cons.1 h
    cases hc : choice g.1 s with
    | error e =>
      have hflat := choiceFrom_append_of_error (f := f) (b := none)
        (gs.map Prod.fst).flatten hc (.inl hne)
      have hgroup : choiceFrom s f none (g.2 :: gs.map Prod.snd) =
          choiceFrom s (some (blame s.settings.failureSelection f e)) none (gs.map Prod.snd) := by
        rw [choiceFrom, (hg.error e).1 hc]
      have hrest := ih (some (blame s.settings.failureSelection f e)) hgs
      exact hrest.of_eq hflat hgroup
    | ok m =>
      obtain ⟨v, hv, hclear, hsame⟩ := hg.ok m.1 m.2 hc
      cases htie : s.settings.tieBreak with
      | firstMatch =>
        obtain ⟨t₀, f₁, ht₀, hflat⟩ := choiceFrom_append_of_first (f := f) (b := none)
          (gs.map Prod.fst).flatten htie hc
        have hgroup : choiceFrom s f none (g.2 :: gs.map Prod.snd) = .ok (m.1, v.record? f) := by
          rw [choiceFrom, hv]
          simp only [htie]
        have hsettings (o : Option ParseError) : (t₀.record? o).settings = t₀.settings :=
          (t₀.record?_passes o).settings
        refine .of_ok hflat hgroup ?_ fun _ hkept => ?_
        · rw [clear_record?, clear_record?, hclear, ht₀, clear_record?]
        · rw [hsettings] at hkept
          rw [hsame htie (by rwa [ht₀, hsettings]), ht₀]
          exact record?_record? hkept
      | longestParse =>
        obtain ⟨t₀, f₁, f', ht₀, hflat⟩ := choiceFrom_append_of_longest (f := f) (b := none)
          (gs.map Prod.fst).flatten htie hc
        have hgroup : choiceFrom s f none (g.2 :: gs.map Prod.snd) =
            choiceFrom s f (some (m.1, v)) (gs.map Prod.snd) := by
          rw [choiceFrom, hv]
          simp only [htie]
          rfl
        rw [ht₀, clear_record?] at hclear
        obtain ⟨b, t', u', ht', hu', hclear'⟩ :=
          choiceFrom_flatten_of_longest (a := m.1) htie hgs f' f hclear
        refine .of_ok (hflat.trans ht') (hgroup.trans hu') hclear' fun hfirst => ?_
        cases htie.symm.trans hfirst

/-! ## Any grouping -/

theorem Grouped.ne_nil (h : Grouped ps q) : ps ≠ [] := by
  induction h with
  | single p => exact List.cons_ne_nil _ _
  | @group gs hne h ih =>
    obtain ⟨g, gs, rfl⟩ := List.exists_cons_of_ne_nil hne
    intro hnil
    rw [List.map_cons, List.flatten_cons, List.append_eq_nil_iff] at hnil
    exact ih g List.mem_cons_self hnil.1

theorem Grouped.map {β : Type} {xs : List β} {f : β → List (Parser α)} {g : β → Parser α}
    (hne : xs ≠ []) (h : ∀ x ∈ xs, Grouped (f x) (g x)) :
    Grouped (xs.map f).flatten (choice (xs.map g)) := by
  have hgroup : Grouped ((xs.map fun x => (f x, g x)).map Prod.fst).flatten
      (choice ((xs.map fun x => (f x, g x)).map Prod.snd)) := by
    refine .group (by simpa using hne) fun y hy => ?_
    obtain ⟨x, hx, rfl⟩ := List.mem_map.1 hy
    exact h x hx
  simpa only [List.map_map, Function.comp_def] using hgroup

/-- A choice tries its branches in their order. -/
theorem grouped_choice (hne : ps ≠ []) : Grouped ps (choice ps) := by
  have hgroup : Grouped (ps.map fun p => [p]).flatten (choice (ps.map id)) :=
    .map hne fun p _ => .single p
  rwa [List.map_id, ← List.flatMap_def, List.flatMap_singleton'] at hgroup

theorem grouped_choices {groups : List (List (Parser α))} (hne : groups ≠ [])
    (h : ∀ g ∈ groups, g ≠ []) : Grouped groups.flatten (choice (groups.map choice)) := by
  have hgroup : Grouped (groups.map id).flatten (choice (groups.map choice)) :=
    .map hne fun g hg => grouped_choice (h g hg)
  rwa [List.map_id] at hgroup

theorem Grouped.interchangeable (h : Grouped ps q) (s : Input) :
    Interchangeable s (choice ps) q := by
  induction h with
  | single p =>
    cases hp : p s with
    | error e =>
      have hchoice : choice [p] s = p s := by simp only [choice, choiceFrom, hp]; rfl
      exact (Interchangeable.refl s p).of_eq hchoice rfl
    | ok m =>
      have hchoice : choice [p] s = .ok m := by
        simp only [choice, choiceFrom, hp]
        cases s.settings.tieBreak <;> rfl
      exact (Interchangeable.refl s p).of_eq (hchoice.trans hp.symm) rfl
  | group _ h ih => exact interchangeable_flatten none fun g hg => ⟨(h g hg).ne_nil, ih g hg⟩

/-- However the branches of a choice are put into groups, and the groups into groups, and whatever
functions they are, the same branch is chosen, and if none matches, the error is the same. If the
first match counts, the same is recorded on the input that follows, unless that input selects the
furthest errors and `s` the first. -/
theorem choice_assoc (s : Input) :
    (∀ groups : List (List (Parser α)), (∀ g ∈ groups, g ≠ []) →
      Interchangeable s (choice groups.flatten) (choice (groups.map choice))) ∧
    ∀ (ps : List (Parser α)) (q : Parser α), Grouped ps q → Interchangeable s (choice ps) q := by
  refine ⟨fun groups h => ?_, fun ps q h => h.interchangeable s⟩
  by_cases hne : groups = []
  · subst hne
    exact .refl s _
  · exact (grouped_choices hne h).interchangeable s

/-- At the end of the input, which is read behind two keywords that do not match: what was expected
before is recorded, in the order of the kinds, whichever group it is from. -/
theorem choice_assoc_end : ∃ u : Input,
    choice [choice [token .kwReturn], choice [token .kwLet, token .eof]] (.ofTokens {} []) =
      .ok (.eofAt .start, u) ∧
    u.furthest = some ⟨.start, 0, .ofList [.token .kwLet, .token .kwReturn], .eof,
      .unexpectedToken⟩ := by
  have hflat : choice [token .kwReturn, token .kwLet, token .eof] (.ofTokens {} []) =
      .ok (.eofAt .start, { Input.ofTokens {} [] with
        furthest := some ⟨.start, 0, .ofList [.token .kwLet, .token .kwReturn], .eof,
          .unexpectedToken⟩ }) := rfl
  have hgroups := (choice_assoc (.ofTokens {} [])).1
    [[token .kwReturn], [token .kwLet, token .eof]] (by simp)
  obtain ⟨u, hu, -, hsame⟩ := hgroups.ok _ _ hflat
  exact ⟨u, hu, by rw [hsame rfl nofun]⟩

/-- Begins again with the same tokens, but selects the furthest errors. -/
def restart : Parser Token := fun s =>
  .ok (s.current, .ofTokens { s.settings with failureSelection := .furthest } s.tape.toList)

/-- The first errors are selected, and behind two branches that do not match, a third one turns to
selecting the furthest. A single choice has only the first error left to record then. If the last
two branches are a group, their choice has recorded the second error before. -/
theorem choice_restart :
    let s : Input := .ofTokens { failureSelection := .first } []
    let groups := [[token .plus], [token .minus, restart]]
    let plus : ParseError := ⟨.start, 0, {.token .plus}, .eof, .unexpectedToken⟩
    s.settings.tieBreak = .firstMatch ∧ (∀ g ∈ groups, g ≠ []) ∧
    ∃ t u, choice groups.flatten s = .ok (.eofAt .start, t) ∧
      choice (groups.map choice) s = .ok (.eofAt .start, u) ∧
      t.furthest = some plus ∧
      u.furthest = some { plus with expected := .ofList [.token .plus, .token .minus] } ∧
      u.furthest ≠ t.furthest := by
  intro s groups plus
  let minus : ParseError := { plus with expected := {.token .minus} }
  let t : Input := .ofTokens { failureSelection := .furthest } []
  have hflat : choice groups.flatten s = .ok (.eofAt .start, t.record plus) := rfl
  have hgroups : choice (groups.map choice) s =
      .ok (.eofAt .start, (t.record minus).record plus) := rfl
  exact ⟨rfl, by simp [groups], _, _, hflat, hgroups, rfl, rfl, by decide⟩

end Descent.Parser
