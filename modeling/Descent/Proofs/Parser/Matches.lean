import Descent.Proofs.Parser.Forward

/-!
# Matches of rules

What must have happened for a rule to match, for each way to build rules that the grammar uses; and
for the ways that try several rules, what is enough for a match.
-/

namespace Descent

namespace Parser

variable {α : Type} {p : Parser α} {s t : Input} {a : α}

/-- What holds of no match and is kept by one more match in front holds of any repetition. -/
theorem atLeast_ok {M : Input → List α → Input → Prop}
    (nil : ∀ s t : Input, s.Passes [] t → M s [] t)
    (cons : ∀ s a u as t, p s = .ok (a, u) → M u as t → M s (a :: as) t) {min : Nat} {as : List α}
    (h : atLeast min p s = .ok (as, t)) : M s as t := by
  fun_induction atLeast min p s generalizing as t with
  | case1 s e he =>
    cases h
    exact nil s _ (s.record_passes e)
  | case2 => cases h
  | case3 min s a u hu _ as' t' hrest ih =>
    cases h
    exact cons s a u _ _ hu (ih hrest)
  | case4 => cases h
  | case5 min s a u hu =>
    cases h
    exact cons s a _ [] _ hu (nil _ _ (.refl _))

/-- Repeating something any number of times does not fail. -/
theorem many_ne_error (s : Input) (e : ParseError) : many p s ≠ .error e := by
  unfold many
  generalize hmin : 0 = min
  fun_induction atLeast min p s with
  | case1 =>
    intro h
    cases h
  | case2 min s x hx hne => exact absurd hmin.symm hne
  | case3 =>
    intro h
    cases h
  | case4 min s a u hu hlt x hx ih =>
    intro h
    cases h
    exact ih (by omega) hx
  | case5 =>
    intro h
    cases h

/-- What each extension keeps, where each reads a token, holds of the value that has none. -/
theorem extendFrom_ok {I : α → Input → Prop} {f : α → Parser (Option α)}
    (step : ∀ a s b t, I a s → f a s = .ok (some b, t) → I b t ∧ t.left < s.left) {a b : α}
    (ha : I a s) (h : extendFrom f a s = .ok (b, t)) : ∃ u, I b u ∧ f b u = .ok (none, t) := by
  fun_induction extendFrom f a s with
  | case1 => cases h
  | case2 a s u hu =>
    cases h
    exact ⟨s, ha, hu⟩
  | case3 a s c u hu _ ih => exact ih (step a s c u ha hu).1 h
  | case4 a s c u hu hlt => exact absurd (step a s c u ha hu).2 hlt

/-- Which match counts makes no difference if all branches that match agree. -/
theorem choiceFrom_of_agree {ps : List (Parser α)} {f : Option ParseError}
    {best : Option (α × Input)} (h : ∀ p ∈ ps, (∃ e, p s = .error e) ∨ p s = .ok (a, t))
    (hbest : best = none ∨ best = some (a, t))
    (hsome : (∃ p ∈ ps, p s = .ok (a, t)) ∨ best = some (a, t)) :
    ∃ u, choiceFrom s f best ps = .ok (a, u) ∧ t.Passes [] u := by
  induction ps generalizing f best with
  | nil =>
    obtain ⟨p, hp, -⟩ | rfl := hsome
    · cases hp
    · exact ⟨_, rfl, t.record?_passes f⟩
  | cons p ps ih =>
    have hps (q) (hq : q ∈ ps) := h q (List.mem_cons_of_mem p hq)
    rcases h p List.mem_cons_self with ⟨e, he⟩ | hok
    · simp only [choiceFrom, he]
      refine ih hps hbest (hsome.imp_left ?_)
      rintro ⟨q, hq, hqs⟩
      rcases List.mem_cons.1 hq with rfl | hq
      · rw [he] at hqs
        cases hqs
      · exact ⟨q, hq, hqs⟩
    · simp only [choiceFrom, hok]
      cases s.settings.tieBreak with
      | firstMatch => exact ⟨_, rfl, t.record?_passes f⟩
      | longestParse =>
        have hlonger : longer best (a, t) = (a, t) := by
          rcases hbest with rfl | rfl
          · rfl
          · exact if_neg (Nat.lt_irrefl _)
        exact ih hps (.inr (congrArg some hlonger)) (.inr (congrArg some hlonger))

/-- A match that reads a token is preferred to reading nothing, under either preference. -/
theorem choice_of_progress {b : α} (h : p s = .ok (a, t)) (hlt : s.position < t.position) :
    ∃ u, choice [p, Parser.pure b] s = .ok (a, u) ∧ t.Passes [] u := by
  simp only [choice, choiceFrom, h]
  cases s.settings.tieBreak with
  | firstMatch => exact ⟨_, rfl, .refl t⟩
  | longestParse =>
    have hlonger : longer (some (a, t)) (b, s) = (a, t) := if_neg (Nat.lt_asymm hlt)
    simp only [Parser.pure, show longer none (a, t) = (a, t) from rfl, hlonger]
    exact ⟨_, rfl, .refl t⟩

end Parser

namespace Rule

variable {α β : Type} {parse : (p : Phrase) → Parser p.Value} {s t : Input}

theorem bind_eq_ok {r : Rule α} {f : α → Rule β} {b : β} :
    (r >>= f).run parse s = .ok (b, t) ↔
      ∃ a u, r.run parse s = .ok (a, u) ∧ (f a).run parse u = .ok (b, t) := Parser.bind_eq_ok

theorem bind_of_error {r : Rule α} {f : α → Rule β} {e : ParseError}
    (h : r.run parse s = .error e) : (r >>= f).run parse s = .error e := by
  show Parser.bind _ _ s = _
  simp only [Parser.bind, h]

theorem pure_eq_ok {a b : α} : (pure a : Rule α).run parse s = .ok (b, t) ↔ a = b ∧ s = t :=
  Parser.pure_eq_ok

theorem map_eq_ok {r : Rule α} {f : α → β} {b : β} :
    (f <$> r).run parse s = .ok (b, t) ↔ ∃ a, r.run parse s = .ok (a, t) ∧ f a = b := by
  refine Parser.bind_eq_ok.trans ⟨?_, ?_⟩
  · rintro ⟨a, u, ha, hb⟩
    obtain ⟨rfl, rfl⟩ := Parser.pure_eq_ok.1 hb
    exact ⟨a, ha, rfl⟩
  · rintro ⟨a, ha, rfl⟩
    exact ⟨a, t, ha, rfl⟩

theorem seqRight_eq_ok {r : Rule α} {q : Rule β} {b : β} :
    (r *> q).run parse s = .ok (b, t) ↔
      ∃ a u, r.run parse s = .ok (a, u) ∧ q.run parse u = .ok (b, t) := Parser.bind_eq_ok

theorem seqLeft_eq_ok {r : Rule α} {q : Rule β} {a : α} :
    (r <* q).run parse s = .ok (a, t) ↔
      ∃ u b, r.run parse s = .ok (a, u) ∧ q.run parse u = .ok (b, t) := by
  refine Parser.bind_eq_ok.trans ⟨?_, ?_⟩
  · rintro ⟨a', u, ha, h⟩
    obtain ⟨b, v, hb, hv⟩ := Parser.bind_eq_ok.1 h
    obtain ⟨rfl, rfl⟩ := Parser.pure_eq_ok.1 hv
    exact ⟨u, b, ha, hb⟩
  · rintro ⟨u, b, ha, hb⟩
    exact ⟨a, u, ha, Parser.bind_eq_ok.2 ⟨b, t, hb, rfl⟩⟩

theorem seqLeft_eq_error {r : Rule α} {q : Rule β} {e : ParseError} :
    (r <* q).run parse s = .error e ↔ r.run parse s = .error e ∨
      ∃ a u, r.run parse s = .ok (a, u) ∧ q.run parse u = .error e := by
  refine Parser.bind_eq_error.trans (or_congr_right ?_)
  refine exists_congr fun a => exists_congr fun u => and_congr_right fun _ => ?_
  refine Parser.bind_eq_error.trans (or_iff_left ?_)
  rintro ⟨b, v, -, h⟩
  cases h

theorem choice_ok {rs : List (Rule α)} {a : α} (h : (choice rs).run parse s = .ok (a, t)) :
    ∃ r ∈ rs, ∃ u, r.run parse s = .ok (a, u) ∧ u.Passes [] t := by
  rw [run_choice] at h
  obtain ⟨p, hp, u, hu, hut⟩ := Parser.choice_ok h
  obtain ⟨r, hr, rfl⟩ := List.mem_map.1 hp
  exact ⟨r, hr, u, hu, hut⟩

theorem optional_ok {r : Rule α} {o : Option α} (h : (optional r).run parse s = .ok (o, t)) :
    (o = none ∧ s.Passes [] t) ∨
      ∃ a u, o = some a ∧ r.run parse s = .ok (a, u) ∧ u.Passes [] t := by
  obtain ⟨q, hq, u, hu, hut⟩ := choice_ok h
  simp only [List.mem_cons, List.not_mem_nil, or_false] at hq
  rcases hq with rfl | rfl
  · obtain ⟨a, ha, rfl⟩ := map_eq_ok.1 hu
    exact .inr ⟨a, u, rfl, ha, hut⟩
  · obtain ⟨rfl, rfl⟩ := pure_eq_ok.1 hu
    exact .inl ⟨rfl, hut⟩

theorem sepBy_ok {r : Rule α} {q : Rule β} {as : List α}
    (h : (sepBy r q).run parse s = .ok (as, t)) :
    (as = [] ∧ s.Passes [] t) ∨
      ∃ a as' u v, as = a :: as' ∧ r.run parse s = .ok (a, u) ∧
        (many (q *> r)).run parse u = .ok (as', v) ∧ v.Passes [] t := by
  obtain ⟨o, w, ho, hw⟩ := bind_eq_ok.1 h
  rcases optional_ok ho with ⟨rfl, hs⟩ | ⟨⟨a, as'⟩, v, rfl, hb, hv⟩
  · obtain ⟨rfl, rfl⟩ := pure_eq_ok.1 hw
    exact .inl ⟨rfl, hs⟩
  · obtain ⟨rfl, rfl⟩ := pure_eq_ok.1 hw
    obtain ⟨a', u, ha, hb⟩ := bind_eq_ok.1 hb
    obtain ⟨as'', v', has, hv'⟩ := bind_eq_ok.1 hb
    obtain ⟨heq, rfl⟩ := pure_eq_ok.1 hv'
    cases heq
    exact .inr ⟨a, as', u, v', rfl, ha, has, hv⟩

theorem token_ok {k : Token.Kind} {x : Token} (h : (token k).run parse s = .ok (x, t))
    (hk : k ≠ .eof) : x.kind = k ∧ s.Passes [x] t := Parser.token_ok h hk

/-! ## What is enough for a match -/

theorem lookahead_of_usable (h : s.settings.Usable) :
    (lookahead 0).run parse s = .ok (s.current, s) :=
  Parser.lookahead_eq_ok.2 ⟨h, rfl, rfl⟩

theorem token_of_rest {k : Token.Kind} {x : Token} {ts : List Token} (h : s.rest = x :: ts)
    (hx : x.kind = k) : ∃ t, (token k).run parse s = .ok (x, t) ∧ s.Passes [x] t := by
  obtain ⟨t, ht, hp, -⟩ := Parser.token_of_rest h hx
  exact ⟨t, ht, hp⟩

theorem choice_of_agree {rs : List (Rule α)} {a : α}
    (h : ∀ r ∈ rs, (∃ e, r.run parse s = .error e) ∨ r.run parse s = .ok (a, t))
    (hsome : ∃ r ∈ rs, r.run parse s = .ok (a, t)) :
    ∃ u, (choice rs).run parse s = .ok (a, u) ∧ t.Passes [] u := by
  rw [run_choice]
  refine Parser.choiceFrom_of_agree (fun p hp => ?_) (.inl rfl) (.inl ?_)
  · obtain ⟨r, hr, rfl⟩ := List.mem_map.1 hp
    exact h r hr
  · obtain ⟨r, hr, hrs⟩ := hsome
    exact ⟨_, List.mem_map.2 ⟨r, hr, rfl⟩, hrs⟩

theorem optional_of_ok {r : Rule α} {a : α} (h : r.run parse s = .ok (a, t))
    (hlt : s.position < t.position) :
    ∃ u, (optional r).run parse s = .ok (some a, u) ∧ t.Passes [] u :=
  Parser.choice_of_progress (map_eq_ok.2 ⟨a, h, rfl⟩) hlt

theorem optional_of_error {r : Rule α} {e : ParseError} (h : r.run parse s = .error e) :
    ∃ u, (optional r).run parse s = .ok (none, u) ∧ s.Passes [] u := by
  refine choice_of_agree (fun q hq => ?_) ⟨pure none, by simp, rfl⟩
  simp only [List.mem_cons, List.not_mem_nil, or_false] at hq
  rcases hq with rfl | rfl
  · exact .inl ⟨e, bind_of_error h⟩
  · exact .inr rfl

theorem many_of_error {r : Rule α} {e : ParseError} (h : r.run parse s = .error e) :
    ∃ u, (many r).run parse s = .ok ([], u) ∧ s.Passes [] u :=
  ⟨_, (Parser.atLeast_of_error h).trans (if_pos rfl), s.record_passes e⟩

theorem many_of_ok {r : Rule α} {a : α} {as : List α} {u : Input}
    (h : r.run parse s = .ok (a, t)) (hlt : t.left < s.left)
    (hs : (many r).run parse t = .ok (as, u)) : (many r).run parse s = .ok (a :: as, u) := by
  have hs' : Parser.atLeast (0 - 1) (r.run parse) t = .ok (as, u) := hs
  refine (Parser.atLeast_of_ok h hlt).trans ?_
  rw [hs']

theorem sepBy_of_error {r : Rule α} {q : Rule β} {e : ParseError} (h : r.run parse s = .error e) :
    ∃ u, (sepBy r q).run parse s = .ok ([], u) ∧ s.Passes [] u := by
  obtain ⟨u, hu, hp⟩ := optional_of_error (bind_of_error h)
  exact ⟨u, bind_eq_ok.2 ⟨none, u, hu, rfl⟩, hp⟩

theorem sepBy_of_ok {r : Rule α} {q : Rule β} {a : α} {as : List α} {u : Input}
    (h : r.run parse s = .ok (a, t)) (hs : (many (q *> r)).run parse t = .ok (as, u))
    (hlt : s.position < u.position) :
    ∃ v, (sepBy r q).run parse s = .ok (a :: as, v) ∧ u.Passes [] v := by
  have hboth : (both r (many (q *> r))).run parse s = .ok ((a, as), u) :=
    bind_eq_ok.2 ⟨a, t, h, bind_eq_ok.2 ⟨as, u, hs, rfl⟩⟩
  obtain ⟨v, hv, hp⟩ := optional_of_ok hboth hlt
  exact ⟨v, bind_eq_ok.2 ⟨some (a, as), v, hv, rfl⟩, hp⟩

/-! ## Rules that begin with a token -/

theorem token_bind_error {k : Token.Kind} {f : Token → Rule α} (h : s.current.kind ≠ k) :
    ∃ e, (token k >>= f).run parse s = .error e := ⟨_, bind_of_error (Parser.token_error h)⟩

end Rule

end Descent
