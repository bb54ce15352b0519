import Mathlib.Data.List.Nodup
import Descent.Proofs.Json.Reading
import Descent.Settings.Json

/-!
# Settings in JSON texts

An object says what the members are that it lists, and all others have their defaults. What it lists
in which order and with which other members between them makes no difference, as long as no member
of the settings is listed twice (`Settings.setMembers?_eq_some_iff`). The text of settings is such
an object (`Settings.isText_toText`). Main statement: settings are read back from their text, and
any object text is read as the defaults with what it lists, if they allow to look at a token
(`Settings.ofText_isText`).
-/

namespace Descent.Settings

variable {s s' u : Settings} {f g : Field} {j : Json} {t : List Char} {n : Nat}
  {ms : List (Option (List Char) × Json)} {seen : List Field}

/-- Settings that are read from a text are usable. -/
theorem usable_of_ofText (h : ofText t = .ok s) : s.Usable := by
  unfold ofText at h
  split at h
  · next s' _ =>
    unfold check at h
    split at h
    · next hu =>
      cases h
      exact hu
    · cases h
  · cases h

/-! ## Members -/

/-- Both settings have the same member. -/
def Agree (s s' : Settings) : Field → Prop
  | .emitTrivia => s.emitTrivia = s'.emitTrivia
  | .lookaheadDepth => s.lookaheadDepth = s'.lookaheadDepth
  | .maxDepth => s.maxDepth = s'.maxDepth
  | .tieBreak => s.tieBreak = s'.tieBreak
  | .failureSelection => s.failureSelection = s'.failureSelection
  | .advancePastEnd => s.advancePastEnd = s'.advancePastEnd

/-- The settings `s` with one member of `s'`. -/
def adopt (s s' : Settings) : Field → Settings
  | .emitTrivia => { s with emitTrivia := s'.emitTrivia }
  | .lookaheadDepth => { s with lookaheadDepth := s'.lookaheadDepth }
  | .maxDepth => { s with maxDepth := s'.maxDepth }
  | .tieBreak => { s with tieBreak := s'.tieBreak }
  | .failureSelection => { s with failureSelection := s'.failureSelection }
  | .advancePastEnd => { s with advancePastEnd := s'.advancePastEnd }

/-- A JSON value that says a number. -/
def IsNumeral (n : Nat) (j : Json) : Prop := n ≤ maxNumber ∧ j = .number (some n)

/-- A JSON value that says a limit: a number, or `null` for none. -/
def IsLimit : Option Nat → Json → Prop
  | none, j => j = .null
  | some n, j => IsNumeral n j

/-- A JSON value that says an alternative, by its name. -/
def IsName (name : String) (j : Json) : Prop :=
  j = .string (some name.toList) ∨ j = .object [(some name.toList, .null)]

/-- A JSON value that says what a member of the settings is. -/
def Tells (s : Settings) (j : Json) : Field → Prop
  | .emitTrivia => j = .bool s.emitTrivia
  | .lookaheadDepth => IsNumeral s.lookaheadDepth j
  | .maxDepth => IsLimit s.maxDepth j
  | .tieBreak => IsName s.tieBreak.name j
  | .failureSelection => IsName s.failureSelection.name j
  | .advancePastEnd => IsName s.advancePastEnd.name j

theorem eq_of_agree (h : ∀ f, s.Agree s' f) : s = s' := by
  cases s
  cases s'
  simp only [mk.injEq]
  exact ⟨h .emitTrivia, h .lookaheadDepth, h .maxDepth, h .tieBreak, h .failureSelection,
    h .advancePastEnd⟩

theorem Agree.symm (h : s.Agree s' f) : s'.Agree s f := by
  cases f <;> exact Eq.symm h

theorem Agree.trans (h : s.Agree s' f) (h' : s'.Agree u f) : s.Agree u f := by
  cases f <;> exact Eq.trans h h'

theorem Agree.tells (h : s.Agree s' f) (hj : s.Tells j f) : s'.Tells j f := by
  cases f <;> simp only [Agree] at h <;> simpa only [Tells, h] using hj

theorem agree_adopt : (s.adopt s' f).Agree s' f := by
  cases f <;> rfl

theorem agree_adopt_of_ne (h : g ≠ f) : (s.adopt s' f).Agree s g := by
  cases f <;> cases g <;> first | rfl | exact absurd rfl h

theorem adopt_adopt : s.adopt (s.adopt s' f) f = s.adopt s' f := by
  cases f <;> rfl

theorem Agree.adopt_eq (h : s.Agree s' f) : u.adopt s f = u.adopt s' f := by
  cases f <;> simp only [Agree] at h <;> simp only [adopt, h]

/-! ## Values of members -/

theorem bool?_eq_some_iff {b : Bool} : bool? j = some b ↔ j = .bool b := by
  cases j <;> simp [bool?]

theorem number?_eq_some_iff : number? j = some n ↔ IsNumeral n j := by
  unfold number? IsNumeral
  split
  · split <;> grind
  · grind

theorem alternative?_eq_some_iff {name : String} :
    alternative? j = some name.toList ↔ IsName name j := by
  unfold alternative? IsName
  split <;> grind

/-- The alternative is found that has the name, if names tell alternatives apart. -/
theorem oneOf?_eq_some_iff {α : Type} {name : α → String} {alternatives : List α} {a : α}
    (hname : ∀ a b, (name a).toList = (name b).toList → a = b) (ha : a ∈ alternatives) :
    oneOf? name alternatives j = some a ↔ IsName (name a) j := by
  rw [← alternative?_eq_some_iff, oneOf?]
  simp only [Option.bind_eq_bind, Option.bind_eq_some_iff]
  constructor
  · rintro ⟨text, htext, hfind⟩
    have hfound := List.find?_some hfind
    rw [htext, of_decide_eq_true hfound]
  · intro h
    have hsome : (alternatives.find? fun b => (name b).toList = (name a).toList).isSome :=
      List.find?_isSome.2 ⟨a, ha, decide_eq_true rfl⟩
    obtain ⟨b, hb⟩ := Option.isSome_iff_exists.1 hsome
    have hfound := List.find?_some hb
    exact ⟨_, h, hname b a (of_decide_eq_true hfound) ▸ hb⟩

/-- The limit that a JSON value says. -/
def limit? : Json → Option (Option Nat)
  | .null => some none
  | j => (number? j).map some

theorem limit?_eq_some_iff {limit : Option Nat} : limit? j = some limit ↔ IsLimit limit j := by
  cases limit with
  | none => cases j <;> simp [limit?, IsLimit]
  | some n =>
    rw [IsLimit, ← number?_eq_some_iff]
    cases j <;> simp [limit?, number?]

theorem set?_maxDepth :
    s.set? j .maxDepth = (limit? j).map fun limit => { s with maxDepth := limit } := by
  cases j <;> simp [set?, limit?, Function.comp_def]

theorem map_eq_some_iff_of_get {α : Type} {o : Option α} {update : α → Settings}
    {get : Settings → α} (hget : ∀ a, get (update a) = a) :
    o.map update = some s' ↔ o = some (get s') ∧ update (get s') = s' := by
  rw [Option.map_eq_some_iff]
  constructor
  · rintro ⟨a, ha, rfl⟩
    rw [hget]
    exact ⟨ha, rfl⟩
  · rintro ⟨ho, hs⟩
    exact ⟨get s', ho, hs⟩

/-- A member is set to what a value says, and the others stay as they are. -/
theorem set?_eq_some_iff : s.set? j f = some s' ↔ s'.Tells j f ∧ s.adopt s' f = s' := by
  cases f with
  | emitTrivia =>
    exact (map_eq_some_iff_of_get fun _ => rfl).trans (and_congr_left' bool?_eq_some_iff)
  | lookaheadDepth =>
    exact (map_eq_some_iff_of_get fun _ => rfl).trans (and_congr_left' number?_eq_some_iff)
  | maxDepth =>
    rw [set?_maxDepth]
    exact (map_eq_some_iff_of_get fun _ => rfl).trans (and_congr_left' limit?_eq_some_iff)
  | tieBreak =>
    refine (map_eq_some_iff_of_get fun _ => rfl).trans (and_congr_left' (oneOf?_eq_some_iff ?_ ?_))
    · rintro ⟨⟩ ⟨⟩ <;> decide
    · cases s'.tieBreak <;> decide
  | failureSelection =>
    refine (map_eq_some_iff_of_get fun _ => rfl).trans (and_congr_left' (oneOf?_eq_some_iff ?_ ?_))
    · rintro ⟨⟩ ⟨⟩ <;> decide
    · cases s'.failureSelection <;> decide
  | advancePastEnd =>
    refine (map_eq_some_iff_of_get fun _ => rfl).trans (and_congr_left' (oneOf?_eq_some_iff ?_ ?_))
    · rintro ⟨⟩ ⟨⟩ <;> decide
    · cases s'.advancePastEnd <;> decide

/-! ## Objects -/

section Objects

variable {name : List Char}

theorem ofName?_eq_some_iff : Field.ofName? name = some f ↔ f.name.toList = name := by
  unfold Field.ofName?
  constructor
  · intro h
    have hfound := List.find?_some h
    exact of_decide_eq_true hfound
  · rintro rfl
    cases f <;> rfl

/-- How often a member of the settings is listed, those counted in `seen` included. -/
def listings (seen : List Field) (ms : List (Option (List Char) × Json)) (f : Field) : Nat :=
  (ms.map Prod.fst).count (some f.name.toList) + if f ∈ seen then 1 else 0

/-- The settings `s'` are those of `s` with what the members of an object say. -/
def Overrides (s s' : Settings) (ms : List (Option (List Char) × Json)) : Prop :=
  ∀ f, (∀ j, (some f.name.toList, j) ∈ ms → s'.Tells j f) ∧
    ((∀ j, (some f.name.toList, j) ∉ ms) → s'.Agree s f)

theorem listings_unknown (h : Field.ofName? name = none) :
    listings seen ((some name, j) :: ms) f = listings seen ms f := by
  have hne : some name ≠ some f.name.toList := by
    rintro ⟨⟩
    cases h.symm.trans (ofName?_eq_some_iff.2 rfl)
  rw [listings, List.map_cons, List.count_cons_of_ne hne, listings]

theorem listings_known (h : Field.ofName? name = some g) (hg : g ∉ seen) :
    listings seen ((some name, j) :: ms) f = listings (g :: seen) ms f := by
  obtain rfl := ofName?_eq_some_iff.1 h
  simp only [listings, List.map_cons, List.count_cons]
  by_cases hf : f = g
  · subst hf
    simp [hg]
  · have hne : g.name.toList ≠ f.name.toList := by
      intro hname
      cases h.symm.trans (ofName?_eq_some_iff.2 hname.symm)
      exact hf rfl
    simp [hf, hne]

theorem one_lt_listings (h : Field.ofName? name = some g) (hg : g ∈ seen) :
    1 < listings seen ((some name, j) :: ms) g := by
  obtain rfl := ofName?_eq_some_iff.1 h
  rw [listings, if_pos hg, List.map_cons, List.count_cons_self]
  omega

/-- A member of the settings that was seen is not listed again. -/
theorem not_mem_of_listings (h : listings (g :: seen) ms g ≤ 1) (j : Json) :
    (some g.name.toList, j) ∉ ms := by
  intro hmem
  have hcount : 0 < (ms.map Prod.fst).count (some g.name.toList) :=
    List.count_pos_iff.2 (List.mem_map_of_mem hmem)
  rw [listings, if_pos List.mem_cons_self] at h
  omega

theorem mem_cons_known {k : Json} (h : Field.ofName? name = some g) :
    (some f.name.toList, k) ∈ (some name, j) :: ms ↔
      (f = g ∧ k = j) ∨ (some f.name.toList, k) ∈ ms := by
  have hname : f.name.toList = name ↔ f = g := by
    rw [← ofName?_eq_some_iff, h, Option.some.injEq, eq_comm]
  rw [List.mem_cons, Prod.mk.injEq, Option.some.injEq, hname]

theorem overrides_unknown (h : Field.ofName? name = none) :
    s.Overrides s' ((some name, j) :: ms) ↔ s.Overrides s' ms := by
  have hmem (f : Field) (k : Json) :
      (some f.name.toList, k) ∈ (some name, j) :: ms ↔ (some f.name.toList, k) ∈ ms := by
    refine List.mem_cons.trans (or_iff_right ?_)
    rintro ⟨⟩
    cases h.symm.trans (ofName?_eq_some_iff.2 rfl)
  simp only [Overrides, hmem]

theorem overrides_known (h : Field.ofName? name = some g)
    (hnot : ∀ j, (some g.name.toList, j) ∉ ms) :
    s.Overrides s' ((some name, j) :: ms) ↔ s'.Tells j g ∧ (s.adopt s' g).Overrides s' ms := by
  simp only [Overrides, mem_cons_known h]
  constructor
  · intro ho
    refine ⟨(ho g).1 j (.inl ⟨rfl, rfl⟩), fun f => ⟨fun k hk => (ho f).1 k (.inr hk), ?_⟩⟩
    intro hnone
    by_cases hf : f = g
    · rw [hf]
      exact agree_adopt.symm
    · have hagree : s'.Agree s f :=
        (ho f).2 fun k hk => hk.elim (fun hfk => hf hfk.1) (hnone k)
      exact hagree.trans (agree_adopt_of_ne hf).symm
  · rintro ⟨htells, ho⟩ f
    refine ⟨?_, fun hnone => ?_⟩
    · rintro k (⟨rfl, rfl⟩ | hk)
      · exact htells
      · exact (ho f).1 k hk
    · have hf : f ≠ g := fun hf => hnone j (.inl ⟨hf, rfl⟩)
      exact ((ho f).2 fun k hk => hnone k (.inr hk)).trans (agree_adopt_of_ne hf)

/-- An object gives settings exactly if all names stand for texts, no member of the settings is
listed twice, and there are settings with what it lists and nothing else changed; and it gives
these. -/
theorem setMembers?_eq_some_iff : s.setMembers? seen ms = some s' ↔
    (∀ m ∈ ms, m.1 ≠ none) ∧ (∀ f, listings seen ms f ≤ 1) ∧ s.Overrides s' ms := by
  fun_induction setMembers? s seen ms with
  | case1 s seen =>
    have hseen (f : Field) : listings seen [] f ≤ 1 := by
      rw [listings]
      split <;> simp
    constructor
    · rintro ⟨⟩
      exact ⟨nofun, hseen, fun f => ⟨nofun, fun _ => by cases f <;> rfl⟩⟩
    · rintro ⟨-, -, ho⟩
      rw [eq_of_agree fun f => (ho f).2 nofun]
  | case2 => exact iff_of_false nofun fun h => h.1 _ List.mem_cons_self rfl
  | case3 s seen name j ms hname ih =>
    simp only [ih, listings_unknown hname, overrides_unknown hname, List.forall_mem_cons, ne_eq,
      reduceCtorEq, not_false_eq_true, true_and]
  | case4 s seen name j ms g hname hg =>
    exact iff_of_false nofun fun h => Nat.not_le.2 (one_lt_listings hname hg) (h.2.1 g)
  | case5 s seen name j ms g hname hg ih =>
    simp only [Option.bind_eq_bind, Option.bind_eq_some_iff, set?_eq_some_iff, ih,
      listings_known hname hg, List.forall_mem_cons, ne_eq, reduceCtorEq, not_false_eq_true,
      true_and]
    constructor
    · rintro ⟨s₁, ⟨htells, hadopt⟩, hnames, honce, ho⟩
      have hnot := not_mem_of_listings (honce g)
      have hagree : s'.Agree s₁ g := (ho g).2 hnot
      refine ⟨hnames, honce, (overrides_known hname hnot).2 ⟨hagree.symm.tells htells, ?_⟩⟩
      rw [hagree.adopt_eq, hadopt]
      exact ho
    · rintro ⟨hnames, honce, ho⟩
      obtain ⟨htells, hrest⟩ := (overrides_known hname (not_mem_of_listings (honce g))).1 ho
      exact ⟨s.adopt s' g, ⟨agree_adopt.symm.tells htells, adopt_adopt⟩, hnames, honce, hrest⟩

/-- If what an object lists says what members of settings are, there are such settings. -/
theorem exists_setMembers? (hnames : ∀ m ∈ ms, m.1 ≠ none) (honce : ∀ f, listings seen ms f ≤ 1)
    (htells : ∀ f j, (some f.name.toList, j) ∈ ms → ∃ u : Settings, u.Tells j f) :
    ∃ s', s.setMembers? seen ms = some s' := by
  fun_induction setMembers? s seen ms with
  | case1 s => exact ⟨s, rfl⟩
  | case2 => exact absurd rfl (hnames _ List.mem_cons_self)
  | case3 s seen name j ms hname ih =>
    simp only [listings_unknown hname] at honce
    exact ih (List.forall_mem_cons.1 hnames).2 honce fun f k hk =>
      htells f k (List.mem_cons_of_mem _ hk)
  | case4 s seen name j ms g hname hg =>
    exact absurd (honce g) (Nat.not_le.2 (one_lt_listings hname hg))
  | case5 s seen name j ms g hname hg ih =>
    simp only [listings_known hname hg] at honce
    obtain ⟨u, hu⟩ := htells g j ((mem_cons_known hname).2 (.inl ⟨rfl, rfl⟩))
    have hset : s.set? j g = some (s.adopt u g) :=
      set?_eq_some_iff.2 ⟨agree_adopt.symm.tells hu, adopt_adopt⟩
    obtain ⟨s', hs'⟩ := ih (s.adopt u g) (List.forall_mem_cons.1 hnames).2 honce fun f k hk =>
      htells f k (List.mem_cons_of_mem _ hk)
    refine ⟨s', ?_⟩
    rw [hset]
    exact hs'

end Objects

/-! ## The text of settings -/

/-- The numbers of the settings are in range. -/
def Fits (s : Settings) : Prop := s.lookaheadDepth ≤ maxNumber ∧ ∀ n ∈ s.maxDepth, n ≤ maxNumber

/-- A member of the settings as a JSON value. -/
def toJson (s : Settings) : Field → Json
  | .emitTrivia => .bool s.emitTrivia
  | .lookaheadDepth => .number (some s.lookaheadDepth)
  | .maxDepth =>
    match s.maxDepth with
    | none => .null
    | some n => .number (some n)
  | .tieBreak => .string (some s.tieBreak.name.toList)
  | .failureSelection => .string (some s.failureSelection.name.toList)
  | .advancePastEnd => .string (some s.advancePastEnd.name.toList)

/-- The members of an object that lists these members of the settings. -/
def toMembers (s : Settings) (fs : List Field) : List (Option (List Char) × Json) :=
  fs.map fun f => (some f.name.toList, s.toJson f)

theorem tells_toJson (h : s.Fits) (f : Field) : s.Tells (s.toJson f) f := by
  obtain ⟨hlookahead, hdepth⟩ := h
  cases f with
  | emitTrivia => rfl
  | lookaheadDepth => exact ⟨hlookahead, rfl⟩
  | maxDepth =>
    simp only [Tells, toJson]
    cases hlimit : s.maxDepth with
    | none => rfl
    | some n => exact ⟨hdepth n hlimit, rfl⟩
  | tieBreak => exact .inl rfl
  | failureSelection => exact .inl rfl
  | advancePastEnd => exact .inl rfl

theorem written_nameText {name : String} (h : name.toList.all Json.isPlain) :
    Json.Written (.value (.string (some name.toList))) (nameText name) :=
  .string (Json.isString_plain h)

theorem written_numberText (n : Nat) :
    Json.Written (.value (.number (some n))) (numberText (some n)) :=
  .number (Json.isNumber_ofNat n)

/-- The text of a member says what it is. -/
theorem written_valueText (s : Settings) (f : Field) :
    Json.Written (.value (s.toJson f)) (s.valueText f) := by
  cases f with
  | emitTrivia =>
    simp only [toJson, valueText]
    cases s.emitTrivia with
    | true => exact .isTrue
    | false => exact .isFalse
  | lookaheadDepth => exact written_numberText _
  | maxDepth =>
    simp only [toJson, valueText]
    cases s.maxDepth with
    | none => exact .null
    | some n => exact written_numberText n
  | tieBreak =>
    refine written_nameText ?_
    cases s.tieBreak <;> decide
  | failureSelection =>
    refine written_nameText ?_
    cases s.failureSelection <;> decide
  | advancePastEnd =>
    refine written_nameText ?_
    cases s.advancePastEnd <;> decide

theorem isString_name (f : Field) :
    Json.IsString (some f.name.toList) (f.name.toList ++ ['"']) := by
  refine Json.isString_plain ?_
  cases f <;> decide

/-- The texts of members with commas between them are the members of an object. -/
theorem written_members (s : Settings) (f : Field) (fs : List Field) :
    Json.Written (.members (s.toMembers (f :: fs)))
      ([','].intercalate ((f :: fs).map fun g => memberText g (s.valueText g)) ++ ['}']) := by
  have hblank : Json.Blank [] := nofun
  induction fs generalizing f with
  | nil =>
    have hlast := Json.Written.lastMember hblank (isString_name f) hblank hblank
      (s.written_valueText f) hblank
    simpa [toMembers, memberText] using hlast
  | cons g fs ih =>
    have hmember := Json.Written.member hblank (isString_name f) hblank hblank
      (s.written_valueText f) hblank (ih g)
    simpa [toMembers, memberText, List.intercalate_cons_cons] using hmember

/-- The text of settings is an object that lists all of them. -/
theorem isText_toText (s : Settings) :
    Json.IsText (.object (s.toMembers Field.all)) s.toText := by
  have hmembers := s.written_members .emitTrivia
    [.lookaheadDepth, .maxDepth, .tieBreak, .failureSelection, .advancePastEnd]
  refine ⟨[], _, [], nofun, .object hmembers, nofun, ?_⟩
  rw [List.append_nil]
  rfl

/-! ## Texts -/

theorem listings_nil (ms : List (Option (List Char) × Json)) (f : Field) :
    listings [] ms f = (ms.map Prod.fst).count (some f.name.toList) := by
  simp [listings]

theorem check_eq (s : Settings) :
    s.check = if 0 < s.lookaheadDepth then .ok s else .error .zeroLookahead := rfl

theorem ofText_of_isText (h : Json.IsText j t) : ofText t =
    match ofJson? j with
    | some s => s.check
    | none => .error .malformed := by
  rw [ofText, Json.ofText?_eq_some_iff.2 h]
  rfl

/-- An object that lists all settings once says all of them. -/
theorem setMembers?_toMembers (h : s.Fits) :
    ({} : Settings).setMembers? [] (s.toMembers Field.all) = some s := by
  have hmem (f : Field) (j : Json) :
      (some f.name.toList, j) ∈ s.toMembers Field.all ↔ j = s.toJson f := by
    rw [toMembers, List.mem_map]
    constructor
    · rintro ⟨g, -, hg⟩
      obtain ⟨hname, rfl⟩ := Prod.mk.inj hg
      have hfg := ofName?_eq_some_iff.2 (Option.some.inj hname)
      cases hfg.symm.trans (ofName?_eq_some_iff.2 rfl)
      rfl
    · rintro rfl
      exact ⟨f, by cases f <;> decide, rfl⟩
  refine setMembers?_eq_some_iff.2 ⟨?_, fun f => ?_, fun f => ⟨fun j hj => ?_, fun hnone => ?_⟩⟩
  · simp [toMembers]
  · rw [listings_nil, toMembers, List.map_map]
    have hnodup : (Field.all.map fun g => some g.name.toList).Nodup := by decide
    exact List.nodup_iff_count_le_one.1 hnodup _
  · rw [(hmem f j).1 hj]
    exact tells_toJson h f
  · exact absurd ((hmem f _).2 rfl) (hnone _)

/-- Settings whose numbers are in range are read back from their text, if they allow to look at a
token. Any other text of an object whose names stand for texts is read as the defaults with what it
lists, if it lists no member of the settings twice and for each of them a value that says what it
is: there are settings of this kind, and only one. Order, blanks, escapes and unknown members with
any values make no difference. Objects of any other kind are malformed. In all cases, settings that
do not allow to look at a token are not read. -/
theorem ofText_isText :
    (∀ s : Settings, s.Fits →
      ofText s.toText = if 0 < s.lookaheadDepth then .ok s else .error .zeroLookahead) ∧
    (∀ ms t, Json.IsText (.object ms) t → (∀ m ∈ ms, m.1 ≠ none) →
      (∀ f : Field, (ms.map Prod.fst).count (some f.name.toList) ≤ 1) →
      (∀ (f : Field) j, (some f.name.toList, j) ∈ ms → ∃ u : Settings, u.Tells j f) →
      ∃ s, Overrides {} s ms ∧ (∀ u, Overrides {} u ms → u = s) ∧
        ofText t = if 0 < s.lookaheadDepth then .ok s else .error .zeroLookahead) ∧
    (∀ ms t, Json.IsText (.object ms) t →
      (∃ m ∈ ms, m.1 = none) ∨
        (∃ f : Field, 1 < (ms.map Prod.fst).count (some f.name.toList)) ∨
        (∃ (f : Field) (j : Json), (some f.name.toList, j) ∈ ms ∧ ∀ u : Settings, ¬u.Tells j f) →
      ofText t = .error .malformed) ∧
    ∀ t s, ofText t = .ok s → 0 < s.lookaheadDepth := by
  refine ⟨fun s hs => ?_, fun ms t ht hnames honce htells => ?_, fun ms t ht hbad => ?_,
    fun t s => usable_of_ofText⟩
  · rw [ofText_of_isText s.isText_toText, ofJson?, setMembers?_toMembers hs]
    exact s.check_eq
  · simp only [← listings_nil] at honce
    obtain ⟨s, hs⟩ := exists_setMembers? (s := {}) hnames honce htells
    refine ⟨s, (setMembers?_eq_some_iff.1 hs).2.2, fun u hu => ?_, ?_⟩
    · cases hs.symm.trans (setMembers?_eq_some_iff.2 ⟨hnames, honce, hu⟩)
      rfl
    · rw [ofText_of_isText ht, ofJson?, hs]
      exact s.check_eq
  · cases hs : ({} : Settings).setMembers? [] ms with
    | none => rw [ofText_of_isText ht, ofJson?, hs]
    | some s =>
      obtain ⟨hnames, honce, ho⟩ := setMembers?_eq_some_iff.1 hs
      simp only [listings_nil] at honce
      rcases hbad with ⟨m, hm, hnone⟩ | ⟨f, htwice⟩ | ⟨f, j, hj, hno⟩
      · exact absurd hnone (hnames m hm)
      · exact absurd (honce f) (Nat.not_le.2 htwice)
      · exact absurd ((ho f).1 j hj) (hno s)

/-- Blanks, an unknown member with half of a surrogate pair in its value, an escape in a name, and
an alternative as an object; a limit listed twice; settings that do not allow to look at a token. -/
theorem ofText_isText_escaped :
    ofText ['\n', '{', '"', 'x', '"', ' ', ':', '[', '"', '\\', 'u', 'd', '8', '0', '0', '"', ']',
      ',', '"', '\\', 'u', '0', '0', '7', '4', 'i', 'e', 'B', 'r', 'e', 'a', 'k', '"', ':', '{',
      '"', 'l', 'o', 'n', 'g', 'e', 's', 't', 'P', 'a', 'r', 's', 'e', '"', ':', 'n', 'u', 'l', 'l',
      '}', '}'] = .ok { tieBreak := .longestParse } ∧
    ofText ['{', '"', 'm', 'a', 'x', 'D', 'e', 'p', 't', 'h', '"', ':', 'n', 'u', 'l', 'l', ',',
      '"', 'm', 'a', 'x', 'D', 'e', 'p', 't', 'h', '"', ':', 'n', 'u', 'l', 'l', '}'] =
        .error .malformed ∧
    ofText ({ lookaheadDepth := 0, maxDepth := some maxNumber } : Settings).toText =
      .error .zeroLookahead := by
  have hblank : Json.Blank [] := nofun
  obtain ⟨hround, hobject, hmalformed, -⟩ := ofText_isText
  refine ⟨?_, ?_, ?_⟩
  · have hx : Json.IsString (some ['x']) ['x', '"'] := Json.isString_plain (by decide)
    have hhalf : Json.IsString none ['\\', 'u', 'd', '8', '0', '0', '"'] :=
      Json.isString_half (n := 0xD800) rfl (.inl (by decide))
    have hspelled : Json.Spelled (.unit 0x74 :: "ieBreak".toList.map .char)
        ['\\', 'u', '0', '0', '7', '4', 'i', 'e', 'B', 'r', 'e', 'a', 'k', '"'] :=
      .cons (.unit rfl) (Json.spelled_plain (by decide))
    have hname : Json.IsString (some "tieBreak".toList) _ :=
      ⟨_, hspelled, (Json.standsFor_iff fun _ => hspelled.unit_lt).2 (by decide)⟩
    have hlongest : Json.Written (.value (.object [(some "longestParse".toList, .null)])) _ :=
      .object (.lastMember hblank (Json.isString_plain (by decide)) hblank hblank .null hblank)
    have hspace : Json.Blank [' '] := List.forall_mem_singleton.2 rfl
    have hmembers := Json.Written.member hblank hx hspace hblank
      (.array (.lastItem hblank (.string hhalf) hblank)) hblank
      (.lastMember hblank hname hblank hblank hlongest hblank)
    have hset : ({} : Settings).setMembers? [] [(some ['x'], .array [.string none]),
        (some "tieBreak".toList, .object [(some "longestParse".toList, .null)])] =
          some { tieBreak := .longestParse } := rfl
    obtain ⟨hnames, honce, ho⟩ := setMembers?_eq_some_iff.1 hset
    simp only [listings_nil] at honce
    obtain ⟨s, -, hunique, hread⟩ := hobject _ _
      ⟨['\n'], _, [], List.forall_mem_singleton.2 rfl, .object hmembers, hblank, rfl⟩ hnames honce
      fun f j hj => ⟨_, (ho f).1 j hj⟩
    cases hunique _ ho
    exact hread
  · have hdepth : Json.IsString (some "maxDepth".toList)
        ['m', 'a', 'x', 'D', 'e', 'p', 't', 'h', '"'] :=
      Json.isString_plain (by decide)
    have hmembers := Json.Written.member hblank hdepth hblank hblank .null hblank
      (.lastMember hblank hdepth hblank hblank .null hblank)
    exact hmalformed _ _ ⟨[], _, [], hblank, .object hmembers, hblank, rfl⟩
      (.inr (.inl ⟨.maxDepth, by decide⟩))
  · refine (hround _ ⟨Nat.zero_le _, ?_⟩).trans (if_neg (Nat.lt_irrefl 0))
    rintro _ ⟨⟩
    exact Nat.le_refl _

/-- A name with half of a surrogate pair stands for no text. It is the name of no member of the
settings, but the object is not read as the defaults. -/
theorem ofText_halfPair :
    Json.IsText (.object [(none, .number (some 1))])
      ['{', '"', '\\', 'u', 'd', '8', '0', '0', '"', ':', '1', '}'] ∧
    Overrides {} {} [(none, .number (some 1))] ∧ ({} : Settings).check = .ok {} ∧
    ofText ['{', '"', '\\', 'u', 'd', '8', '0', '0', '"', ':', '1', '}'] = .error .malformed := by
  have hblank : Json.Blank [] := nofun
  have hname : Json.IsString none ['\\', 'u', 'd', '8', '0', '0', '"'] :=
    Json.isString_half (n := 0xD800) rfl (.inl (by decide))
  have hone : Json.IsNumber (some 1) ['1'] := Json.isNumber_ofNat 1
  have htext : Json.IsText (.object [(none, .number (some 1))])
      ['{', '"', '\\', 'u', 'd', '8', '0', '0', '"', ':', '1', '}'] :=
    ⟨[], _, [], hblank,
      .object (.lastMember hblank hname hblank hblank (.number hone) hblank), hblank, rfl⟩
  refine ⟨htext, fun f => ⟨nofun, fun _ => ?_⟩, rfl, ofText_of_isText htext⟩
  cases f <;> rfl

end Descent.Settings
