import Descent.Proofs.Json.Numbers
import Descent.Proofs.Json.Strings

/-!
# JSON texts

`Written x t` says that the text `t` is a way to write a value, the items of an array or the members
of an object, by the grammar of JSON: with blanks where they may be, any escapes in strings, and any
number of items. Main statement: a text is read exactly if it is a way to write a value, and as that
value (`Json.ofText?_eq_some_iff`).
-/

namespace Descent.Json

/-- Blanks and nothing else. -/
def Blank (b : List Char) : Prop := ∀ c ∈ b, isBlank c

/-- What a piece of text in JSON may be. -/
inductive Form where
  | value (j : Json)
  /-- The items of an array that has some, up to and with the closing bracket. -/
  | items (js : List Json)
  /-- The members of an object that has some, up to and with the closing brace. -/
  | members (ms : List (Option (List Char) × Json))

/-- How values, items and members may be written. -/
inductive Written : Form → List Char → Prop where
  | null : Written (.value .null) ['n', 'u', 'l', 'l']
  | isTrue : Written (.value (.bool true)) ['t', 'r', 'u', 'e']
  | isFalse : Written (.value (.bool false)) ['f', 'a', 'l', 's', 'e']
  | number {n : Option Nat} {t : List Char} (h : IsNumber n t) : Written (.value (.number n)) t
  | string {text : Option (List Char)} {t : List Char} (h : IsString text t) :
      Written (.value (.string text)) ('"' :: t)
  | emptyArray {b : List Char} (hb : Blank b) : Written (.value (.array [])) ('[' :: (b ++ [']']))
  | array {js : List Json} {t : List Char} (h : Written (.items js) t) :
      Written (.value (.array js)) ('[' :: t)
  | emptyObject {b : List Char} (hb : Blank b) :
      Written (.value (.object [])) ('{' :: (b ++ ['}']))
  | object {ms : List (Option (List Char) × Json)} {t : List Char} (h : Written (.members ms) t) :
      Written (.value (.object ms)) ('{' :: t)
  | lastItem {j : Json} {b t b' : List Char} (hb : Blank b) (h : Written (.value j) t)
      (hb' : Blank b') : Written (.items [j]) (b ++ (t ++ (b' ++ [']'])))
  | item {j : Json} {js : List Json} {b t b' u : List Char} (hb : Blank b)
      (h : Written (.value j) t) (hb' : Blank b') (hs : Written (.items js) u) :
      Written (.items (j :: js)) (b ++ (t ++ (b' ++ ',' :: u)))
  | lastMember {name : Option (List Char)} {j : Json} {b n b₁ b₂ t b₃ : List Char} (hb : Blank b)
      (hn : IsString name n) (hb₁ : Blank b₁) (hb₂ : Blank b₂) (h : Written (.value j) t)
      (hb₃ : Blank b₃) :
      Written (.members [(name, j)])
        (b ++ '"' :: (n ++ (b₁ ++ ':' :: (b₂ ++ (t ++ (b₃ ++ ['}']))))))
  | member {name : Option (List Char)} {j : Json} {ms : List (Option (List Char) × Json)}
      {b n b₁ b₂ t b₃ u : List Char} (hb : Blank b) (hn : IsString name n) (hb₁ : Blank b₁)
      (hb₂ : Blank b₂) (h : Written (.value j) t) (hb₃ : Blank b₃) (hs : Written (.members ms) u) :
      Written (.members ((name, j) :: ms))
        (b ++ '"' :: (n ++ (b₁ ++ ':' :: (b₂ ++ (t ++ (b₃ ++ ',' :: u))))))

/-- A text that is a value, with blanks around it. -/
def IsText (j : Json) (t : List Char) : Prop :=
  ∃ b u b', Blank b ∧ Written (.value j) u ∧ Blank b' ∧ t = b ++ (u ++ b')

variable {b b' t u rest : List Char} {c : Char} {j : Json} {js : List Json}
  {ms : List (Option (List Char) × Json)} {x : Form} {fuel : Nat}

/-! ## Blanks -/

theorem skipBlanks_append (hb : Blank b) (t : List Char) : skipBlanks (b ++ t) = skipBlanks t :=
  List.dropWhile_append_of_pos hb

theorem skipBlanks_cons (hc : isBlank c = false) (t : List Char) : skipBlanks (c :: t) = c :: t :=
  List.dropWhile_cons_of_neg (by simp [hc])

theorem skipBlanks_blank (hb : Blank b) : skipBlanks b = [] :=
  List.dropWhile_eq_nil_iff.2 hb

/-- What is passed over is blank. -/
theorem exists_blank (t : List Char) : ∃ b, Blank b ∧ t = b ++ skipBlanks t :=
  ⟨t.takeWhile isBlank, fun _ => List.mem_takeWhile_imp, List.takeWhile_append_dropWhile.symm⟩

theorem value?_append (hb : Blank b) (t : List Char) : value? fuel (b ++ t) = value? fuel t := by
  cases fuel with
  | zero => rfl
  | succ fuel => rw [value?, value?, skipBlanks_append hb]

theorem items?_append (hb : Blank b) (t : List Char) : items? fuel (b ++ t) = items? fuel t := by
  cases fuel with
  | zero => rfl
  | succ fuel => rw [items?, items?, value?_append hb]

theorem members?_append (hb : Blank b) (t : List Char) :
    members? fuel (b ++ t) = members? fuel t := by
  cases fuel with
  | zero => rfl
  | succ fuel => rw [members?, members?, skipBlanks_append hb]

/-! ## Reading what is written -/

/-- The reader takes this off the text `t` and leaves `rest`. -/
def Form.Read (fuel : Nat) (t rest : List Char) : Form → Prop
  | .value j => value? fuel t = some (j, rest)
  | .items js => items? fuel t = some (js, rest)
  | .members ms => members? fuel t = some (ms, rest)

/-- A number begins with a sign or a digit. -/
theorem IsNumber.head {n : Option Nat} (h : IsNumber n t) :
    ∃ c u, t = c :: u ∧ (c = '-' ∨ c.isDigit) := by
  have hwhole {ds : List Char} (hds : IsWhole ds) : ∃ c u, ds = c :: u ∧ c.isDigit := by
    rcases hds with rfl | ⟨⟨hne, hdigits⟩, -⟩
    · exact ⟨_, _, rfl, by decide⟩
    · obtain ⟨c, u, rfl⟩ := List.exists_cons_of_ne_nil hne
      exact ⟨c, u, rfl, hdigits c List.mem_cons_self⟩
  cases h with
  | natural hds =>
    obtain ⟨c, u, rfl, hc⟩ := hwhole hds
    exact ⟨c, u, rfl, .inr hc⟩
  | other hminus hds _ _ _ =>
    obtain ⟨c, u, rfl, hc⟩ := hwhole hds
    rcases hminus with rfl | rfl
    · exact ⟨c, _, rfl, .inr hc⟩
    · exact ⟨'-', _, rfl, .inl rfl⟩

theorem isBlank_of_number (hc : c = '-' ∨ c.isDigit) : isBlank c = false := by
  by_contra hb
  simp only [isBlank, Bool.not_eq_false, Bool.or_eq_true, beq_iff_eq] at hb
  rcases hb with ((rfl | rfl) | rfl) | rfl <;> exact absurd hc (by decide)

/-- A value begins with a character that is neither a blank nor a closing bracket. -/
theorem Written.head (h : Written (.value j) t) :
    ∃ c u, t = c :: u ∧ isBlank c = false ∧ c ≠ ']' := by
  cases h with
  | number h =>
    obtain ⟨c, u, rfl, hc⟩ := h.head
    refine ⟨c, u, rfl, isBlank_of_number hc, ?_⟩
    rintro rfl
    exact absurd hc (by decide)
  | _ => exact ⟨_, _, rfl, by decide, by decide⟩

/-- Items begin with a value. -/
theorem Written.head_items (h : Written (.items js) t) :
    ∃ b c u, t = b ++ c :: u ∧ Blank b ∧ isBlank c = false ∧ c ≠ ']' := by
  cases h with
  | lastItem hb h _ =>
    obtain ⟨c, u, rfl, hc⟩ := h.head
    exact ⟨_, c, _, rfl, hb, hc⟩
  | item hb h _ _ =>
    obtain ⟨c, u, rfl, hc⟩ := h.head
    exact ⟨_, c, _, rfl, hb, hc⟩

/-- Members begin with a name. -/
theorem Written.head_members (h : Written (.members ms) t) :
    ∃ b u, t = b ++ '"' :: u ∧ Blank b := by
  cases h with
  | lastMember hb _ _ _ _ _ => exact ⟨_, _, rfl, hb⟩
  | member hb _ _ _ _ _ _ => exact ⟨_, _, rfl, hb⟩

theorem endsNumber_cons (hc : isBlank c ∨ c = ',' ∨ c = ']' ∨ c = '}') (t : List Char) :
    EndsNumber (c :: t) := by
  rintro d ⟨⟩
  simp only [isBlank, Bool.or_eq_true, beq_iff_eq] at hc
  rcases hc with (((rfl | rfl) | rfl) | rfl) | rfl | rfl | rfl <;> decide

/-- Blanks, commas and closing brackets end a number. -/
theorem endsNumber_append (hb : Blank b) (hc : c = ',' ∨ c = ']' ∨ c = '}') (t : List Char) :
    EndsNumber (b ++ c :: t) := by
  cases b with
  | nil => exact endsNumber_cons (.inr hc) t
  | cons d b => exact endsNumber_cons (.inl (hb d List.mem_cons_self)) _

theorem endsNumber_blank (hb : Blank b) : EndsNumber b := by
  cases b with
  | nil => exact nofun
  | cons d b => exact endsNumber_cons (.inl (hb d List.mem_cons_self)) _

theorem value?_number (hc : c = '-' ∨ c.isDigit) :
    value? (fuel + 1) (c :: t) = (number? (c :: t)).map fun (n, rest) => (.number n, rest) := by
  have hne {d : Char} (hd : ¬(d = '-' ∨ d.isDigit)) : c ≠ d := fun h => hd (h ▸ hc)
  rw [value?, skipBlanks_cons (isBlank_of_number hc)]
  split
  case h_7 => rfl
  all_goals next h => exact absurd (List.cons.inj h).1 (hne (by decide))

theorem value?_array (hb : Blank b) (hc : isBlank c = false) (hne : c ≠ ']') :
    value? (fuel + 1) ('[' :: (b ++ c :: t)) =
      (items? fuel (b ++ c :: t)).map fun (items, rest) => (.array items, rest) := by
  rw [value?, skipBlanks_cons (by decide)]
  simp only [skipBlanks_append hb, skipBlanks_cons hc, items?_append hb]
  split
  · next h => exact absurd (List.cons.inj h).1 hne
  · rfl

theorem value?_object (hb : Blank b) :
    value? (fuel + 1) ('{' :: (b ++ '"' :: t)) =
      (members? fuel (b ++ '"' :: t)).map fun (members, rest) => (.object members, rest) := by
  rw [value?, skipBlanks_cons (by decide)]
  simp only [skipBlanks_append hb, skipBlanks_cons (c := '"') (by decide), members?_append hb]
  rfl

theorem exists_fuel (h : 2 * t.length ≤ fuel) (hne : t ≠ []) : ∃ k, fuel = k + 1 := by
  refine Nat.exists_eq_succ_of_ne_zero ?_
  have := List.length_pos_iff.2 hne
  omega

/-- What is written is read, with two of `fuel` for each character. -/
theorem Written.read (h : Written x t) (hfuel : 2 * t.length ≤ fuel) (hrest : EndsNumber rest) :
    x.Read fuel (t ++ rest) rest := by
  induction h generalizing fuel rest with
  | null =>
    obtain ⟨k, rfl⟩ := exists_fuel hfuel (by simp)
    rfl
  | isTrue =>
    obtain ⟨k, rfl⟩ := exists_fuel hfuel (by simp)
    rfl
  | isFalse =>
    obtain ⟨k, rfl⟩ := exists_fuel hfuel (by simp)
    rfl
  | number h =>
    obtain ⟨c, u, rfl, hc⟩ := h.head
    obtain ⟨k, rfl⟩ := exists_fuel hfuel (by simp)
    rw [Form.Read, List.cons_append, value?_number hc, ← List.cons_append,
      number?_of_isNumber h hrest]
    rfl
  | @string text t h =>
    obtain ⟨k, rfl⟩ := exists_fuel hfuel (by simp)
    rw [Form.Read, List.cons_append, value?, skipBlanks_cons (by decide)]
    simp only [h.read, Option.map_some]
  | @emptyArray b hb =>
    obtain ⟨k, rfl⟩ := exists_fuel hfuel (by simp)
    rw [Form.Read, List.cons_append, List.append_assoc, List.singleton_append, value?,
      skipBlanks_cons (by decide)]
    simp only [skipBlanks_append hb, skipBlanks_cons (c := ']') (by decide)]
  | @array js t h ih =>
    obtain ⟨k, rfl⟩ := exists_fuel hfuel (by simp)
    have hlength : 2 * t.length ≤ k := by simp at hfuel; omega
    have hitems := ih hlength hrest
    obtain ⟨b, c, u, rfl, hb, hc, hne⟩ := h.head_items
    rw [Form.Read, List.append_assoc, List.cons_append] at hitems
    rw [Form.Read, List.cons_append, List.append_assoc, List.cons_append, value?_array hb hc hne,
      hitems]
    rfl
  | @emptyObject b hb =>
    obtain ⟨k, rfl⟩ := exists_fuel hfuel (by simp)
    rw [Form.Read, List.cons_append, List.append_assoc, List.singleton_append, value?,
      skipBlanks_cons (by decide)]
    simp only [skipBlanks_append hb, skipBlanks_cons (c := '}') (by decide)]
  | @object ms t h ih =>
    obtain ⟨k, rfl⟩ := exists_fuel hfuel (by simp)
    have hlength : 2 * t.length ≤ k := by simp at hfuel; omega
    have hmembers := ih hlength hrest
    obtain ⟨b, u, rfl, hb⟩ := h.head_members
    rw [Form.Read, List.append_assoc, List.cons_append] at hmembers
    rw [Form.Read, List.cons_append, List.append_assoc, List.cons_append, value?_object hb,
      hmembers]
    rfl
  | @lastItem j b t b' hb h hb' ih =>
    obtain ⟨k, rfl⟩ := exists_fuel hfuel (by simp)
    have hvalue : value? k (t ++ (b' ++ ']' :: rest)) = some (j, b' ++ ']' :: rest) :=
      ih (by simp at hfuel; omega) (endsNumber_append hb' (by decide) rest)
    simp only [List.append_assoc, List.singleton_append, Form.Read]
    rw [items?_append hb, items?, hvalue]
    simp only [Option.bind_eq_bind, Option.bind_some, skipBlanks_append hb',
      skipBlanks_cons (c := ']') (by decide), Option.pure_def]
  | @item j js b t b' u hb h hb' hs ih ihs =>
    obtain ⟨k, rfl⟩ := exists_fuel hfuel (by simp)
    have hvalue : value? k (t ++ (b' ++ ',' :: (u ++ rest))) = some (j, b' ++ ',' :: (u ++ rest)) :=
      ih (by simp at hfuel; omega) (endsNumber_append hb' (by decide) _)
    have hitems : items? k (u ++ rest) = some (js, rest) := ihs (by simp at hfuel; omega) hrest
    simp only [List.append_assoc, List.cons_append, Form.Read]
    rw [items?_append hb, items?, hvalue]
    simp only [Option.bind_eq_bind, Option.bind_some, skipBlanks_append hb',
      skipBlanks_cons (c := ',') (by decide), hitems, Option.pure_def]
  | @lastMember name j b n b₁ b₂ t b₃ hb hn hb₁ hb₂ h hb₃ ih =>
    obtain ⟨k, rfl⟩ := exists_fuel hfuel (by simp)
    have hvalue : value? k (t ++ (b₃ ++ '}' :: rest)) = some (j, b₃ ++ '}' :: rest) :=
      ih (by simp at hfuel; omega) (endsNumber_append hb₃ (by decide) rest)
    simp only [List.append_assoc, List.cons_append, List.nil_append, Form.Read]
    rw [members?_append hb, members?, skipBlanks_cons (by decide)]
    simp only [hn.read, Option.bind_eq_bind, Option.bind_some, skipBlanks_append hb₁,
      skipBlanks_cons (c := ':') (by decide), value?_append hb₂, hvalue, skipBlanks_append hb₃,
      skipBlanks_cons (c := '}') (by decide), Option.pure_def]
  | @member name j ms b n b₁ b₂ t b₃ u hb hn hb₁ hb₂ h hb₃ hs ih ihs =>
    obtain ⟨k, rfl⟩ := exists_fuel hfuel (by simp)
    have hvalue : value? k (t ++ (b₃ ++ ',' :: (u ++ rest))) = some (j, b₃ ++ ',' :: (u ++ rest)) :=
      ih (by simp at hfuel; omega) (endsNumber_append hb₃ (by decide) _)
    have hmembers : members? k (u ++ rest) = some (ms, rest) := ihs (by simp at hfuel; omega) hrest
    simp only [List.append_assoc, List.cons_append, Form.Read]
    rw [members?_append hb, members?, skipBlanks_cons (by decide)]
    simp only [hn.read, Option.bind_eq_bind, Option.bind_some, skipBlanks_append hb₁,
      skipBlanks_cons (c := ':') (by decide), value?_append hb₂, hvalue, skipBlanks_append hb₃,
      skipBlanks_cons (c := ',') (by decide), hmembers, Option.pure_def]

/-! ## Nothing else is read -/

theorem Blank.append (hb : Blank b) (hb' : Blank b') : Blank (b ++ b') :=
  List.forall_mem_append.2 ⟨hb, hb'⟩

theorem Written.items_append (hb : Blank b) (h : Written (.items js) t) :
    Written (.items js) (b ++ t) := by
  cases h with
  | lastItem hb₁ h hb₂ =>
    rw [← List.append_assoc]
    exact .lastItem (hb.append hb₁) h hb₂
  | item hb₁ h hb₂ hs =>
    rw [← List.append_assoc]
    exact .item (hb.append hb₁) h hb₂ hs

theorem Written.members_append (hb : Blank b) (h : Written (.members ms) t) :
    Written (.members ms) (b ++ t) := by
  cases h with
  | lastMember hb₁ hn hb₂ hb₃ h hb₄ =>
    rw [← List.append_assoc]
    exact .lastMember (hb.append hb₁) hn hb₂ hb₃ h hb₄
  | member hb₁ hn hb₂ hb₃ h hb₄ hs =>
    rw [← List.append_assoc]
    exact .member (hb.append hb₁) hn hb₂ hb₃ h hb₄ hs

/-- With this fuel, only what is written is read, perhaps behind blanks. -/
def ReadsWritten (fuel : Nat) : Prop := ∀ (x : Form) (t rest : List Char), x.Read fuel t rest →
  ∃ b u, Blank b ∧ Written x u ∧ t = b ++ (u ++ rest)

theorem ReadsWritten.value (hr : ReadsWritten fuel) (h : value? (fuel + 1) t = some (j, rest)) :
    ∃ b u, Blank b ∧ Written (.value j) u ∧ t = b ++ (u ++ rest) := by
  obtain ⟨b, hb, ht⟩ := exists_blank t
  suffices ∃ u, Written (.value j) u ∧ skipBlanks t = u ++ rest by
    obtain ⟨u, hu, hskip⟩ := this
    exact ⟨b, u, hb, hu, hskip ▸ ht⟩
  rw [value?] at h
  split at h
  · next hskip =>
    cases h
    exact ⟨_, .null, hskip⟩
  · next hskip =>
    cases h
    exact ⟨_, .isTrue, hskip⟩
  · next hskip =>
    cases h
    exact ⟨_, .isFalse, hskip⟩
  · next hskip =>
    obtain ⟨⟨text, r⟩, hstring, ⟨⟩⟩ := Option.map_eq_some_iff.1 h
    obtain ⟨u, hu, rfl⟩ := string?_eq_some_iff.1 hstring
    exact ⟨_, .string hu, hskip⟩
  · next t₁ hskip =>
    obtain ⟨b₁, hb₁, ht₁⟩ := exists_blank t₁
    split at h
    · next hclose =>
      cases h
      refine ⟨_, .emptyArray hb₁, ?_⟩
      rw [hskip, ht₁, hclose]
      simp
    · obtain ⟨⟨js, r⟩, hitems, ⟨⟩⟩ := Option.map_eq_some_iff.1 h
      obtain ⟨b₂, u, hb₂, hu, hrest⟩ := hr (.items js) _ _ hitems
      refine ⟨_, .array ((hu.items_append hb₂).items_append hb₁), ?_⟩
      rw [hskip, ht₁, hrest]
      simp
  · next t₁ hskip =>
    obtain ⟨b₁, hb₁, ht₁⟩ := exists_blank t₁
    split at h
    · next hclose =>
      cases h
      refine ⟨_, .emptyObject hb₁, ?_⟩
      rw [hskip, ht₁, hclose]
      simp
    · obtain ⟨⟨ms, r⟩, hmembers, ⟨⟩⟩ := Option.map_eq_some_iff.1 h
      obtain ⟨b₂, u, hb₂, hu, hrest⟩ := hr (.members ms) _ _ hmembers
      refine ⟨_, .object ((hu.members_append hb₂).members_append hb₁), ?_⟩
      rw [hskip, ht₁, hrest]
      simp
  · obtain ⟨⟨n, r⟩, hnumber, ⟨⟩⟩ := Option.map_eq_some_iff.1 h
    obtain ⟨u, hu, hrest⟩ := isNumber_of_number? hnumber
    exact ⟨u, .number hu, hrest⟩

theorem ReadsWritten.items (hr : ReadsWritten fuel) (h : items? (fuel + 1) t = some (js, rest)) :
    ∃ b u, Blank b ∧ Written (.items js) u ∧ t = b ++ (u ++ rest) := by
  simp only [items?, Option.bind_eq_bind, Option.bind_eq_some_iff] at h
  obtain ⟨⟨j, t₁⟩, hvalue, h⟩ := h
  obtain ⟨b, u, hb, hu, rfl⟩ := hr (.value j) _ _ hvalue
  obtain ⟨b₁, hb₁, ht₁⟩ := exists_blank t₁
  simp only at h
  split at h
  · next hcomma =>
    simp only [Option.bind_eq_some_iff] at h
    obtain ⟨⟨js', r⟩, hitems, ⟨⟩⟩ := h
    obtain ⟨b₂, v, hb₂, hv, rfl⟩ := hr (.items js') _ _ hitems
    refine ⟨[], _, nofun, .item hb hu hb₁ (hv.items_append hb₂), ?_⟩
    rw [ht₁, hcomma]
    simp
  · next hclose =>
    cases h
    refine ⟨[], _, nofun, .lastItem hb hu hb₁, ?_⟩
    rw [ht₁, hclose]
    simp
  · cases h

theorem ReadsWritten.members (hr : ReadsWritten fuel)
    (h : members? (fuel + 1) t = some (ms, rest)) :
    ∃ b u, Blank b ∧ Written (.members ms) u ∧ t = b ++ (u ++ rest) := by
  obtain ⟨b, hb, ht⟩ := exists_blank t
  rw [members?] at h
  split at h
  · next t₁ hquote =>
    simp only [Option.bind_eq_bind, Option.bind_eq_some_iff] at h
    obtain ⟨⟨name, t₂⟩, hname, h⟩ := h
    obtain ⟨n, hn, rfl⟩ := string?_eq_some_iff.1 hname
    obtain ⟨b₁, hb₁, ht₂⟩ := exists_blank t₂
    simp only at h
    split at h
    · next t₃ hcolon =>
      simp only [Option.bind_eq_some_iff] at h
      obtain ⟨⟨j, t₄⟩, hvalue, h⟩ := h
      obtain ⟨b₂, u, hb₂, hu, rfl⟩ := hr (.value j) _ _ hvalue
      obtain ⟨b₃, hb₃, ht₄⟩ := exists_blank t₄
      simp only at h
      split at h
      · next hcomma =>
        simp only [Option.bind_eq_some_iff] at h
        obtain ⟨⟨ms', r⟩, hmembers, ⟨⟩⟩ := h
        obtain ⟨b₄, v, hb₄, hv, rfl⟩ := hr (.members ms') _ _ hmembers
        refine ⟨[], _, nofun, .member hb hn hb₁ hb₂ hu hb₃ (hv.members_append hb₄), ?_⟩
        rw [ht, hquote, ht₂, hcolon, ht₄, hcomma]
        simp
      · next hclose =>
        cases h
        refine ⟨[], _, nofun, .lastMember hb hn hb₁ hb₂ hu hb₃, ?_⟩
        rw [ht, hquote, ht₂, hcolon, ht₄, hclose]
        simp
      · cases h
    · cases h
  · cases h

theorem readsWritten (fuel : Nat) : ReadsWritten fuel := by
  induction fuel with
  | zero =>
    intro x t rest h
    cases x <;> cases h
  | succ fuel ih =>
    intro x t rest h
    cases x with
    | value j => exact ih.value h
    | items js => exact ih.items h
    | members ms => exact ih.members h

/-- A text is read exactly if it is a way to write a value, and as that value. -/
theorem ofText?_eq_some_iff : ofText? t = some j ↔ IsText j t := by
  unfold ofText?
  simp only [Option.bind_eq_bind, Option.bind_eq_some_iff]
  constructor
  · rintro ⟨⟨j', r⟩, hread, _, hend, ⟨⟩⟩
    obtain ⟨b, u, hb, hu, rfl⟩ := readsWritten _ (.value j') _ _ hread
    have hblank : skipBlanks r = [] := (Option.guard_eq_some' _).1 hend
    exact ⟨b, u, r, hb, hu, List.dropWhile_eq_nil_iff.1 hblank, rfl⟩
  · rintro ⟨b, u, b', hb, hu, hb', rfl⟩
    have hread : value? (2 * (b ++ (u ++ b')).length + 1) (u ++ b') = some (j, b') :=
      hu.read (by simp; omega) (endsNumber_blank hb')
    refine ⟨(j, b'), (value?_append hb _).trans hread, (), ?_, rfl⟩
    rw [skipBlanks_blank hb']
    rfl

end Descent.Json
