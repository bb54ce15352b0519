import Mathlib.Data.List.TakeWhile
import Descent.Json.Basic
import Descent.Text.Decimal

/-!
# Numbers in JSON

A number is a whole number, perhaps with a sign in front of it and a fraction and an exponent behind
it (`Json.IsNumber`). It keeps its value if it has none of these. Main statement: a number is read
as it is written, if what follows could not be part of it (`Json.number?_of_isNumber`,
`Json.isNumber_of_number?`).
-/

namespace Descent.Json

/-- One digit or more. -/
def IsDigits (ds : List Char) : Prop := ds ≠ [] ∧ ∀ c ∈ ds, c.isDigit

/-- Digits of which the first is no zero, or a zero alone. -/
def IsWhole (ds : List Char) : Prop := ds = ['0'] ∨ (IsDigits ds ∧ ds.head? ≠ some '0')

/-- A point with digits, or nothing. -/
def IsFraction (t : List Char) : Prop := t = [] ∨ ∃ ds, IsDigits ds ∧ t = '.' :: ds

/-- A sign of an exponent, or nothing. -/
def IsSign (t : List Char) : Prop := t = [] ∨ t = ['+'] ∨ t = ['-']

/-- A letter with digits, perhaps with a sign in front of them, or nothing. -/
def IsExponent (t : List Char) : Prop :=
  t = [] ∨ ∃ e sign ds, (e = 'e' ∨ e = 'E') ∧ IsSign sign ∧ IsDigits ds ∧ t = e :: (sign ++ ds)

/-- How a number may be written, with its value if only digits are. -/
inductive IsNumber : Option Nat → List Char → Prop where
  | natural {ds : List Char} (h : IsWhole ds) : IsNumber (some (Nat.ofDigitChars 10 ds 0)) ds
  | other {minus ds f x : List Char} (hminus : minus = [] ∨ minus = ['-']) (h : IsWhole ds)
      (hf : IsFraction f) (hx : IsExponent x) (hother : minus ++ f ++ x ≠ []) :
      IsNumber none (minus ++ (ds ++ (f ++ x)))

/-- Where this text follows, a number has come to its end. -/
def EndsNumber (t : List Char) : Prop :=
  ∀ c ∈ t.head?, ¬c.isDigit ∧ c ≠ '.' ∧ c ≠ 'e' ∧ c ≠ 'E'

variable {ds t t' f x rest : List Char} {n : Option Nat}

/-! ## Parts of a number -/

theorem takeWhile_digits (h : ∀ c ∈ ds, c.isDigit) (ht : ∀ c ∈ t.head?, ¬c.isDigit) :
    (ds ++ t).takeWhile Char.isDigit = ds ∧ (ds ++ t).dropWhile Char.isDigit = t := by
  rw [List.takeWhile_append_of_pos h, List.dropWhile_append_of_pos h]
  cases t with
  | nil => simp
  | cons c t =>
    have hc : ¬c.isDigit := ht c rfl
    simp [hc]

theorem digits?_of_isDigits (h : IsDigits ds) (ht : ∀ c ∈ t.head?, ¬c.isDigit) :
    digits? (ds ++ t) = some (ds, t) := by
  obtain ⟨htake, hdrop⟩ := takeWhile_digits h.2 ht
  unfold digits?
  rw [htake, hdrop]
  cases ds with
  | nil => exact absurd rfl h.1
  | cons c ds => rfl

theorem isDigits_of_digits? (h : digits? t = some (ds, rest)) : IsDigits ds ∧ t = ds ++ rest := by
  unfold digits? at h
  split at h
  · cases h
  · next hne =>
    cases h
    exact ⟨⟨hne, fun c hc => List.mem_takeWhile_imp hc⟩, List.takeWhile_append_dropWhile.symm⟩

theorem whole?_of_isWhole (h : IsWhole ds) (ht : ∀ c ∈ t.head?, ¬c.isDigit) :
    whole? (ds ++ t) = some (ds, t) := by
  rcases h with rfl | ⟨hds, hzero⟩
  · rfl
  · cases ds with
    | nil => exact absurd rfl hds.1
    | cons c ds =>
      have hc : c ≠ '0' := fun hc => hzero (congrArg some hc)
      rw [List.cons_append, whole?, ← List.cons_append, digits?_of_isDigits hds ht]
      exact fun _ h => absurd (List.cons.inj h).1 hc

theorem isWhole_of_whole? (h : whole? t = some (ds, rest)) : IsWhole ds ∧ t = ds ++ rest := by
  unfold whole? at h
  split at h
  · cases h
    exact ⟨.inl rfl, rfl⟩
  · next hzero =>
    obtain ⟨hds, rfl⟩ := isDigits_of_digits? h
    refine ⟨.inr ⟨hds, fun hhead => ?_⟩, rfl⟩
    obtain ⟨ds', rfl⟩ := List.head?_eq_some_iff.1 hhead
    exact hzero _ rfl

theorem afterFraction?_of_isFraction (h : IsFraction f) (hdigit : ∀ c ∈ t.head?, ¬c.isDigit)
    (hpoint : t.head? ≠ some '.') : afterFraction? (f ++ t) = some t := by
  rcases h with rfl | ⟨ds, hds, rfl⟩
  · rw [List.nil_append, afterFraction?]
    rintro t' rfl
    exact hpoint rfl
  · rw [List.cons_append, afterFraction?, digits?_of_isDigits hds hdigit]
    rfl

theorem isFraction_of_afterFraction? (h : afterFraction? t = some rest) :
    ∃ f, IsFraction f ∧ t = f ++ rest ∧ (f = [] → t.head? ≠ some '.') := by
  unfold afterFraction? at h
  split at h
  · obtain ⟨⟨ds, r⟩, hds, rfl⟩ := Option.map_eq_some_iff.1 h
    obtain ⟨hdigits, rfl⟩ := isDigits_of_digits? hds
    exact ⟨'.' :: ds, .inr ⟨ds, hdigits, rfl⟩, rfl, nofun⟩
  · next hpoint =>
    cases h
    refine ⟨[], .inl rfl, rfl, fun _ hhead => ?_⟩
    obtain ⟨t', rfl⟩ := List.head?_eq_some_iff.1 hhead
    exact hpoint _ rfl

theorem afterSign_of_isSign {sign : List Char} (h : IsSign sign) (hds : IsDigits ds) :
    afterSign (sign ++ (ds ++ t)) = ds ++ t := by
  rcases h with rfl | rfl | rfl
  · cases ds with
    | nil => exact absurd rfl hds.1
    | cons c ds =>
      have hc : c.isDigit := hds.2 c List.mem_cons_self
      rw [List.nil_append, List.cons_append, afterSign]
      · rintro t' ⟨⟩
        exact absurd hc (by decide)
      · rintro t' ⟨⟩
        exact absurd hc (by decide)
  · rfl
  · rfl

theorem isSign_of_afterSign (t : List Char) : ∃ sign, IsSign sign ∧ t = sign ++ afterSign t := by
  unfold afterSign
  split
  · exact ⟨['+'], .inr (.inl rfl), rfl⟩
  · exact ⟨['-'], .inr (.inr rfl), rfl⟩
  · exact ⟨[], .inl rfl, rfl⟩

theorem afterExponent?_of_isExponent (h : IsExponent x) (hdigit : ∀ c ∈ t.head?, ¬c.isDigit)
    (hletter : t.head? ≠ some 'e' ∧ t.head? ≠ some 'E') : afterExponent? (x ++ t) = some t := by
  rcases h with rfl | ⟨e, sign, ds, he, hsign, hds, rfl⟩
  · rw [List.nil_append, afterExponent?]
    · rintro t' rfl
      exact hletter.1 rfl
    · rintro t' rfl
      exact hletter.2 rfl
  · have hdigits : digits? (afterSign (sign ++ (ds ++ t))) = some (ds, t) := by
      rw [afterSign_of_isSign hsign hds, digits?_of_isDigits hds hdigit]
    rw [List.cons_append, List.append_assoc]
    rcases he with rfl | rfl <;> rw [afterExponent?, hdigits] <;> rfl

theorem isExponent_of_afterExponent? (h : afterExponent? t = some rest) :
    ∃ x, IsExponent x ∧ t = x ++ rest ∧ (x = [] → t.head? ≠ some 'e' ∧ t.head? ≠ some 'E') := by
  have hread {e : Char} {t : List Char} (he : e = 'e' ∨ e = 'E')
      (h : (digits? (afterSign t)).map Prod.snd = some rest) :
      ∃ x, IsExponent x ∧ e :: t = x ++ rest ∧ x ≠ [] := by
    obtain ⟨⟨ds, r⟩, hds, rfl⟩ := Option.map_eq_some_iff.1 h
    obtain ⟨hds, hafter⟩ := isDigits_of_digits? hds
    obtain ⟨sign, hsign, ht⟩ := isSign_of_afterSign t
    refine ⟨e :: (sign ++ ds), .inr ⟨e, sign, ds, he, hsign, hds, rfl⟩, ?_, nofun⟩
    rw [ht, hafter, List.cons_append, List.append_assoc]
  unfold afterExponent? at h
  split at h
  · obtain ⟨x, hx, ht, hne⟩ := hread (.inl rfl) h
    exact ⟨x, hx, ht, fun hnil => absurd hnil hne⟩
  · obtain ⟨x, hx, ht, hne⟩ := hread (.inr rfl) h
    exact ⟨x, hx, ht, fun hnil => absurd hnil hne⟩
  · next hlower hupper =>
    cases h
    refine ⟨[], .inl rfl, rfl, fun _ => ⟨fun hhead => ?_, fun hhead => ?_⟩⟩
    · obtain ⟨t', rfl⟩ := List.head?_eq_some_iff.1 hhead
      exact hlower _ rfl
    · obtain ⟨t', rfl⟩ := List.head?_eq_some_iff.1 hhead
      exact hupper _ rfl

/-! ## Numbers as a whole -/

theorem goesOn_iff : goesOn t = true ↔
    t.head? = some '.' ∨ t.head? = some 'e' ∨ t.head? = some 'E' := by
  cases t <;> simp [goesOn, or_assoc]

theorem EndsNumber.not_goesOn (h : EndsNumber rest) : ¬goesOn rest = true := by
  rw [goesOn_iff]
  rintro (hc | hc | hc)
  · exact (h _ hc).2.1 rfl
  · exact (h _ hc).2.2.1 rfl
  · exact (h _ hc).2.2.2 rfl

/-- Behind digits, a number goes on exactly if it has a fraction or an exponent. -/
theorem goesOn_append (hf : IsFraction f) (hx : IsExponent x)
    (hrest : f ++ x = [] → ¬goesOn rest = true) :
    goesOn (f ++ (x ++ rest)) = true ↔ f ++ x ≠ [] := by
  rcases hf with rfl | ⟨ds, -, rfl⟩
  · rcases hx with rfl | ⟨e, sign, ds, he, -, -, rfl⟩
    · exact iff_of_false (hrest rfl) (absurd rfl)
    · refine iff_of_true (goesOn_iff.2 (.inr ?_)) nofun
      exact he.imp (congrArg some) (congrArg some)
  · exact iff_of_true (goesOn_iff.2 (.inl rfl)) nofun

theorem unsigned?_of_parts (hds : IsWhole ds) (hf : IsFraction f) (hx : IsExponent x)
    (hrest : EndsNumber rest) : unsigned? (ds ++ (f ++ (x ++ rest))) =
      some (if f ++ x = [] then some (Nat.ofDigitChars 10 ds 0) else none, rest) := by
  have hexponent : ∀ c ∈ (x ++ rest).head?, ¬c.isDigit ∧ c ≠ '.' := by
    rcases hx with rfl | ⟨e, sign, ds, rfl | rfl, -, -, rfl⟩
    · exact fun c hc => ⟨(hrest c hc).1, (hrest c hc).2.1⟩
    · rintro c ⟨⟩
      decide
    · rintro c ⟨⟩
      decide
  have hfraction : ∀ c ∈ (f ++ (x ++ rest)).head?, ¬c.isDigit := by
    rcases hf with rfl | ⟨ds, -, rfl⟩
    · exact fun c hc => (hexponent c hc).1
    · rintro c ⟨⟩
      decide
  have hwhole := whole?_of_isWhole hds hfraction
  have hafter := afterFraction?_of_isFraction hf (fun c hc => (hexponent c hc).1)
    fun hc => (hexponent _ hc).2 rfl
  have hend := afterExponent?_of_isExponent hx (fun c hc => (hrest c hc).1)
    ⟨fun hc => (hrest _ hc).2.2.1 rfl, fun hc => (hrest _ hc).2.2.2 rfl⟩
  simp only [unsigned?, hwhole, hafter, hend, Option.bind_eq_bind, Option.bind_some,
    Option.pure_def, goesOn_append hf hx fun _ => hrest.not_goesOn, ite_not]

theorem parts_of_unsigned? (h : unsigned? t = some (n, rest)) :
    ∃ ds f x, IsWhole ds ∧ IsFraction f ∧ IsExponent x ∧ t = ds ++ (f ++ (x ++ rest)) ∧
      n = if f ++ x = [] then some (Nat.ofDigitChars 10 ds 0) else none := by
  simp only [unsigned?, Option.bind_eq_bind, Option.bind_eq_some_iff, Option.pure_def] at h
  obtain ⟨⟨ds, t₁⟩, hwhole, t₂, hfraction, t₃, hexponent, heq⟩ := h
  obtain ⟨hds, rfl⟩ := isWhole_of_whole? hwhole
  obtain ⟨f, hf, hsplit, hpoint⟩ := isFraction_of_afterFraction? hfraction
  obtain ⟨x, hx, rfl, hletter⟩ := isExponent_of_afterExponent? hexponent
  simp only at hsplit hpoint heq
  subst hsplit
  cases heq
  refine ⟨ds, f, x, hds, hf, hx, rfl, ?_⟩
  have hrest : f ++ x = [] → ¬goesOn rest = true := by
    intro hnil
    obtain ⟨rfl, rfl⟩ := List.append_eq_nil_iff.1 hnil
    rw [goesOn_iff]
    exact not_or.2 ⟨hpoint rfl, not_or.2 (hletter rfl)⟩
  simp only [goesOn_append hf hx hrest, ite_not]

theorem number?_of_unsigned (hds : IsWhole ds) (t : List Char) :
    number? (ds ++ t) = unsigned? (ds ++ t) := by
  unfold number?
  split
  · next t' h =>
    rcases hds with rfl | ⟨hdigits, -⟩
    · cases h
    · cases ds with
      | nil => exact absurd rfl hdigits.1
      | cons c ds =>
        cases h
        exact absurd (hdigits.2 _ List.mem_cons_self) (by decide)
  · rfl

/-- A number is read as it is written. -/
theorem number?_of_isNumber (h : IsNumber n t) (hrest : EndsNumber rest) :
    number? (t ++ rest) = some (n, rest) := by
  cases h with
  | natural hds =>
    rw [number?_of_unsigned hds]
    exact unsigned?_of_parts (f := []) (x := []) hds (.inl rfl) (.inl rfl) hrest
  | @other minus ds f x hminus hds hf hx hother =>
    have hparts := unsigned?_of_parts hds hf hx hrest
    rcases hminus with rfl | rfl
    · rw [List.nil_append, List.append_assoc, List.append_assoc, number?_of_unsigned hds, hparts,
        if_neg (by simpa using hother)]
    · rw [List.append_assoc, List.append_assoc, List.append_assoc, List.singleton_append, number?,
        hparts]
      rfl

/-- What is read as a number is written as it. -/
theorem isNumber_of_number? (h : number? t = some (n, rest)) :
    ∃ u, IsNumber n u ∧ t = u ++ rest := by
  unfold number? at h
  split at h
  · obtain ⟨⟨m, r⟩, hm, ⟨⟩⟩ := Option.map_eq_some_iff.1 h
    obtain ⟨ds, f, x, hds, hf, hx, rfl, -⟩ := parts_of_unsigned? hm
    exact ⟨['-'] ++ (ds ++ (f ++ x)), .other (.inr rfl) hds hf hx nofun, by simp⟩
  · obtain ⟨ds, f, x, hds, hf, hx, rfl, rfl⟩ := parts_of_unsigned? h
    by_cases hnil : f ++ x = []
    · obtain ⟨rfl, rfl⟩ := List.append_eq_nil_iff.1 hnil
      exact ⟨ds, .natural hds, rfl⟩
    · rw [if_neg hnil]
      exact ⟨[] ++ (ds ++ (f ++ x)), .other (.inl rfl) hds hf hx hnil, by simp⟩

/-! ## Numerals -/

theorem head_ofNat {n : Nat} (h : 0 < n) : (Text.Decimal.ofNat n).head? ≠ some '0' := by
  unfold Text.Decimal.ofNat
  induction n using Nat.strongRecOn with
  | ind n ih =>
    rcases Nat.lt_or_ge n 10 with hlt | hge
    · rw [Nat.toDigits_of_lt_base hlt, List.head?_cons]
      intro hzero
      have hchar : n.digitChar.toNat = '0'.toNat := congrArg Char.toNat (Option.some.inj hzero)
      rw [Nat.toNat_digitChar_of_lt_ten hlt, show '0'.toNat = 48 from rfl] at hchar
      omega
    · have hfront := ih (n / 10) (by omega) (by omega)
      obtain ⟨c, ds, hds⟩ := List.exists_cons_of_ne_nil
        (Nat.toDigits_ne_nil (b := 10) (n := n / 10))
      rw [hds] at hfront
      rw [Nat.toDigits_of_base_le (by decide) hge, hds]
      exact hfront

/-- A numeral is a number, with its value. -/
theorem isNumber_ofNat (n : Nat) : IsNumber (some n) (Text.Decimal.ofNat n) := by
  have hwhole : IsWhole (Text.Decimal.ofNat n) := by
    rcases Nat.eq_zero_or_pos n with rfl | hpos
    · exact .inl rfl
    · exact .inr ⟨⟨Text.Decimal.ofNat_ne_nil n, fun _ => Text.Decimal.isDigit_of_mem_ofNat⟩,
        head_ofNat hpos⟩
  have hvalue : Nat.ofDigitChars 10 (Text.Decimal.ofNat n) 0 = n :=
    Nat.ofDigitChars_toDigits (by decide) (by decide)
  have hnumber := IsNumber.natural hwhole
  rwa [hvalue] at hnumber

end Descent.Json
