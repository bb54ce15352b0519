import Mathlib.Data.List.Basic
import Mathlib.Data.Option.Basic
import Descent.Json.Basic

/-!
# Strings in JSON and the texts they stand for

What stands between the quotes of a string is a sequence of parts (`Json.Spelled`), each of them a
character or a code unit of UTF-16. A string stands for the text that has its code units
(`Json.StandsFor`), and for none if that is the text of no sequence of characters: if it has half of
a surrogate pair. Main statement: a string is read as what it stands for
(`Json.string?_eq_some_iff`).
-/

namespace Descent.Json

/-! ## Code units -/

/-- The code units of a character in UTF-16. -/
def units (c : Char) : List Nat :=
  if c.toNat < 0x10000 then [c.toNat]
  else [0xD800 + (c.toNat - 0x10000) / 0x400, 0xDC00 + (c.toNat - 0x10000) % 0x400]

/-- The code units of a part of a string. -/
def Piece.units : Piece → List Nat
  | .char c => Json.units c
  | .unit n => [n]

/-- A string of these parts stands for the text, if there is one, that has the same code units. -/
def StandsFor (ps : List Piece) (text : Option (List Char)) : Prop :=
  ∀ cs, text = some cs ↔ ps.flatMap Piece.units = cs.flatMap units

variable {c d : Char} {m n : Nat} {l l' : List Nat} {cs t w rest : List Char} {ps : List Piece}
  {p : Piece} {text : Option (List Char)}

theorem toNat_ofNat (h : n.isValidChar) : (Char.ofNat n).toNat = n := by
  rw [Char.ofNat, dif_pos h]
  rfl

/-- A character has one code unit that is no surrogate, or two that are a surrogate pair. -/
theorem units_cases (c : Char) :
    (∃ n, units c = [n] ∧ ¬IsHighSurrogate n ∧ ¬IsLowSurrogate n) ∨
      ∃ n m, units c = [n, m] ∧ IsHighSurrogate n ∧ IsLowSurrogate m := by
  have hvalid : c.toNat < 0xD800 ∨ (0xDFFF < c.toNat ∧ c.toNat < 0x110000) := c.valid
  unfold units IsHighSurrogate IsLowSurrogate
  split
  · exact .inl ⟨_, rfl, by omega, by omega⟩
  · exact .inr ⟨_, _, rfl, by omega, by omega⟩

/-- What follows the code units of a character does not change which character it is. -/
theorem units_append_inj (h : units c ++ l = units d ++ l') : c = d ∧ l = l' := by
  have hc : c.toNat < 0xD800 ∨ (0xDFFF < c.toNat ∧ c.toNat < 0x110000) := c.valid
  have hd : d.toNat < 0xD800 ∨ (0xDFFF < d.toNat ∧ d.toNat < 0x110000) := d.valid
  unfold units at h
  split at h <;> split at h <;> simp only [List.cons_append, List.nil_append, List.cons.injEq] at h
  · exact ⟨Char.toNat_inj.1 h.1, h.2⟩
  · omega
  · omega
  · exact ⟨Char.toNat_inj.1 (by omega), h.2.2⟩

/-- A code unit that is no surrogate stands for a character. -/
theorem units_ofNat (hn : n < 0x10000) (hhigh : ¬IsHighSurrogate n) (hlow : ¬IsLowSurrogate n) :
    units (Char.ofNat n) = [n] := by
  have hvalid : n.isValidChar := by
    unfold IsHighSurrogate IsLowSurrogate at *
    unfold Nat.isValidChar
    omega
  rw [units, toNat_ofNat hvalid, if_pos hn]

/-- A surrogate pair stands for a character. -/
theorem units_pair (hn : IsHighSurrogate n) (hm : IsLowSurrogate m) :
    units (Char.ofNat (0x10000 + (n - 0xD800) * 0x400 + (m - 0xDC00))) = [n, m] := by
  unfold IsHighSurrogate IsLowSurrogate at *
  generalize hc : 0x10000 + (n - 0xD800) * 0x400 + (m - 0xDC00) = c
  have hvalid : c.isValidChar := .inr (by omega)
  have hhigh : 0xD800 + (c - 0x10000) / 0x400 = n := by omega
  have hlow : 0xDC00 + (c - 0x10000) % 0x400 = m := by omega
  rw [units, toNat_ofNat hvalid, if_neg (by omega), hhigh, hlow]

/-- A text that begins with the code units of a character begins with that character. -/
theorem units_append_eq_flatMap :
    units c ++ l = cs.flatMap units ↔ ∃ ds, ds.flatMap units = l ∧ cs = c :: ds := by
  constructor
  · intro h
    cases cs with
    | nil =>
      rcases units_cases c with ⟨n, hn, -⟩ | ⟨n, m, hn, -⟩ <;> simp [hn] at h
    | cons d cs =>
      rw [List.flatMap_cons] at h
      obtain ⟨rfl, rfl⟩ := units_append_inj h
      exact ⟨cs, rfl, rfl⟩
  · rintro ⟨ds, rfl, rfl⟩
    rw [List.flatMap_cons]

/-- A character does not begin with the second half of a surrogate pair. -/
theorem not_isLowSurrogate_of_units (h : units c ++ l = n :: l') : ¬IsLowSurrogate n := by
  rcases units_cases c with ⟨k, hk, -, hlow⟩ | ⟨k, m, hk, hhigh, -⟩
  · rw [hk] at h
    cases h
    exact hlow
  · rw [hk] at h
    cases h
    unfold IsHighSurrogate IsLowSurrogate at *
    omega

/-- In a text, a surrogate is one of a pair. -/
theorem surrogate_of_flatMap (h : n :: l = cs.flatMap units) :
    ¬IsLowSurrogate n ∧ (IsHighSurrogate n → ∃ m l', l = m :: l' ∧ IsLowSurrogate m) := by
  cases cs with
  | nil => cases h
  | cons c cs =>
    rw [List.flatMap_cons] at h
    refine ⟨not_isLowSurrogate_of_units h.symm, fun hn => ?_⟩
    rcases units_cases c with ⟨k, hk, hhigh, -⟩ | ⟨k, m, hk, -, hlow⟩
    · rw [hk] at h
      cases h
      exact absurd hn hhigh
    · rw [hk] at h
      cases h
      exact ⟨m, _, rfl, hlow⟩

theorem units_ne_nil (c : Char) : units c ≠ [] := by
  rcases units_cases c with ⟨n, hn, -⟩ | ⟨n, m, hn, -⟩ <;> simp [hn]

/-- A character in front of a text stands for its code units in front of those of the text. -/
theorem map_cons_eq_some_iff {o : Option (List Char)}
    (h : ∀ ds, o = some ds ↔ l = ds.flatMap units) :
    o.map (c :: ·) = some cs ↔ units c ++ l = cs.flatMap units := by
  rw [units_append_eq_flatMap, Option.map_eq_some_iff]
  exact exists_congr fun ds => and_congr ((h ds).trans eq_comm) eq_comm

/-- Half of a surrogate pair is in no text. -/
theorem flatMap_ne_of_half (hn : IsHighSurrogate n ∨ IsLowSurrogate n)
    (hl : ∀ m l', l = m :: l' → ¬IsLowSurrogate m) (cs : List Char) :
    n :: l ≠ cs.flatMap units := by
  intro h
  obtain ⟨hlow, hhigh⟩ := surrogate_of_flatMap h
  obtain ⟨m, l', rfl, hm⟩ := hhigh (hn.resolve_right hlow)
  exact hl m l' rfl hm

/-- A string is read as the text that has its code units. -/
theorem decode?_eq_some_iff (hps : ∀ n, .unit n ∈ ps → n < 0x10000) :
    decode? ps = some cs ↔ ps.flatMap Piece.units = cs.flatMap units := by
  fun_induction decode? ps generalizing cs with
  | case1 =>
    cases cs with
    | nil => simp
    | cons c cs => simp [units_ne_nil]
  | case2 c ps ih =>
    exact map_cons_eq_some_iff fun ds => ih fun n hn => hps n (List.mem_cons_of_mem _ hn)
  | case3 n m ps hn hm ih =>
    rw [map_cons_eq_some_iff fun ds => ih fun k hk =>
      hps k (List.mem_cons_of_mem _ (List.mem_cons_of_mem _ hk)), units_pair hn hm]
    rfl
  | case4 n m ps hn hm =>
    refine iff_of_false nofun (flatMap_ne_of_half (.inl hn) ?_ cs)
    rintro k l' ⟨⟩
    exact hm
  | case5 n m ps hn hlow =>
    -- A second half is in no text, whatever follows it.
    exact iff_of_false nofun fun h => (surrogate_of_flatMap h).1 hlow
  | case6 n m ps hhigh hlow ih =>
    rw [map_cons_eq_some_iff fun ds => ih fun k hk => hps k (List.mem_cons_of_mem _ hk),
      units_ofNat (hps n List.mem_cons_self) hhigh hlow]
    rfl
  | case7 n ps hnext hn =>
    show none = some cs ↔ n :: ps.flatMap Piece.units = cs.flatMap units
    refine iff_of_false nofun (flatMap_ne_of_half hn (fun m l' hl => ?_) cs)
    cases ps with
    | nil => cases hl
    | cons p ps =>
      rw [List.flatMap_cons] at hl
      cases p with
      | unit m => exact (hnext m ps rfl).elim
      | char c => exact not_isLowSurrogate_of_units hl
  | case8 n ps hnext hn ih =>
    obtain ⟨hhigh, hlow⟩ := not_or.1 hn
    rw [map_cons_eq_some_iff fun ds => ih fun k hk => hps k (List.mem_cons_of_mem _ hk),
      units_ofNat (hps n List.mem_cons_self) hhigh hlow]
    rfl

/-- What a string stands for is what it is read as. -/
theorem standsFor_iff (hps : ∀ n, .unit n ∈ ps → n < 0x10000) :
    StandsFor ps text ↔ decode? ps = text := by
  unfold StandsFor
  simp only [← decode?_eq_some_iff hps]
  exact ⟨fun h => Option.ext fun cs => (h cs).symm, fun h cs => by rw [h]⟩

/-! ## Spelling -/

/-- How a part of a string may be written: a character by itself, unless it ends the string, begins
an escape or controls the device; a character behind a backslash; a code unit by four digits. -/
inductive Piece.Written : Piece → List Char → Prop where
  | plain {c : Char} (h : ' ' ≤ c) (hquote : c ≠ '"') (hescape : c ≠ '\\') : Written (.char c) [c]
  | escaped {x c : Char} (h : escaped? x = some c) : Written (.char c) ['\\', x]
  | unit {a b c d : Char} {n : Nat} (h : hexNumber? [a, b, c, d] = some n) :
      Written (.unit n) ['\\', 'u', a, b, c, d]

/-- The parts of a string, one behind the other, up to and with the closing quote. -/
inductive Spelled : List Piece → List Char → Prop where
  | nil : Spelled [] ['"']
  | cons {p : Piece} {ps : List Piece} {w t : List Char} (h : p.Written w) (hs : Spelled ps t) :
      Spelled (p :: ps) (w ++ t)

/-- A text behind an opening quote, up to and with the closing one, that stands for this text. -/
def IsString (text : Option (List Char)) (t : List Char) : Prop :=
  ∃ ps, Spelled ps t ∧ StandsFor ps text

theorem hexDigit?_lt (h : hexDigit? c = some n) : n < 16 := by
  have h0 : '0'.toNat = 48 := rfl
  have h9 : '9'.toNat = 57 := rfl
  have ha : 'a'.toNat = 97 := rfl
  have hf : 'f'.toNat = 102 := rfl
  have hA : 'A'.toNat = 65 := rfl
  have hF : 'F'.toNat = 70 := rfl
  simp only [hexDigit?, Char.isDigit_iff_toNat, Char.le_def, UInt32.le_iff_toNat_le,
    Char.toNat_val] at h
  split at h
  · cases h
    omega
  · split at h
    · cases h
      omega
    · split at h
      · cases h
        omega
      · cases h

theorem hexNumber?_lt {a b c d : Char} (h : hexNumber? [a, b, c, d] = some n) : n < 0x10000 := by
  simp only [hexNumber?, List.mapM_cons, List.mapM_nil, Option.bind_eq_bind, Option.pure_def,
    Option.bind_eq_some_iff] at h
  obtain ⟨_, ⟨w, hw, _, ⟨x, hx, _, ⟨y, hy, _, ⟨z, hz, _, ⟨⟩, ⟨⟩⟩, ⟨⟩⟩, ⟨⟩⟩, ⟨⟩⟩, ⟨⟩⟩ := h
  have := hexDigit?_lt hw
  have := hexDigit?_lt hx
  have := hexDigit?_lt hy
  have := hexDigit?_lt hz
  simp only [List.foldl_cons, List.foldl_nil]
  omega

theorem Spelled.unit_lt (h : Spelled ps t) (hn : .unit n ∈ ps) : n < 0x10000 := by
  induction h with
  | nil => cases hn
  | cons hw _ ih =>
    rcases List.mem_cons.1 hn with rfl | hn
    · cases hw with
      | unit h => exact hexNumber?_lt h
    · exact ih hn

/-- A part is read as it is written. -/
theorem Piece.Written.pieces? (h : p.Written w) :
    Json.pieces? (w ++ t) = (Json.pieces? t).map fun r => (p :: r.1, r.2) := by
  cases h with
  | plain h hquote hescape =>
    rw [List.singleton_append, Json.pieces?, (Option.guard_eq_some' ()).2 h]
    · cases Json.pieces? t <;> rfl
    · exact hquote
    · exact fun _ _ _ _ _ hc => absurd hc hescape
    · exact fun _ _ hc => absurd hc hescape
  | escaped h =>
    rw [List.cons_append, List.singleton_append, Json.pieces?, h]
    · cases Json.pieces? t <;> rfl
    · rintro _ _ _ _ _ rfl
      cases h
  | unit h =>
    rw [show ['\\', 'u', _, _, _, _] ++ t = '\\' :: 'u' :: _ :: _ :: _ :: _ :: t from rfl,
      Json.pieces?, h]
    cases Json.pieces? t <;> rfl

theorem Spelled.pieces? (h : Spelled ps t) : Json.pieces? (t ++ rest) = some (ps, rest) := by
  induction h with
  | nil => rfl
  | cons hw _ ih => rw [List.append_assoc, hw.pieces?, ih, Option.map_some]

theorem spelled_of_pieces? (h : pieces? t = some (ps, rest)) :
    ∃ u, Spelled ps u ∧ t = u ++ rest := by
  fun_induction pieces? t generalizing ps rest with
  | case1 => cases h
  | case2 t =>
    cases h
    exact ⟨_, .nil, rfl⟩
  | case3 a b c d t ih =>
    simp only [Option.bind_eq_bind, Option.bind_eq_some_iff] at h
    obtain ⟨n, hn, ⟨qs, r⟩, hqs, ⟨⟩⟩ := h
    obtain ⟨u, hu, rfl⟩ := ih hqs
    exact ⟨_, .cons (.unit hn) hu, rfl⟩
  | case4 x t _ ih =>
    simp only [Option.bind_eq_bind, Option.bind_eq_some_iff] at h
    obtain ⟨c, hc, ⟨qs, r⟩, hqs, ⟨⟩⟩ := h
    obtain ⟨u, hu, rfl⟩ := ih hqs
    exact ⟨_, .cons (.escaped hc) hu, rfl⟩
  | case5 c t hquote hunit hescaped ih =>
    simp only [Option.bind_eq_bind, Option.bind_eq_some_iff] at h
    obtain ⟨_, hc, ⟨qs, r⟩, hqs, ⟨⟩⟩ := h
    obtain ⟨u, hu, rfl⟩ := ih hqs
    have hspace : ' ' ≤ c := (Option.guard_eq_some' _).1 hc
    -- A backslash would be the last character, and the string would not have ended.
    have hescape : c ≠ '\\' := by
      intro hc
      cases hu with
      | nil => exact hescaped _ _ hc rfl
      | cons hw _ => cases hw <;> exact hescaped _ _ hc rfl
    exact ⟨_, .cons (.plain hspace hquote hescape) hu, rfl⟩

/-- A string is read exactly if it is one, up to its closing quote, and as the text that it stands
for. -/
theorem string?_eq_some_iff :
    string? t = some (text, rest) ↔ ∃ u, IsString text u ∧ t = u ++ rest := by
  unfold string?
  rw [Option.map_eq_some_iff]
  constructor
  · rintro ⟨⟨ps, r⟩, hps, ⟨⟩⟩
    obtain ⟨u, hu, rfl⟩ := spelled_of_pieces? hps
    exact ⟨u, ⟨ps, hu, (standsFor_iff fun _ => hu.unit_lt).2 rfl⟩, rfl⟩
  · rintro ⟨u, ⟨ps, hu, htext⟩, rfl⟩
    rw [standsFor_iff fun _ => hu.unit_lt] at htext
    exact ⟨(ps, rest), hu.pieces?, congrArg (·, rest) htext⟩

theorem IsString.read (h : IsString text t) (rest : List Char) :
    string? (t ++ rest) = some (text, rest) :=
  string?_eq_some_iff.2 ⟨t, h, rfl⟩

theorem decode?_map_char (cs : List Char) : decode? (cs.map .char) = some cs := by
  induction cs with
  | nil => rfl
  | cons c cs ih => rw [List.map_cons, decode?, ih, Option.map_some]

/-- A character that may be written by itself. -/
def isPlain (c : Char) : Bool := ' ' ≤ c && c ≠ '"' && c ≠ '\\'

theorem spelled_plain (h : cs.all isPlain) : Spelled (cs.map .char) (cs ++ ['"']) := by
  induction cs with
  | nil => exact .nil
  | cons c cs ih =>
    simp only [List.all_cons, isPlain, Bool.and_eq_true, decide_eq_true_eq] at h
    obtain ⟨⟨⟨hspace, hquote⟩, hescape⟩, hcs⟩ := h
    exact .cons (w := [c]) (.plain hspace hquote hescape) (ih hcs)

/-- A text without quotes, backslashes and control characters may be written as it is. -/
theorem isString_plain (h : cs.all isPlain) : IsString (some cs) (cs ++ ['"']) :=
  ⟨_, spelled_plain h, (standsFor_iff fun _ => (spelled_plain h).unit_lt).2 (decode?_map_char cs)⟩

/-- Half of a surrogate pair alone stands for no text. -/
theorem isString_half {a b c d : Char} (h : hexNumber? [a, b, c, d] = some n)
    (hn : IsHighSurrogate n ∨ IsLowSurrogate n) :
    IsString none ['\\', 'u', a, b, c, d, '"'] := by
  have hlast : ∀ m l', [] = m :: l' → ¬IsLowSurrogate m := nofun
  have hno (cs : List Char) : [n] ≠ cs.flatMap units := flatMap_ne_of_half hn hlast cs
  exact ⟨[.unit n], .cons (.unit h) .nil, fun cs => iff_of_false nofun (hno cs)⟩

end Descent.Json
