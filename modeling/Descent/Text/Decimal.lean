/-!
# Decimal numerals of 64-bit integers

A numeral is written with the fewest digits. One that is read may have a sign and leading zeros; it
stands for no value if that value takes more than 64 bits.
-/

namespace Descent.Text.Decimal

/-- The numeral of a number. -/
def ofNat (n : Nat) : List Char := Nat.toDigits 10 n

/-- The number that a numeral without a sign stands for. -/
def toNat? (t : List Char) : Option Nat :=
  if t ≠ [] ∧ t.all Char.isDigit then some (Nat.ofDigitChars 10 t 0) else none

/-- The integer as one of 64 bits, if it has the room. -/
def fit? (n : Int) : Option Int64 :=
  if Int64.minValue.toInt ≤ n ∧ n ≤ Int64.maxValue.toInt then some (Int64.ofInt n) else none

/-- The numeral of an integer. -/
def ofInt64 (n : Int64) : List Char :=
  if n.toInt < 0 then '-' :: ofNat n.toInt.natAbs else ofNat n.toInt.natAbs

/-- The integer that a numeral stands for. -/
def toInt64? : List Char → Option Int64
  | '-' :: t => do fit? (-(← toNat? t))
  | '+' :: t => do fit? (← toNat? t)
  | t => do fit? (← toNat? t)

theorem ofNat_ne_nil (n : Nat) : ofNat n ≠ [] := Nat.toDigits_ne_nil

theorem isDigit_of_mem_ofNat {n : Nat} {c : Char} (h : c ∈ ofNat n) : c.isDigit :=
  Nat.isDigit_of_mem_toDigits (by decide) (by decide) h

theorem toNat?_ofNat (n : Nat) : toNat? (ofNat n) = some n := by
  simp only [toNat?, List.all_eq_true]
  rw [if_pos ⟨ofNat_ne_nil n, fun _ => isDigit_of_mem_ofNat⟩, ofNat,
    Nat.ofDigitChars_toDigits (by decide) (by decide)]

/-- A numeral without a sign is read as one. -/
theorem toInt64?_of_head_isDigit {c : Char} {t : List Char} (hc : c.isDigit) :
    toInt64? (c :: t) = (toNat? (c :: t)).bind fun n => fit? n := by
  unfold toInt64?
  split
  · next h => cases h; exact absurd hc (by decide)
  · next h => cases h; exact absurd hc (by decide)
  · rfl

/-- An integer has a numeral that stands for it. -/
theorem toInt64?_ofInt64 (n : Int64) : toInt64? (ofInt64 n) = some n := by
  have hfit : fit? n.toInt = some n := by
    rw [fit?, if_pos ⟨n.minValue_le_toInt, n.toInt_le⟩, Int64.ofInt_toInt]
  simp only [ofInt64]
  split
  · next h =>
    simp only [toInt64?, toNat?_ofNat, bind, Option.bind]
    rw [show -((n.toInt.natAbs : Nat) : Int) = n.toInt by omega]
    exact hfit
  · next h =>
    obtain ⟨c, t, hct⟩ := List.exists_cons_of_ne_nil (ofNat_ne_nil n.toInt.natAbs)
    have hc : c.isDigit := isDigit_of_mem_ofNat (hct ▸ List.mem_cons_self)
    rw [hct, toInt64?_of_head_isDigit hc, ← hct, toNat?_ofNat, Option.bind_some,
      show ((n.toInt.natAbs : Nat) : Int) = n.toInt by omega]
    exact hfit

end Descent.Text.Decimal
