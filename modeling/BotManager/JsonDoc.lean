import Mathlib.Data.Int.Log
import Mathlib.Data.Rat.Floor
import BotManager.CText

/-! JSON documents as a writer leaves them and a reader finds them. A text is kept as it
stands between its quotes. A number is its value: one without a fraction is read as an
integer of 64 bits, which saturates. `significant` is what `printf` keeps of a number under a
precision of that many digits. -/

namespace BotManager.JsonDoc
open CText

inductive Json
  | null
  | bool (b : Bool)
  | num (value : ℚ)
  | str (written : Bytes)
  | arr (items : List Json)
  | obj (fields : List (String × Json))

def Json.get (key : String) : Json → Option Json
  | .obj fields => fields.lookup key
  | _ => none

section Text

def hexDigit (n : ℕ) : UInt8 := UInt8.ofNat (if n < 10 then 48 + n else 87 + n)

def hexValue (c : UInt8) : ℕ :=
  if c.toNat < 58 then c.toNat - 48 else if c.toNat < 71 then c.toNat - 55 else c.toNat - 87

def utf8 (n : ℕ) : Bytes :=
  if n < 128 then [UInt8.ofNat n]
  else if n < 2048 then [UInt8.ofNat (192 + n / 64), UInt8.ofNat (128 + n % 64)]
  else [UInt8.ofNat (224 + n / 4096), UInt8.ofNat (128 + n / 64 % 64), UInt8.ofNat (128 + n % 64)]

def unescapeLetter (c : UInt8) : UInt8 :=
  if c = 98 then 8 else if c = 102 then 12 else if c = 110 then 10
  else if c = 114 then 13 else if c = 116 then 9 else c

def unescape : Bytes → Bytes
  | [] => []
  | 92 :: 117 :: a :: b :: c :: d :: rest =>
    utf8 (((hexValue a * 16 + hexValue b) * 16 + hexValue c) * 16 + hexValue d) ++ unescape rest
  | 92 :: c :: rest => unescapeLetter c :: unescape rest
  | c :: rest => c :: unescape rest

theorem unescape_plain {c : UInt8} (plain : c ≠ 92) :
    unescape (c :: rest) = c :: unescape rest := by
  rw [unescape]
  · intro _ _ _ _ _ same
    exact absurd same plain
  · intro _ _ same
    exact absurd same plain

theorem unescape_letter {c : UInt8} (letter : c ≠ 117) :
    unescape (92 :: c :: rest) = unescapeLetter c :: unescape rest := by
  rw [unescape]
  intro _ _ _ _ _ same
  exact absurd same letter

theorem hexValue_hexDigit {n : ℕ} (digit : n < 16) : hexValue (hexDigit n) = n := by
  have all : ∀ n < 16, hexValue (hexDigit n) = n := by decide
  exact all n digit

theorem unescape_unicode {n : ℕ} (low : n < 128) (rest : Bytes) :
    unescape (92 :: 117 :: 48 :: 48 :: hexDigit (n / 16) :: hexDigit (n % 16) :: rest) =
      UInt8.ofNat n :: unescape rest := by
  have high : hexValue (hexDigit (n / 16)) = n / 16 := hexValue_hexDigit (by omega)
  have rem : hexValue (hexDigit (n % 16)) = n % 16 := hexValue_hexDigit (by omega)
  have zero : hexValue 48 = 0 := rfl
  have whole : ((0 * 16 + 0) * 16 + n / 16) * 16 + n % 16 = n := by omega
  rw [unescape, high, rem, zero, whole, utf8, if_pos low]
  rfl

end Text

section Number

/-- A conversion with `%g`, up to how a tie is broken. -/
def significant (digits : ℕ) (x : ℚ) : ℚ :=
  let scale : ℚ := 10 ^ ((digits : ℤ) - 1 - Int.log 10 |x|)
  round (x * scale) / scale

def Decimal (digits : ℕ) (x : ℚ) : Prop := ∃ m k : ℤ, |m| < 10 ^ digits ∧ x = m * 10 ^ k

theorem significant_eq {digits : ℕ} {x : ℚ} (decimal : Decimal digits x) :
    significant digits x = x := by
  obtain ⟨m, k, few, rfl⟩ := decimal
  have ten : (10 : ℚ) ≠ 0 := by norm_num
  by_cases zero : m = 0
  · simp [zero, significant]
  · -- the leading digit is no higher than the number of digits allows
    have pos : 0 < |(m : ℚ) * 10 ^ k| := by
      rw [abs_pos]
      exact mul_ne_zero (Int.cast_ne_zero.mpr zero) (zpow_ne_zero _ ten)
    have leading : Int.log 10 |(m : ℚ) * 10 ^ k| ≤ k + digits - 1 := by
      have below : |(m : ℚ) * 10 ^ k| < ((10 : ℕ) : ℚ) ^ (k + digits) := by
        have bound : |(m : ℚ)| < 10 ^ digits := by exact_mod_cast few
        rw [abs_mul, abs_of_pos (zpow_pos (by norm_num : (0 : ℚ) < 10) k)]
        calc |(m : ℚ)| * 10 ^ k < 10 ^ digits * 10 ^ k :=
              mul_lt_mul_of_pos_right bound (zpow_pos (by norm_num) k)
          _ = ((10 : ℕ) : ℚ) ^ (k + digits) := by
              rw [zpow_add₀ (by norm_num), zpow_natCast]
              push_cast
              ring
      have := (Int.lt_zpow_iff_log_lt (by norm_num) pos).mp below
      omega
    obtain ⟨up, same⟩ := Int.eq_ofNat_of_zero_le
      (show 0 ≤ k + ((digits : ℤ) - 1 - Int.log 10 |(m : ℚ) * 10 ^ k|) by omega)
    have whole : (m : ℚ) * 10 ^ k * 10 ^ ((digits : ℤ) - 1 - Int.log 10 |(m : ℚ) * 10 ^ k|) =
        ((m * 10 ^ up : ℤ) : ℚ) := by
      rw [mul_assoc, ← zpow_add₀ ten, same]
      push_cast
      rw [zpow_natCast]
    unfold significant
    dsimp only
    rw [whole, round_intCast, ← whole, mul_div_assoc, div_self (zpow_ne_zero _ ten), mul_one]

def Fits64 (z : ℤ) : Prop := int64Min ≤ z ∧ z ≤ int64Max

instance (z : ℤ) : Decidable (Fits64 z) := inferInstanceAs (Decidable (_ ∧ _))

/-- How an integer outside of 64 bits is read. -/
def saturate (z : ℤ) : ℤ := if z < int64Min then int64Min else if int64Max < z then int64Max else z

theorem saturate_eq {z : ℤ} (fits : Fits64 z) : saturate z = z := by
  rw [saturate, if_neg (not_lt.mpr fits.1), if_neg (not_lt.mpr fits.2)]

end Number

end BotManager.JsonDoc
