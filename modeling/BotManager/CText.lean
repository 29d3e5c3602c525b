import Mathlib.Data.List.TakeWhile
import Mathlib.Algebra.Order.Ring.Int

/-! C strings as lists of bytes, without the terminating NUL: bounded copies, the
decimal conversions of `printf`, and `strtoll` and `strtoull` in base ten with the
behaviour the C standard gives them. Both skip white space, take one sign and the
longest run of digits. Out of range they saturate; `strtoull` negates modulo `2 ^ 64`. -/

namespace BotManager.CText

open List

abbrev Bytes := List UInt8

instance : LawfulBEq Bytes := instLawfulBEq

def ascii (s : String) : Bytes := s.toList.map fun c => UInt8.ofNat c.toNat

/-- What `strlcpy` or `snprintf` leaves of a text in a buffer of `size` bytes. -/
def bounded (size : ℕ) (s : Bytes) : Bytes := s.take (size - 1)

variable {l : Bytes} {size : ℕ}

theorem bounded_of_lt {s : Bytes} (fits : s.length < size) : bounded size s = s :=
  take_of_length_le (by omega)

theorem length_bounded_le (size : ℕ) (s : Bytes) : (bounded size s).length ≤ size - 1 := by
  simp [bounded]

theorem length_bounded_lt (pos : 0 < size) (s : Bytes) : (bounded size s).length < size := by
  have := length_bounded_le size s
  omega

def isSpace (c : UInt8) : Bool := c = 32 || 9 ≤ c && c ≤ 13

def isDigit (c : UInt8) : Bool := 48 ≤ c && c ≤ 57

def toLower (c : UInt8) : UInt8 := if 65 ≤ c && c ≤ 90 then c + 32 else c

theorem toLower_toLower : toLower (toLower c) = toLower c := by
  by_cases upper : (65 ≤ c && c ≤ 90) = true
  · have moved : (65 ≤ c + 32 && c + 32 ≤ 90) = false := by
      simp only [Bool.and_eq_true, decide_eq_true_eq, UInt8.le_iff_toNat_le,
        UInt8.reduceToNat] at upper
      simp only [Bool.and_eq_false_iff, decide_eq_false_iff_not, UInt8.le_iff_toNat_le,
        UInt8.toNat_add, UInt8.reduceToNat]
      omega
    rw [toLower, toLower, if_pos upper, moved]
    rfl
  · rw [toLower, toLower, if_neg upper, if_neg upper]

theorem map_toLower_twice (s : Bytes) : (s.map toLower).map toLower = s.map toLower := by
  rw [map_map]
  congr 1
  funext c
  exact toLower_toLower

def strcasecmp (a b : Bytes) : Bool := a.map toLower = b.map toLower

/-- The comparison stops after `n` bytes. -/
def strncasecmp (n : ℕ) (a b : Bytes) : Bool := strcasecmp (a.take n) (b.take n)

variable {n : ℕ} {v : ℤ}

theorem strncasecmp_iff {a b : Bytes} (fits : a.length < n) :
    strncasecmp n a b = true ↔ a.map toLower = b.map toLower := by
  rw [strncasecmp, strcasecmp, decide_eq_true_iff, take_of_length_le fits.le]
  constructor
  · intro same
    have size := congrArg length same
    simp only [length_map, length_take] at size
    rwa [take_of_length_le (by omega)] at same
  · intro same
    have size := congrArg length same
    simp only [length_map] at size
    rwa [take_of_length_le (by omega)]

def digitsValue (l : Bytes) : ℕ := l.foldl (fun acc c => 10 * acc + (c.toNat - 48)) 0

def splitSign : Bytes → Bool × Bytes
  | [] => (false, [])
  | c :: rest => if c = 45 then (true, rest) else if c = 43 then (false, rest) else (false, c :: rest)

/-- The subject sequence of an integer conversion: its sign, its magnitude and the text
after it. `none` when there are no digits and nothing is converted. -/
def scanInt (s : Bytes) : Option (Bool × ℕ × Bytes) :=
  let (neg, body) := splitSign (s.dropWhile isSpace)
  let digits := body.takeWhile isDigit
  if digits = [] then none else some (neg, digitsValue digits, body.dropWhile isDigit)

def int64Min : ℤ := -2 ^ 63
def int64Max : ℤ := 2 ^ 63 - 1
def uint64Max : ℤ := 2 ^ 64 - 1

/-- `strtoll (s, &end, 10)`: the value and the text at `end`. -/
def strtoll (s : Bytes) : Option (ℤ × Bytes) :=
  (scanInt s).map fun (neg, n, rest) =>
    (max int64Min (min int64Max (if neg then -(n : ℤ) else n)), rest)

/-- `strtoull (s, &end, 10)`. A magnitude past `2 ^ 64` saturates whatever its sign. -/
def strtoull (s : Bytes) : Option (ℤ × Bytes) :=
  (scanInt s).map fun (neg, n, rest) =>
    (if uint64Max < n then uint64Max else if neg then -(n : ℤ) % 2 ^ 64 else n, rest)

def natText (n : ℕ) : Bytes := (Nat.toDigits 10 n).map fun c => UInt8.ofNat c.toNat

def intText : ℤ → Bytes
  | .ofNat n => natText n
  | .negSucc n => 45 :: natText (n + 1)

theorem intText_of_nonneg (nonneg : 0 ≤ v) : intText v = natText v.natAbs := by
  obtain ⟨n, rfl⟩ := Int.eq_ofNat_of_zero_le nonneg
  rfl

theorem intText_of_neg (neg : v < 0) : intText v = 45 :: natText v.natAbs := by
  obtain ⟨n, rfl⟩ := Int.eq_negSucc_of_lt_zero neg
  rfl

theorem digit_bounds {c : Char} (mem : c ∈ Nat.toDigits 10 n) : 48 ≤ c.toNat ∧ c.toNat ≤ 57 := by
  have digit := Nat.isDigit_of_mem_toDigits (by decide) (by decide) mem
  simp only [Char.isDigit, Bool.and_eq_true, decide_eq_true_eq] at digit
  exact digit

theorem toNat_digit {c : Char} (mem : c ∈ Nat.toDigits 10 n) :
    (UInt8.ofNat c.toNat).toNat = c.toNat := by
  have bounds := digit_bounds mem
  simp only [UInt8.toNat_ofNat']
  omega

theorem isDigit_natText : ∀ c ∈ natText n, isDigit c = true := by
  intro c mem
  obtain ⟨d, memd, rfl⟩ := mem_map.mp mem
  have bounds := digit_bounds memd
  have value := toNat_digit memd
  simp only [isDigit, Bool.and_eq_true, decide_eq_true_eq, UInt8.le_iff_toNat_le, value]
  exact bounds

theorem natText_ne_nil (n : ℕ) : natText n ≠ [] := by
  simp [natText]

theorem digitsValue_natText : digitsValue (natText n) = n := by
  have read (l : List Char) (acc : ℕ) (small : ∀ c ∈ l, c ∈ Nat.toDigits 10 n) :
      (l.map fun c => UInt8.ofNat c.toNat).foldl (fun acc c => 10 * acc + (c.toNat - 48)) acc =
        Nat.ofDigitChars 10 l acc := by
    induction l generalizing acc with
    | nil => rfl
    | cons c rest ih =>
      have value := toNat_digit (small c mem_cons_self)
      rw [map_cons, foldl_cons, Nat.ofDigitChars_cons, value]
      exact ih _ fun c mem => small c (.tail _ mem)
  rw [digitsValue, natText, read _ 0 fun _ mem => mem]
  exact Nat.ofDigitChars_ten_toDigits

theorem not_space_of_digit {c : UInt8} (digit : isDigit c = true) :
    isSpace c = false ∧ c ≠ 45 ∧ c ≠ 43 := by
  simp only [isDigit, Bool.and_eq_true, decide_eq_true_eq, UInt8.le_iff_toNat_le] at digit
  have low : (48 : UInt8).toNat = 48 := rfl
  refine ⟨?_, ?_, ?_⟩
  · simp only [isSpace, Bool.or_eq_false_iff, Bool.and_eq_false_iff, decide_eq_false_iff_not,
      UInt8.le_iff_toNat_le]
    have high : (13 : UInt8).toNat = 13 := rfl
    refine ⟨?_, .inr (by omega)⟩
    rintro rfl
    exact absurd digit.1 (by decide)
  · rintro rfl
    exact absurd digit.1 (by decide)
  · rintro rfl
    exact absurd digit.1 (by decide)

theorem takeWhile_digits (all : ∀ c ∈ l, isDigit c = true) :
    l.takeWhile isDigit = l ∧ l.dropWhile isDigit = [] :=
  ⟨takeWhile_eq_self_iff.mpr all, dropWhile_eq_nil_iff.mpr all⟩

theorem splitSign_digits (nonempty : l ≠ []) (all : ∀ c ∈ l, isDigit c = true) :
    l.dropWhile isSpace = l ∧ splitSign l = (false, l) := by
  cases l with
  | nil => exact absurd rfl nonempty
  | cons c rest =>
    obtain ⟨space, minus, plus⟩ := not_space_of_digit (all c mem_cons_self)
    simp [splitSign, space, minus, plus]

theorem scanInt_intText (v : ℤ) : scanInt (intText v) = some (decide (v < 0), v.natAbs, []) := by
  have digits := isDigit_natText (n := v.natAbs)
  have nonempty := natText_ne_nil v.natAbs
  obtain ⟨take, drop⟩ := takeWhile_digits digits
  obtain ⟨space, sign⟩ := splitSign_digits nonempty digits
  by_cases neg : v < 0
  · have minus : (45 :: natText v.natAbs).dropWhile isSpace = 45 :: natText v.natAbs := by
      rw [dropWhile_cons_of_neg (by decide)]
    simp [intText_of_neg neg, scanInt, minus, splitSign, take, drop, nonempty,
      digitsValue_natText, neg]
  · simp [intText_of_nonneg (not_lt.mp neg), scanInt, space, sign, take, drop, nonempty,
      digitsValue_natText, neg]

theorem strtoll_intText : strtoll (intText v) = some (max int64Min (min int64Max v), []) := by
  simp only [strtoll, scanInt_intText, Option.map_some, Option.some.injEq, Prod.mk.injEq, and_true]
  have signed : (if decide (v < 0) = true then -(v.natAbs : ℤ) else v.natAbs) = v := by
    by_cases neg : v < 0
    · rw [if_pos (by simpa using neg)]
      omega
    · rw [if_neg (by simpa using neg)]
      omega
  rw [signed]

theorem strtoull_intText : strtoull (intText v) =
    some (if uint64Max < |v| then uint64Max else v % 2 ^ 64, []) := by
  simp only [strtoull, scanInt_intText, Option.map_some, Option.some.injEq, Prod.mk.injEq, and_true]
  rw [Int.natCast_natAbs]
  split
  · rfl
  next small =>
    by_cases neg : v < 0
    · rw [if_pos (by simpa using neg), abs_of_neg neg, neg_neg]
    · have nonneg : 0 ≤ v := not_lt.mp neg
      rw [abs_of_nonneg nonneg] at small ⊢
      rw [if_neg (by simpa using neg), Int.emod_eq_of_lt nonneg]
      simp only [uint64Max] at small
      omega

theorem length_intText_le (low : -10 ^ 20 < v) (high : v < 10 ^ 20) : (intText v).length ≤ 21 := by
  have digits : (natText v.natAbs).length ≤ 20 := by
    rw [natText, length_map, Nat.length_toDigits_le_iff (by decide) (by decide)]
    omega
  by_cases neg : v < 0
  · rw [intText_of_neg neg, length_cons]
    omega
  · rw [intText_of_nonneg (not_lt.mp neg)]
    omega

theorem intText_injective {w : ℤ} (same : intText v = intText w) : v = w := by
  have scanned := scanInt_intText v
  rw [same, scanInt_intText w] at scanned
  simp only [Option.some.injEq, Prod.mk.injEq, decide_eq_decide, and_true] at scanned
  omega

end BotManager.CText
