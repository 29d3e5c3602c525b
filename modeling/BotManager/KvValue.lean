import BotManager.CText

/-! The typed values of core/kv.c and their text forms. `kv_val_t` is a union; its
member is chosen by the type of the entry, so a value is an integer, a string or a
floating-point number. BOOL lives in the byte member as 0 or 1. Strings are interned:
one address for each content, so comparing addresses compares contents.

The floating-point conversions of libc are a parameter, `Floats`. -/

namespace BotManager.KvValue
open CText

inductive KvType
  | int8 | uint8 | int16 | uint16 | int32 | uint32 | int64 | uint64
  | float | double | ldouble | str | bool
  deriving DecidableEq, Repr

/-- The integer behind the enumerator, as it is stored in the `type` column. -/
def KvType.id : KvType → ℕ
  | .int8 => 0 | .uint8 => 1 | .int16 => 2 | .uint16 => 3 | .int32 => 4 | .uint32 => 5
  | .int64 => 6 | .uint64 => 7 | .float => 8 | .double => 9 | .ldouble => 10 | .str => 11
  | .bool => 12

def KvType.isFloat : KvType → Bool
  | .float | .double | .ldouble => true
  | _ => false

def kvKeySz : ℕ := 192
def kvStrSz : ℕ := 256
def kvValBuf : ℕ := 300

inductive Val (F : Type)
  | int (v : ℤ)
  | str (s : Bytes)
  | flt (x : F)
  deriving DecidableEq, Repr

/-- `strtof`, `strtod` and `strtold` over a whole text, the three `%g` conversions,
and the casts from `long double`. -/
structure Floats (F : Type) where
  parse : KvType → Bytes → Option F
  print : KvType → F → Bytes
  cast : KvType → F → F

variable {F : Type}

def signedVal (lo hi : ℤ) (s : Bytes) : Option (Val F) :=
  match strtoll s with
  | some (v, []) => if v < lo ∨ hi < v then none else some (.int v)
  | _ => none

def unsignedVal (hi : ℤ) (s : Bytes) : Option (Val F) :=
  match strtoull s with
  | some (v, []) => if hi < v then none else some (.int v)
  | _ => none

/-- The two 64-bit cases take whatever the conversion returned. -/
def wholeVal (converted : Option (ℤ × Bytes)) : Option (Val F) :=
  match converted with
  | some (v, []) => some (.int v)
  | _ => none

variable (fl : Floats F)

def floatVal (t : KvType) (s : Bytes) : Option (Val F) := (fl.parse t s).map .flt

def boolVal (s : Bytes) : Option (Val F) :=
  if s = ascii "1" ∨ strcasecmp s (ascii "true") then some (.int 1)
  else if s = ascii "0" ∨ strcasecmp s (ascii "false") then some (.int 0)
  else none

def strToVal (t : KvType) (s : Bytes) : Option (Val F) :=
  match t with
  | .int8 => signedVal (-2 ^ 7) (2 ^ 7 - 1) s
  | .uint8 => unsignedVal (2 ^ 8 - 1) s
  | .int16 => signedVal (-2 ^ 15) (2 ^ 15 - 1) s
  | .uint16 => unsignedVal (2 ^ 16 - 1) s
  | .int32 => signedVal (-2 ^ 31) (2 ^ 31 - 1) s
  | .uint32 => unsignedVal (2 ^ 32 - 1) s
  | .int64 => wholeVal (strtoll s)
  | .uint64 => wholeVal (strtoull s)
  | .float | .double | .ldouble => floatVal fl t s
  | .str => some (.str (bounded kvStrSz s))
  | .bool => boolVal s

/-- Reading a member of the union. A member the type does not name is never read. -/
def Val.num : Val F → ℤ
  | .int v => v
  | _ => 0

def Val.text : Val F → Bytes
  | .str s => s
  | _ => []

def Val.real : Val F → Option F
  | .flt x => some x
  | _ => none

def valText (t : KvType) (v : Val F) : Bytes :=
  match t with
  | .int8 | .uint8 | .int16 | .uint16 | .int32 | .uint32 | .int64 | .uint64 => intText v.num
  | .float | .double | .ldouble => (v.real.map (fl.print t)).getD []
  | .str => v.text
  | .bool => if v.num ≠ 0 then ascii "true" else ascii "false"

def valToStr (t : KvType) (v : Val F) (size : ℕ) : Bytes :=
  bounded size (valText fl t v)

def valChanged (t : KvType) (old new : Val F) : Bool :=
  if t = .str then old.text ≠ new.text
  else valToStr fl t old kvValBuf ≠ valToStr fl t new kvValBuf

def KvType.range : KvType → Option (ℤ × ℤ)
  | .int8 => some (-2 ^ 7, 2 ^ 7 - 1)
  | .uint8 => some (0, 2 ^ 8 - 1)
  | .int16 => some (-2 ^ 15, 2 ^ 15 - 1)
  | .uint16 => some (0, 2 ^ 16 - 1)
  | .int32 => some (-2 ^ 31, 2 ^ 31 - 1)
  | .uint32 => some (0, 2 ^ 32 - 1)
  | .int64 => some (int64Min, int64Max)
  | .uint64 => some (0, uint64Max)
  | .bool => some (0, 1)
  | _ => none

inductive Typed : KvType → Val F → Prop
  | int {t : KvType} {lo hi v : ℤ} (range : t.range = some (lo, hi)) (low : lo ≤ v)
      (high : v ≤ hi) : Typed t (.int v)
  | str {s : Bytes} (len : s.length < kvStrSz) : Typed .str (.str s)
  | flt {t : KvType} {x : F} (float : t.isFloat = true) : Typed t (.flt x)

variable {s : Bytes} {hi lo : ℤ} {t : KvType} {v : Val F} {fl : Floats F} {rest : Bytes}

theorem strtoll_bounds {v : ℤ} (h : strtoll s = some (v, rest)) : int64Min ≤ v ∧ v ≤ int64Max := by
  obtain ⟨⟨neg, n, rest'⟩, _, eq⟩ := Option.map_eq_some_iff.mp h
  cases eq
  have order : int64Min ≤ int64Max := by decide
  exact ⟨le_max_left _ _, max_le order (min_le_left _ _)⟩

theorem strtoull_bounds {v : ℤ} (h : strtoull s = some (v, rest)) : 0 ≤ v ∧ v ≤ uint64Max := by
  obtain ⟨⟨neg, n, rest'⟩, _, eq⟩ := Option.map_eq_some_iff.mp h
  cases eq
  have top : uint64Max = 2 ^ 64 - 1 := rfl
  constructor
  · split
    · omega
    · split <;> omega
  · split
    · omega
    · split <;> omega

theorem typed_signedVal (range : t.range = some (lo, hi)) (h : signedVal lo hi s = some v) :
    Typed t v := by
  revert h
  fun_cases signedVal lo hi s with
  | case2 v _ fits =>
    rintro ⟨⟩
    exact .int range (by omega) (by omega)
  | _ => nofun

theorem typed_unsignedVal (range : t.range = some (0, hi)) (h : unsignedVal hi s = some v) :
    Typed t v := by
  revert h
  fun_cases unsignedVal hi s with
  | case2 v converted fits =>
    rintro ⟨⟩
    exact .int range (strtoull_bounds converted).1 (by omega)
  | _ => nofun

theorem typed_boolVal (h : boolVal s = some v) : Typed .bool v := by
  revert h
  fun_cases boolVal s with
  | case1 | case2 =>
    rintro ⟨⟩
    exact .int rfl (by decide) (by decide)
  | case3 => nofun

theorem typed_floatVal (float : t.isFloat = true) (h : floatVal fl t s = some v) : Typed t v := by
  obtain ⟨x, _, rfl⟩ := Option.map_eq_some_iff.mp h
  exact .flt float

theorem typed_strToVal (h : strToVal fl t s = some v) : Typed t v := by
  cases t with
  | int8 | int16 | int32 => exact typed_signedVal rfl h
  | uint8 | uint16 | uint32 => exact typed_unsignedVal rfl h
  | int64 =>
    simp only [strToVal, wholeVal] at h
    split at h
    next converted =>
      cases h
      have bounds := strtoll_bounds converted
      exact .int rfl bounds.1 bounds.2
    next => cases h
  | uint64 =>
    simp only [strToVal, wholeVal] at h
    split at h
    next converted =>
      cases h
      have bounds := strtoull_bounds converted
      exact .int rfl bounds.1 bounds.2
    next => cases h
  | float | double | ldouble => exact typed_floatVal rfl h
  | str =>
    cases h
    exact .str (length_bounded_lt (by decide) s)
  | bool => exact typed_boolVal h

theorem signedVal_intText (narrow : int64Min < lo ∧ hi < int64Max) (v : ℤ) :
    signedVal lo hi (intText v) =
      if lo ≤ v ∧ v ≤ hi then some (Val.int v : Val F) else none := by
  simp only [signedVal, strtoll_intText]
  by_cases fits : lo ≤ v ∧ v ≤ hi
  · have same : max int64Min (min int64Max v) = v := by omega
    rw [same, if_pos fits, if_neg (by omega)]
  · rw [if_neg fits, if_pos (by omega)]

/-- The 64-bit value `strtoull` makes of the text of `v`. -/
def wrapped (v : ℤ) : ℤ := if uint64Max < |v| then uint64Max else v % 2 ^ 64

theorem wrapped_of_fits {v : ℤ} (low : 0 ≤ v) (high : v ≤ uint64Max) : wrapped v = v := by
  have top : uint64Max = 2 ^ 64 - 1 := rfl
  rw [wrapped, abs_of_nonneg low, if_neg (by omega), Int.emod_eq_of_lt low (by omega)]

theorem unsignedVal_intText (hi v : ℤ) : unsignedVal hi (intText v) =
    if hi < wrapped v then none else some (Val.int (wrapped v) : Val F) := by
  simp only [unsignedVal, strtoull_intText, wrapped]
  rfl

theorem mem_intText {v : ℤ} {c : UInt8} (mem : c ∈ intText v) : c = 45 ∨ isDigit c = true := by
  by_cases neg : v < 0
  · rw [intText_of_neg neg] at mem
    rcases List.mem_cons.mp mem with rfl | later
    · exact .inl rfl
    · exact .inr (isDigit_natText c later)
  · rw [intText_of_nonneg (not_lt.mp neg)] at mem
    exact .inr (isDigit_natText c mem)

theorem not_strcasecmp_intText (v : ℤ) (letter : UInt8) {word : Bytes}
    (mem : letter ∈ word.map toLower) (high : 65 ≤ letter.toNat) :
    strcasecmp (intText v) word = false := by
  simp only [strcasecmp, decide_eq_false_iff_not]
  intro same
  rw [← same] at mem
  obtain ⟨c, memc, rfl⟩ := List.mem_map.mp mem
  have small : c.toNat ≤ 57 := by
    rcases mem_intText memc with rfl | digit
    · decide
    · simp only [isDigit, Bool.and_eq_true, decide_eq_true_eq, UInt8.le_iff_toNat_le] at digit
      exact digit.2
  have kept : toLower c = c := by
    rw [toLower, if_neg]
    simp only [Bool.and_eq_true, decide_eq_true_eq, UInt8.le_iff_toNat_le]
    have bound : (65 : UInt8).toNat = 65 := rfl
    omega
  rw [kept] at high
  omega

theorem boolVal_intText (v : ℤ) :
    boolVal (intText v) = if 0 ≤ v ∧ v ≤ 1 then some (Val.int v : Val F) else none := by
  have noTrue : strcasecmp (intText v) (ascii "true") = false :=
    not_strcasecmp_intText v 116 (by decide) (by decide)
  have noFalse : strcasecmp (intText v) (ascii "false") = false :=
    not_strcasecmp_intText v 102 (by decide) (by decide)
  have one : intText v = ascii "1" ↔ v = 1 :=
    ⟨fun same => intText_injective (same.trans (by decide)), fun eq => by rw [eq]; decide⟩
  have zero : intText v = ascii "0" ↔ v = 0 :=
    ⟨fun same => intText_injective (same.trans (by decide)), fun eq => by rw [eq]; decide⟩
  simp only [boolVal, noTrue, noFalse, one, zero, Bool.false_eq_true, or_false]
  by_cases isOne : v = 1
  · simp [isOne]
  · by_cases isZero : v = 0
    · simp [isZero]
    · rw [if_neg isOne, if_neg isZero, if_neg (by omega)]

theorem strToVal_intText (fl : Floats F) {v : ℤ} (range : t.range = some (lo, hi)) (low : lo ≤ v)
    (high : v ≤ hi) : strToVal fl t (intText v) = some (.int v) := by
  have top : uint64Max = 2 ^ 64 - 1 := rfl
  have bottom : int64Min = -2 ^ 63 := rfl
  have top' : int64Max = 2 ^ 63 - 1 := rfl
  cases t with
  | int8 | int16 | int32 =>
    cases range
    simp only [strToVal]
    rw [signedVal_intText (by omega), if_pos ⟨low, high⟩]
  | uint8 | uint16 | uint32 =>
    cases range
    have same := wrapped_of_fits low (by omega)
    simp only [strToVal]
    rw [unsignedVal_intText, same, if_neg (by omega)]
  | int64 =>
    cases range
    have same : max int64Min (min int64Max v) = v := by omega
    simp only [strToVal, strtoll_intText, wholeVal, same]
  | uint64 =>
    cases range
    have same := wrapped_of_fits low high
    simp only [strToVal, strtoull_intText, wholeVal]
    rw [← wrapped, same]
  | bool =>
    cases range
    simp only [strToVal]
    rw [boolVal_intText, if_pos ⟨low, high⟩]
  | float | double | ldouble | str => cases range

theorem range_bounds (range : t.range = some (lo, hi)) : int64Min ≤ lo ∧ hi ≤ uint64Max := by
  have top : uint64Max = 2 ^ 64 - 1 := rfl
  have bottom : int64Min = -2 ^ 63 := rfl
  have top' : int64Max = 2 ^ 63 - 1 := rfl
  cases t with
  | float | double | ldouble | str => cases range
  | int8 | uint8 | int16 | uint16 | int32 | uint32 | int64 | uint64 | bool =>
    cases range
    omega

theorem valText_int (range : t.range = some (lo, hi)) (v : ℤ) :
    valText fl t (.int v) = if t = .bool then
      if v ≠ 0 then ascii "true" else ascii "false" else intText v := by
  cases t with
  | float | double | ldouble | str => cases range
  | int8 | uint8 | int16 | uint16 | int32 | uint32 | int64 | uint64 | bool => rfl

theorem length_valText_lt (fl : Floats F) (typed : Typed t v) (exact : t.isFloat = false) :
    (valText fl t v).length < kvStrSz := by
  cases typed with
  | @int _ lo hi v range low high =>
    rw [valText_int range]
    have bounds := range_bounds range
    have top : uint64Max = 2 ^ 64 - 1 := rfl
    have bottom : int64Min = -2 ^ 63 := rfl
    split
    · split <;> decide
    · have := length_intText_le (v := v) (by omega) (by omega)
      simp only [kvStrSz]
      omega
  | str len => exact len
  | flt float => rw [float] at exact; cases exact

theorem valToStr_eq (typed : Typed t v) (exact : t.isFloat = false) :
    valToStr fl t v kvValBuf = valText fl t v := by
  have short := length_valText_lt fl typed exact
  refine bounded_of_lt ?_
  simp only [kvStrSz, kvValBuf] at short ⊢
  omega

theorem strToVal_valToStr (fl : Floats F) (typed : Typed t v) (exact : t.isFloat = false) :
    strToVal fl t (valToStr fl t v kvValBuf) = some v := by
  rw [valToStr_eq typed exact]
  cases typed with
  | @int _ lo hi v range low high =>
    rw [valText_int range]
    split
    next isBool =>
      subst isBool
      cases range
      split
      next nonzero =>
        obtain rfl : v = 1 := by omega
        rfl
      next zero =>
        obtain rfl : v = 0 := by omega
        rfl
    next => exact strToVal_intText fl range low high
  | str len =>
    simp only [strToVal, valText, Val.text]
    rw [bounded_of_lt len]
  | flt float => rw [float] at exact; cases exact

theorem valChanged_eq_false {old new : Val F} (typed : Typed t old) (typed' : Typed t new)
    (exact : t.isFloat = false) : valChanged fl t old new = false ↔ old = new := by
  constructor
  · intro same
    simp only [valChanged] at same
    split at same
    next isStr =>
      subst isStr
      cases typed with
      | int range => cases range
      | flt float => cases float
      | str len =>
        cases typed' with
        | int range => cases range
        | flt float => cases float
        | str len' =>
          have contents := of_decide_eq_false same
          rw [not_not] at contents
          exact congrArg Val.str contents
    next =>
      have texts : valToStr fl t old kvValBuf = valToStr fl t new kvValBuf := by simpa using same
      have parsed := strToVal_valToStr fl typed exact
      rw [texts, strToVal_valToStr fl typed' exact] at parsed
      exact (Option.some.inj parsed).symm
  · rintro rfl
    simp only [valChanged]
    split <;> simp

end BotManager.KvValue
