import BotManager.KvTable

/-! `kv_set` with the decimal text of an integer against `kv_set_int` and `kv_set_uint`
with the integer itself, on entries of an integer type. They agree wherever the text
conversion neither saturates at the 64-bit edge nor wraps a negative number into the
range of an unsigned type; there `kv_set` accepts what the typed setters refuse. -/

namespace BotManager.KvSetters
open CText ChainedTable KvValue KvTable

variable {F D : Type} {w : World F D}

theorem setWith_of_found {key : Bytes} {s : Store F D} {e : Entry F}
    (found : findLocked key s = some e) :
    setWith w key convert s = match convert e.type with
      | none => (.fail, s)
      | some new => applyVal w e new s := by
  cases converted : convert e.type with
  | none | some new => simp only [setWith, found, converted]

theorem applyVal_status : (applyVal w e new s).1 = .success := by
  simp only [applyVal]
  split <;> rfl

def ranged (lo hi v : ℤ) : Option (Val F) := if lo ≤ v ∧ v ≤ hi then some (.int v) else none

theorem within_eq_ranged : within lo hi v = (ranged lo hi v : Option (Val F)) := by
  simp only [within, ranged]
  by_cases fits : lo ≤ v ∧ v ≤ hi
  · rw [if_pos fits, if_neg (by omega)]
  · rw [if_neg fits, if_pos (by omega)]

variable {hi lo v : ℤ} {t : KvType} {x : Val F}

theorem atMost_eq_ranged (low : lo ≤ v) : atMost hi v = (ranged lo hi v : Option (Val F)) := by
  simp only [atMost, ranged]
  by_cases fits : v ≤ hi
  · rw [if_neg (by omega), if_pos ⟨low, fits⟩]
  · rw [if_pos (by omega), if_neg (by omega)]

variable (range : t.range = some (lo, hi))
include range

theorem intVal_eq_ranged (low : int64Min ≤ v)
    (high : v ≤ int64Max) : intVal v t = (ranged lo hi v : Option (Val F)) := by
  have top : uint64Max = 2 ^ 64 - 1 := rfl
  have top' : int64Max = 2 ^ 63 - 1 := rfl
  cases t with
  | float | double | ldouble | str => cases range
  | int8 | uint8 | int16 | uint16 | int32 | uint32 | bool =>
    cases range
    exact within_eq_ranged
  | int64 =>
    cases range
    simp only [intVal, ranged]
    rw [if_pos ⟨low, high⟩]
  | uint64 =>
    cases range
    simp only [intVal, ranged]
    by_cases neg : v < 0
    · rw [if_pos neg, if_neg (by omega)]
    · rw [if_neg neg, if_pos (by omega)]

theorem uintVal_eq_ranged (low : 0 ≤ v) (high : v ≤ uint64Max) :
    uintVal v t = (ranged lo hi v : Option (Val F)) := by
  have bottom : int64Min = -2 ^ 63 := rfl
  cases t with
  | float | double | ldouble | str => cases range
  | int8 | uint8 | int16 | uint16 | int32 | uint32 | int64 | bool =>
    cases range
    exact atMost_eq_ranged (by omega)
  | uint64 =>
    cases range
    simp only [uintVal, ranged]
    rw [if_pos ⟨low, high⟩]

theorem typed_ranged (h : ranged lo hi v = some x) :
    Typed t x := by
  simp only [ranged] at h
  split at h
  next fits =>
    cases h
    exact .int range fits.1 fits.2
  next => cases h

omit range

theorem typed_intVal (low : int64Min ≤ v) (high : v ≤ int64Max) (h : intVal v t = some x) :
    Typed t x := by
  cases t with
  | float | double | ldouble | str => cases h
  | int8 | uint8 | int16 | uint16 | int32 | uint32 | int64 | uint64 | bool =>
    rw [intVal_eq_ranged rfl low high] at h
    exact typed_ranged rfl h

theorem typed_uintVal (low : 0 ≤ v) (high : v ≤ uint64Max) (h : uintVal v t = some x) :
    Typed t x := by
  cases t with
  | float | double | ldouble | str => cases h
  | int8 | uint8 | int16 | uint16 | int32 | uint32 | int64 | uint64 | bool =>
    rw [uintVal_eq_ranged rfl low high] at h
    exact typed_ranged rfl h

theorem typed_realVal {x : F} {y : Val F} (h : realVal w x t = some y) : Typed t y := by
  simp only [realVal] at h
  split at h
  next float =>
    cases h
    exact .flt float
  next => cases h

/-- A negative integer whose text `strtoull` wraps into the range of an unsigned type. -/
def wrapsInto (hi v : ℤ) : Prop := -2 ^ 64 < v ∧ v < 0 ∧ v + 2 ^ 64 ≤ hi

instance (hi v : ℤ) : Decidable (wrapsInto hi v) := inferInstanceAs (Decidable (_ ∧ _ ∧ _))

def Converts : KvType → ℤ → Prop
  | .int64, v => int64Min ≤ v ∧ v ≤ int64Max
  | .uint64, v => 0 ≤ v ∧ v ≤ uint64Max
  | .uint8, v => ¬ wrapsInto (2 ^ 8 - 1) v
  | .uint16, v => ¬ wrapsInto (2 ^ 16 - 1) v
  | .uint32, v => ¬ wrapsInto (2 ^ 32 - 1) v
  | _, _ => True

theorem wrapped_of_wraps (wraps : wrapsInto hi v) : wrapped v = v + 2 ^ 64 := by
  obtain ⟨low, neg, _⟩ := wraps
  have top : uint64Max = 2 ^ 64 - 1 := rfl
  rw [wrapped, abs_of_neg neg, if_neg (by omega)]
  omega

theorem wrapped_of_not_wraps (small : hi < uint64Max) (keeps : ¬ wrapsInto hi v)
    (lands : wrapped v ≤ hi) : 0 ≤ v ∧ wrapped v = v := by
  have top : uint64Max = 2 ^ 64 - 1 := rfl
  simp only [wrapped] at lands ⊢
  split at lands
  · omega
  next fits =>
    rw [if_neg fits]
    by_cases neg : v < 0
    · rw [abs_of_neg neg] at fits
      exact absurd ⟨by omega, neg, by omega⟩ keeps
    · rw [abs_of_nonneg (not_lt.mp neg)] at fits
      omega

theorem unsignedVal_of_wraps (small : hi < uint64Max) :
    unsignedVal hi (intText v) = (if wrapsInto hi v then some (.int (v + 2 ^ 64)) else
      ranged 0 hi v : Option (Val F)) := by
  rw [unsignedVal_intText]
  by_cases wraps : wrapsInto hi v
  · have lands := wraps.2.2
    rw [if_pos wraps, wrapped_of_wraps wraps, if_neg (by omega)]
  · rw [if_neg wraps, ranged]
    by_cases fits : 0 ≤ v ∧ v ≤ hi
    · rw [if_pos fits, wrapped_of_fits fits.1 (by omega), if_neg (by omega)]
    · rw [if_neg fits, if_pos]
      by_contra lands
      have := wrapped_of_not_wraps small wraps (not_lt.mp lands)
      omega

theorem strToVal_of_converts (fl : Floats F) (range : t.range = some (lo, hi)) (conv : Converts t v) :
    strToVal fl t (intText v) = ranged lo hi v := by
  by_cases fits : lo ≤ v ∧ v ≤ hi
  · rw [strToVal_intText fl range fits.1 fits.2, ranged, if_pos fits]
  · have top : uint64Max = 2 ^ 64 - 1 := rfl
    have bottom : int64Min = -2 ^ 63 := rfl
    have top' : int64Max = 2 ^ 63 - 1 := rfl
    cases t with
    | float | double | ldouble | str => cases range
    | int8 | int16 | int32 =>
      cases range
      exact signedVal_intText (by omega) v
    | uint8 | uint16 | uint32 =>
      cases range
      exact (unsignedVal_of_wraps (by omega)).trans (if_neg conv)
    | int64 | uint64 =>
      cases range
      exact absurd conv fits
    | bool =>
      cases range
      exact boolVal_intText v

theorem accepts_of_not_converts (fl : Floats F) (range : t.range = some (lo, hi))
    (wrong : ¬ Converts t v) : ¬ (lo ≤ v ∧ v ≤ hi) ∧ ∃ x, strToVal fl t (intText v) = some x := by
  have top : uint64Max = 2 ^ 64 - 1 := rfl
  cases t with
  | float | double | ldouble | str => cases range
  | int8 | int16 | int32 | bool => exact absurd trivial wrong
  | uint8 | uint16 | uint32 =>
    cases range
    have wraps := not_not.mp wrong
    have neg := wraps.2.1
    exact ⟨by omega, _, (unsignedVal_of_wraps (by omega)).trans (if_pos wraps)⟩
  | int64 =>
    cases range
    exact ⟨wrong, _, by simp only [strToVal, strtoll_intText, wholeVal]; rfl⟩
  | uint64 =>
    cases range
    exact ⟨wrong, _, by simp only [strToVal, strtoull_intText, wholeVal]; rfl⟩

structure Agree (w : World F D) (key : Bytes) (lo hi v : ℤ) (s : Store F D) : Prop where
  int : int64Min ≤ v → v ≤ int64Max → kvSet w key (intText v) s = kvSetInt w key v s
  uint : 0 ≤ v → v ≤ uint64Max → kvSet w key (intText v) s = kvSetUint w key v s
  outside : ¬ (lo ≤ v ∧ v ≤ hi) → kvSet w key (intText v) s = (.fail, s)

theorem setters_agree_iff {key : Bytes} {s : Store F D} {e : Entry F} {lo hi : ℤ}
    (found : findLocked key s = some e) (range : e.type.range = some (lo, hi)) (v : ℤ) :
    Agree w key lo hi v s ↔ Converts e.type v := by
  constructor
  · intro agree
    by_contra wrong
    obtain ⟨out, x, accepted⟩ := accepts_of_not_converts w.floats range wrong
    have refused := congrArg Prod.fst (agree.outside out)
    simp only [kvSet, setWith_of_found found, accepted, applyVal_status] at refused
    cases refused
  · intro conv
    have text := strToVal_of_converts w.floats range conv
    refine ⟨fun low high => ?_, fun low high => ?_, fun out => ?_⟩
    · rw [kvSet, kvSetInt, setWith_of_found found, setWith_of_found found, text,
        intVal_eq_ranged range low high]
    · rw [kvSet, kvSetUint, setWith_of_found found, setWith_of_found found, text,
        uintVal_eq_ranged range low high]
    · rw [kvSet, setWith_of_found found, text, ranged, if_neg out]

def sampleStore (type : KvType) : Store Unit Unit :=
  insertEntry (sampleDecl (ascii "n") type) (.int 0) (emptyStore ())

theorem found_sample (type : KvType) : findLocked (ascii "n") (sampleStore type) =
    some (declared (sampleDecl (ascii "n") type) (.int 0)) := by
  have short : (sampleDecl (ascii "n") type).key.length < kvKeySz := by
    change (ascii "n").length < kvKeySz
    decide
  rw [sampleStore, findLocked_insertEntry short]
  exact if_pos rfl

theorem setters_agree_int8 : Agree blankWorld (ascii "n") (-2 ^ 7) (2 ^ 7 - 1) 300 (sampleStore .int8) :=
  (setters_agree_iff (found_sample .int8) rfl 300).mpr trivial

/-- `kv_set` of "9223372036854775808" on an INT64 entry stores the largest `int64_t`. -/
theorem not_setters_agree : ¬ ∀ (key : Bytes) (s : Store Unit Unit) (e : Entry Unit) (lo hi v : ℤ),
    findLocked key s = some e → e.type.range = some (lo, hi) → Agree blankWorld key lo hi v s := by
  intro all
  have agree := all (ascii "n") (sampleStore .int64) _ _ _ (2 ^ 63) (found_sample .int64) rfl
  have refused := congrArg Prod.fst (agree.outside (by decide))
  rw [kvSet, setWith_of_found (found_sample .int64)] at refused
  simp only [declared, sampleDecl, strToVal, strtoll_intText, wholeVal, applyVal_status] at refused
  cases refused

end BotManager.KvSetters
