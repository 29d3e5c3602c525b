import BotManager.WhenModel
import Mathlib.Data.Nat.Bitwise

/-!
Every moment that `when_parse` accepts can be stored: its zone may be quoted into SQL, its minute,
days and seconds are in range, and a repeat comes back from its columns as the same rule. The
duration was computed without a wrap-around: arithmetic that agrees with that of numbers below
`2 ^ 64`, whatever it does beyond, gives the same parse.
-/

namespace BotManager.WhenStored
open List CText TextSearch WhenModel

/-! ## Tables -/

variable {α : Type} {norm s : Bytes} {dow m total : ℕ} {day : ℕ × ℕ × ℕ} {ampm : Option ℕ} {kind : Kind}

theorem lookup_mem {table : List (String × α)} {name : Bytes} {value : α}
    (found : lookup table name = some value) : ∃ e ∈ table, e.2 = value := by
  obtain ⟨e, there, same⟩ := Option.map_eq_some_iff.mp found
  exact ⟨e, mem_of_find?_eq_some there, same⟩

theorem whenWeekday_le (found : whenWeekday norm = some dow) : dow ≤ 6 := by
  obtain ⟨e, mem, rfl⟩ := lookup_mem found
  have all : ∀ e ∈ whenWeekdays, e.2 ≤ 6 := by decide
  exact all e mem

theorem whenUnit_le : whenUnit s ≤ 604800 := by
  unfold whenUnit
  cases found : lookup whenUnits s with
  | none => exact Nat.zero_le _
  | some secs =>
    obtain ⟨e, mem, rfl⟩ := lookup_mem found
    have all : ∀ e ∈ whenUnits, e.2 ≤ 604800 := by decide
    exact all e mem

theorem whenAmpm_le {half : ℕ} (found : whenAmpm s = some half) : half ≤ 12 := by
  revert found
  fun_cases whenAmpm s with
  | case1 | case2 =>
    rintro ⟨⟩
    omega
  | case3 => nofun

/-! ## Zones -/

/-- A zone name that may be quoted into SQL and fits its column. -/
structure ZoneSafe (tz : Bytes) : Prop where
  chars : ∀ c ∈ tz, isZoneChar c = true
  noDots : ¬ ascii ".." <:+: tz
  short : tz.length < tzSize
  valid : whenZoneValid tz = true

variable {tz p q : Bytes} {w : Word} {localTz : Option Bytes} {out out' : When}
    {mask minute n secs : ℕ} {have' have_ : Have}

theorem zoneSafe_of_valid (valid : whenZoneValid tz = true) (short : tz.length < tzSize) :
    ZoneSafe tz := by
  have parts := valid
  simp only [whenZoneValid, Bool.and_eq_true, decide_eq_true_eq, all_eq_true] at parts
  exact ⟨parts.2, fun inside => find_of_infix inside parts.1.2, short, valid⟩

theorem zoneSafe_table {zone : String} (found : lookup whenZones norm = some zone) :
    ZoneSafe (ascii zone) := by
  obtain ⟨e, mem, rfl⟩ := lookup_mem found
  have all : ∀ e ∈ whenZones, whenZoneValid (ascii e.2) = true ∧ (ascii e.2).length < tzSize := by
    decide +kernel
  exact zoneSafe_of_valid (all e mem).1 (all e mem).2

theorem raw_short (found : whenNextWord p = some w) : w.raw.length < tzSize := by
  unfold whenNextWord at found
  dsimp only at found
  split at found
  next => cases found
  next =>
    cases found
    dsimp only
    split
    next => exact Nat.zero_lt_succ _
    next fits => exact not_le.mp fits

theorem zoneSafe_zoneOf {zone : Bytes} (word : whenNextWord p = some w)
    (found : zoneOf w = some zone) : ZoneSafe zone := by
  unfold zoneOf at found
  rcases Option.or_eq_some_iff.mp found with named | ⟨-, spelled⟩
  · obtain ⟨entry, -⟩ := Option.filter_eq_some_iff.mp named
    obtain ⟨name, there, rfl⟩ := Option.map_eq_some_iff.mp entry
    exact zoneSafe_table there
  · split at spelled
    next checked =>
      cases spelled
      simp only [Bool.and_eq_true] at checked
      exact zoneSafe_of_valid checked.1.2 (raw_short word)
    next => cases spelled

theorem whenTryZone_found (found : whenTryZone p = some (tz, q)) : ZoneSafe tz ∧ q <:+ p := by
  revert found
  fun_cases whenTryZone p with
  | case1 | case2 => nofun
  | case3 w word =>
    intro found
    obtain ⟨zone, named, same⟩ := Option.map_eq_some_iff.mp found
    cases same
    have safe := zoneSafe_zoneOf word named
    refine ⟨(bounded_of_lt safe.short).symm ▸ safe, ?_⟩
    split
    next => exact rest_suffix word
    next nx time =>
      exact (rest_suffix (Option.filter_eq_some_iff.mp time).1).trans (rest_suffix word)

theorem whenFinishZone_ok (named : out.tzNamed = true → ZoneSafe out.tz)
    (finished : whenFinishZone localTz out = .ok out') :
    ZoneSafe out'.tz ∧ out' = { out with tz := out'.tz } := by
  revert finished
  fun_cases whenFinishZone localTz out with
  | case1 yes =>
    rintro ⟨⟩
    exact ⟨named yes, rfl⟩
  | case2 _ z found =>
    rintro ⟨⟩
    have checked := (Option.filter_eq_some_iff.mp found).2
    simp only [Bool.and_eq_true, decide_eq_true_eq] at checked
    exact ⟨zoneSafe_of_valid checked.1 checked.2, rfl⟩
  | case3 => nofun

/-! ## Days -/

def DaysFine (days : ℕ) : Prop := 0 < days ∧ days < 2 ^ 7

theorem day_lt (le : dow ≤ 6) : 1 <<< dow < 2 ^ 7 := by
  rw [Nat.shiftLeft_eq, Nat.one_mul]
  exact Nat.pow_lt_pow_right (by decide) (by omega)

theorem day_pos : 0 < 1 <<< dow := by
  rw [Nat.shiftLeft_eq, Nat.one_mul]
  exact Nat.two_pow_pos dow

theorem maskOf_lt {pieces : List Bytes} (small : mask < 2 ^ 7) : maskOf mask pieces < 2 ^ 7 := by
  fun_induction maskOf mask pieces with
  | case1 => exact small
  | case2 | case3 => decide
  | case4 mask piece pieces _ dow found ih =>
    exact ih (Nat.or_lt_two_pow small (day_lt (whenWeekday_le found)))

theorem whenWeekdayList_lt (norm : Bytes) : whenWeekdayList norm < 2 ^ 7 := maskOf_lt (by decide)

theorem DaysFine.or {more : ℕ} (fine : DaysFine mask) (small : more < 2 ^ 7) :
    DaysFine (mask ||| more) := by
  refine ⟨?_, Nat.or_lt_two_pow fine.2 small⟩
  exact lt_of_lt_of_le fine.1 Nat.left_le_or

theorem moreDays_fine (fine : DaysFine mask) :
    DaysFine (moreDays mask p).1 ∧ (moreDays mask p).2 <:+ p := by
  fun_induction moreDays mask p with
  | case1 mask p | case2 mask p | case3 mask p | case4 mask p | case7 mask p =>
    exact ⟨fine, suffix_refl _⟩
  | case5 mask p nx next _ _ d day _ ih =>
    obtain ⟨days, tail⟩ := ih (fine.or (whenWeekdayList_lt d.norm))
    exact ⟨days, tail.trans ((rest_suffix day).trans (rest_suffix next))⟩
  | case6 mask p nx next _ _ _ ih =>
    obtain ⟨days, tail⟩ := ih (fine.or (whenWeekdayList_lt nx.norm))
    exact ⟨days, tail.trans (rest_suffix next)⟩

theorem firstDays_lt (w : Word) : firstDays w < 2 ^ 7 := by
  unfold firstDays
  split_ifs
  · decide
  · decide
  · decide
  · exact whenWeekdayList_lt w.norm

theorem whenTryDays_found {days : ℕ} (found : whenTryDays p = some (days, q)) :
    DaysFine days ∧ q <:+ p := by
  revert found
  fun_cases whenTryDays p with
  | case1 | case2 => nofun
  | case3 w word some_ =>
    intro found
    have positive : firstDays w ≠ 0 := by
      intro zero
      simp [zero] at some_
    have fine := moreDays_fine (p := w.rest) ⟨Nat.pos_of_ne_zero positive, firstDays_lt w⟩
    rw [Option.some.inj found] at fine
    exact ⟨fine.1, fine.2.trans (rest_suffix word)⟩

theorem whenTryDayword_found (found : whenTryDayword p = some (day, q)) :
    DaysFine day.1 ∧ q <:+ p := by
  revert found
  fun_cases whenTryDayword p with
  | case1 | case2 => nofun
  | case3 w word | case4 w word =>
    rintro ⟨⟩
    exact ⟨by unfold DaysFine; decide, rest_suffix word⟩
  | case5 w word =>
    intro found
    obtain ⟨dow, named, same⟩ := Option.map_eq_some_iff.mp found
    cases same
    exact ⟨⟨day_pos, day_lt (whenWeekday_le named)⟩, rest_suffix word⟩

/-! ## Times -/

theorem timeOf_lt {h : ℕ} {colon : Bool}
    (halves : ∀ half, ampm = some half → half ≤ 12) (read : timeOf h m colon ampm = .ok minute) :
    minute < 1440 := by
  revert read
  fun_cases timeOf h m colon ampm with
  | case3 small half =>
    rintro ⟨⟩
    have bound := halves half rfl
    have hour := Nat.mod_lt h (by decide : 0 < 12)
    omega
  | case6 =>
    rintro ⟨⟩
    omega
  | _ => nofun

theorem readHalf_found {rest : Bytes} (read : readHalf s rest = some (ampm, q)) :
    (∀ half, ampm = some half → half ≤ 12) ∧ q <:+ rest := by
  have none (half : ℕ) : none = some half → half ≤ 12 := nofun
  revert read
  fun_cases readHalf s rest with
  | case1 =>
    intro read
    obtain ⟨half, found, same⟩ := Option.map_eq_some_iff.mp read
    cases same
    refine ⟨fun other same => ?_, suffix_refl _⟩
    cases same
    exact whenAmpm_le found
  | case2 | case3 =>
    rintro ⟨⟩
    exact ⟨none, suffix_refl _⟩
  | case4 _ nx word half found =>
    rintro ⟨⟩
    refine ⟨fun other same => ?_, rest_suffix word⟩
    cases same
    exact whenAmpm_le found

theorem whenTryTime_found {afterAt : Bool} (found : whenTryTime p afterAt = .found (minute, q)) :
    minute < 1440 ∧ q <:+ p := by
  revert found
  fun_cases whenTryTime p afterAt with
  | case3 w word | case4 w word =>
    rintro ⟨⟩
    exact ⟨by decide, rest_suffix word⟩
  | case10 w word _ _ _ _ _ m colon s _ ampm rest half _ minute read =>
    rintro ⟨⟩
    obtain ⟨halves, tail⟩ := readHalf_found half
    exact ⟨timeOf_lt halves read, tail.trans (rest_suffix word)⟩
  | _ => nofun

theorem whenTryAtTime_found (found : whenTryAtTime p = .found (minute, q)) :
    minute < 1440 ∧ q <:+ p := by
  revert found
  fun_cases whenTryAtTime p with
  | case1 => exact whenTryTime_found
  | case2 => nofun
  | case3 w word =>
    intro found
    obtain ⟨small, tail⟩ := whenTryTime_found found
    exact ⟨small, tail.trans (rest_suffix (Option.filter_eq_some_iff.mp word).1)⟩

/-! ## The loops -/

structure Sane (out : When) : Prop where
  minute : out.minute < 1440
  zone : out.tzNamed = true → ZoneSafe out.tz
  days : DaysFine out.days

theorem Sane.atTime (sane : Sane out) (small : minute < 1440) :
    Sane { out with minute := minute } := ⟨small, sane.zone, sane.days⟩

theorem Sane.inZone (sane : Sane out) (safe : ZoneSafe tz) :
    Sane { out with tz := tz, tzNamed := true } := ⟨sane.minute, fun _ => safe, sane.days⟩

theorem Sane.onDay (sane : Sane out) (fine : DaysFine day.1) :
    Sane (out.onDay day) := ⟨sane.minute, sane.zone, fine⟩

structure Onward (out : When) (p : Bytes) (out' : When) (q : Bytes) : Prop where
  sane : Sane out'
  kind : out'.kind = out.kind
  secs : out'.secs = out.secs
  tail : q <:+ p

theorem Onward.trans {out'' : When} {r : Bytes} (first : Onward out p out' q)
    (second : Onward out' q out'' r) : Onward out p out'' r :=
  ⟨second.sane, second.kind.trans first.kind, second.secs.trans first.secs,
    second.tail.trans first.tail⟩

variable (sane : Sane out)
include sane

theorem Onward.refl (p : Bytes) : Onward out p out p :=
  ⟨sane, rfl, rfl, suffix_refl p⟩

theorem everyLoop_onward {haveTime haveZone found : Bool}
    (ran : everyLoop out haveTime haveZone p = .ok (out', found, q)) : Onward out p out' q := by
  fun_induction everyLoop out haveTime haveZone p with
  | case1 | case4 | case5 | case7 =>
    cases ran
    exact .refl sane _
  | case2 => cases ran
  | case3 out haveZone p _ minute r time ih =>
    obtain ⟨small, tail⟩ := whenTryAtTime_found time
    exact .trans ⟨sane.atTime small, rfl, rfl, tail⟩ (ih (sane.atTime small) ran)
  | case6 out haveTime p _ _ tz r zone ih =>
    obtain ⟨safe, tail⟩ := whenTryZone_found zone
    exact .trans ⟨sane.inZone safe, rfl, rfl, tail⟩ (ih (sane.inZone safe) ran)

theorem timeOrZone_onward (went : timeOrZone out have_ p = .goOn out' have' q) :
    Onward out p out' q := by
  revert went
  fun_cases timeOrZone out have_ p with
  | case2 _ minute r time =>
    rintro ⟨⟩
    obtain ⟨small, tail⟩ := whenTryAtTime_found time
    exact ⟨sane.atTime small, rfl, rfl, tail⟩
  | case5 _ _ tz r zone =>
    rintro ⟨⟩
    obtain ⟨safe, tail⟩ := whenTryZone_found zone
    exact ⟨sane.inZone safe, rfl, rfl, tail⟩
  | _ => rintro ⟨⟩

theorem clockRound_onward (word : whenNextWord p = some w)
    (went : clockRound out have_ p w = .goOn out' have' q) : Onward out p out' q := by
  revert went
  fun_cases clockRound out have_ p w with
  | case1 _ _ day r named =>
    rintro ⟨⟩
    obtain ⟨fine, tail⟩ := whenTryDayword_found named
    exact ⟨sane.onDay fine, rfl, rfl, tail.trans (rest_suffix word)⟩
  | case2 | case3 => rintro ⟨⟩
  | case4 _ _ day r named =>
    rintro ⟨⟩
    obtain ⟨fine, tail⟩ := whenTryDayword_found named
    exact ⟨sane.onDay fine, rfl, rfl, tail⟩
  | case5 | case6 => exact timeOrZone_onward sane

theorem clockLoop_onward (ran : clockLoop out have_ p = .ok (out', have', q)) :
    Onward out p out' q := by
  fun_induction clockLoop out have_ p with
  | case1 | case3 =>
    cases ran
    exact .refl sane _
  | case2 out have_ p w word out₁ have₁ r went ih =>
    have first := clockRound_onward sane word went
    exact first.trans (ih first.sane ran)
  | case4 => cases ran

omit sane

/-! ## Durations without a wrap-around -/

/-- The arithmetic is exact below `2 ^ 64`; nothing is said about what it does beyond. -/
def Exact (wrap : ℕ → ℕ) : Prop := ∀ n, n < 2 ^ 64 → wrap n = n

theorem exact_u64 : Exact u64 := fun _ small => Nat.mod_eq_of_lt small

section Exact

variable {wrap : ℕ → ℕ}

theorem digit_lt (c : UInt8) : c.toNat - 48 < 256 :=
  lt_of_le_of_lt (Nat.sub_le _ _) c.toNat_lt

theorem readNumber_le (small : n ≤ durationMax) (read : readNumber id n p = some (m, q)) :
    m ≤ durationMax := by
  revert read
  fun_induction readNumber id n p with
  | case1 | case4 =>
    rintro ⟨⟩
    exact small
  | case2 => rintro ⟨⟩
  | case3 n c p _ fits ih => exact ih (not_lt.mp fits)

theorem readPairs_cons (total : ℕ) (tail : Bytes) :
    readPairs wrap total (c :: tail) =
      if isDigit c = true then
        match readNumber wrap 0 (c :: tail) with
        | none => 0
        | some (n, q) =>
          match readUnit [] q with
          | none => 0
          | some (name, r) =>
            if whenUnit name = 0 then 0
            else if durationMax < wrap (total + wrap (n * whenUnit name)) then 0
            else readPairs wrap (wrap (total + wrap (n * whenUnit name))) r
      else 0 := by
  rw [readPairs]
  split
  next =>
    split
    next missing => rw [missing]
    next n q read =>
      rw [read]
      dsimp only
      split
      next missing => rw [missing]
      next name r named => rw [named]
  next => rfl

theorem readPairs_le (small : total ≤ durationMax) : readPairs id total p ≤ durationMax := by
  fun_induction readPairs id total p with
  | case1 => exact small
  | case2 | case3 | case4 | case5 | case7 => exact Nat.zero_le _
  | case6 total c tail digit n q number name r unit known fits ih => exact ih (not_lt.mp fits)

theorem whenParseDuration_le : whenParseDuration id tok ≤ durationMax := by
  fun_cases whenParseDuration id tok with
  | case1 => exact Nat.zero_le _
  | case2 =>
    cases read : readNumber id 0 tok with
    | none => exact Nat.zero_le _
    | some pair => exact readNumber_le (Nat.zero_le _) read
  | case3 => exact readPairs_le (Nat.zero_le _)

variable (exact_ : Exact wrap)
include exact_

theorem next_exact (small : n ≤ durationMax) (c : UInt8) :
    wrap (wrap (n * 10) + (c.toNat - 48)) = n * 10 + (c.toNat - 48) := by
  have digit := digit_lt c
  unfold durationMax at small
  rw [exact_ (n * 10) (by omega), exact_ _ (by omega)]

theorem readNumber_exact (small : n ≤ durationMax) (p : Bytes) :
    readNumber wrap n p = readNumber id n p := by
  induction p generalizing n with
  | nil => rfl
  | cons c p ih =>
    simp only [readNumber, next_exact exact_ small c, id]
    split
    next =>
      split
      next => rfl
      next fits => exact ih (not_lt.mp fits)
    next => rfl

theorem product_exact (small : n ≤ durationMax) (name : Bytes) :
    wrap (n * whenUnit name) = n * whenUnit name ∧ n * whenUnit name ≤ durationMax * 604800 := by
  have bound : n * whenUnit name ≤ durationMax * 604800 := Nat.mul_le_mul small whenUnit_le
  refine ⟨exact_ _ (lt_of_le_of_lt bound ?_), bound⟩
  decide

theorem readPairs_exact (small : total ≤ durationMax) (p : Bytes) :
    readPairs wrap total p = readPairs id total p := by
  induction size : p.length using Nat.strong_induction_on generalizing total p with
  | _ k ih =>
    cases p with
    | nil => rw [readPairs, readPairs]
    | cons c tail =>
      rw [readPairs_cons, readPairs_cons, readNumber_exact exact_ (Nat.zero_le _)]
      split
      next digit =>
        cases read : readNumber id 0 (c :: tail) with
        | none => rfl
        | some pair =>
          obtain ⟨n, q⟩ := pair
          have fits := readNumber_le (Nat.zero_le _) read
          dsimp only
          cases named : readUnit [] q with
          | none => rfl
          | some pair =>
            obtain ⟨name, r⟩ := pair
            obtain ⟨product, bound⟩ := product_exact exact_ fits name
            have sum : wrap (total + n * whenUnit name) = total + n * whenUnit name := by
              refine exact_ _ (lt_of_le_of_lt (Nat.add_le_add small bound) ?_)
              decide
            have shorter : r.length < k := by
              have first := readNumber_shorter digit read
              have second := (readUnit_suffix named).length_le
              rw [← size, length_cons]
              omega
            simp only [product, sum, id]
            split
            next => rfl
            next =>
              split
              next => rfl
              next fits => exact ih r.length shorter (not_lt.mp fits) r rfl
      next => rfl

theorem whenParseDuration_exact (tok : Bytes) :
    whenParseDuration wrap tok = whenParseDuration id tok := by
  unfold whenParseDuration
  rw [readNumber_exact exact_ (Nat.zero_le _), readPairs_exact exact_ (Nat.zero_le _)]

theorem whenTryDuration_exact : whenTryDuration wrap p = whenTryDuration id p := by
  unfold whenTryDuration
  cases whenNextWord p with
  | none => rfl
  | some w =>
    have scaled (name : Bytes) : wrap (whenParseDuration id w.norm * whenUnit name) =
        id (whenParseDuration id w.norm * whenUnit name) :=
      (product_exact exact_ whenParseDuration_le name).1
    simp only [whenParseDuration_exact exact_, scaled]

theorem whenParseEvery_exact :
    whenParseEvery wrap localTz p daily = whenParseEvery id localTz p daily := by
  unfold whenParseEvery
  rw [whenTryDuration_exact exact_]

theorem whenParse_exact : whenParse wrap localTz text = whenParse id localTz text := by
  unfold whenParse parseMoment
  simp only [whenTryDuration_exact exact_, whenParseEvery_exact exact_]

end Exact

/-! ## What a parse returns -/

structure Storable (out : When) : Prop where
  zone : out.tz = [] ∨ ZoneSafe out.tz
  minute : out.minute < 1440
  days : out.kind = .weekly ∨ out.kind = .clock → DaysFine out.days
  secs : out.kind = .delay ∨ out.kind = .every → 1 ≤ out.secs ∧ out.secs ≤ durationMax

/-- The rule of a repeat: what its columns have to bring back. -/
def When.rule (out : When) : Kind × ℕ × ℕ × ℕ × Bytes :=
  (out.kind, out.secs, out.days, out.minute, out.tz)

def Restores (out : When) : Prop :=
  (out.kind = .every ∨ out.kind = .weekly) → ∃ back,
    whenRepeatRestore out.columns.repeatSecs out.columns.repeatDays out.columns.repeatMinute
      out.columns.tz = some back ∧ When.rule back = When.rule out

theorem bind_ok {β : Type} {x : Except String α} {f : α → Except String β} {b : β}
    (ran : (x >>= f) = .ok b) : ∃ a, x = .ok a ∧ f a = .ok b := by
  cases x with
  | error why => cases ran
  | ok a => exact ⟨a, rfl, ran⟩

variable {wrap : ℕ → ℕ}

theorem whenTryDuration_found (found : whenTryDuration wrap p = some (secs, q)) :
    (1 ≤ secs ∧ secs ≤ durationMax) ∧ q <:+ p := by
  revert found
  fun_cases whenTryDuration wrap p with
  | case1 | case2 => nofun
  | case3 w word _ more _ read =>
    intro found
    obtain ⟨read_, bounds⟩ := Option.filter_eq_some_iff.mp found
    simp only [Bool.and_eq_true, decide_eq_true_eq] at bounds
    refine ⟨⟨Nat.one_le_iff_ne_zero.mpr bounds.1, bounds.2⟩, ?_⟩
    have here : w.rest <:+ p := rest_suffix word
    dsimp only [read, more] at read_
    split at read_
    next =>
      obtain ⟨-, rfl⟩ := Prod.mk.inj (Option.some.inj read_)
      exact here
    next nx next =>
      split_ifs at read_
      all_goals obtain ⟨-, rfl⟩ := Prod.mk.inj (Option.some.inj read_)
      · exact (rest_suffix (Option.filter_eq_some_iff.mp next).1).trans here
      · exact here
      · exact here

theorem storable_secs (plain : kind = .delay ∨ kind = .every)
    (fine : 1 ≤ secs ∧ secs ≤ durationMax) :
    Storable { When.zero with kind := kind, secs := secs } := by
  refine ⟨.inl rfl, Nat.zero_lt_succ 1439, fun clock => ?_, fun _ => fine⟩
  rcases plain with rfl | rfl <;> simp at clock

theorem storable_clock (sane : Sane out) (safe : ZoneSafe out.tz)
    (clock : out.kind = .weekly ∨ out.kind = .clock) : Storable out := by
  refine ⟨.inr safe, sane.minute, fun _ => sane.days, fun plain => ?_⟩
  rcases clock with same | same <;> simp [same] at plain

structure Parsed (p : Bytes) (out : When) (q : Bytes) : Prop where
  storable : Storable out
  tail : q <:+ p
  weekly : out.kind = .weekly → out.secs = 0 ∧ ZoneSafe out.tz
  every : out.kind = .every → out.days = 0 ∧ out.minute = 0 ∧ out.tz = []

theorem parsed_secs (plain : kind = .delay ∨ kind = .every)
    (fine : 1 ≤ secs ∧ secs ≤ durationMax) (tail : q <:+ p) :
    Parsed p { When.zero with kind := kind, secs := secs } q := by
  refine ⟨storable_secs plain fine, tail, fun weekly => ?_, fun _ => ⟨rfl, rfl, rfl⟩⟩
  rcases plain with rfl | rfl <;> cases weekly

theorem parsed_finish {start : When} (went : Onward start p out q)
    (clock : start.kind = .weekly ∨ start.kind = .clock) (zero : start.secs = 0)
    (finished : whenFinishZone localTz out = .ok out') : Parsed p out' q := by
  obtain ⟨safe, same⟩ := whenFinishZone_ok went.sane.zone finished
  have kind : out'.kind = start.kind := by rw [same, ← went.kind]
  have sane : Sane out' := by
    rw [same]
    exact ⟨went.sane.minute, fun _ => safe, went.sane.days⟩
  refine ⟨storable_clock sane safe (kind ▸ clock), went.tail, fun _ => ⟨?_, safe⟩, fun every => ?_⟩
  · rw [same]
    exact went.secs.trans zero
  · rw [kind] at every
    rcases clock with other | other <;> rw [other] at every <;> cases every

theorem whenParseEvery_ok {daily : Bool}
    (ran : whenParseEvery wrap localTz p daily = .ok (out, q)) : Parsed p out q := by
  unfold whenParseEvery at ran
  split at ran
  next =>
    split at ran
    next secs r found =>
      cases ran
      obtain ⟨fine, tail⟩ := whenTryDuration_found found
      exact parsed_secs (.inr rfl) fine tail
    next => cases ran
  next days r found =>
    have start : DaysFine days ∧ r <:+ p := by
      split at found
      next =>
        cases found
        exact ⟨by unfold DaysFine; decide, suffix_refl _⟩
      next => exact whenTryDays_found found
    obtain ⟨⟨out₁, timed, q₁⟩, looped, ran⟩ := bind_ok ran
    dsimp only at ran
    split at ran
    next =>
      obtain ⟨out₂, finished, ran⟩ := bind_ok ran
      cases ran
      have sane : Sane { When.zero with kind := .weekly, days := days } :=
        ⟨Nat.zero_lt_succ 1439, (nomatch ·), start.1⟩
      have went := everyLoop_onward sane looped
      have parsed := parsed_finish went (.inl rfl) rfl finished
      exact { parsed with tail := parsed.tail.trans start.2 }
    next => cases ran

theorem whenParseClock_ok (ran : whenParseClock localTz p = .ok (out, q)) : Parsed p out q := by
  unfold whenParseClock at ran
  obtain ⟨⟨out₁, have_, q₁⟩, looped, ran⟩ := bind_ok ran
  dsimp only at ran
  split at ran
  next =>
    obtain ⟨out₂, finished, ran⟩ := bind_ok ran
    cases ran
    have sane : Sane { When.zero with kind := .clock, days := daysAll, hi := 1 } :=
      ⟨by decide, (nomatch ·), by unfold DaysFine; decide⟩
    exact parsed_finish (clockLoop_onward sane looped) (.inr rfl) rfl finished
  next => split at ran <;> cases ran

theorem parseMoment_ok {text : Bytes} (word : whenNextWord text = some w)
    (ran : parseMoment wrap localTz text w = .ok (out, q)) : Parsed text out q := by
  have inside := rest_suffix word
  revert ran
  fun_cases parseMoment wrap localTz text w with
  | case1 =>
    rintro ⟨⟩
    exact ⟨⟨.inl rfl, by decide, by simp, by simp⟩, inside, (nomatch ·), (nomatch ·)⟩
  | case2 =>
    intro ran
    have parsed := whenParseEvery_ok ran
    exact { parsed with tail := parsed.tail.trans inside }
  | case3 _ _ _ secs r found =>
    rintro ⟨⟩
    obtain ⟨fine, tail⟩ := whenTryDuration_found found
    exact parsed_secs (.inl rfl) fine (tail.trans inside)
  | case4 => nofun
  | case5 _ _ _ secs r found =>
    rintro ⟨⟩
    obtain ⟨fine, tail⟩ := whenTryDuration_found found
    exact parsed_secs (.inl rfl) fine tail
  | case6 => exact whenParseClock_ok

theorem Parsed.restores (parsed : Parsed p out q) : Restores out := by
  rintro (every | weekly)
  · obtain ⟨days, minute, tz⟩ := parsed.every every
    obtain ⟨low, high⟩ := parsed.storable.secs (.inr every)
    have word : out.secs % 2 ^ 32 = out.secs := by
      refine Nat.mod_eq_of_lt (lt_of_le_of_lt high ?_)
      decide
    refine ⟨{ When.zero with kind := .every, secs := out.secs }, ?_, ?_⟩
    · simp only [When.columns, every, word]
      rw [whenRepeatRestore, if_neg (by simp), if_neg (by omega)]
    · simp only [When.rule, every, days, minute, tz, When.zero]
  · obtain ⟨secs, safe⟩ := parsed.weekly weekly
    obtain ⟨low, high⟩ := parsed.storable.days (.inl weekly)
    have minute := parsed.storable.minute
    have short := safe.short
    refine ⟨{ When.zero with
      kind := .weekly, days := out.days, minute := out.minute, tzNamed := true, tz := out.tz }, ?_, ?_⟩
    · simp only [When.columns, weekly]
      rw [whenRepeatRestore, if_pos (by omega), if_neg]
      · simp only [Int.toNat_natCast]
      · rw [safe.valid]
        unfold daysAll
        simp only [Bool.true_eq_false, false_or]
        omega
    · simp only [When.rule, weekly, secs, When.zero]

theorem parsed_storable {localTz : Option Bytes} {text rest : Bytes} {out : When}
    (parsed : whenParse u64 localTz text = .ok (out, rest)) :
    Storable out ∧ rest <:+ text ∧ Restores out ∧
      ∀ wrap, Exact wrap → whenParse wrap localTz text = .ok (out, rest) := by
  have whole : Storable out ∧ rest <:+ text ∧ Restores out := by
    unfold whenParse at parsed
    split at parsed
    next => cases parsed
    next w word =>
      obtain ⟨⟨out', q⟩, ran, same⟩ := bind_ok parsed
      cases same
      have read := parseMoment_ok word ran
      exact ⟨read.storable, (dropWhile_suffix _).trans read.tail, read.restores⟩
  refine ⟨whole.1, whole.2.1, whole.2.2, fun wrap exact_ => ?_⟩
  rw [whenParse_exact exact_, ← whenParse_exact exact_u64, parsed]

def meeting : When :=
  { When.zero with
    kind := .weekly, days := 0x22, minute := 930, tzNamed := true, tz := ascii "America/New_York" }

theorem parsed_storable_meeting :
    whenParse u64 (some (ascii "UTC")) (ascii "every mon and friday at 3:30 PM EST call") =
        .ok (meeting, ascii "call") ∧
      Storable meeting ∧ Restores meeting := by
  have parsed : whenParse u64 (some (ascii "UTC"))
      (ascii "every mon and friday at 3:30 PM EST call") = .ok (meeting, ascii "call") := by
    decide +kernel
  obtain ⟨storable, -, restores, -⟩ := parsed_storable parsed
  exact ⟨parsed, storable, restores⟩

end BotManager.WhenStored
