import BotManager.CText
import BotManager.TextSearch
import Mathlib.Data.List.DropRight

/-!
The moment a person asks for: the grammar that /remind and /in share.

A cursor into the text is the rest of the text from there. Sums and products of `uint64_t` go
through `wrap`, which is reduction modulo `2 ^ 64` for the program itself; every step takes it, so
that a computation in which nothing wraps is one that no `wrap` changes.
-/

namespace BotManager.WhenModel
open List CText TextSearch

def tzSize : ℕ := 64

def daysAll : ℕ := 0x7f

def durationMax : ℕ := 10 * 365 * 86400

inductive Kind
  | delay
  | back
  | clock
  | every
  | weekly
  deriving DecidableEq

structure When where
  kind : Kind
  secs : ℕ
  days : ℕ
  lo : ℕ
  hi : ℕ
  minute : ℕ
  tzNamed : Bool
  tz : Bytes
  deriving DecidableEq

def When.zero : When := ⟨.delay, 0, 0, 0, 0, 0, false, []⟩

/-! ## Words -/

structure Word where
  rest : Bytes
  longWord : Bool
  raw : Bytes
  norm : Bytes

def isBlank (c : UInt8) : Bool := c = 32 || c = 9

def isClosing (c : UInt8) : Bool := (ascii ",;.!?").contains c

def whenNextWord (p : Bytes) : Option Word :=
  let start := p.dropWhile isBlank
  if start = [] then none
  else
    let word := (start.takeWhile (!isBlank ·)).rdropWhile isClosing
    let raw := if tzSize ≤ word.length then [] else word
    some ⟨start.dropWhile (!isBlank ·), tzSize ≤ word.length, raw, raw.map toLower⟩

def whenIs (w : Word) (s : String) : Bool := w.norm = ascii s

def whenAllDigits (s : Bytes) : Bool := s ≠ [] && s.all isDigit

def isUpper (c : UInt8) : Bool := 65 ≤ c && c ≤ 90

def isLetter (c : UInt8) : Bool := 97 ≤ c && c ≤ 122 || isUpper c

def isZoneChar (c : UInt8) : Bool := isLetter c || isDigit c || (ascii "/_+-").contains c

def whenZoneValid (s : Bytes) : Bool :=
  s ≠ [] && s.head? ≠ some 47 && find (ascii "..") s = none && s.all isZoneChar

def whenWeekdays : List (String × ℕ) :=
  [("sun", 0), ("sunday", 0), ("sundays", 0), ("mon", 1), ("monday", 1), ("mondays", 1),
    ("tue", 2), ("tues", 2), ("tuesday", 2), ("tuesdays", 2), ("wed", 3), ("weds", 3),
    ("wednesday", 3), ("wednesdays", 3), ("thu", 4), ("thur", 4), ("thurs", 4), ("thursday", 4),
    ("thursdays", 4), ("fri", 5), ("friday", 5), ("fridays", 5), ("sat", 6), ("saturday", 6),
    ("saturdays", 6)]

def whenUnits : List (String × ℕ) :=
  [("s", 1), ("sec", 1), ("secs", 1), ("second", 1), ("seconds", 1), ("m", 60), ("min", 60),
    ("mins", 60), ("minute", 60), ("minutes", 60), ("h", 3600), ("hr", 3600), ("hrs", 3600),
    ("hour", 3600), ("hours", 3600), ("d", 86400), ("day", 86400), ("days", 86400), ("w", 604800),
    ("wk", 604800), ("wks", 604800), ("week", 604800), ("weeks", 604800)]

def whenZones : List (String × String) :=
  [("est", "America/New_York"), ("edt", "America/New_York"), ("et", "America/New_York"),
    ("eastern", "America/New_York"), ("cst", "America/Chicago"), ("cdt", "America/Chicago"),
    ("ct", "America/Chicago"), ("central", "America/Chicago"), ("mst", "America/Denver"),
    ("mdt", "America/Denver"), ("mt", "America/Denver"), ("mountain", "America/Denver"),
    ("pst", "America/Los_Angeles"), ("pdt", "America/Los_Angeles"), ("pt", "America/Los_Angeles"),
    ("pacific", "America/Los_Angeles"), ("akst", "America/Anchorage"), ("akdt", "America/Anchorage"),
    ("alaska", "America/Anchorage"), ("hst", "Pacific/Honolulu"), ("hawaii", "Pacific/Honolulu"),
    ("utc", "UTC"), ("gmt", "UTC")]

def lookup {α : Type} (table : List (String × α)) (name : Bytes) : Option α :=
  (table.find? fun e => ascii e.1 = name).map Prod.snd

def whenWeekday (norm : Bytes) : Option ℕ := lookup whenWeekdays norm

/-- The mask of the pieces of a list, or zero if one of them is no day. -/
def maskOf (mask : ℕ) : List Bytes → ℕ
  | [] => mask
  | piece :: pieces =>
    if piece = [] || 16 ≤ piece.length then 0
    else
      match whenWeekday piece with
      | none => 0
      | some dow => maskOf (mask ||| 1 <<< dow) pieces

/-- "mon" or "mon,wed,fri". -/
def whenWeekdayList (norm : Bytes) : ℕ := maskOf 0 (norm.splitOn 44)

def whenUnit (s : Bytes) : ℕ := (lookup whenUnits s).getD 0

def whenAmpm (s : Bytes) : Option ℕ :=
  if s = ascii "am" || s = ascii "a.m" then some 0
  else if s = ascii "pm" || s = ascii "p.m" then some 12
  else none

variable {p q : Bytes} {w : Word}

theorem rest_suffix (found : whenNextWord p = some w) : w.rest <:+ p := by
  unfold whenNextWord at found
  dsimp only at found
  split at found
  next => cases found
  next =>
    cases found
    exact (dropWhile_suffix _).trans (dropWhile_suffix _)

theorem rest_shorter (found : whenNextWord p = some w) : w.rest.length < p.length := by
  unfold whenNextWord at found
  dsimp only at found
  split at found
  next => cases found
  next nonempty =>
    cases found
    have start := (dropWhile_suffix (l := p) isBlank).length_le
    cases text : p.dropWhile isBlank with
    | nil => exact absurd text nonempty
    | cons c tail =>
      have inside : isBlank c = false := by
        have first := head?_dropWhile_not isBlank p
        rw [text] at first
        simpa using first
      have rest := (dropWhile_suffix (l := tail) (!isBlank ·)).length_le
      rw [text, length_cons] at start
      rw [dropWhile_cons_of_pos (by rw [inside]; rfl)]
      exact lt_of_le_of_lt rest start

/-! ## Durations -/

section Durations

variable (wrap : ℕ → ℕ)

/-- A number of at most WHEN_DURATION_MAX, and what follows it. -/
def readNumber (n : ℕ) : Bytes → Option (ℕ × Bytes)
  | [] => some (n, [])
  | c :: rest =>
    if isDigit c then
      if durationMax < wrap (wrap (n * 10) + (c.toNat - 48)) then none
      else readNumber (wrap (wrap (n * 10) + (c.toNat - 48))) rest
    else some (n, c :: rest)

/-- A unit that fits its buffer of sixteen bytes, and what follows it. -/
def readUnit (unit : Bytes) : Bytes → Option (Bytes × Bytes)
  | [] => some (unit, [])
  | c :: rest =>
    if isDigit c then some (unit, c :: rest)
    else if 16 ≤ unit.length + 1 then none else readUnit (unit ++ [toLower c]) rest

theorem readNumber_suffix {wrap : ℕ → ℕ} {n m : ℕ} (read : readNumber wrap n p = some (m, q)) :
    q <:+ p := by
  revert read
  fun_induction readNumber wrap n p with
  | case1 | case4 =>
    rintro ⟨⟩
    exact suffix_refl _
  | case2 => nofun
  | case3 n c p _ _ ih => exact fun read => (ih read).trans (suffix_cons c p)

theorem readUnit_suffix {unit unit' : Bytes} (read : readUnit unit p = some (unit', q)) :
    q <:+ p := by
  revert read
  fun_induction readUnit unit p with
  | case1 | case2 =>
    rintro ⟨⟩
    exact suffix_refl _
  | case3 => nofun
  | case4 unit c p _ _ ih => exact fun read => (ih read).trans (suffix_cons c p)

theorem readNumber_shorter {wrap : ℕ → ℕ} {n m : ℕ} {c : UInt8} (digit : isDigit c = true)
    (read : readNumber wrap n (c :: p) = some (m, q)) : q.length ≤ p.length := by
  rw [readNumber, if_pos digit] at read
  split at read
  next => cases read
  next => exact (readNumber_suffix read).length_le

set_option linter.unusedVariables false in
/-- "1h30m": pairs of a number and a unit. -/
def readPairs (total : ℕ) (p : Bytes) : ℕ :=
  match p with
  | [] => total
  | c :: tail =>
    if digit : isDigit c = true then
      match number : readNumber wrap 0 (c :: tail) with
      | none => 0
      | some (n, q) =>
        match unit : readUnit [] q with
        | none => 0
        | some (name, r) =>
          if whenUnit name = 0 then 0
          else if durationMax < wrap (total + wrap (n * whenUnit name)) then 0
          else readPairs (wrap (total + wrap (n * whenUnit name))) r
    else 0
termination_by p.length
decreasing_by
  have first := readNumber_shorter digit number
  have second := (readUnit_suffix unit).length_le
  simp only [length_cons]
  omega

/-- `when_parse_duration`; a bare number is seconds. -/
def whenParseDuration (tok : Bytes) : ℕ :=
  if tok = [] then 0
  else if whenAllDigits tok then ((readNumber wrap 0 tok).map Prod.fst).getD 0
  else readPairs wrap 0 tok

/-- `when_try_duration`: the seconds, and the text behind them. -/
def whenTryDuration (p : Bytes) : Option (ℕ × Bytes) :=
  match whenNextWord p with
  | none => none
  | some w =>
    if w.longWord then none
    else
      let more := (whenNextWord w.rest).filter (!·.longWord)
      let secs := whenParseDuration wrap w.norm
      let read : Option (ℕ × Bytes) :=
        match more with
        | none => some (secs, w.rest)
        | some nx =>
          if whenAllDigits w.norm then
            -- "3 pm" is a clock
            if (whenAmpm nx.norm).isSome then none
            else if whenUnit nx.norm ≠ 0 then some (wrap (secs * whenUnit nx.norm), nx.rest)
            else some (secs, w.rest)
          else some (secs, w.rest)
      read.filter fun (secs, _) => secs ≠ 0 && secs ≤ durationMax

end Durations

/-! ## Clock parts -/

/-- `when_part_t` with what was found, or what to say about the mistake. -/
inductive Part (α : Type)
  | found (value : α)
  | none
  | error (why : String)

/-- ":30", if the time has it: the minutes, whether there was a colon, and what follows. -/
def clockMinutes (s : Bytes) : Option (ℕ × Bool × Bytes) :=
  match s with
  | 58 :: a :: b :: rest =>
    if isDigit a && isDigit b then some ((a.toNat - 48) * 10 + (b.toNat - 48), true, rest)
    else none
  | 58 :: _ => none
  | s => some (0, false, s)

def readHalf (s rest : Bytes) : Option (Option ℕ × Bytes) :=
  if s ≠ [] then (whenAmpm s).map fun half => (some half, rest)
  else
    match whenNextWord rest with
    | none => some (none, rest)
    | some nx =>
      match whenAmpm nx.norm with
      | none => some (none, rest)
      | some half => some (some half, nx.rest)

def timeOf (h m : ℕ) (colon : Bool) (ampm : Option ℕ) : Except String ℕ :=
  if 59 < m then .error "minutes run 00 to 59"
  else
    match ampm with
    | some half =>
      if h < 1 || 12 < h then .error "with AM or PM the hour runs 1 to 12"
      else .ok ((h % 12 + half) * 60 + m)
    | none =>
      if !colon && h ≤ 12 then .error "is that AM or PM? (say 3pm, or 15:00)"
      else if 23 < h then .error "the hour runs 0 to 23"
      else .ok (h * 60 + m)

def whenTryTime (p : Bytes) (afterAt : Bool) : Part (ℕ × Bytes) :=
  match whenNextWord p with
  | none => .none
  | some w =>
    if w.longWord then .none
    else if whenIs w "noon" then .found (720, w.rest)
    else if whenIs w "midnight" then .found (0, w.rest)
    else
      let digits := (w.norm.takeWhile isDigit).take 3
      if digits = [] || 2 < digits.length then .none
      else
        match clockMinutes (w.norm.drop digits.length) with
        | none => .none
        | some (m, colon, s) =>
          match readHalf s w.rest with
          | none => .none
          | some (ampm, rest) =>
            if ampm.isNone && !colon && !afterAt then .none
            else
              match timeOf (digitsValue digits) m colon ampm with
              | .error why => .error why
              | .ok minute => .found (minute, rest)

def whenTryAtTime (p : Bytes) : Part (ℕ × Bytes) :=
  match (whenNextWord p).filter (whenIs · "at") with
  | none => whenTryTime p false
  | some w =>
    match whenTryTime w.rest true with
    | .none => .error "at what time?"
    | t => t

/-- The zone a word names: one of the table, two letters only in capitals, or an IANA name. -/
def zoneOf (w : Word) : Option Bytes :=
  (((lookup whenZones w.norm).map ascii).filter fun _ => w.raw.length ≠ 2 || w.raw.all isUpper).or
    (if w.raw.contains 47 && whenZoneValid w.raw && w.raw.head?.any isLetter then some w.raw
    else none)

def whenTryZone (p : Bytes) : Option (Bytes × Bytes) :=
  match whenNextWord p with
  | none => none
  | some w =>
    if w.longWord then none
    else (zoneOf w).map fun zone =>
      (bounded tzSize zone,
        match (whenNextWord w.rest).filter (whenIs · "time") with
        | none => w.rest
        | some nx => nx.rest)

set_option linter.unusedVariables false in
/-- The days behind the first one: "and thursday", "mon,wed". -/
def moreDays (mask : ℕ) (p : Bytes) : ℕ × Bytes :=
  match next : whenNextWord p with
  | none => (mask, p)
  | some nx =>
    if nx.longWord then (mask, p)
    else if whenIs nx "and" || whenIs nx "&" then
      match day : whenNextWord nx.rest with
      | none => (mask, p)
      | some d =>
        if whenWeekdayList d.norm = 0 then (mask, p)
        else moreDays (mask ||| whenWeekdayList d.norm) d.rest
    else if whenWeekdayList nx.norm ≠ 0 then moreDays (mask ||| whenWeekdayList nx.norm) nx.rest
    else (mask, p)
termination_by p.length
decreasing_by
  · exact (rest_shorter day).trans (rest_shorter next)
  · exact rest_shorter next

def firstDays (w : Word) : ℕ :=
  if whenIs w "day" || whenIs w "days" then daysAll
  else if whenIs w "weekday" || whenIs w "weekdays" then 0x3e
  else if whenIs w "weekend" || whenIs w "weekends" then 0x41
  else whenWeekdayList w.norm

def whenTryDays (p : Bytes) : Option (ℕ × Bytes) :=
  match whenNextWord p with
  | none => none
  | some w => if w.longWord || firstDays w = 0 then none else some (moreDays (firstDays w) w.rest)

/-- `when_try_dayword`: the days and the window, and the text behind the word. -/
def whenTryDayword (p : Bytes) : Option ((ℕ × ℕ × ℕ) × Bytes) :=
  match whenNextWord p with
  | none => none
  | some w =>
    if w.longWord then none
    else if whenIs w "today" then some ((daysAll, 0, 0), w.rest)
    else if whenIs w "tomorrow" then some ((daysAll, 1, 1), w.rest)
    else (whenWeekday w.norm).map fun dow => ((1 <<< dow, 0, 7), w.rest)

/-- `when_finish_zone`: a clock form that names no zone means the daemon's. -/
def whenFinishZone (localTz : Option Bytes) (out : When) : Except String When :=
  if out.tzNamed then .ok out
  else
    match localTz.filter fun z => whenZoneValid z && z.length < tzSize with
    | some z => .ok { out with tz := z }
    | none => .error "I can't tell what timezone I'm in — name one (e.g. 3pm America/New_York)"

/-! ## The two clock grammars -/

set_option linter.unusedVariables false in
/-- The time and then the zone of a repeat, each at most once. -/
def everyLoop (out : When) (haveTime haveZone : Bool) (p : Bytes) :
    Except String (When × Bool × Bytes) :=
  if (whenNextWord p).isNone then .ok (out, haveTime, p)
  else if timed : haveTime = false then
    match whenTryAtTime p with
    | .error why => .error why
    | .found (minute, q) => everyLoop { out with minute := minute } true haveZone q
    | .none => .ok (out, haveTime, p)
  else if zoned : haveZone = false then
    match whenTryZone p with
    | none => .ok (out, haveTime, p)
    | some (tz, q) => everyLoop { out with tz := tz, tzNamed := true } haveTime true q
  else .ok (out, haveTime, p)
termination_by (!haveTime).toNat + (!haveZone).toNat
decreasing_by
  · rw [timed]
    simp
  · rw [zoned]
    simp

def whenParseEvery (wrap : ℕ → ℕ) (localTz : Option Bytes) (p : Bytes) (daily : Bool) :
    Except String (When × Bytes) :=
  match if daily then some (daysAll, p) else whenTryDays p with
  | none =>
    match whenTryDuration wrap p with
    | some (secs, q) => .ok ({ When.zero with kind := .every, secs := secs }, q)
    | none => .error "every what? — try every 2h, every day at 9am, or every monday at 3pm"
  | some (days, q) => do
      let (out, haveTime, r) ←
        everyLoop { When.zero with kind := .weekly, days := days } false false q
      if haveTime then
        let out ← whenFinishZone localTz out
        .ok (out, r)
      else .error "at what time? (e.g. every monday at 3pm)"

structure Have where
  day : Bool
  time : Bool
  zone : Bool

def Have.missing (have_ : Have) : ℕ :=
  (!have_.day).toNat + (!have_.time).toNat + (!have_.zone).toNat

inductive Round
  | goOn (out : When) (have_ : Have) (p : Bytes)
  | done
  | fail (why : String)

def When.onDay (out : When) (day : ℕ × ℕ × ℕ) : When :=
  { out with days := day.1, lo := day.2.1, hi := day.2.2 }

/-- The time or the zone, which the loop looks for once there is no day to read. -/
def timeOrZone (out : When) (have_ : Have) (p : Bytes) : Round :=
  if have_.time = false then
    match whenTryAtTime p with
    | .error why => .fail why
    | .found (minute, q) => .goOn { out with minute := minute } { have_ with time := true } q
    | .none => .done
  else if have_.zone = false then
    match whenTryZone p with
    | none => .done
    | some (tz, q) => .goOn { out with tz := tz, tzNamed := true } { have_ with zone := true } q
  else .done

def clockRound (out : When) (have_ : Have) (p : Bytes) (w : Word) : Round :=
  if have_.day = false then
    if whenIs w "on" then
      match whenTryDayword w.rest with
      | some (day, q) => .goOn (out.onDay day) { have_ with day := true } q
      | none => if have_.time then .done else .fail "on which day?"
    else
      match whenTryDayword p with
      | some (day, q) => .goOn (out.onDay day) { have_ with day := true } q
      | none => timeOrZone out have_ p
  else timeOrZone out have_ p

variable {have_ have' : Have} {out' out : When}

theorem missing_timeOrZone
    (went : timeOrZone out have_ p = .goOn out' have' q) : have'.missing < have_.missing := by
  revert went
  fun_cases timeOrZone out have_ p with
  | case2 untimed =>
    rintro ⟨⟩
    simp [Have.missing, untimed]
  | case5 _ unzoned =>
    rintro ⟨⟩
    simp [Have.missing, unzoned]
  | _ => nofun

theorem missing_clockRound
    (went : clockRound out have_ p w = .goOn out' have' q) : have'.missing < have_.missing := by
  revert went
  fun_cases clockRound out have_ p w with
  | case1 undated | case4 undated =>
    rintro ⟨⟩
    simp [Have.missing, undated]
  | case2 | case3 => nofun
  | case5 | case6 => exact missing_timeOrZone

set_option linter.unusedVariables false in
/-- Each part at most once, in any order. -/
def clockLoop (out : When) (have_ : Have) (p : Bytes) : Except String (When × Have × Bytes) :=
  match whenNextWord p with
  | none => .ok (out, have_, p)
  | some w =>
    match went : clockRound out have_ p w with
    | .goOn out' have' q => clockLoop out' have' q
    | .done => .ok (out, have_, p)
    | .fail why => .error why
termination_by have_.missing
decreasing_by exact missing_clockRound went

def whenParseClock (localTz : Option Bytes) (p : Bytes) : Except String (When × Bytes) := do
  let (out, have_, q) ←
    clockLoop { When.zero with kind := .clock, days := daysAll, hi := 1 } ⟨false, false, false⟩ p
  if have_.time then
    let out ← whenFinishZone localTz out
    .ok (out, q)
  else if have_.day then .error "at what time? (e.g. tomorrow at 9am)"
  else .error ("I can't tell when you mean — try 20m, at 3pm, tomorrow at 9am, every monday at " ++
    "3pm, or back")

/-- The moment at the head of the text, before the blanks behind it are skipped. -/
def parseMoment (wrap : ℕ → ℕ) (localTz : Option Bytes) (text : Bytes) (w : Word) :
    Except String (When × Bytes) :=
  if whenIs w "back" then .ok ({ When.zero with kind := .back }, w.rest)
  else if whenIs w "every" || whenIs w "daily" then
    whenParseEvery wrap localTz w.rest (whenIs w "daily")
  else if whenIs w "in" then
    match whenTryDuration wrap w.rest with
    | some (secs, q) => .ok ({ When.zero with secs := secs }, q)
    | none => .error "in how long? (e.g. in 20m)"
  else
    match whenTryDuration wrap text with
    | some (secs, q) => .ok ({ When.zero with secs := secs }, q)
    | none => whenParseClock localTz text

def whenParse (wrap : ℕ → ℕ) (localTz : Option Bytes) (text : Bytes) :
    Except String (When × Bytes) :=
  match whenNextWord text with
  | none => .error "tell me when — e.g. 20m, at 3pm, every monday at 3pm, or back"
  | some w => do
      let (out, q) ← parseMoment wrap localTz text w
      .ok (out, q.dropWhile isBlank)

def u64 (n : ℕ) : ℕ := n % 2 ^ 64

/-! ## Storing a repeat -/

structure Columns where
  repeatSecs : ℕ
  repeatDays : ℕ
  repeatMinute : ℕ
  tz : Bytes
  deriving DecidableEq

/-- What `deferred_ask_moment` stores of a moment; `repeat_secs` is an `uint32_t`. -/
def When.columns (out : When) : Columns :=
  match out.kind with
  | .every => ⟨out.secs % 2 ^ 32, 0, 0, []⟩
  | .weekly => ⟨0, out.days, out.minute, out.tz⟩
  | .delay | .back | .clock => ⟨0, 0, 0, []⟩

def whenRepeatRestore (secs : ℕ) (days minute : ℤ) (tz : Bytes) : Option When :=
  if days ≠ 0 then
    if days < 0 ∨ (daysAll : ℤ) < days ∨ minute < 0 ∨ 1440 ≤ minute ∨ whenZoneValid tz = false ∨
        tzSize ≤ tz.length then none
    else some { When.zero with
      kind := .weekly, days := days.toNat, minute := minute.toNat, tzNamed := true, tz := tz }
  else if secs = 0 ∨ durationMax < secs then none
  else some { When.zero with kind := .every, secs := secs }

end BotManager.WhenModel
