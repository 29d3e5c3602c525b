import BotManager.CText
import BotManager.StepRun
import BotManager.TextSearch

/-!
Line assembly of the IRC driver: the DATA event of `irc_sock_cb` and `irc_process_buffer`.

The read buffer is modelled as memory, `IRC_BUF_SZ` bytes with what earlier lines left behind
in them, because the scan runs to a NUL that only the DATA event writes. Whether the driver is
dead is read before every line, so it is given by the lines handled so far.
-/

namespace BotManager.IrcBuffer

open List CText StepRun TextSearch

def ircBufSz : ℕ := 4096

def ircLineSz : ℕ := 512

def crlf : Bytes := [13, 10]

def store (mem : Bytes) (offset : ℕ) (data : Bytes) : Bytes :=
  mem.take offset ++ data.take (mem.length - offset) ++ mem.drop (offset + data.length)

@[simp] theorem length_store : (store mem offset data).length = mem.length := by
  simp only [store, length_append, length_take, length_drop]
  omega

def textAt (mem : Bytes) (start : ℕ) : Bytes := (mem.drop start).takeWhile (· ≠ 0)

/-- The part of `irc_state_t` the assembly uses, with the lines given to `irc_handle_line`. -/
structure Driver where
  buf : Bytes
  size : buf.length = ircBufSz
  bufLen : ℕ
  handled : List Bytes

section Assembly

variable (dead : List Bytes → Bool)

/-- The `while` loop over the lines of the buffer: the memory with the line ends it wrote over,
where it stopped, and the lines handled. A turn takes two bytes at least, so as many turns as
the memory has bytes are enough. -/
def scan : ℕ → Bytes → ℕ → List Bytes → Bytes × ℕ × List Bytes
  | 0, mem, start, handled => (mem, start, handled)
  | turns + 1, mem, start, handled =>
    if dead handled then (mem, start, handled) else
      match find crlf (textAt mem start) with
      | none => (mem, start, handled)
      | some n =>
        let mem := store mem (start + n) [0]
        let line := textAt mem start
        scan turns mem (start + n + 2) (if line = [] then handled else handled ++ [line])

theorem length_scan : (scan dead turns mem start handled).1.length = mem.length := by
  induction turns generalizing mem start handled with
  | zero => rfl
  | succ turns ih =>
    rw [scan]
    split
    · rfl
    · split
      · rfl
      · rw [ih, length_store]

def ircProcessBuffer (st : Driver) : Driver :=
  let scanned := scan dead ircBufSz st.buf 0 st.handled
  let start := scanned.2.1
  -- a pointer difference cast to size_t
  let remaining := (st.bufLen + 2 ^ 64 - start) % 2 ^ 64
  { buf := if 0 < remaining ∧ start ≠ 0 then
        store scanned.1 0 ((scanned.1.drop start).take remaining) else scanned.1
    size := by
      have size : scanned.1.length = ircBufSz := (length_scan _).trans st.size
      split
      · rw [length_store, size]
      · exact size
    bufLen := if ircBufSz - 1 ≤ remaining then 0 else remaining
    handled := scanned.2.2 }

def received (st : Driver) (data : Bytes) : Driver :=
  let avail := ircBufSz - st.bufLen - 1
  let copy := min data.length avail
  if 0 < copy then
    { st with
      buf := store (store st.buf st.bufLen (data.take copy)) (st.bufLen + copy) [0]
      size := by rw [length_store, length_store, st.size]
      bufLen := st.bufLen + copy }
  else st

def sockData (st : Driver) (data : Bytes) : Driver :=
  if dead st.handled then st else ircProcessBuffer dead (received st data)

def step (st : Driver) (data : Bytes) : Option Driver := some (sockData dead st data)

end Assembly

/-! ## The stream -/

structure Sendable (line : Bytes) : Prop where
  short : line.length ≤ 510
  noNul : 0 ∉ line
  noCr : 13 ∉ line
  noLf : 10 ∉ line

def render (lines : List Bytes) : Bytes := lines.flatMap (· ++ crlf)

@[simp] theorem render_nil : render [] = [] := rfl

@[simp] theorem render_cons : render (line :: lines) = line ++ (crlf ++ render lines) := by
  rw [render, flatMap_cons, append_assoc]
  rfl

@[simp] def nonEmpty (lines : List Bytes) : List Bytes := lines.filter (· ≠ [])

def Unfinished (pending : Bytes) (later : List Bytes) : Prop :=
  match later with
  | [] => pending = []
  | line :: _ => pending <+: line ++ [13]

variable {todo : List Bytes} {data pending : Bytes} {st : Driver}

variable {future junk : Bytes} {now events : List Bytes}

theorem arrived {content : Bytes} (stream : content ++ future = render todo) :
    ∃ now later pending, todo = now ++ later ∧ content = render now ++ pending ∧
      pending ++ future = render later ∧ Unfinished pending later := by
  induction todo generalizing content with
  | nil =>
    obtain ⟨rfl, rfl⟩ := append_eq_nil_iff.mp stream
    exact ⟨[], [], [], rfl, rfl, rfl, rfl⟩
  | cons line todo ih =>
    rw [render_cons, ← append_assoc] at stream
    rcases append_eq_append_iff.mp stream with ⟨missing, whole, rfl⟩ | ⟨more, rfl, rest⟩
    · rcases eq_nil_or_concat missing with rfl | ⟨front, last, rfl⟩
      · rw [append_nil] at whole
        refine ⟨[line], todo, [], rfl, by simp [← whole], rfl, ?_⟩
        cases todo with
        | nil => rfl
        | cons next todo => exact nil_prefix
      · have cut : line ++ [13] = content ++ front := by
          have ends : (line ++ [13]) ++ [10] = (content ++ front) ++ [last] := by
            simpa [crlf] using whole
          exact (append_inj' ends rfl).1
        refine ⟨[], line :: todo, content, rfl, rfl, ?_, ⟨front, cut.symm⟩⟩
        rw [← append_assoc, ← whole, render_cons, append_assoc]
    · obtain ⟨now, later, pending, rfl, rfl, resumed, unfinished⟩ := ih rest.symm
      exact ⟨line :: now, later, pending, rfl, by simp, resumed, unfinished⟩

/-! ## The scan -/

theorem store_append {old : Bytes} (same : old.length = data.length) :
    store (front ++ (old ++ rest)) front.length data = front ++ (data ++ rest) := by
  have room : data.length ≤ (front ++ (old ++ rest)).length - front.length := by
    simp only [length_append]
    omega
  have skipped : (front ++ (old ++ rest)).drop (front.length + data.length) = rest := by
    rw [← same, ← append_assoc, ← length_append, drop_left]
  rw [store, take_left, take_of_length_le room, skipped, append_assoc]

theorem store_byte (front rest : Bytes) (old new : UInt8) :
    store (front ++ old :: rest) front.length [new] = front ++ new :: rest := by
  have same : [old].length = [new].length := rfl
  exact store_append same

theorem textAt_append {front text : Bytes} (noNul : 0 ∉ text) :
    textAt (front ++ (text ++ 0 :: junk)) front.length = text := by
  have all : ∀ c ∈ text, decide (c ≠ 0) = true := by
    intro c mem
    exact decide_eq_true fun zero => noNul (zero ▸ mem)
  rw [textAt, drop_left, takeWhile_append_of_pos all,
    takeWhile_cons_of_neg (by decide), append_nil]

theorem zero_not_mem_render {lines : List Bytes} (sendable : ∀ line ∈ lines, Sendable line) :
    0 ∉ render lines := by
  induction lines with
  | nil => exact not_mem_nil
  | cons line lines ih =>
    have noNul := (sendable line mem_cons_self).noNul
    have others := ih fun line mem => sendable line (.tail _ mem)
    simp only [render_cons, mem_append, not_or]
    exact ⟨noNul, by decide, others⟩

variable {dead : List Bytes → Bool}

theorem scan_lines (alive : ∀ log, dead log = false)
    (sendable : ∀ line ∈ now, Sendable line) (noNul : 0 ∉ pending) (noLf : 10 ∉ pending) {turns : ℕ}
    (enough : now.length < turns) (front junk : Bytes) (handled : List Bytes) :
    ∃ past, past.length = front.length + (render now).length ∧
      scan dead turns (front ++ (render now ++ (pending ++ 0 :: junk))) front.length handled =
        (past ++ (pending ++ 0 :: junk), past.length, handled ++ nonEmpty now) := by
  induction now generalizing turns front handled with
  | nil =>
    obtain ⟨turns, rfl⟩ := Nat.exists_eq_succ_of_ne_zero (by omega : turns ≠ 0)
    have text : textAt (front ++ (pending ++ 0 :: junk)) front.length = pending :=
      textAt_append noNul
    have unended : find crlf pending = none := find_none (c := 10) (by decide) noLf
    refine ⟨front, rfl, ?_⟩
    simp [scan, alive, text, unended]
  | cons line now ih =>
    obtain ⟨turns, rfl⟩ := Nat.exists_eq_succ_of_ne_zero (by omega : turns ≠ 0)
    have this := sendable line mem_cons_self
    have others := fun line mem => sendable line (.tail _ mem)
    -- the string from here on, up to the NUL
    have text : textAt (front ++ (render (line :: now) ++ (pending ++ 0 :: junk))) front.length =
        line ++ 13 :: ([10] ++ (render now ++ pending)) := by
      have noNuls : 0 ∉ render (line :: now) ++ pending := by
        rw [mem_append, not_or]
        exact ⟨zero_not_mem_render sendable, noNul⟩
      rw [← append_assoc (render (line :: now)), textAt_append noNuls]
      simp [crlf]
    have ended : find crlf (line ++ 13 :: ([10] ++ (render now ++ pending))) = some line.length :=
      find_first this.noCr
    -- its line end is written over
    have cut : store (front ++ (render (line :: now) ++ (pending ++ 0 :: junk)))
        (front.length + line.length) [0] =
        front ++ (line ++ 0 :: (10 :: (render now ++ (pending ++ 0 :: junk)))) := by
      have put := store_byte (front ++ line) (10 :: (render now ++ (pending ++ 0 :: junk))) 13 0
      simpa [crlf] using put
    have left : now.length < turns := by
      rw [length_cons] at enough
      omega
    obtain ⟨past, length, scanned⟩ := ih others left (front ++ (line ++ [0, 10]))
      (if line = [] then handled else handled ++ [line])
    refine ⟨past, ?_, ?_⟩
    · simp only [length, render_cons, length_append, crlf, length_cons,
        length_nil]
      omega
    · have start : (front ++ (line ++ [0, 10])).length = front.length + line.length + 2 := by
        simp only [length_append, length_cons, length_nil]
        omega
      have memory : front ++ (line ++ [0, 10]) ++ (render now ++ (pending ++ 0 :: junk)) =
          front ++ (line ++ 0 :: (10 :: (render now ++ (pending ++ 0 :: junk)))) := by simp
      rw [start, memory] at scanned
      rw [scan, alive, if_neg Bool.false_ne_true, text, ended]
      simp only [cut, textAt_append this.noNul, scanned]
      by_cases empty : line = []
      · simp [empty]
      · simp [empty]

/-! ## One event -/

structure Holds (st : Driver) (pending : Bytes) : Prop where
  length : st.bufLen = pending.length
  bytes : pending <+: st.buf

theorem Unfinished.facts {later : List Bytes} (unfinished : Unfinished pending later)
    (sendable : ∀ line ∈ later, Sendable line) :
    pending.length ≤ 511 ∧ 0 ∉ pending ∧ 10 ∉ pending := by
  cases later with
  | nil =>
    obtain rfl : pending = [] := unfinished
    simp
  | cons line later =>
    have this := sendable line mem_cons_self
    have within : pending <+: line ++ [13] := unfinished
    have short := this.short
    refine ⟨?_, fun mem => ?_, fun mem => ?_⟩
    · have bound := within.length_le
      simp only [length_append, length_cons, length_nil] at bound
      omega
    · rcases mem_append.mp (within.subset mem) with inLine | inEnd
      · exact this.noNul inLine
      · exact absurd inEnd (by decide)
    · rcases mem_append.mp (within.subset mem) with inLine | inEnd
      · exact this.noLf inLine
      · exact absurd inEnd (by decide)

theorem length_render_ge (lines : List Bytes) : lines.length ≤ (render lines).length := by
  induction lines with
  | nil => exact le_rfl
  | cons line lines ih =>
    simp only [render_cons, length_append, length_cons, crlf]
    omega

theorem process_lines (alive : ∀ log, dead log = false)
    (sendable : ∀ line ∈ now, Sendable line) (noNul : 0 ∉ pending) (noLf : 10 ∉ pending)
    (short : pending.length ≤ 511) (laid : st.buf = render now ++ (pending ++ 0 :: junk))
    (length : st.bufLen = (render now ++ pending).length) :
    Holds (ircProcessBuffer dead st) pending ∧
      (ircProcessBuffer dead st).handled = st.handled ++ nonEmpty now := by
  have size := st.size
  simp only [laid, length_append, length_cons] at size length
  have turns : now.length < ircBufSz := by
    have := length_render_ge now
    omega
  obtain ⟨past, reached, scanned⟩ :=
    scan_lines alive sendable noNul noLf turns [] junk st.handled
  simp only [nil_append, length_nil, Nat.zero_add] at reached scanned
  rw [← laid] at scanned
  have remaining : (st.bufLen + 2 ^ 64 - past.length) % 2 ^ 64 = pending.length := by
    simp only [ircBufSz] at size
    omega
  refine ⟨⟨?_, ?_⟩, ?_⟩
  · simp only [ircProcessBuffer, scanned, remaining]
    rw [if_neg (by simp only [ircBufSz]; omega)]
  · simp only [ircProcessBuffer, scanned, remaining]
    split
    next moved =>
      -- the unfinished line moves to the front
      rw [drop_left, take_left, store, take_zero, nil_append]
      have room : pending.length ≤ (past ++ (pending ++ 0 :: junk)).length - 0 := by
        simp only [length_append]
        omega
      rw [take_of_length_le room]
      exact prefix_append _ _
    next still =>
      by_cases empty : pending = []
      · rw [empty]
        exact nil_prefix
      · have front : past.length = 0 := by
          by_contra later
          exact still ⟨length_pos_of_ne_nil empty, later⟩
        rw [length_eq_zero_iff.mp front]
        exact prefix_append _ _
  · simp only [ircProcessBuffer, scanned]

/-- The event fits in the room left of the buffer; a read always brings a byte. -/
def Fits (st : Driver) (data : Bytes) : Prop :=
  0 < data.length ∧ st.bufLen + data.length ≤ ircBufSz - 1

instance (st : Driver) (data : Bytes) : Decidable (Fits st data) :=
  inferInstanceAs (Decidable (_ ∧ _))

theorem received_fits (holds : Holds st pending) (fits : Fits st data) :
    (∃ junk, (received st data).buf = (pending ++ data) ++ 0 :: junk) ∧
      (received st data).bufLen = (pending ++ data).length ∧
      (received st data).handled = st.handled := by
  obtain ⟨nonempty, room⟩ := fits
  obtain ⟨rest, laid⟩ := holds.bytes
  have length := holds.length
  have size := st.size
  simp only [← laid, length_append, ircBufSz] at size room
  have copied : min data.length (ircBufSz - st.bufLen - 1) = data.length := by
    simp only [ircBufSz]
    omega
  have beyond : rest.drop data.length ≠ [] := by
    rw [Ne, drop_eq_nil_iff]
    omega
  obtain ⟨last, junk, tail⟩ := exists_cons_of_ne_nil beyond
  have taken : (rest.take data.length).length = data.length := by
    rw [length_take]
    omega
  have appended : store st.buf st.bufLen data = pending ++ (data ++ last :: junk) := by
    rw [← laid, ← take_append_drop data.length rest, tail, length]
    exact store_append taken
  have ended : store (pending ++ (data ++ last :: junk)) (st.bufLen + data.length) [0] =
      (pending ++ data) ++ 0 :: junk := by
    have put := store_byte (pending ++ data) junk last 0
    simpa [length] using put
  simp only [received, copied, nonempty, ↓reduceIte, take_length, appended, ended,
    length_append, and_true]
  exact ⟨⟨junk, rfl⟩, by rw [length]⟩

variable (alive : ∀ log, dead log = false)
include alive

theorem sockData_lines (holds : Holds st pending)
    (fits : Fits st data) (sendable : ∀ line ∈ todo, Sendable line)
    (stream : pending ++ (data ++ future) = render todo) :
    ∃ now later pending', todo = now ++ later ∧ Holds (sockData dead st data) pending' ∧
      pending' ++ future = render later ∧ Unfinished pending' later ∧
      (sockData dead st data).handled = st.handled ++ nonEmpty now := by
  rw [← append_assoc] at stream
  obtain ⟨now, later, pending', rfl, content, resumed, unfinished⟩ := arrived stream
  obtain ⟨short, noNul, noLf⟩ :=
    unfinished.facts fun line mem => sendable line (mem_append_right _ mem)
  obtain ⟨⟨junk, laid⟩, length, handled⟩ := received_fits holds fits
  rw [content, append_assoc] at laid
  rw [content] at length
  obtain ⟨holds', lines⟩ := process_lines alive
    (fun line mem => sendable line (mem_append_left _ mem)) noNul noLf short laid length
  rw [sockData, alive, if_neg Bool.false_ne_true]
  exact ⟨now, later, pending', rfl, holds', resumed, unfinished, handled ▸ lines⟩

/-! ## A whole stream -/

theorem run_lines {t : Driver}
    (run : Run (step dead) Fits st events t) (holds : Holds st pending)
    (sendable : ∀ line ∈ todo, Sendable line) (unfinished : Unfinished pending todo)
    (stream : pending ++ events.flatten = render todo) :
    t.handled = st.handled ++ nonEmpty todo := by
  induction run generalizing pending todo with
  | nil st =>
    cases todo with
    | nil => simp
    | cons line todo =>
      -- an unfinished line is not a line with its end
      have bound := List.IsPrefix.length_le unfinished
      have length := congrArg length stream
      simp only [flatten_nil, append_nil, render_cons, length_append, crlf,
        length_cons, length_nil] at bound length
      omega
  | cons fits head _ ih =>
    cases head
    obtain ⟨now, later, pending', rfl, holds', resumed, unfinished', handled⟩ :=
      sockData_lines alive holds fits sendable stream
    rw [ih holds' (fun line mem => sendable line (mem_append_right _ mem)) unfinished'
      resumed, handled, nonEmpty, nonEmpty, nonEmpty, filter_append, append_assoc]

theorem short_reads_fit
    (small : ∀ data ∈ events, 0 < data.length ∧ data.length ≤ 3584) (holds : Holds st pending)
    (sendable : ∀ line ∈ todo, Sendable line) (unfinished : Unfinished pending todo)
    (stream : pending ++ events.flatten = render todo) : ∃ t, Run (step dead) Fits st events t := by
  induction events generalizing st pending todo with
  | nil => exact ⟨st, .nil st⟩
  | cons data events ih =>
    obtain ⟨nonempty, short⟩ := small data mem_cons_self
    have fits : Fits st data := by
      have held := (unfinished.facts sendable).1
      have length := holds.length
      refine ⟨nonempty, ?_⟩
      simp only [ircBufSz]
      omega
    obtain ⟨now, later, pending', rfl, holds', resumed, unfinished', -⟩ :=
      sockData_lines alive holds fits sendable stream
    obtain ⟨t, run⟩ := ih (fun data mem => small data (.tail _ mem)) holds'
      (fun line mem => sendable line (mem_append_right _ mem)) unfinished' resumed
    exact ⟨t, .cons fits rfl run⟩

omit alive

theorem fresh_holds (st : Driver) (fresh : st.bufLen = 0) (lines : List Bytes) :
    Holds st [] ∧ Unfinished [] lines := by
  refine ⟨⟨fresh, nil_prefix⟩, ?_⟩
  cases lines with
  | nil => rfl
  | cons line lines => exact nil_prefix

theorem lines_handled_once {lines events : List Bytes} (sendable : ∀ line ∈ lines, Sendable line)
    (stream : events.flatten = render lines)
    (alive : ∀ log, dead log = false) {st t : Driver} (fresh : st.bufLen = 0)
    (run : Run (step dead) Fits st events t) :
    t.handled = st.handled ++ nonEmpty lines := by
  obtain ⟨holds, unfinished⟩ := fresh_holds st fresh lines
  exact run_lines alive run holds sendable unfinished stream

def created : Driver := ⟨replicate ircBufSz 0, length_replicate, 0, []⟩

theorem lines_handled_split : ∃ t,
    Run (step fun _ => false) Fits created [[65, 66, 13], [10, 13, 10, 67], [13, 10]] t ∧
      t.handled = [[65, 66], [67]] := by
  have sendable : ∀ line ∈ [[65, 66], [], [67]], Sendable line := by
    intro line mem
    simp only [mem_cons, not_mem_nil, or_false] at mem
    rcases mem with rfl | rfl | rfl
    · exact ⟨by decide, by decide, by decide, by decide⟩
    · exact ⟨by decide, by decide, by decide, by decide⟩
    · exact ⟨by decide, by decide, by decide, by decide⟩
  obtain ⟨holds, unfinished⟩ := fresh_holds created rfl [[65, 66], [], [67]]
  have stream : [[65, 66, 13], [10, 13, 10, 67], [13, 10]].flatten =
      render [[65, 66], [], [67]] := rfl
  have small : ∀ data ∈ ([[65, 66, 13], [10, 13, 10, 67], [13, 10]] : List Bytes),
      0 < data.length ∧ data.length ≤ 3584 := by decide
  obtain ⟨t, run⟩ := short_reads_fit (fun _ => rfl) small holds sendable unfinished stream
  have handled := lines_handled_once sendable stream (fun _ => rfl) rfl run
  exact ⟨t, run, handled⟩

/-! ## A full read -/

theorem received_take : received st data = received st (data.take (ircBufSz - st.bufLen - 1)) := by
  have copy : min (data.take (ircBufSz - st.bufLen - 1)).length (ircBufSz - st.bufLen - 1) =
      min data.length (ircBufSz - st.bufLen - 1) := by
    rw [length_take]
    omega
  have bytes : (data.take (ircBufSz - st.bufLen - 1)).take
      (min data.length (ircBufSz - st.bufLen - 1)) =
      data.take (min data.length (ircBufSz - st.bufLen - 1)) := by
    rw [take_take, min_assoc, min_self]
  simp only [received, copy, bytes]

def fullLine : Bytes := replicate 510 97

/-- Eight lines of full length fill one read of 4096 bytes. The buffer takes 4095 of them: the
last line is left without its LF and is not handled. -/
theorem full_read_loses_line :
    (∀ line ∈ replicate 8 fullLine, Sendable line) ∧
      (render (replicate 8 fullLine)).length = 4096 ∧
      (sockData (fun _ => false) created (render (replicate 8 fullLine))).handled =
        replicate 7 fullLine ∧
      nonEmpty (replicate 8 fullLine) = replicate 8 fullLine := by
  have sendable : Sendable fullLine := by
    have only : ∀ c ∈ fullLine, c = 97 := fun c mem => (mem_replicate.mp mem).2
    refine ⟨length_replicate.le, fun mem => ?_, fun mem => ?_, fun mem => ?_⟩
    · exact absurd (only _ mem) (by decide)
    · exact absurd (only _ mem) (by decide)
    · exact absurd (only _ mem) (by decide)
  have nonempty : fullLine ≠ [] := by
    intro empty
    have length := congrArg length empty
    rw [fullLine, length_replicate] at length
    exact absurd length (by decide)
  have all : ∀ (n : ℕ), ∀ line ∈ replicate n fullLine, Sendable line := by
    intro n line mem
    exact (mem_replicate.mp mem).2 ▸ sendable
  have kept : ∀ n, nonEmpty (replicate n fullLine) = replicate n fullLine := by
    intro n
    exact filter_eq_self.mpr fun line mem =>
      decide_eq_true ((mem_replicate.mp mem).2 ▸ nonempty)
  have length : ∀ n, (render (replicate n fullLine)).length = n * 512 := by
    intro n
    induction n with
    | zero => rfl
    | succ n ih =>
      rw [replicate_succ, render_cons, length_append, length_append, ih]
      simp only [fullLine, length_replicate, crlf, length_cons, length_nil]
      omega
  -- the read without its last byte
  have cut : render (replicate 8 fullLine) =
      (render (replicate 7 fullLine) ++ (fullLine ++ [13])) ++ [10] := by
    simp [replicate_succ, crlf]
  have short : (render (replicate 7 fullLine) ++ (fullLine ++ [13])).length = 4095 := by
    rw [length_append, length, length_append, fullLine, length_replicate]
    rfl
  have seen : received created (render (replicate 8 fullLine)) =
      received created (render (replicate 7 fullLine) ++ (fullLine ++ [13])) := by
    rw [received_take, cut]
    exact congrArg (received created) (take_left' short)
  have fits : Fits created (render (replicate 7 fullLine) ++ (fullLine ++ [13])) := by
    refine ⟨?_, ?_⟩
    · rw [short]
      decide
    · rw [short]
      decide
  obtain ⟨⟨junk, laid⟩, bufLen, handled⟩ := received_fits (fresh_holds created rfl []).1 fits
  have unfinished : Unfinished (fullLine ++ [13]) [fullLine] := prefix_rfl
  obtain ⟨pending, noNul, noLf⟩ := unfinished.facts (all 1)
  rw [nil_append, append_assoc] at laid
  rw [nil_append] at bufLen
  have lines := (process_lines (fun _ => rfl) (all 7) noNul noLf pending laid bufLen).2
  refine ⟨all 8, length 8, ?_, kept 8⟩
  rw [sockData, if_neg Bool.false_ne_true, seen, lines, handled, kept]
  rfl

end BotManager.IrcBuffer
