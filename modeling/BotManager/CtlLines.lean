import BotManager.CtlClient
import BotManager.LineFeed

/-! The line reader of the control socket does not depend on how bytes arrive: every way of
splitting a stream into reads leads to the same session, in which each line of the stream that
came in command mode has been answered once. The drain of the buffer is taken to the reader that
works one byte at a time. -/

namespace BotManager.CtlLines
open List CText CtlClient LineFeed

variable {ω : Type*}

section Statement

def isNewline (c : UInt8) : Bool := c = newline

/-- The lines that are to be answered: the complete ones, and an unfinished one that is too long
already. -/
def linesToAnswer (stream : Bytes) : List Bytes :=
  (splitLines isNewline stream).1 ++
    if (splitLines isNewline stream).2.length < inputSz - 1 then []
    else [(splitLines isNewline stream).2]

def answerTo (line : Bytes) : Event :=
  if line.length ≤ inputSz - 2 then .dispatched line else .refused

def exchange (line : Bytes) : List Event := [answerTo line, .delimiter]

/-- Every line has been answered once and in order, with one delimiter each; or up to a line that
was answered last, which made the client a subscriber or could not be answered in full. -/
def Answered (lines : List Bytes) (s : Session ω) : Prop :=
  (s.mode = .command ∧ s.closing = false ∧ s.trace = lines.flatMap exchange) ∨
    ((s.mode = .subscribe ∨ s.closing = true) ∧ ∃ before line after,
      lines = before ++ line :: after ∧ s.trace = before.flatMap exchange ++ [answerTo line])

def dispatchedLine : Event → Option Bytes
  | .dispatched line => some line
  | _ => none

/-- Every line that fits is dispatched, every longer one refused, in whatever mode. -/
structure EachOnce (stream : Bytes) (s : Session ω) : Prop where
  dispatched : s.trace.filterMap dispatchedLine =
    (splitLines isNewline stream).1.filter fun line => line.length ≤ inputSz - 2
  refused : s.trace.count .refused =
    ((linesToAnswer stream).filter fun line => inputSz - 2 < line.length).length
  delimited : s.mode = .command → s.trace.count .delimiter = (linesToAnswer stream).length

end Statement

variable {lines : List Bytes} {buf stream : Bytes} {reads : List Read} {turns : ℕ}

variable {a : Assembly UInt8 × Session ω}

section Answers

variable {W : World ω} {s : Session ω} {line : Bytes}

theorem dispatch_kept :
    (dispatch W s line).closing = s.closing ∧ (dispatch W s line).trace = s.trace := by
  unfold dispatch
  split_ifs
  · exact ⟨rfl, rfl⟩
  · exact ⟨rfl, rfl⟩
  · exact ⟨rfl, rfl⟩
  · exact ⟨rfl, rfl⟩

theorem clientDelimit_cases (W : World ω) (s : Session ω) :
    ((clientDelimit W s).mode = .command ∧ (clientDelimit W s).closing = false ∧
        (clientDelimit W s).trace = s.trace ++ [.delimiter]) ∨
      (((clientDelimit W s).mode = .subscribe ∨ (clientDelimit W s).closing = true) ∧
        (clientDelimit W s).trace = s.trace) := by
  unfold clientDelimit
  split
  next silent =>
    right
    refine ⟨?_, rfl⟩
    obtain other | closing := silent
    · left
      cases mode : s.mode with
      | command => exact absurd mode other
      | subscribe => rfl
    · exact .inr closing
  next talking =>
    rw [not_or, not_not, Bool.not_eq_true] at talking
    dsimp only
    split_ifs
    · exact .inl ⟨talking.1, talking.2, rfl⟩
    · exact .inr ⟨.inr rfl, rfl⟩

theorem Answered.more (told : Answered lines s) {t : Session ω}
    (trace : t.trace = s.trace ++ [answerTo line])
    (talking : s.mode = .command ∧ s.closing = false) :
    Answered (lines ++ [line]) (clientDelimit W t) := by
  obtain ⟨-, -, before⟩ | ⟨silent, -⟩ := told
  · obtain ⟨mode, closing, ended⟩ | ⟨silent, ended⟩ := clientDelimit_cases W t
    · refine .inl ⟨mode, closing, ?_⟩
      rw [ended, trace, before, flatMap_append, append_assoc]
      rfl
    · refine .inr ⟨silent, lines, line, [], rfl, ?_⟩
      rw [ended, trace, before]
  · simp [talking.1, talking.2] at silent

def reader (W : World ω) : Reader UInt8 (Session ω) where
  isEnd := isNewline
  bound := inputSz - 1
  line := fun line s => clientLine W s line
  long := clientRefuse W
  stopped := fun s => s.closing

theorem Answered.answer (told : Answered lines s) (line : Bytes) :
    Answered (lines ++ [line]) ((reader W).answer s line) := by
  have later : (s.mode = .subscribe ∨ s.closing = true) → Answered (lines ++ [line]) s := by
    intro silent
    obtain ⟨mode, closing, -⟩ | ⟨-, before, last, after, split, trace⟩ := told
    · simp [mode, closing] at silent
    · refine .inr ⟨silent, before, last, after ++ [line], ?_, trace⟩
      rw [split, append_assoc, cons_append]
  by_cases closing : s.closing = true
  · rw [Reader.answer_stopped (R := reader W) closing]
    exact later (.inr closing)
  rw [Reader.answer, if_neg (show ¬ (reader W).stopped s = true from closing)]
  have going : s.closing = false := Bool.eq_false_iff.mpr closing
  cases mode : s.mode with
  | subscribe =>
    have noLine : clientLine W s line = s := by simp [clientLine, mode]
    have noRefusal : clientRefuse W s = s := by simp [clientRefuse, mode]
    have same : (if line.length < (reader W).bound then (reader W).line line s
        else (reader W).long s) = s := by
      split_ifs
      · exact noLine
      · exact noRefusal
    rw [same]
    exact later (.inl mode)
  | command =>
    split_ifs with fits
    · have short : answerTo line = .dispatched line := by
        have bound : line.length < inputSz - 1 := fits
        rw [answerTo, if_pos (by omega)]
      have ran : (reader W).line line s =
          clientDelimit W (dispatch W (log s (.dispatched line)) line) := by
        simp [reader, clientLine, mode]
      rw [ran]
      apply told.more _ ⟨mode, going⟩
      rw [dispatch_kept.2, short]
      rfl
    · have long : answerTo line = .refused := by
        have bound : ¬ line.length < inputSz - 1 := fits
        rw [answerTo, if_neg]
        simp only [inputSz] at bound ⊢
        omega
      have ran : (reader W).long s = clientDelimit W
          (log { s with
            world := (clientWrite W s.world tooLong).1
            closing := s.closing || !(clientWrite W s.world tooLong).2 } .refused) := by
        simp [reader, clientRefuse, mode]
      rw [ran]
      apply told.more _ ⟨mode, going⟩
      rw [long]
      rfl

theorem Answered.all {before : List Bytes} (told : Answered before s) (lines : List Bytes) :
    Answered (before ++ lines) (lines.foldl (reader W).answer s) := by
  induction lines generalizing before s with
  | nil =>
    rw [append_nil]
    exact told
  | cons line lines ih =>
    have next := ih (told.answer (W := W) line)
    rw [append_assoc, singleton_append] at next
    exact next

theorem whole_answers :
    (reader W).whole s stream = (linesToAnswer stream).foldl (reader W).answer s := by
  have same : (reader W).isEnd = isNewline := rfl
  rw [Reader.whole, linesToAnswer, foldl_append, same, Reader.tail]
  by_cases short : (splitLines isNewline stream).2.length < inputSz - 1
  · rw [if_pos short]
    exact if_pos short
  · rw [if_neg short]
    exact if_neg short

end Answers

section Drain

variable {W : World ω} {c d : Client ω}

theorem firstLine_none (none : firstLine buf = none) : ∀ x ∈ buf, isNewline x = false := by
  unfold firstLine at none
  split at none
  next empty =>
    intro x mem
    have inner := dropWhile_eq_nil_iff.mp empty x mem
    simpa [isNewline] using inner
  next => cases none

theorem firstLine_some {line rest : Bytes} (found : firstLine buf = some (line, rest)) :
    buf = line ++ newline :: rest ∧ ∀ x ∈ line, isNewline x = false := by
  unfold firstLine at found
  split at found
  next => cases found
  next x rest' here =>
    cases found
    have split := takeWhile_append_dropWhile (p := (· ≠ newline)) (l := buf)
    have head : x = newline := by
      have stops := head?_dropWhile_not (· ≠ newline) buf
      rw [here] at stops
      simpa using stops
    rw [here, head] at split
    refine ⟨split.symm, fun y mem => ?_⟩
    have inner := mem_takeWhile_imp mem
    simpa [isNewline] using inner

def Open (c : Client ω) : Prop :=
  (∀ x ∈ c.inBuf, isNewline x = false) ∧ c.inBuf.length < inputSz - 1

theorem open_of_empty (empty : c.inBuf = []) : Open c := by
  simp [Open, empty, inputSz]

structure Agrees (c : Client ω) (a : Assembly UInt8 × Session ω) : Prop where
  session : c.toSession = a.2
  assembly : c.closing = false → a.1 = ⟨c.inBuf, c.inOverlong⟩ ∧ Open c

theorem takeLine_agrees (W : World ω) (c : Client ω) (line rest : Bytes) :
    (takeLine W c line rest).toSession =
        (if c.inOverlong then c.toSession else clientLine W c.toSession line) ∧
      (takeLine W c line rest).inBuf = rest ∧ (takeLine W c line rest).inOverlong = false := by
  unfold takeLine
  split_ifs
  · exact ⟨rfl, rfl, rfl⟩
  · exact ⟨rfl, rfl, rfl⟩

theorem drainFull_agrees (going : c.closing = false) (inner : ∀ x ∈ c.inBuf, isNewline x = false)
    (fits : c.inBuf.length ≤ inputSz - 1) :
    Agrees (drainFull W c) ((reader W).feed (⟨[], c.inOverlong⟩, c.toSession) c.inBuf) := by
  unfold drainFull
  split
  next full =>
    have reached : (reader W).feed (⟨[], c.inOverlong⟩, c.toSession) c.inBuf =
        (⟨[], true⟩, if c.inOverlong then c.toSession else (reader W).long c.toSession) :=
      Reader.feed_full (R := reader W) going inner (by simp [reader, inputSz]) full
    rw [reached]
    exact ⟨rfl, fun _ => ⟨rfl, open_of_empty rfl⟩⟩
  next room =>
    have short : c.inBuf.length < inputSz - 1 := by omega
    have kept : (reader W).feed (⟨[], c.inOverlong⟩, c.toSession) c.inBuf =
        (⟨c.inBuf, c.inOverlong⟩, c.toSession) :=
      Reader.feed_kept (R := reader W) going inner short
    rw [kept]
    exact ⟨rfl, fun _ => ⟨rfl, inner, short⟩⟩

theorem drain_agrees (going : c.closing = false) (enough : c.inBuf.length ≤ turns)
    (fits : c.inBuf.length ≤ inputSz - 1) :
    Agrees (if (drainLines W turns c).closing then drainLines W turns c
        else drainFull W (drainLines W turns c))
      ((reader W).feed (⟨[], c.inOverlong⟩, c.toSession) c.inBuf) := by
  induction turns generalizing c with
  | zero =>
    have empty : c.inBuf = [] := length_eq_zero_iff.mp (by omega)
    rw [drainLines, if_neg (by simp [going])]
    apply drainFull_agrees going _ fits
    simp [empty]
  | succ turns ih =>
    rw [drainLines]
    split
    next none =>
      rw [if_neg (by simp [going])]
      exact drainFull_agrees going (firstLine_none none) fits
    next line rest found =>
      obtain ⟨split, inner⟩ := firstLine_some found
      have length := congrArg length split
      rw [length_append, length_cons] at length
      obtain ⟨session, buf, overlong⟩ := takeLine_agrees W c line rest
      -- the line and its newline, byte by byte
      have kept : (reader W).feed (⟨[], c.inOverlong⟩, c.toSession) line =
          (⟨line, c.inOverlong⟩, c.toSession) := by
        apply Reader.feed_kept (R := reader W) going inner
        rw [nil_append]
        exact show line.length < inputSz - 1 by omega
      have taken : (reader W).feed (⟨[], c.inOverlong⟩, c.toSession) c.inBuf =
          (reader W).feed (⟨[], false⟩, (takeLine W c line rest).toSession) rest := by
        rw [split, Reader.feed_append, kept, Reader.feed_cons,
          Reader.put_end (R := reader W) going (by simp [reader, isNewline]), session]
        rfl
      rw [taken]
      split
      next closed =>
        have stopped : (reader W).stopped (takeLine W c line rest).toSession = true := closed
        rw [Reader.feed_stopped stopped]
        exact ⟨rfl, fun still => by simp [closed] at still⟩
      next still =>
        have step := ih (c := takeLine W c line rest) (Bool.eq_false_iff.mpr still)
          (by rw [buf]; omega) (by rw [buf]; omega)
        rw [buf, overlong] at step
        exact step

theorem Agrees.input (agrees : Agrees c a) (going : c.closing = false) {r : Read} (fits : Fits c r) :
    Agrees (clientInput W c r) ((reader W).feed a r.taken) := by
  obtain ⟨assembly, inner, room⟩ := agrees.assembly going
  have here : a = (⟨c.inBuf, c.inOverlong⟩, c.toSession) :=
    Prod.ext assembly agrees.session.symm
  cases r with
  | again => exact agrees
  | ended => exact fits.elim
  | bytes chunk =>
    have back : (reader W).feed (⟨[], c.inOverlong⟩, c.toSession) c.inBuf = a := by
      rw [here]
      exact Reader.feed_kept (R := reader W) going inner room
    have total : (c.inBuf ++ chunk).length ≤ inputSz - 1 := by
      have bound := fits.2
      rw [length_append]
      omega
    rw [← back, ← Reader.feed_append]
    exact drain_agrees (c := { c with inBuf := c.inBuf ++ chunk }) going (Nat.le_refl _) total

theorem Agrees.readAll (agrees : Agrees c a)
    (read : readAll W c reads = some d) :
    Agrees d ((reader W).feed a (reads.flatMap Read.taken)) := by
  induction reads generalizing c a with
  | nil =>
    cases read
    exact agrees
  | cons r reads ih =>
    obtain ⟨⟨going, fits⟩, later⟩ := Option.ite_none_right_eq_some.mp read
    rw [flatMap_cons, Reader.feed_append]
    exact ih (agrees.input going fits) later

theorem connected_agrees (w : ω) :
    Agrees (connected w) (⟨[], false⟩, (connected w).toSession) :=
  ⟨rfl, fun _ => ⟨rfl, open_of_empty rfl⟩⟩

theorem splits_session {w : ω} {stream : Bytes}
    (splits : Splits W (connected w) stream reads d) :
    d.toSession = (reader W).whole (connected w).toSession stream := by
  obtain ⟨read, all⟩ := splits
  have agrees := (connected_agrees w).readAll read
  have whole : (reader W).whole (connected w).toSession stream =
      ((reader W).feed (⟨[], false⟩, (connected w).toSession) stream).2 :=
    (Reader.feed_whole (R := reader W) (show 0 < inputSz - 1 by decide) _).symm
  rw [whole]
  obtain rfl | ⟨closing, rest, rfl⟩ := all
  · exact agrees.session
  · rw [Reader.feed_append, Reader.feed_stopped]
    · exact agrees.session
    · rw [← agrees.session]
      exact closing

end Drain

section Streams

variable {W : World ω}

theorem exists_splits {c : Client ω} (agrees : Agrees c a)
    (going : c.closing = false) : ∃ reads d, Splits W c stream reads d := by
  induction stream generalizing c a with
  | nil => exact ⟨[], c, rfl, .inl rfl⟩
  | cons x stream ih =>
    have fits : Fits c (.bytes [x]) := by
      have room := (agrees.assembly going).2.2
      refine ⟨cons_ne_nil _ _, ?_⟩
      rw [length_singleton]
      omega
    have next := agrees.input (W := W) going fits
    cases closing : (clientInput W c (.bytes [x])).closing with
    | true =>
      refine ⟨[.bytes [x]], clientInput W c (.bytes [x]), ?_, .inr ⟨closing, stream, rfl⟩⟩
      exact if_pos ⟨going, fits⟩
    | false =>
      obtain ⟨reads, d, read, all⟩ := ih next closing
      refine ⟨.bytes [x] :: reads, d, ?_, ?_⟩
      · rw [readAll, if_pos ⟨going, fits⟩, read]
      · obtain rfl | ⟨closed, more, rfl⟩ := all
        · exact .inl rfl
        · exact .inr ⟨closed, more, rfl⟩

theorem lines_answered_once (W : World ω) (w : ω) (stream : Bytes) :
    (∃ reads d, Splits W (connected w) stream reads d) ∧
      ∀ reads d, Splits W (connected w) stream reads d →
        Answered (linesToAnswer stream) d.toSession ∧
          ∀ reads' d', Splits W (connected w) stream reads' d' → d'.toSession = d.toSession := by
  refine ⟨exists_splits (connected_agrees w) rfl, fun reads d splits => ⟨?_, ?_⟩⟩
  · have start : Answered [] (connected w).toSession := .inl ⟨rfl, rfl, rfl⟩
    rw [splits_session splits, whole_answers]
    exact start.all (linesToAnswer stream)
  · intro reads' d' splits'
    rw [splits_session splits', splits_session splits]

def bare : World Unit := ⟨fun _ _ _ _ => ((), false), fun _ _ => ((), true), fun _ => true⟩

def longLine : Bytes := replicate (inputSz - 1) 120

def mixed : Bytes := ascii "help\r\n\n" ++ longLine ++ ascii "\nAS"

def mixedReads : List Read :=
  [.bytes (ascii "he"), .again, .bytes (ascii "lp\r\n\n"), .bytes (longLine.take 5),
    .bytes (longLine.drop 5), .bytes (ascii "\nAS")]

theorem lines_answered_once_pieces :
    ∃ d : Client Unit, Splits bare (connected ()) mixed mixedReads d ∧
      d.trace = [.dispatched (ascii "help\r"), .delimiter, .dispatched [], .delimiter,
        .refused, .delimiter] ∧
      Answered (linesToAnswer mixed) d.toSession := by
  have splits : Splits bare (connected ()) mixed mixedReads _ :=
    ⟨(Option.some_get (by decide +kernel)).symm, .inl (by decide +kernel)⟩
  exact ⟨_, splits, by decide +kernel, ((lines_answered_once bare () mixed).2 _ _ splits).1⟩

def deaf : World Unit := { bare with write := fun _ _ => ((), false) }

/-- The line after `SUBSCRIBE` is not dispatched, as a subscriber is a listener. And a client that
is in command mode but cannot be written to gets no delimiter, and its next line no answer. -/
theorem subscriber_not_answered :
    (∃ stream reads, ∃ d : Client Unit, Splits bare (connected ()) stream reads d ∧
      d.mode = .subscribe ∧ d.trace = [.dispatched (ascii "SUBSCRIBE")] ∧
      ¬ EachOnce stream d.toSession) ∧
    ∃ stream reads, ∃ d : Client Unit, Splits deaf (connected ()) stream reads d ∧
      d.mode = .command ∧ d.trace = [.dispatched (ascii "help")] ∧
      ¬ EachOnce stream d.toSession := by
  refine ⟨⟨ascii "SUBSCRIBE\nhelp\n", [.bytes (ascii "SUBSCRIBE\nhelp\n")], _,
    ⟨(Option.some_get (by decide +kernel)).symm, .inl (by decide +kernel)⟩, by decide +kernel,
    by decide +kernel, fun each => ?_⟩, ascii "help\nhelp\n", [.bytes (ascii "help\nhelp\n")], _,
    ⟨(Option.some_get (by decide +kernel)).symm, .inl (by decide +kernel)⟩, by decide +kernel,
    by decide +kernel, fun each => ?_⟩
  · exact absurd each.dispatched (by decide +kernel)
  · exact absurd (each.delimited (by decide +kernel)) (by decide +kernel)

end Streams

end BotManager.CtlLines
