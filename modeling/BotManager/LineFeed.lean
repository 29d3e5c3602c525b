import Mathlib.Data.List.TakeWhile

/-! Lines of bounded length assembled from a stream, one element at a time. A line that reaches
the bound is reported once and its rest is swallowed; work ends for good when the state says so.
What is done with a stream depends on its lines alone. -/

namespace BotManager.LineFeed

open List

variable {α σ : Type*}

structure Reader (α σ : Type*) where
  isEnd : α → Bool
  bound : ℕ
  line : List α → σ → σ
  long : σ → σ
  stopped : σ → Bool

structure Assembly (α : Type*) where
  buf : List α
  overlong : Bool

namespace Reader

variable (R : Reader α σ)

def put (a : Assembly α × σ) (x : α) : Assembly α × σ :=
  if R.stopped a.2 = true then a
  else if R.isEnd x = true then (⟨[], false⟩, if a.1.overlong then a.2 else R.line a.1.buf a.2)
  else if a.1.buf.length + 1 = R.bound then (⟨[], true⟩, if a.1.overlong then a.2 else R.long a.2)
  else (⟨a.1.buf ++ [x], a.1.overlong⟩, a.2)

def feed (a : Assembly α × σ) (stream : List α) : Assembly α × σ := stream.foldl R.put a

variable (a : Assembly α × σ)

@[simp] theorem feed_nil : R.feed a [] = a := rfl

@[simp] theorem feed_cons (x : α) (stream : List α) :
    R.feed a (x :: stream) = R.feed (R.put a x) stream := rfl

theorem feed_append (first second : List α) :
    R.feed a (first ++ second) = R.feed (R.feed a first) second :=
  foldl_append

variable {R}

theorem feed_stopped {a : Assembly α × σ} (stopped : R.stopped a.2 = true) (stream : List α) :
    R.feed a stream = a := by
  induction stream with
  | nil => rfl
  | cons x stream ih => rw [feed_cons, put, if_pos stopped, ih]

variable {s : σ} {buf : List α}

variable (going : R.stopped s = false)
include going

theorem put_end {x : α} (ends : R.isEnd x = true) (buf : List α)
    (overlong : Bool) :
    R.put (⟨buf, overlong⟩, s) x = (⟨[], false⟩, if overlong then s else R.line buf s) := by
  rw [put, if_neg (by simp [going]), if_pos ends]

variable {more : List α} {overlong : Bool}

theorem feed_kept (inner : ∀ x ∈ more, R.isEnd x = false) (fits : (buf ++ more).length < R.bound) :
    R.feed (⟨buf, overlong⟩, s) more = (⟨buf ++ more, overlong⟩, s) := by
  induction more generalizing buf with
  | nil => rw [feed_nil, append_nil]
  | cons x more ih =>
    have here : R.isEnd x = false := inner x mem_cons_self
    rw [length_append, length_cons] at fits
    have kept : R.put (⟨buf, overlong⟩, s) x = (⟨buf ++ [x], overlong⟩, s) := by
      rw [put, if_neg (by simp [going]), if_neg (by simp [here]), if_neg]
      exact fun full => absurd (show buf.length + 1 = R.bound from full) (by omega)
    rw [feed_cons, kept, ih (fun y mem => inner y (mem_cons_of_mem x mem))]
    · rw [append_assoc, singleton_append]
    · rw [append_assoc, singleton_append, length_append, length_cons]
      exact fits

theorem feed_full (inner : ∀ x ∈ more, R.isEnd x = false) (room : buf.length < R.bound)
    (full : (buf ++ more).length = R.bound) :
    R.feed (⟨buf, overlong⟩, s) more = (⟨[], true⟩, if overlong then s else R.long s) := by
  rw [length_append] at full
  have nonempty : more ≠ [] := by
    rintro rfl
    simp at full
    omega
  obtain ⟨front, last, rfl⟩ : ∃ front last, more = front ++ [last] :=
    ⟨_, _, (dropLast_concat_getLast nonempty).symm⟩
  rw [length_append, length_singleton] at full
  have short : (buf ++ front).length < R.bound := by
    rw [length_append]
    omega
  have here : R.isEnd last = false := inner last (by simp)
  rw [feed_append, feed_kept going (fun x mem => inner x (mem_append_left _ mem)) short,
    feed_cons, feed_nil, put, if_neg (by simp [going]), if_neg (by simp [here]), if_pos]
  rw [length_append]
  omega

end Reader

section Lines

def splitLines (isEnd : α → Bool) : List α → List (List α) × List α
  | [] => ([], [])
  | x :: stream =>
    if isEnd x then ([] :: (splitLines isEnd stream).1, (splitLines isEnd stream).2)
    else
      match splitLines isEnd stream with
      | ([], tail) => ([], x :: tail)
      | (l :: lines, tail) => ((x :: l) :: lines, tail)

variable (R : Reader α σ)

def Reader.answer (s : σ) (l : List α) : σ :=
  if R.stopped s = true then s else if l.length < R.bound then R.line l s else R.long s

def Reader.tail (s : σ) (l : List α) : σ := if l.length < R.bound then s else R.answer s l

def Reader.whole (s : σ) (stream : List α) : σ :=
  R.tail ((splitLines R.isEnd stream).1.foldl R.answer s) (splitLines R.isEnd stream).2

variable {R}

theorem Reader.answer_stopped (stopped : R.stopped s = true) (l : List α) : R.answer s l = s := by
  rw [answer, if_pos stopped]

theorem Reader.foldl_stopped (stopped : R.stopped s = true) (lines : List (List α)) :
    lines.foldl R.answer s = s := by
  induction lines with
  | nil => rfl
  | cons l lines ih => rw [foldl_cons, answer_stopped stopped, ih]

theorem Reader.tail_stopped (stopped : R.stopped s = true) : R.tail s l = s := by
  rw [tail, answer_stopped stopped, ite_self]

def Reader.resume (R : Reader α σ) (buf : List α) (overlong : Bool) (s : σ) :
    List (List α) × List α → σ
  | ([], tail) => if overlong then s else R.tail s (buf ++ tail)
  | (l :: lines, tail) =>
    R.tail (lines.foldl R.answer (if overlong then s else R.answer s (buf ++ l))) tail

theorem Reader.resume_stopped (stopped : R.stopped s = true) (overlong : Bool) :
    R.resume buf overlong s rest = s := by
  obtain ⟨lines, tail⟩ := rest
  cases lines with
  | nil => rw [resume, tail_stopped stopped, ite_self]
  | cons l lines =>
    rw [resume, answer_stopped stopped, ite_self, foldl_stopped stopped, tail_stopped stopped]

theorem Reader.resume_start (s : σ) :
    R.resume [] false s rest = R.tail (rest.1.foldl R.answer s) rest.2 := by
  obtain ⟨lines, tail⟩ := rest
  cases lines <;> rfl

theorem Reader.answer_long (going : R.stopped s = false) {l : List α} (long : R.bound ≤ l.length) :
    R.answer s l = R.long s ∧ R.tail s l = R.long s := by
  have answer : R.answer s l = R.long s := by
    rw [Reader.answer, if_neg (by simp [going]), if_neg (by omega)]
  rw [tail, if_neg (by omega)]
  exact ⟨answer, answer⟩

theorem Reader.feed_resume (stream : List α) (room : buf.length < R.bound) (s : σ) :
    (R.feed (⟨buf, overlong⟩, s) stream).2 =
      R.resume buf overlong s (splitLines R.isEnd stream) := by
  induction stream generalizing buf overlong s with
  | nil =>
    rw [feed_nil, splitLines, resume, append_nil, tail, if_pos room, ite_self]
  | cons x stream ih =>
    by_cases stopped : R.stopped s = true
    · rw [feed_stopped stopped, resume_stopped stopped]
    have going : R.stopped s = false := Bool.eq_false_iff.mpr stopped
    have empty : ([] : List α).length < R.bound := Nat.zero_lt_of_lt room
    rw [feed_cons, splitLines]
    by_cases ends : R.isEnd x = true
    · have line : R.answer s buf = R.line buf s := by
        rw [answer, if_neg stopped, if_pos room]
      rw [put_end going ends, ih empty, resume_start, if_pos ends, resume, append_nil, line]
    · rw [if_neg ends]
      by_cases full : buf.length + 1 = R.bound
      · have reached : R.put (⟨buf, overlong⟩, s) x =
            (⟨[], true⟩, if overlong then s else R.long s) := by
          rw [put, if_neg stopped, if_neg ends, if_pos full]
        have long : ∀ l, R.bound ≤ (buf ++ x :: l).length := by
          intro l
          rw [length_append, length_cons]
          omega
        rw [reached, ih empty]
        cases splitLines R.isEnd stream with
        | mk lines tail =>
          cases lines with
          | nil => rw [resume, resume, if_pos rfl, (answer_long going (long tail)).2]
          | cons l lines => rw [resume, resume, if_pos rfl, (answer_long going (long l)).1]
      · have kept : R.put (⟨buf, overlong⟩, s) x = (⟨buf ++ [x], overlong⟩, s) := by
          rw [put, if_neg stopped, if_neg ends, if_neg full]
        have shorter : (buf ++ [x]).length < R.bound := by
          rw [length_append, length_singleton]
          omega
        rw [kept, ih shorter]
        cases splitLines R.isEnd stream with
        | mk lines tail =>
          cases lines with
          | nil | cons l lines => rw [resume, resume, append_assoc, singleton_append]

theorem Reader.feed_whole (nonempty : 0 < R.bound) (s : σ) :
    (R.feed (⟨[], false⟩, s) stream).2 = R.whole s stream := by
  have empty : ([] : List α).length < R.bound := nonempty
  rw [feed_resume stream empty, resume_start, whole]

end Lines

end BotManager.LineFeed
