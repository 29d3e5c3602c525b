import Mathlib.Algebra.Order.Field.Rat
import Mathlib.Data.List.Basic

/-! The candle aggregator of whenmoon/aggregator.c, which runs under `mk->lock`: trades into
minutes, and each closed bar into the bucket of the grain above. Prices and sizes are
rational numbers. `pass` is the indicator pass: what it writes on a bar is a function of the
ring and that bar. A capacity of `none` is a ring without bound. -/

namespace BotManager.Aggregator

section Types

inductive Gran
  | m1
  | m5
  | m15
  | h1
  | h4
  | d1
  deriving DecidableEq

def granSeconds : Gran → ℤ
  | .m1 => 60
  | .m5 => 300
  | .m15 => 900
  | .h1 => 3600
  | .h4 => 14400
  | .d1 => 86400

def stepMs (g : Gran) : ℤ := granSeconds g * 1000

def cascaded : List Gran := [.m5, .m15, .h1, .h4, .d1]

structure Ohlcv where
  openPx : ℚ
  high : ℚ
  low : ℚ
  close : ℚ
  volume : ℚ
  deriving DecidableEq

def Ohlcv.merge (w src : Ohlcv) : Ohlcv :=
  { openPx := w.openPx
    high := if w.high < src.high then src.high else w.high
    low := if src.low < w.low then src.low else w.low
    close := src.close
    volume := w.volume + src.volume }

structure Bar extends Ohlcv where
  tsCloseMs : ℤ
  deriving DecidableEq

/-- A bar of a ring with its indicators; `repairs` says how many repairs had been armed when
it was pushed. -/
structure Candle (I : Type*) extends Bar where
  ind : I
  repairs : ℕ
  deriving DecidableEq

/-- An open bucket: `pending_1m` or the work bucket of a grain. -/
structure Bucket extends Ohlcv where
  barStartMs : ℤ
  deriving DecidableEq

def Bucket.bar (w : Bucket) (step : ℤ) : Bar := ⟨w.toOhlcv, w.barStartMs + step⟩

structure Level (I : Type*) where
  ring : List (Candle I)
  cap : Option ℕ
  lastCloseMs : ℤ
  work : Option Bucket
  deriving DecidableEq

/-- `repairs` counts the calls of `wm_warmup_repair_arm`. -/
structure Agg (I : Type*) where
  pending : Option Bucket
  level : Gran → Level I
  feedGap : Bool
  repairs : ℕ

def empty {I : Type*} (cap : Gran → Option ℕ) : Agg I :=
  ⟨none, fun g => ⟨[], cap g, 0, none⟩, false, 0⟩

def initCap (history1d : ℕ) (g : Gran) : Option ℕ :=
  some (history1d * (86400 / (granSeconds g).toNat))

end Types

section Push

variable {I : Type*} (pass : List (Candle I) → Bar → I)

def ringTrimDiv : ℕ := 64

/-- A full ring gives up a part of its oldest bars at once. -/
def trimmed (l : Level I) : List (Candle I) :=
  if l.cap = some l.ring.length then l.ring.drop (max 1 (l.ring.length / ringTrimDiv)) else l.ring

def setLevel (s : Agg I) (g : Gran) (l : Level I) : Agg I :=
  { s with level := Function.update s.level g l }

def setWork (s : Agg I) (g : Gran) (w : Option Bucket) : Agg I :=
  setLevel s g { s.level g with work := w }

def pushBar (s : Agg I) (g : Gran) (bar : Bar) : Agg I :=
  let l := s.level g
  if l.cap = some 0 then s
  else setLevel s g { l with
    ring := trimmed l ++ [⟨bar, pass (trimmed l) bar, s.repairs⟩]
    lastCloseMs := bar.tsCloseMs }

@[simp] theorem setLevel_same : (setLevel s g l).level g = l := by
  simp [setLevel]

variable {g q : Gran} {s : Agg I}

theorem setLevel_other (other : q ≠ g) : (setLevel s g l).level q = s.level q := by
  simp [setLevel, other]

theorem setWork_other (other : q ≠ g) (w : Option Bucket) : (setWork s g w).level q = s.level q :=
  setLevel_other other

theorem pushBar_other (other : q ≠ g) (bar : Bar) : (pushBar pass s g bar).level q = s.level q := by
  unfold pushBar
  dsimp only
  split_ifs
  · rfl
  · exact setLevel_other other

theorem pushBar_same (room : (s.level g).cap ≠ some 0) (bar : Bar) :
    (pushBar pass s g bar).level g = { s.level g with
      ring := trimmed (s.level g) ++
        [⟨bar, pass (trimmed (s.level g)) bar, s.repairs⟩]
      lastCloseMs := bar.tsCloseMs } := by
  unfold pushBar
  dsimp only
  rw [if_neg room, setLevel_same]

theorem pushBar_rest (s : Agg I) (g : Gran) (bar : Bar) :
    (pushBar pass s g bar).pending = s.pending ∧ (pushBar pass s g bar).feedGap = s.feedGap ∧
      (pushBar pass s g bar).repairs = s.repairs := by
  unfold pushBar
  dsimp only
  split_ifs <;> exact ⟨rfl, rfl, rfl⟩

theorem pushBar_pending :
    pushBar pass { s with pending := p } g bar = { pushBar pass s g bar with pending := p } := by
  unfold pushBar
  dsimp only
  split_ifs <;> rfl

def bucketStart (step : ℤ) (src : Bar) : Bucket :=
  ⟨src.toOhlcv, (src.tsCloseMs - 1).tdiv step * step⟩

/-- `wm_aggregator_cascade_to` for the first of the targets, whose closed bars go on to the
rest of them. -/
def cascadeTo (srcGran : Gran) : List Gran → Agg I → Bar → Agg I
  | [], s, _ => s
  | target :: up, s, src =>
    let bucketEmit (s : Agg I) (w : Bucket) : Agg I :=
      let s := setWork (pushBar pass s target (w.bar (stepMs target))) target none
      match (s.level target).ring.getLast? with
      | none => s
      | some bar => cascadeTo target up s bar.toBar
    let srcOpenMs := src.tsCloseMs - stepMs srcGran
    -- a bar that begins at the end of the bucket or later closes it first
    let s := match (s.level target).work with
      | none => s
      | some w => if w.barStartMs + stepMs target ≤ srcOpenMs then bucketEmit s w else s
    let w := match (s.level target).work with
      | none => bucketStart (stepMs target) src
      | some w => { w with toOhlcv := w.toOhlcv.merge src.toOhlcv }
    let s := setWork s target (some w)
    if w.barStartMs + stepMs target ≤ src.tsCloseMs then bucketEmit s w else s

/-- `wm_aggregator_bucket_emit`, as it stands inside the cascade. -/
def bucketEmit (target : Gran) (up : List Gran) (s : Agg I) (w : Bucket) : Agg I :=
  let s := setWork (pushBar pass s target (w.bar (stepMs target))) target none
  match (s.level target).ring.getLast? with
  | none => s
  | some bar => cascadeTo pass target up s bar.toBar

theorem cascadeTo_cons :
    cascadeTo pass p (target :: up) s src =
      let s := match (s.level target).work with
        | none => s
        | some w => if w.barStartMs + stepMs target ≤ src.tsCloseMs - stepMs p then
            bucketEmit pass target up s w else s
      let w := match (s.level target).work with
        | none => bucketStart (stepMs target) src
        | some w => { w with toOhlcv := w.toOhlcv.merge src.toOhlcv }
      if w.barStartMs + stepMs target ≤ src.tsCloseMs then
        bucketEmit pass target up (setWork s target (some w)) w
      else setWork s target (some w) :=
  rfl

theorem cascadeTo_preserves {P : Agg I → Agg I → Prop} (refl : ∀ s, P s s)
    (trans : ∀ {s t u}, P s t → P t u → P s u) (p : Gran) (targets : List Gran)
    (work : ∀ s, ∀ g ∈ targets, ∀ w, P s (setWork s g w))
    (push : ∀ s, ∀ g ∈ targets, ∀ bar, P s (pushBar pass s g bar)) (s : Agg I) (src : Bar) :
    P s (cascadeTo pass p targets s src) := by
  induction targets generalizing p s src with
  | nil => exact refl s
  | cons g up ih =>
    have emit : ∀ s w, P s (bucketEmit pass g up s w) := by
      intro s w
      have ended := trans (push s g List.mem_cons_self (w.bar (stepMs g)))
        (work _ g List.mem_cons_self none)
      unfold bucketEmit
      dsimp only
      cases (setWork (pushBar pass s g (w.bar (stepMs g))) g none).level g |>.ring.getLast? with
      | none => exact ended
      | some bar =>
        exact trans ended (ih g (fun s q mem => work s q (List.mem_cons_of_mem _ mem))
          (fun s q mem => push s q (List.mem_cons_of_mem _ mem)) _ _)
    have close : ∀ s w, P s (if w.barStartMs + stepMs g ≤ src.tsCloseMs then
        bucketEmit pass g up (setWork s g (some w)) w else setWork s g (some w)) := by
      intro s w
      have set := work s g List.mem_cons_self (some w)
      split_ifs
      · exact trans set (emit _ w)
      · exact set
    rw [cascadeTo_cons]
    cases held : (s.level g).work with
    | none =>
      simp only [held]
      exact close s (bucketStart (stepMs g) src)
    | some w =>
      by_cases crossed : w.barStartMs + stepMs g ≤ src.tsCloseMs - stepMs p
      · simp only [if_pos crossed]
        exact trans (emit s w) (close _ _)
      · simp only [if_neg crossed, held]
        exact close s { w with toOhlcv := w.toOhlcv.merge src.toOhlcv }

theorem cascadeTo_comm {f : Agg I → Agg I} (level : ∀ s, (f s).level = s.level)
    (work : ∀ s g w, setWork (f s) g w = f (setWork s g w))
    (push : ∀ s g bar, pushBar pass (f s) g bar = f (pushBar pass s g bar)) (p : Gran)
    (s : Agg I) (src : Bar) :
    cascadeTo pass p targets (f s) src = f (cascadeTo pass p targets s src) := by
  induction targets generalizing p s src with
  | nil => rfl
  | cons g up ih =>
    have emit : ∀ s w, bucketEmit pass g up (f s) w = f (bucketEmit pass g up s w) := by
      intro s w
      unfold bucketEmit
      dsimp only
      rw [push, work, level]
      cases (setWork (pushBar pass s g (w.bar (stepMs g))) g none).level g |>.ring.getLast? with
      | none => rfl
      | some bar => exact ih g _ _
    have close : ∀ s w, (if w.barStartMs + stepMs g ≤ src.tsCloseMs then
        bucketEmit pass g up (setWork (f s) g (some w)) w else setWork (f s) g (some w)) =
        f (if w.barStartMs + stepMs g ≤ src.tsCloseMs then
          bucketEmit pass g up (setWork s g (some w)) w else setWork s g (some w)) := by
      intro s w
      rw [work]
      split_ifs
      · exact emit _ w
      · rfl
    rw [cascadeTo_cons, cascadeTo_cons, level]
    cases held : (s.level g).work with
    | none =>
      simp only [level, held]
      exact close s (bucketStart (stepMs g) src)
    | some w =>
      by_cases crossed : w.barStartMs + stepMs g ≤ src.tsCloseMs - stepMs p
      · simp only [if_pos crossed, emit, level]
        exact close _ _
      · simp only [if_neg crossed, level, held]
        exact close s { w with toOhlcv := w.toOhlcv.merge src.toOhlcv }

theorem cascadeTo_other {p : Gran} {targets : List Gran} (other : q ∉ targets) (s : Agg I)
    (src : Bar) : (cascadeTo pass p targets s src).level q = s.level q :=
  cascadeTo_preserves pass (P := fun s t => t.level q = s.level q) (fun _ => rfl)
    (fun first second => second.trans first) p targets
    (fun _ _ mem w => setWork_other (ne_of_mem_of_not_mem mem other).symm w)
    (fun _ _ mem bar => pushBar_other pass (ne_of_mem_of_not_mem mem other).symm bar) s src

def feedMinute (s : Agg I) (bar : Bar) : Agg I :=
  let s := pushBar pass s .m1 bar
  match (s.level .m1).ring.getLast? with
  | none => s
  | some bar => cascadeTo pass .m1 cascaded s bar.toBar

theorem feedMinute_m1 (room : (s.level .m1).cap ≠ some 0) (bar : Bar) :
    (feedMinute pass s bar).level .m1 = { s.level .m1 with
      ring := trimmed (s.level .m1) ++
        [⟨bar, pass (trimmed (s.level .m1)) bar, s.repairs⟩]
      lastCloseMs := bar.tsCloseMs } := by
  have pushed := pushBar_same pass room bar
  unfold feedMinute
  dsimp only
  cases (pushBar pass s .m1 bar).level .m1 |>.ring.getLast? with
  | none => exact pushed
  | some c => rw [← pushed, cascadeTo_other pass (by decide)]

theorem feedMinute_rest (s : Agg I) (bar : Bar) :
    (feedMinute pass s bar).pending = s.pending ∧ (feedMinute pass s bar).feedGap = s.feedGap ∧
      (feedMinute pass s bar).repairs = s.repairs := by
  obtain ⟨pending, gap, repairs⟩ := pushBar_rest pass s .m1 bar
  unfold feedMinute
  dsimp only
  cases (pushBar pass s .m1 bar).level .m1 |>.ring.getLast? with
  | none => exact ⟨pending, gap, repairs⟩
  | some c =>
    have kept := cascadeTo_preserves pass (P := fun s t : Agg I =>
        t.pending = s.pending ∧ t.feedGap = s.feedGap ∧ t.repairs = s.repairs)
      (fun _ => ⟨rfl, rfl, rfl⟩)
      (fun first second => ⟨second.1.trans first.1, second.2.1.trans first.2.1,
        second.2.2.trans first.2.2⟩)
      .m1 cascaded (fun _ _ _ _ => ⟨rfl, rfl, rfl⟩) (fun s g _ bar => pushBar_rest pass s g bar)
      (pushBar pass s .m1 bar) c.toBar
    exact ⟨kept.1.trans pending, kept.2.1.trans gap, kept.2.2.trans repairs⟩

theorem feedMinute_pending :
    feedMinute pass { s with pending := p } bar =
      { feedMinute pass s bar with pending := p } := by
  unfold feedMinute
  dsimp only
  rw [pushBar_pending]
  dsimp only
  cases (pushBar pass s .m1 bar).level .m1 |>.ring.getLast? with
  | none => rfl
  | some c =>
    exact cascadeTo_comm pass (f := fun s => { s with pending := p }) (fun _ => rfl)
      (fun _ _ _ => rfl) (fun s g bar => pushBar_pending pass) .m1 _ _

end Push

section Live

variable {I : Type*} (pass : List (Candle I) → Bar → I)

def minuteMs : ℤ := 60000
def maxCatchup1m : ℤ := 1440

structure Trade where
  tsMs : ℤ
  price : ℚ
  size : ℚ
  deriving DecidableEq

def Trade.barMs (t : Trade) : ℤ := t.tsMs.tdiv minuteMs * minuteMs

def Trade.ohlcv (t : Trade) : Ohlcv := ⟨t.price, t.price, t.price, t.price, t.size⟩

def Trade.bucket (t : Trade) : Bucket := ⟨t.ohlcv, t.barMs⟩

def close1m (s : Agg I) (p : Bucket) : Agg I :=
  { feedMinute pass s (p.bar minuteMs) with pending := none }

def prevClose (s : Agg I) : ℚ := ((s.level .m1).ring.getLast?.map fun c => c.close).getD 0

def emptyBar (s : Agg I) (barStartMs : ℤ) : Bar :=
  let px := prevClose s
  ⟨⟨px, px, px, px, 0⟩, barStartMs + minuteMs⟩

def emitEmpty1m (s : Agg I) (barStartMs : ℤ) : Agg I := feedMinute pass s (emptyBar s barStartMs)

def minutesUntil (expected limit : ℤ) : ℕ := ((limit - expected + (minuteMs - 1)) / minuteMs).toNat

def emitEmptyRun (s : Agg I) (expected : ℤ) : ℕ → Agg I
  | 0 => s
  | n + 1 => emitEmptyRun (emitEmpty1m pass s expected) (expected + minuteMs) n

def repairArm (s : Agg I) : Agg I := { s with repairs := s.repairs + 1 }

/-- The minutes between the closed one and the new one are synthesized, unless the venue lost
frames or they are too many. -/
def catchUp (s : Agg I) (expected barMs : ℤ) : Agg I :=
  let missing := if expected < barMs then (barMs - expected) / minuteMs else 0
  let s :=
    if 0 < missing ∧ (s.feedGap ∨ maxCatchup1m < missing) then repairArm s
    else emitEmptyRun pass s expected (minutesUntil expected barMs)
  { s with feedGap := false }

def onTrade (s : Agg I) (t : Trade) : Agg I :=
  if t.tsMs ≤ 0 then s
  else
    match s.pending with
    | none => { s with pending := some t.bucket }
    | some p =>
      if t.barMs = p.barStartMs then
        { s with pending := some { p with toOhlcv := p.toOhlcv.merge t.ohlcv } }
      else if t.barMs < p.barStartMs then s
      else
        { catchUp pass (close1m pass s p) (p.barStartMs + minuteMs) t.barMs with
          pending := some t.bucket }

end Live

section Replay

variable {I : Type*} (pass : List (Candle I) → Bar → I)

/-- Open and close both off the last close by more than five times. -/
def Poison (prev : ℚ) (bar : Bar) : Prop :=
  0 < prev ∧ (prev * 5 < bar.openPx ∨ bar.openPx < prev * (1 / 5)) ∧
    (prev * 5 < bar.close ∨ bar.close < prev * (1 / 5))

instance (prev : ℚ) (bar : Bar) : Decidable (Poison prev bar) :=
  inferInstanceAs (Decidable (_ ∧ _ ∧ _))

/-- The market and the number of minutes that were synthesized. -/
def replayBar (s : Agg I) (gran : Gran) (bar : Bar) : Agg I × ℕ :=
  if gran ≠ .m1 then (s, 0)
  else if bar.tsCloseMs ≤ (s.level .m1).lastCloseMs then (s, 0)
  else
    let last := (s.level .m1).lastCloseMs
    let synthesized := if last ≠ 0 then minutesUntil last (bar.tsCloseMs - minuteMs) else 0
    let s := emitEmptyRun pass s last synthesized
    match (s.level .m1).ring.getLast? with
    | none => (feedMinute pass s bar, synthesized)
    | some c =>
      if Poison c.close bar then
        (emitEmpty1m pass s (bar.tsCloseMs - minuteMs), synthesized + 1)
      else (feedMinute pass s bar, synthesized)

structure ExchangeCandle extends Ohlcv where
  tsOpenMs : ℤ
  deriving DecidableEq

/-- A page comes newest first and is replayed oldest first. -/
def onCandles (s : Agg I) (rows : List ExchangeCandle) : Agg I :=
  rows.reverse.foldl
    (fun s src => (replayBar pass s .m1 ⟨src.toOhlcv, src.tsOpenMs + minuteMs⟩).1) s

end Replay

end BotManager.Aggregator
