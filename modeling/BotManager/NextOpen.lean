import BotManager.BacktestLive

/-! The backtest's fills at the next open, `--fill next-open` in `wm_backtest_run_iteration_with_id`
of whenmoon/backtest.c. The context has no market then, so a signal only stays in `last_signal`.
The loop takes it from there after the call and hands it to the engine at the open of the next
one-minute bar. The bars come in the order of the merged walk. -/

namespace BotManager.NextOpen
open List Aggregator MarketModel BacktestLive

section Model

abbrev Tick (I : Type*) := Gran × Candle I

/-- A signal, with the place in the walk of the bar that it was emitted on. -/
abbrev Advice := ℕ × Signal

/-- A call of `wm_market_engine_on_signal_with_mk`. The signal gets the time of the call. -/
structure Order where
  advice : Advice
  px : ℚ
  tsMs : ℤ

structure Book (S : Type*) where
  ctx : Ctx S
  pend : List Advice
  executed : List Order
  dropped : ℕ
  emitted : List Advice

variable {S I : Type*} (st : Strategy S I) (inWindow : ℤ → Bool)

def Book.fill (b : Book S) (bar : Candle I) : Book S :=
  { b with
    pend := []
    executed := b.executed ++ b.pend.map fun a => ⟨a, bar.openPx, bar.tsCloseMs - 60000⟩ }

/-- `pend` has eight places. -/
def Book.defer (b : Book S) (a : Advice) : Book S :=
  if b.pend.length < 8 then { b with pend := b.pend ++ [a] }
  else { b with dropped := b.dropped + 1 }

def nonzero (sig : Signal) : Bool := sig.score ≠ 0

def found (old ctx : Ctx S) : Option Signal :=
  if old.signalsEmitted < ctx.signalsEmitted then ctx.lastSignal.filter nonzero else none

def Book.ask (i : ℕ) (b : Book S) (x : Tick I) : Book S :=
  let (ctx, calls) := call st (b.ctx, []) x.1 x.2
  let said := (calls.flatMap Call.signals).filter nonzero
  let heard := { b with ctx := ctx, emitted := b.emitted ++ said.map (i, ·) }
  (found b.ctx ctx).elim heard fun sig => heard.defer (i, sig)

def turn (i : ℕ) (b : Book S) (x : Tick I) : Book S :=
  let b := if x.1 = .m1 then b.fill x.2 else b
  if st.grains x.1 && inWindow x.2.tsCloseMs then b.ask st i x else b

def walk : ℕ → List (Tick I) → Book S → Book S
  | _, [], b => b
  | i, x :: feed, b => walk (i + 1) feed (turn st inWindow i b x)

/-- What still waits after the last bar is dropped. -/
def runNextOpen (feed : List (Tick I)) : Book S :=
  let b := walk st inWindow 0 feed ⟨fresh st, [], [], 0, []⟩
  { b with pend := [], dropped := b.dropped + b.pend.length }

/-- No two bars of a grain close at one instant. -/
def Ascends (x y : Tick I) : Prop :=
  x.2.tsCloseMs < y.2.tsCloseMs ∨ x.2.tsCloseMs = y.2.tsCloseMs ∧ rank x.1 < rank y.1

instance (x y : Tick I) : Decidable (Ascends x y) := inferInstanceAs (Decidable (_ ∨ _ ∧ _))

/-- The bar at `i` is `x`, and no one-minute bar has come since. -/
def Waits (done : List (Tick I)) (i : ℕ) (x : Tick I) : Prop :=
  ∃ front back, done = front ++ x :: back ∧ front.length = i ∧ ∀ z ∈ back, z.1 ≠ .m1

/-- The advice from `x` is executed at the open of `y`, the first one-minute bar after it. -/
def Filled (feed : List (Tick I)) (o : Order) (x y : Tick I) : Prop :=
  y.1 = .m1 ∧ o.px = y.2.openPx ∧ o.tsMs = y.2.tsCloseMs - 60000 ∧
    ∃ done later, feed = done ++ y :: later ∧ Waits done o.advice.1 x

/-- Each signal but those of score zero is executed once and in order, at the next open and no
earlier than the close of its bar, or counted as dropped. -/
def Accounted (feed : List (Tick I)) (b : Book S) : Prop :=
  b.executed.map Order.advice <+ b.emitted ∧
    b.emitted.length = b.executed.length + b.dropped ∧
    ∀ o ∈ b.executed, ∃ x y, Filled feed o x y ∧ x.2.tsCloseMs ≤ o.tsMs

def said (b : Book S) (x : Tick I) : List Signal :=
  (call st (b.ctx, []) x.1 x.2).2.flatMap Call.signals

/-- Only the last signal of a call has a score. -/
def Decided (sigs : List Signal) : Prop := ∀ sig ∈ sigs.dropLast, nonzero sig = false

/-- What is asked of a turn: the advice that waits for this open comes from bars that have
closed by then, and a call leaves nothing behind but its last signal. -/
structure Meets (done : List (Tick I)) (b : Book S) (x : Tick I) : Prop where
  closed : x.1 = .m1 → ∀ a ∈ b.pend, ∀ y ∈ done[a.1]?, y.2.tsCloseMs ≤ x.2.tsCloseMs - 60000
  decided : (st.grains x.1 && inWindow x.2.tsCloseMs) = true → Decided (said st b x)

def Throughout : List (Tick I) → List (Tick I) → Book S → Prop
  | _, [], _ => True
  | done, x :: feed, b =>
    Meets st inWindow done b x ∧
      Throughout (done ++ [x]) feed (turn st inWindow done.length b x)

end Model

variable {S I : Type*} {st : Strategy S I} {inWindow : ℤ → Bool} {b : Book S}
  {done feed : List (Tick I)} {x z : Tick I} {lost i : ℕ}

structure Inv (done : List (Tick I)) (b : Book S) (lost : ℕ) : Prop where
  counted : b.emitted.length = b.executed.length + (b.dropped + b.pend.length) + lost
  ordered : b.executed.map Order.advice ++ b.pend <+ b.emitted
  waits : ∀ a ∈ b.pend, ∃ x, Waits done a.1 x
  filled : ∀ o ∈ b.executed, ∃ x y, Filled done o x y

def Timely (done : List (Tick I)) (b : Book S) : Prop :=
  ∀ o ∈ b.executed, ∀ y ∈ done[o.advice.1]?, y.2.tsCloseMs ≤ o.tsMs

theorem Waits.get {i : ℕ} (waits : Waits done i x) (later : List (Tick I)) :
    (done ++ later)[i]? = some x ∧ done[i]? = some x := by
  obtain ⟨front, back, rfl, rfl, -⟩ := waits
  simp

theorem Filled.get {o : Order} {y : Tick I} (filled : Filled feed o x y) (later : List (Tick I)) :
    (feed ++ later)[o.advice.1]? = some x ∧ feed[o.advice.1]? = some x := by
  obtain ⟨-, -, -, done, rest, rfl, waits⟩ := filled
  rw [append_assoc]
  exact ⟨(waits.get _).1, (waits.get _).1⟩

theorem Inv.filled_snoc (inv : Inv done b lost) :
    ∀ o ∈ b.executed, ∃ x y, Filled (done ++ [z]) o x y := by
  intro o mem
  obtain ⟨x, y, minute, px, ts, front, later, rfl, waits⟩ := inv.filled o mem
  exact ⟨x, y, minute, px, ts, front, later ++ [z], by simp, waits⟩

theorem Inv.timely_snoc (inv : Inv done b lost) (z : Tick I) :
    Timely (done ++ [z]) b ↔ Timely done b := by
  refine forall₂_congr fun o mem => ?_
  obtain ⟨x, y, filled⟩ := inv.filled o mem
  rw [(filled.get [z]).1, (filled.get [z]).2]

theorem Inv.fill (inv : Inv done b lost) (minute : x.1 = .m1) :
    Inv (done ++ [x]) (b.fill x.2) lost ∧ (Timely (done ++ [x]) (b.fill x.2) ↔ Timely done b ∧
      ∀ a ∈ b.pend, ∀ y ∈ done[a.1]?, y.2.tsCloseMs ≤ x.2.tsCloseMs - 60000) := by
  refine ⟨⟨?_, ?_, by simp [Book.fill], ?_⟩, ?_⟩
  · have counted := inv.counted
    simp only [Book.fill, length_append, length_map, length_nil]
    omega
  · simpa [Book.fill, Function.comp_def] using inv.ordered
  · refine forall_mem_append.mpr ⟨inv.filled_snoc, forall_mem_map.mpr fun a mem => ?_⟩
    obtain ⟨y, waits⟩ := inv.waits a mem
    exact ⟨y, x, minute, rfl, rfl, done, [], rfl, waits⟩
  · rw [← inv.timely_snoc x, Timely, Book.fill, forall_mem_append, forall_mem_map]
    refine and_congr Iff.rfl (forall₂_congr fun a mem => ?_)
    obtain ⟨y, waits⟩ := inv.waits a mem
    rw [(waits.get [x]).1, (waits.get [x]).2]

theorem Inv.pass (inv : Inv done b lost) (other : x.1 ≠ .m1) : Inv (done ++ [x]) b lost where
  __ := inv
  waits a mem := by
    obtain ⟨y, front, back, rfl, place, none⟩ := inv.waits a mem
    exact ⟨y, front, back ++ [x], by simp, place,
      forall_mem_append.mpr ⟨none, forall_mem_singleton.mpr other⟩⟩
  filled := inv.filled_snoc

theorem found_emitted (sigs : List Signal) {old ctx : Ctx S}
    (same : ctx.signalsEmitted = old.signalsEmitted) :
    sigs.filter nonzero =
      sigs.dropLast.filter nonzero ++ (found old (sigs.foldl emitSignal ctx)).toList := by
  have count (sigs : List Signal) (ctx : Ctx S) :
      (sigs.foldl emitSignal ctx).signalsEmitted = ctx.signalsEmitted + sigs.length := by
    induction sigs generalizing ctx with
    | nil => rfl
    | cons sig sigs ih =>
      rw [foldl_cons, ih, length_cons, emitSignal, Nat.add_comm sigs.length, Nat.add_assoc]
  rcases eq_nil_or_concat sigs with rfl | ⟨front, last, rfl⟩
  · simp [found, same]
  · rw [found, count, lastSignal_emitted, same]
    cases zero : nonzero last <;> simp [zero, Option.filter]

theorem decided_iff {sigs : List Signal} :
    Decided sigs ↔ (sigs.dropLast.filter nonzero).length = 0 := by
  simp [Decided, length_eq_zero_iff, filter_eq_nil_iff]

theorem Inv.ask (inv : Inv (done ++ [x]) b lost) : Inv (done ++ [x]) (b.ask st done.length x)
    (lost + ((said st b x).dropLast.filter nonzero).length) := by
  have parts : (said st b x).filter nonzero = (said st b x).dropLast.filter nonzero ++
      (found b.ctx (call st (b.ctx, []) x.1 x.2).1).toList := by
    have whole : said st b x = _ := flatMap_singleton ..
    rw [whole]
    exact found_emitted _ rfl
  have counted := inv.counted
  have here : ∃ y, Waits (done ++ [x]) done.length y := ⟨x, done, [], rfl, rfl, by simp⟩
  unfold Book.ask
  dsimp only
  rw [show ((call st (b.ctx, []) x.1 x.2).2.flatMap Call.signals).filter nonzero = _ from parts]
  cases found b.ctx _ with
  | none =>
    refine ⟨?_, inv.ordered.trans (sublist_append_left _ _), inv.waits, inv.filled⟩
    simp only [Option.elim_none, Option.toList_none, append_nil, length_append, length_map]
    omega
  | some sig =>
    simp only [Option.elim_some, Option.toList_some, map_append, map_cons, map_nil, Book.defer]
    split
    · refine ⟨?_, ?_, forall_mem_append.mpr ⟨inv.waits, forall_mem_singleton.mpr here⟩, inv.filled⟩
      · simp only [length_append, length_map, length_singleton]
        omega
      · rw [← append_assoc]
        exact inv.ordered.append (sublist_append_right _ _)
    · refine ⟨?_, inv.ordered.trans (sublist_append_left _ _), inv.waits, inv.filled⟩
      simp only [length_append, length_map, length_singleton]
      omega

theorem executed_ask : (b.ask st i x).executed = b.executed := by
  unfold Book.ask
  dsimp only
  cases found b.ctx _ with
  | none => rfl
  | some sig =>
    simp only [Option.elim_some, Book.defer]
    split <;> rfl

theorem Inv.open (inv : Inv done b lost) (x : Tick I) :
    Inv (done ++ [x]) (if x.1 = .m1 then b.fill x.2 else b) lost ∧
      (Timely (done ++ [x]) (if x.1 = .m1 then b.fill x.2 else b) ↔ Timely done b ∧
        (x.1 = .m1 → ∀ a ∈ b.pend, ∀ y ∈ done[a.1]?, y.2.tsCloseMs ≤ x.2.tsCloseMs - 60000)) ∧
      (if x.1 = .m1 then b.fill x.2 else b).ctx = b.ctx := by
  split
  next minute =>
    obtain ⟨kept, timely⟩ := inv.fill minute
    exact ⟨kept, by simpa [minute] using timely, rfl⟩
  next other => exact ⟨inv.pass other, by simpa [other] using inv.timely_snoc x, rfl⟩

/-- Nothing is lost and no order is early after a turn exactly if this was so before and the
turn meets what is asked of it. -/
theorem Inv.turn (st : Strategy S I) (inWindow : ℤ → Bool) (inv : Inv done b lost) (x : Tick I) :
    ∃ lost', Inv (done ++ [x]) (turn st inWindow done.length b x) lost' ∧
      (lost' = 0 ∧ Timely (done ++ [x]) (turn st inWindow done.length b x) ↔
        (lost = 0 ∧ Timely done b) ∧ Meets st inWindow done b x) := by
  obtain ⟨kept, timely, same⟩ := inv.open x
  unfold NextOpen.turn
  dsimp only
  generalize (if x.1 = .m1 then b.fill x.2 else b) = opened at kept timely same ⊢
  have heard : said st opened x = said st b x := by rw [said, said, same]
  split
  next called =>
    refine ⟨_, kept.ask, ?_⟩
    rw [Nat.add_eq_zero_iff, ← decided_iff, heard, Timely, executed_ask]
    constructor
    · rintro ⟨⟨none, decided⟩, early⟩
      obtain ⟨before, closed⟩ := timely.mp early
      exact ⟨⟨none, before⟩, closed, fun _ => decided⟩
    · rintro ⟨⟨none, before⟩, closed, decided⟩
      exact ⟨⟨none, decided called⟩, timely.mpr ⟨before, closed⟩⟩
  next idle =>
    refine ⟨lost, kept, ?_⟩
    constructor
    · rintro ⟨none, early⟩
      obtain ⟨before, closed⟩ := timely.mp early
      exact ⟨⟨none, before⟩, closed, fun called => absurd called idle⟩
    · rintro ⟨⟨none, before⟩, closed, -⟩
      exact ⟨none, timely.mpr ⟨before, closed⟩⟩

theorem Inv.walk (st : Strategy S I) (inWindow : ℤ → Bool) (inv : Inv done b lost)
    (feed : List (Tick I)) :
    ∃ lost', Inv (done ++ feed) (walk st inWindow done.length feed b) lost' ∧
      (lost' = 0 ∧ Timely (done ++ feed) (walk st inWindow done.length feed b) ↔
        (lost = 0 ∧ Timely done b) ∧ Throughout st inWindow done feed b) := by
  induction feed generalizing done b lost with
  | nil => exact ⟨lost, by simpa [NextOpen.walk] using inv, by simp [Throughout, NextOpen.walk]⟩
  | cons x feed ih =>
    obtain ⟨next, kept, exactly⟩ := inv.turn st inWindow x
    obtain ⟨last, later, rest⟩ := ih kept
    rw [append_assoc, length_append] at later rest
    exact ⟨last, later, by rw [Throughout, ← and_assoc, ← exactly]; exact rest⟩

def wavering : Strategy Unit Unit where
  grains _ := true
  init := ()
  onBar _ _ bar := ((), [⟨1, bar.tsCloseMs, []⟩, ⟨-1, bar.tsCloseMs, []⟩])

end BotManager.NextOpen
