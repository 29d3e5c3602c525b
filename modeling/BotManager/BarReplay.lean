import Mathlib.Data.List.Chain
import Mathlib.Data.List.Dedup
import BotManager.BarCascade

/-! Replay against the live feed. The live feed keeps a pending minute and fills the quiet
minutes when the next trade arrives, a replay fills them when the next bar arrives; both make
the same market out of the same trades. -/

namespace BotManager.BarReplay
open List Aggregator BarCascade

section Minutes

def tradeBar (t : Trade) : Bar := ⟨t.ohlcv, t.barMs + minuteMs⟩

def minuteBar (trades : List Trade) (m : ℤ) : Option Bar :=
  (summary ((trades.filter fun t => t.barMs = m).map tradeBar)).map fun o => ⟨o, m + minuteMs⟩

def minuteBars (trades : List Trade) : List Bar :=
  (trades.map Trade.barMs).dedup.filterMap (minuteBar trades)

def otherBars (trades : List Trade) (m : ℤ) : List Bar :=
  ((trades.map Trade.barMs).dedup.filter fun m' => m' ≠ m).filterMap (minuteBar trades)

theorem dedup_snoc (a : ℤ) : (l ++ [a]).dedup = l.dedup.filter (fun b => b ≠ a) ++ [a] := by
  induction l with
  | nil => rfl
  | cons x l ih =>
    rw [cons_append]
    by_cases later : x ∈ l
    · rw [dedup_cons_of_mem later, dedup_cons_of_mem (mem_append_left _ later), ih]
    · by_cases same : x = a
      · rw [dedup_cons_of_mem (by simp [same]), ih, dedup_cons_of_notMem later,
          filter_cons_of_neg (by simpa using same)]
      · rw [dedup_cons_of_notMem (by simp [later, same]), ih,
          dedup_cons_of_notMem later, filter_cons_of_pos (by simpa using same),
          cons_append]

variable {trades : List Trade} {t : Trade} {m : ℤ} {b cur : Bar} {last : Option (ℤ × ℚ)} {s : Agg I}

theorem minuteBar_other (other : m ≠ t.barMs) :
    minuteBar (trades ++ [t]) m = minuteBar trades m := by
  have none : [t].filter (fun t => decide (t.barMs = m)) = [] := by simp [other.symm]
  unfold minuteBar
  rw [filter_append, none, append_nil]

theorem minuteBar_new (new : ∀ u ∈ trades, u.barMs ≠ t.barMs) :
    minuteBar (trades ++ [t]) t.barMs = some (tradeBar t) := by
  have none : trades.filter (fun u => decide (u.barMs = t.barMs)) = [] := by
    simpa [filter_eq_nil_iff] using new
  have here : [t].filter (fun u => decide (u.barMs = t.barMs)) = [t] := by simp
  unfold minuteBar
  rw [filter_append, none, here]
  rfl

theorem minuteBar_same (before : minuteBar trades t.barMs = some b) :
    minuteBar (trades ++ [t]) t.barMs = some ⟨b.toOhlcv.merge t.ohlcv, b.tsCloseMs⟩ := by
  obtain ⟨o, made, rfl⟩ := Option.map_eq_some_iff.mp before
  have here : [t].filter (fun u => decide (u.barMs = t.barMs)) = [t] := by simp
  have single : summary ([t].map tradeBar) = some t.ohlcv := rfl
  unfold minuteBar
  rw [filter_append, here, map_append, summary_append made single]
  rfl

theorem minuteBar_mem (mem : t ∈ trades) :
    ∃ b, minuteBar trades t.barMs = some b ∧ b.tsCloseMs = t.barMs + minuteMs := by
  have found : t ∈ trades.filter fun u => decide (u.barMs = t.barMs) :=
    mem_filter.mpr ⟨mem, by simp⟩
  unfold minuteBar
  cases group : trades.filter fun u => decide (u.barMs = t.barMs) with
  | nil =>
    rw [group] at found
    exact absurd found not_mem_nil
  | cons u rest => exact ⟨_, rfl, rfl⟩

theorem otherBars_snoc : otherBars (trades ++ [t]) t.barMs = otherBars trades t.barMs := by
  have idem : ∀ l : List ℤ, (l.filter (fun m => m ≠ t.barMs) ++ [t.barMs]).filter
      (fun m => m ≠ t.barMs) = l.filter fun m => m ≠ t.barMs := by
    intro l
    simp
  unfold otherBars
  rw [map_append, map_singleton, dedup_snoc, idem]
  refine filterMap_congr fun m mem => ?_
  exact minuteBar_other (by simpa using (mem_filter.mp mem).2)

theorem minuteBars_snoc (here : minuteBar (trades ++ [t]) t.barMs = some b) :
    minuteBars (trades ++ [t]) = otherBars trades t.barMs ++ [b] := by
  rw [← otherBars_snoc]
  unfold minuteBars otherBars
  rw [map_append, map_singleton, dedup_snoc, filterMap_append]
  congr 1
  · simp
  · simp [here]

theorem otherBars_new (new : ∀ u ∈ trades, u.barMs ≠ t.barMs) :
    otherBars trades t.barMs = minuteBars trades := by
  unfold otherBars minuteBars
  congr 1
  rw [filter_eq_self]
  intro m mem
  obtain ⟨u, member, rfl⟩ := mem_map.mp (mem_dedup.mp mem)
  simpa using new u member

end Minutes

section Replay

variable {I : Type*} (pass : List (Candle I) → Bar → I)

def live (s : Agg I) (trades : List Trade) : Agg I := trades.foldl (onTrade pass) s

def replayAll (s : Agg I) (bars : List Bar) : Agg I :=
  bars.foldl (fun s bar => (replayBar pass s .m1 bar).1) s

/-- Where a trade closes the pending minute: the market as soon as that minute is pushed and
has gone through the cascade. -/
def closing (s : Agg I) (t : Trade) : Option (Agg I) :=
  if t.tsMs ≤ 0 then none
  else
    match s.pending with
    | none => none
    | some p => if p.barStartMs < t.barMs then some (close1m pass s p) else none

def closings (s : Agg I) : List Trade → List (Agg I)
  | [] => []
  | t :: rest => (closing pass s t).toList ++ closings (onTrade pass s t) rest

def fillTo (s : Agg I) (label : ℤ) : Agg I :=
  let last := (s.level .m1).lastCloseMs
  emitEmptyRun pass s last (if last ≠ 0 then minutesUntil last (label - minuteMs) else 0)

variable {pass}

theorem closings_snoc :
    closings pass s (trades ++ [t]) =
      closings pass s trades ++ (closing pass (live pass s trades) t).toList := by
  induction trades generalizing s with
  | nil => exact append_nil _
  | cons u trades ih =>
    rw [cons_append, closings, closings, ih, append_assoc]
    rfl

theorem live_snoc : live pass s (trades ++ [t]) = onTrade pass (live pass s trades) t :=
  foldl_append

theorem replayAll_snoc :
    replayAll pass s (bars ++ [bar]) = (replayBar pass (replayAll pass s bars) .m1 bar).1 :=
  foldl_append

variable (pass)

structure Tail (s : Agg I) (last : Option (ℤ × ℚ)) : Prop where
  room : (s.level .m1).cap ≠ some 0
  label : (s.level .m1).lastCloseMs = (last.map Prod.fst).getD 0
  close : (s.level .m1).ring.getLast?.map (fun c => c.close) = last.map Prod.snd
  idle : s.pending = none
  gap : s.feedGap = false

theorem Tail.feed (tail : Tail s last) (bar : Bar) :
    Tail (feedMinute pass s bar) (some (bar.tsCloseMs, bar.close)) := by
  have level := feedMinute_m1 pass tail.room bar
  obtain ⟨pending, gap, -⟩ := feedMinute_rest pass s bar
  refine ⟨?_, ?_, ?_, pending.trans tail.idle, gap.trans tail.gap⟩
  · rw [level]
    exact tail.room
  · rw [level]
    rfl
  · rw [level]
    simp

theorem Tail.quiet {label : ℤ} {close : ℚ} (tail : Tail s (some (label, close))) (expected : ℤ)
    (n : ℕ) : ∃ label', Tail (emitEmptyRun pass s expected n) (some (label', close)) := by
  induction n generalizing s label expected with
  | zero => exact ⟨label, tail⟩
  | succ n ih =>
    have carried : (emptyBar s expected).close = close := by
      show prevClose s = close
      unfold prevClose
      rw [tail.close]
      rfl
    have next := tail.feed pass (emptyBar s expected)
    rw [carried] at next
    exact ih next _

theorem Tail.fill (tail : Tail s last) (label : ℤ) :
    ∃ last', Tail (fillTo pass s label) last' ∧ last'.map Prod.snd = last.map Prod.snd := by
  cases last with
  | none =>
    have zero : (s.level .m1).lastCloseMs = 0 := tail.label
    have same : fillTo pass s label = s := by
      unfold fillTo
      rw [zero]
      rfl
    rw [same]
    exact ⟨none, tail, rfl⟩
  | some last =>
    obtain ⟨label', filled⟩ := tail.quiet pass (s.level .m1).lastCloseMs
      (if (s.level .m1).lastCloseMs ≠ 0 then
        minutesUntil (s.level .m1).lastCloseMs (label - minuteMs) else 0)
    exact ⟨_, filled, rfl⟩

theorem Tail.replay (tail : Tail s last) {bar : Bar}
    (later : (last.map Prod.fst).getD 0 < bar.tsCloseMs)
    (sane : ∀ prev, last.map Prod.snd = some prev → ¬ Poison prev bar) :
    (replayBar pass s .m1 bar).1 = feedMinute pass (fillTo pass s bar.tsCloseMs) bar := by
  have fresh : ¬ bar.tsCloseMs ≤ (s.level .m1).lastCloseMs := by
    rw [tail.label]
    omega
  obtain ⟨last', filled, same⟩ := tail.fill pass bar.tsCloseMs
  have close := filled.close
  rw [same] at close
  unfold replayBar
  rw [if_neg (by simp), if_neg fresh]
  dsimp only
  rw [← fillTo]
  cases found : ((fillTo pass s bar.tsCloseMs).level .m1).ring.getLast? with
  | none => rfl
  | some c =>
    rw [found] at close
    have clean : ¬ Poison c.close bar := sane c.close close.symm
    dsimp only
    rw [if_neg clean]

end Replay

section Mirror

variable {I : Type*} {pass : List (Candle I) → Bar → I} {cap : Gran → Option ℕ}

def quietMinutes (label label' : ℤ) : ℤ := (label' - label) / minuteMs - 1

def tailOf (bars : List Bar) : Option (ℤ × ℚ) := bars.getLast?.map fun b => (b.tsCloseMs, b.close)

def replays (pass : List (Candle I) → Bar → I) (cap : Gran → Option ℕ) (bars : List Bar) :
    List (Agg I) :=
  (range bars.length).map fun i => replayAll pass (empty cap) (bars.take (i + 1))

theorem replays_snoc :
    replays pass cap (bars ++ [bar]) =
      replays pass cap bars ++ [replayAll pass (empty cap) (bars ++ [bar])] := by
  unfold replays
  rw [length_append, length_singleton, range_succ, map_append,
    map_singleton]
  congr 1
  · refine map_congr_left fun i mem => ?_
    have short : i + 1 ≤ bars.length := mem_range.mp mem
    rw [take_append_of_le_length short]
  · rw [take_of_length_le (by simp)]

structure Mirrors (pass : List (Candle I) → Bar → I) (cap : Gran → Option ℕ) (trades : List Trade)
    (m : ℤ) (cur : Bar) : Prop where
  below : ∀ u ∈ trades, u.barMs ≤ m
  nonneg : 0 ≤ m
  label : cur.tsCloseMs = m + minuteMs
  bar : minuteBar trades m = some cur
  bars : minuteBars trades = otherBars trades m ++ [cur]
  tail : Tail (replayAll pass (empty cap) (otherBars trades m)) (tailOf (otherBars trades m))
  later : ((tailOf (otherBars trades m)).map Prod.fst).getD 0 < cur.tsCloseMs
  state : live pass (empty cap) trades =
    { fillTo pass (replayAll pass (empty cap) (otherBars trades m)) cur.tsCloseMs with
      pending := some ⟨cur.toOhlcv, m⟩ }
  closed : closings pass (empty cap) trades = replays pass cap (otherBars trades m)

variable {t : Trade}

theorem barMs_eq (positive : 0 < t.tsMs) : t.barMs = t.tsMs / 60000 * 60000 := by
  unfold Trade.barMs minuteMs
  rw [Int.tdiv_eq_ediv_of_nonneg positive.le]

theorem tail_empty (room : cap .m1 ≠ some 0) : Tail (empty cap : Agg I) none :=
  ⟨room, rfl, rfl, rfl, rfl⟩

theorem mirrors_first (room : cap .m1 ≠ some 0) (positive : 0 < t.tsMs) :
    Mirrors pass cap [t] t.barMs (tradeBar t) := by
  have none : otherBars [t] t.barMs = [] := by simp [otherBars]
  have here : minuteBar [t] t.barMs = some (tradeBar t) :=
    minuteBar_new fun u (mem : u ∈ []) => absurd mem not_mem_nil
  have minute := barMs_eq positive
  have label : (tradeBar t).tsCloseMs = t.barMs + 60000 := rfl
  constructor
  case below => simp
  case nonneg => omega
  case label => exact label
  case bar => exact here
  case bars =>
    have single : minuteBars ([] ++ [t]) = otherBars [] t.barMs ++ [tradeBar t] :=
      minuteBars_snoc here
    rw [none]
    exact single
  case tail =>
    rw [none]
    exact tail_empty room
  case later =>
    rw [none]
    show 0 < (tradeBar t).tsCloseMs
    omega
  case state =>
    rw [none]
    show onTrade pass (empty cap) t = { (empty cap : Agg I) with pending := some t.bucket }
    exact if_neg (by omega)
  case closed =>
    rw [none]
    show (closing pass (empty cap) t).toList ++ [] = []
    unfold closing
    rw [if_neg (by omega)]
    rfl

variable {trades : List Trade}

theorem Mirrors.pending (mirrors : Mirrors pass cap trades m cur) :
    (live pass (empty cap) trades).pending = some ⟨cur.toOhlcv, m⟩ := by
  rw [mirrors.state]

theorem Mirrors.same
    (mirrors : Mirrors pass cap trades t.barMs cur) (positive : 0 < t.tsMs) :
    Mirrors pass cap (trades ++ [t]) t.barMs ⟨cur.toOhlcv.merge t.ohlcv, cur.tsCloseMs⟩ := by
  have pending := mirrors.pending
  have here := minuteBar_same mirrors.bar
  constructor
  case below =>
    intro u mem
    rcases mem_append.mp mem with old | new
    · exact mirrors.below u old
    · rw [mem_singleton.mp new]
  case nonneg => exact mirrors.nonneg
  case label => exact mirrors.label
  case bar => exact here
  case bars =>
    rw [otherBars_snoc]
    exact minuteBars_snoc here
  case tail =>
    rw [otherBars_snoc]
    exact mirrors.tail
  case later =>
    rw [otherBars_snoc]
    exact mirrors.later
  case state =>
    rw [otherBars_snoc, live_snoc]
    unfold onTrade
    rw [if_neg (by omega), pending]
    dsimp only
    rw [if_pos rfl, mirrors.state]
  case closed =>
    rw [otherBars_snoc, closings_snoc, mirrors.closed]
    unfold closing
    rw [if_neg (by omega), pending]
    dsimp only
    rw [if_neg (lt_irrefl _)]
    exact append_nil _

theorem Mirrors.close (mirrors : Mirrors pass cap trades m cur)
    (sane : (otherBars trades m ++ [cur]).IsChain fun b b' => ¬ Poison b.close b') :
    close1m pass (live pass (empty cap) trades) ⟨cur.toOhlcv, m⟩ =
        replayAll pass (empty cap) (otherBars trades m ++ [cur]) ∧
      Tail (replayAll pass (empty cap) (otherBars trades m ++ [cur]))
        (some (cur.tsCloseMs, cur.close)) := by
  have accepted := mirrors.tail.replay pass mirrors.later fun prev last => by
    obtain ⟨b, found, rfl⟩ : ∃ b, (otherBars trades m).getLast? = some b ∧ b.close = prev := by
      simpa [tailOf] using last
    exact (isChain_append.mp sane).2.2 b found cur rfl
  obtain ⟨last', filled, -⟩ := mirrors.tail.fill pass cur.tsCloseMs
  have pushed := filled.feed pass cur
  rw [replayAll_snoc, accepted]
  refine ⟨?_, pushed⟩
  have bar : Bucket.bar ⟨cur.toOhlcv, m⟩ minuteMs = cur := by
    show (⟨cur.toOhlcv, m + minuteMs⟩ : Bar) = cur
    rw [← mirrors.label]
  have idle := pushed.idle
  unfold close1m
  rw [bar, mirrors.state, feedMinute_pending]
  dsimp only
  rw [← idle]

theorem catchUp_short {label barMs : ℤ} {close : ℚ} (tail : Tail s (some (label, close)))
    (pos : 0 < label) (short : quietMinutes label (barMs + minuteMs) ≤ maxCatchup1m) :
    catchUp pass s label barMs = fillTo pass s (barMs + minuteMs) := by
  have last : (s.level .m1).lastCloseMs = label := tail.label
  have gap := tail.gap
  obtain ⟨last', filled, -⟩ := tail.fill pass (barMs + minuteMs)
  have gap' := filled.gap
  have run : fillTo pass s (barMs + minuteMs) =
      emitEmptyRun pass s label (minutesUntil label barMs) := by
    unfold fillTo
    rw [last]
    dsimp only
    rw [if_pos (by omega), add_sub_cancel_right]
  have few : ¬ (0 < (if label < barMs then (barMs - label) / minuteMs else 0) ∧
      (s.feedGap ∨ maxCatchup1m < if label < barMs then (barMs - label) / minuteMs else 0)) := by
    rintro ⟨-, lost | many⟩
    · rw [gap] at lost
      cases lost
    · unfold quietMinutes minuteMs maxCatchup1m at short
      unfold minuteMs maxCatchup1m at many
      split_ifs at many
      · omega
      · omega
  unfold catchUp
  dsimp only
  rw [if_neg few, ← run, ← gap']

theorem Mirrors.next (mirrors : Mirrors pass cap trades m cur)
    (positive : 0 < t.tsMs) (later : m < t.barMs)
    (sane : (minuteBars trades).IsChain fun b b' => ¬ Poison b.close b')
    (short : quietMinutes cur.tsCloseMs (t.barMs + minuteMs) ≤ maxCatchup1m) :
    Mirrors pass cap (trades ++ [t]) t.barMs (tradeBar t) := by
  have new : ∀ u ∈ trades, u.barMs ≠ t.barMs := fun u mem =>
    (lt_of_le_of_lt (mirrors.below u mem) later).ne
  have here := minuteBar_new new
  have others : otherBars (trades ++ [t]) t.barMs = otherBars trades m ++ [cur] := by
    rw [otherBars_snoc, otherBars_new new, mirrors.bars]
  rw [mirrors.bars] at sane
  obtain ⟨closed, tail⟩ := mirrors.close sane
  have pending := mirrors.pending
  have label := mirrors.label
  have nonneg := mirrors.nonneg
  have minute : minuteMs = 60000 := rfl
  have last : tailOf (otherBars trades m ++ [cur]) = some (cur.tsCloseMs, cur.close) := by
    simp [tailOf]
  constructor
  case below =>
    intro u mem
    rcases mem_append.mp mem with old | new
    · exact ((mirrors.below u old).trans later.le)
    · rw [mem_singleton.mp new]
  case nonneg => omega
  case label => rfl
  case bar => exact here
  case bars =>
    rw [others, ← mirrors.bars, ← otherBars_new new]
    exact minuteBars_snoc here
  case tail =>
    rw [others, last]
    exact tail
  case later =>
    rw [others, last]
    show cur.tsCloseMs < t.barMs + minuteMs
    omega
  case state =>
    rw [others, live_snoc]
    unfold onTrade
    rw [if_neg (by omega), pending]
    dsimp only
    rw [if_neg (by omega), if_neg (by omega), closed, ← label,
      catchUp_short tail (by omega) short]
    rfl
  case closed =>
    rw [others, closings_snoc, mirrors.closed, replays_snoc]
    unfold closing
    rw [if_neg (by omega), pending]
    dsimp only
    rw [if_pos later, closed]
    rfl

/-- The bars that are complete are sane and no run of quiet minutes is too long. -/
structure Calm (trades : List Trade) : Prop where
  sane : (minuteBars trades).dropLast.IsChain fun b b' => ¬ Poison b.close b'
  short : ((minuteBars trades).map fun b => b.tsCloseMs).IsChain
    fun label label' => quietMinutes label label' ≤ maxCatchup1m

theorem Calm.before_same
    (here : minuteBar trades t.barMs = some b)
    (bars : minuteBars trades = otherBars trades t.barMs ++ [b]) (calm : Calm (trades ++ [t])) :
    Calm trades := by
  have after := minuteBars_snoc (minuteBar_same here)
  obtain ⟨sane, short⟩ := calm
  rw [after] at sane short
  constructor
  · rw [bars, dropLast_concat]
    rwa [dropLast_concat] at sane
  · rw [bars]
    rw [map_append] at short ⊢
    exact short

theorem Calm.before_new (new : ∀ u ∈ trades, u.barMs ≠ t.barMs)
    (calm : Calm (trades ++ [t])) :
    Calm trades ∧ ((minuteBars trades).IsChain fun b b' => ¬ Poison b.close b') ∧
      ∀ b, (minuteBars trades).getLast? = some b →
        quietMinutes b.tsCloseMs (t.barMs + minuteMs) ≤ maxCatchup1m := by
  have after := minuteBars_snoc (minuteBar_new new)
  rw [otherBars_new new] at after
  obtain ⟨sane, short⟩ := calm
  rw [after] at sane short
  rw [dropLast_concat] at sane
  rw [map_append, isChain_append] at short
  refine ⟨⟨sane.dropLast, short.1⟩, sane, fun b last => ?_⟩
  exact short.2.2 b.tsCloseMs (by simp [last]) _ rfl

variable (pass)

theorem mirrors_of_trades (room : cap .m1 ≠ some 0)
    (positive : ∀ t ∈ trades, 0 < t.tsMs)
    (sorted : trades.Pairwise fun a b => a.tsMs ≤ b.tsMs) (calm : Calm trades) :
    ∀ u, trades.getLast? = some u → ∃ cur, Mirrors pass cap trades u.barMs cur := by
  induction trades using reverseRecOn with
  | nil => exact nofun
  | append_singleton trades t ih =>
    intro u last
    obtain rfl : t = u := by simpa using last
    have now := positive t (by simp)
    cases before : trades.getLast? with
    | none =>
      obtain rfl := getLast?_eq_none_iff.mp before
      exact ⟨_, mirrors_first room now⟩
    | some v =>
      obtain ⟨upto, -, order⟩ := pairwise_append.mp sorted
      have member := mem_of_getLast? before
      have old : ∀ w ∈ trades, 0 < w.tsMs := fun w mem =>
        positive w (mem_append_left _ mem)
      have minutes : ∀ w ∈ trades, w.barMs ≤ t.barMs := by
        intro w mem
        have le := order w mem t (by simp)
        rw [barMs_eq (old w mem), barMs_eq now]
        omega
      by_cases same : v.barMs = t.barMs
      · obtain ⟨b, here, -⟩ := minuteBar_mem member
        rw [same] at here
        have bars : minuteBars trades = otherBars trades t.barMs ++ [b] := by
          obtain ⟨pre, rfl⟩ := getLast?_eq_some_iff.mp before
          rw [← same] at here ⊢
          rw [otherBars_snoc]
          exact minuteBars_snoc here
        obtain ⟨cur, mirrors⟩ := ih old upto (calm.before_same here bars) v before
        rw [same] at mirrors
        exact ⟨_, mirrors.same now⟩
      · have new : ∀ w ∈ trades, w.barMs ≠ t.barMs := by
          intro w mem equal
          obtain ⟨pre, rfl⟩ := getLast?_eq_some_iff.mp before
          have le : w.barMs ≤ v.barMs := by
            rcases mem_append.mp mem with first | final
            · have le := (pairwise_append.mp upto).2.2 w first v (by simp)
              rw [barMs_eq (old w mem), barMs_eq (old v member)]
              omega
            · rw [mem_singleton.mp final]
          have := minutes v member
          omega
        obtain ⟨calm, sane, short⟩ := calm.before_new new
        obtain ⟨cur, mirrors⟩ := ih old upto calm v before
        have short := short cur (by rw [mirrors.bars]; simp)
        exact ⟨_, mirrors.next now (lt_of_le_of_ne (minutes v member) same) sane short⟩

theorem replay_builds_live_bars (room : cap .m1 ≠ some 0) {trades : List Trade}
    (positive : ∀ t ∈ trades, 0 < t.tsMs)
    (sorted : trades.Pairwise fun a b => a.tsMs ≤ b.tsMs)
    (short : (minuteBars trades).IsChain
      fun b b' => quietMinutes b.tsCloseMs b'.tsCloseMs ≤ maxCatchup1m)
    (sane : (minuteBars trades).IsChain fun b b' => ¬ Poison b.close b') :
    closings pass (empty cap) trades =
      (range ((minuteBars trades).length - 1)).map fun i =>
        replayAll pass (empty cap) ((minuteBars trades).take (i + 1)) := by
  have calm : Calm trades :=
    ⟨sane.dropLast, (isChain_map _).mpr short⟩
  cases last : trades.getLast? with
  | none =>
    obtain rfl := getLast?_eq_none_iff.mp last
    rfl
  | some u =>
    obtain ⟨cur, mirrors⟩ := mirrors_of_trades pass room positive sorted calm u last
    rw [mirrors.closed, mirrors.bars, length_append, length_singleton,
      Nat.add_sub_cancel]
    refine map_congr_left fun i mem => ?_
    have inside : i + 1 ≤ (otherBars trades u.barMs).length := mem_range.mp mem
    rw [take_append_of_le_length inside]

def sampleTrades : List Trade :=
  [⟨60500, 10, 1⟩, ⟨61000, 11, 2⟩, ⟨121000, 9, 1⟩, ⟨241000, 12, 1⟩, ⟨241000, 13, 1⟩]

theorem replay_builds_live_bars_sample :
    (minuteBars sampleTrades).map (fun b => b.tsCloseMs) = [120000, 180000, 300000] ∧
      closings (fun ring _ => ring.length) (empty (initCap 1)) sampleTrades =
        (range ((minuteBars sampleTrades).length - 1)).map fun i =>
          replayAll (fun ring _ => ring.length) (empty (initCap 1))
            ((minuteBars sampleTrades).take (i + 1)) :=
  ⟨by decide +kernel, replay_builds_live_bars _ (by decide +kernel) (by decide +kernel)
    (by decide +kernel) (by decide +kernel) (by decide +kernel)⟩

end Mirror

end BotManager.BarReplay
