import BotManager.Aggregator
import BotManager.KeyedPart
import BotManager.MarketModel

/-! The two dispatchers of a strategy: `wm_strategy_dispatch_bar` of whenmoon/strategy.c, which
drops a bar that closes no later than the last signal, and the merged walk of
whenmoon/backtest.c over one ring for each grain, which has no such gate. A strategy sees its
context, the grain and the bar, so the market behind its signals is left out. -/

namespace BotManager.BacktestLive
open List Aggregator KeyedPart MarketModel

section Model

structure Ctx (S : Type*) where
  user : S
  barsSeen : ℕ
  lastBarTsMs : ℤ
  lastMarkPx : ℚ
  lastMarkMs : ℤ
  lastSignal : Option Signal
  signalsEmitted : ℕ

structure Strategy (S I : Type*) where
  grains : Gran → Bool
  init : S
  onBar : Ctx S → Gran → Candle I → S × List Signal

def Strategy.Stamped {S I : Type*} (st : Strategy S I) : Prop :=
  ∀ ctx g bar, ∀ sig ∈ (st.onBar ctx g bar).2, sig.tsMs = bar.tsCloseMs

variable {S I : Type*} (st : Strategy S I)

def fresh : Ctx S := ⟨st.init, 0, 0, 0, 0, none, 0⟩

def emitSignal (ctx : Ctx S) (sig : Signal) : Ctx S :=
  { ctx with lastSignal := some sig, signalsEmitted := ctx.signalsEmitted + 1 }

structure Call (I : Type*) where
  grain : Gran
  bar : Candle I
  signals : List Signal
  deriving DecidableEq

abbrev Played (S I : Type*) := Ctx S × List (Call I)

/-- The part the two dispatchers have in common: the marks, and the callback. -/
def call (p : Played S I) (g : Gran) (bar : Candle I) : Played S I :=
  let ctx := { p.1 with
    barsSeen := p.1.barsSeen + 1
    lastBarTsMs := bar.tsCloseMs
    lastMarkPx := bar.close
    lastMarkMs := bar.tsCloseMs }
  let (user, signals) := st.onBar ctx g bar
  (signals.foldl emitSignal { ctx with user := user }, p.2 ++ [⟨g, bar, signals⟩])

def gated (ctx : Ctx S) (bar : Candle I) : Bool :=
  ctx.lastSignal.any fun sig => bar.tsCloseMs ≤ sig.tsMs

def dispatchBar (p : Played S I) (x : Gran × Candle I) : Played S I :=
  if st.grains x.1 then if gated p.1 x.2 then p else call st p x.1 x.2 else p

def grans : List Gran := [.m1, .m5, .m15, .h1, .h4, .d1]

def rank (g : Gran) : ℕ := grans.idxOf g

def better (rings : Gran → List (Candle I)) (best : Option Gran × ℤ) (g : Gran) :
    Option Gran × ℤ :=
  match rings g with
  | [] => best
  | bar :: _ => if bar.tsCloseMs < best.2 then (some g, bar.tsCloseMs) else best

def nextGrain (rings : Gran → List (Candle I)) : Option Gran :=
  (grans.foldl (better rings) (none, CText.int64Max)).1

def walkBar (p : Played S I) (x : Gran × Candle I) : Played S I :=
  if st.grains x.1 then call st p x.1 x.2 else p

/-- The loop of `wm_backtest_run_iteration_with_id` over the bars from the cursors on, for that
many turns. Each turn takes a bar. -/
def runIteration : ℕ → (Gran → List (Candle I)) → Played S I → Played S I
  | 0, _, p => p
  | turns + 1, rings, p =>
    match nextGrain rings with
    | none => p
    | some g =>
      match rings g with
      | [] => p
      | bar :: rest => runIteration turns (Function.update rings g rest) (walkBar st p (g, bar))

def Before (x y : Gran × Candle I) : Prop :=
  x.2.tsCloseMs < y.2.tsCloseMs ∨ x.2.tsCloseMs = y.2.tsCloseMs ∧ rank x.1 ≤ rank y.1

/-- No call follows, at the same instant, one that emitted a signal. -/
def Apart (calls : List (Call I)) : Prop :=
  calls.Pairwise fun a b => a.signals ≠ [] → a.bar.tsCloseMs < b.bar.tsCloseMs

end Model

variable {S I : Type*} {st : Strategy S I} {rings : Gran → List (Candle I)}

variable {feed : List (Gran × Candle I)} {gs : List Gran} {p : Played S I}

section Walk

variable {best : Option Gran × ℤ}

theorem better_later {x : ℤ} (above : x < best.2)
    (later : ∀ g ∈ gs, ∀ bar ∈ (rings g).head?, x < bar.tsCloseMs) :
    x < (gs.foldl (better rings) best).2 := by
  induction gs generalizing best with
  | nil => exact above
  | cons g gs ih =>
    obtain ⟨here, after⟩ := forall_mem_cons.mp later
    refine ih ?_ after
    unfold better
    split
    next => exact above
    next bar rest found =>
      split
      next => exact here bar (by rw [found]; rfl)
      next => exact above

theorem better_kept (later : ∀ g ∈ gs, ∀ bar ∈ (rings g).head?, best.2 ≤ bar.tsCloseMs) :
    gs.foldl (better rings) best = best := by
  induction gs with
  | nil => rfl
  | cons g gs ih =>
    obtain ⟨here, after⟩ := forall_mem_cons.mp later
    have kept : better rings best g = best := by
      unfold better
      split
      next => rfl
      next bar rest found => exact if_neg (not_lt.mpr (here bar (by rw [found]; rfl)))
    rw [foldl_cons, kept, ih after]

theorem grans_split (g : Gran) : ∃ front back, grans = front ++ g :: back ∧
    ∀ h ∈ front, rank h < rank g := by
  cases g with
  | m1 => exact ⟨[], _, rfl, by decide⟩
  | m5 => exact ⟨[.m1], _, rfl, by decide⟩
  | m15 => exact ⟨[.m1, .m5], _, rfl, by decide⟩
  | h1 => exact ⟨[.m1, .m5, .m15], _, rfl, by decide⟩
  | h4 => exact ⟨[.m1, .m5, .m15, .h1], _, rfl, by decide⟩
  | d1 => exact ⟨[.m1, .m5, .m15, .h1, .h4], _, rfl, by decide⟩

theorem nextGrain_first {x : Gran × Candle I} {rest : List (Candle I)}
    (here : rings x.1 = x.2 :: rest) (small : x.2.tsCloseMs < CText.int64Max)
    (first : ∀ g, ∀ bar ∈ (rings g).head?, Before x (g, bar)) : nextGrain rings = some x.1 := by
  obtain ⟨front, back, split, lower⟩ := grans_split x.1
  have above : x.2.tsCloseMs < (front.foldl (better rings) (none, CText.int64Max)).2 := by
    refine better_later small fun g mem bar head => ?_
    rcases first g bar head with later | ⟨-, rank⟩
    · exact later
    · exact absurd (lower g mem) (Nat.not_lt.mpr rank)
  have taken : better rings (front.foldl (better rings) (none, CText.int64Max)) x.1 =
      (some x.1, x.2.tsCloseMs) := by
    unfold better
    rw [here]
    exact if_pos above
  have kept : back.foldl (better rings) (some x.1, x.2.tsCloseMs) =
      (some x.1, x.2.tsCloseMs) := by
    refine better_kept fun g _ bar head => ?_
    rcases first g bar head with later | ⟨same, -⟩
    · exact later.le
    · exact same.le
  rw [nextGrain, split, foldl_append, foldl_cons, taken, kept]

/-- A bar that the walk can take: it looks for a close below the last instant of the clock. -/
def taken (x : Gran × Candle I) : Bool := x.2.tsCloseMs < CText.int64Max

theorem nextGrain_none (late : ∀ g, ∀ bar ∈ (rings g).head?, CText.int64Max ≤ bar.tsCloseMs) :
    nextGrain rings = none := by
  rw [nextGrain, better_kept fun g _ => late g]

theorem taken_before {x y : Gran × Candle I} (before : Before x y) (late : taken x = false) :
    taken y = false := by
  simp only [taken, decide_eq_false_iff_not, not_lt] at late ⊢
  rcases before with later | ⟨same, -⟩ <;> omega

theorem runIteration_feed (sorted : feed.Pairwise Before) {turns : ℕ}
    (enough : feed.length ≤ turns) (p : Played S I) :
    runIteration st turns (fun g => valuesAt g feed) p = (feed.filter taken).foldl (walkBar st) p := by
  induction feed generalizing turns p with
  | nil => cases turns <;> rfl
  | cons x feed ih =>
    obtain ⟨before, sorted⟩ := pairwise_cons.mp sorted
    obtain ⟨turns, rfl⟩ := Nat.exists_eq_add_one_of_ne_zero (Nat.ne_of_gt (Nat.lt_of_lt_of_le
      (Nat.succ_pos _) enough))
    have here : valuesAt x.1 (x :: feed) = x.2 :: valuesAt x.1 feed := by simp
    have member {g : Gran} {bar : Candle I} (head : bar ∈ (valuesAt g (x :: feed)).head?) :
        (g, bar) = x ∨ (g, bar) ∈ feed :=
      mem_cons.mp (mem_valuesAt.mp (mem_of_mem_head? head))
    cases small : taken x with
    | false =>
      have rest : (x :: feed).filter taken = [] := by
        refine filter_eq_nil_iff.mpr (forall_mem_cons.mpr ⟨by simp [small], fun y mem => ?_⟩)
        simp [taken_before (before y mem) small]
      have none : nextGrain (fun g => valuesAt g (x :: feed)) = none := by
        refine nextGrain_none fun g bar head => ?_
        have late : taken (g, bar) = false := by
          rcases member head with rfl | later
          · exact small
          · exact taken_before (before _ later) small
        simpa [taken] using late
      rw [runIteration, none, rest]
      rfl
    | true =>
      have next : nextGrain (fun g => valuesAt g (x :: feed)) = some x.1 := by
        refine nextGrain_first here (by simpa [taken] using small) fun g bar head => ?_
        rcases member head with rfl | later
        · exact .inr ⟨rfl, le_rfl⟩
        · exact before _ later
      have left : Function.update (fun g => valuesAt g (x :: feed)) x.1 (valuesAt x.1 feed) =
          fun g => valuesAt g feed := by
        funext g
        by_cases same : g = x.1
        · subst same
          rw [Function.update_self]
        · rw [Function.update_of_ne same, valuesAt_cons, if_neg (Ne.symm same)]
      rw [runIteration, next, filter_cons_of_pos small]
      simp only [here, left]
      exact ih sorted (by simpa using enough) _

end Walk

section Gate

def Noted (p : Played S I) : Prop :=
  ∀ sig, p.1.lastSignal = some sig → ∃ c ∈ p.2, c.signals ≠ [] ∧ c.bar.tsCloseMs = sig.tsMs

theorem lastSignal_emitted (sigs : List Signal) (ctx : Ctx S) :
    (sigs.foldl emitSignal ctx).lastSignal = sigs.getLast?.or ctx.lastSignal := by
  induction sigs generalizing ctx with
  | nil => rfl
  | cons first rest ih =>
    rw [foldl_cons, ih]
    cases rest <;> simp [emitSignal, getLast?_cons]

theorem Noted.call (stamped : st.Stamped) (inv : Noted p) (g : Gran) (bar : Candle I) :
    Noted (call st p g bar) := by
  intro sig found
  rw [BacktestLive.call, lastSignal_emitted, Option.or_eq_some_iff] at found
  rcases found with last | ⟨-, old⟩
  · have own := mem_of_getLast? last
    exact ⟨_, mem_append_right _ (.head _), ne_nil_of_mem own, (stamped _ _ _ _ own).symm⟩
  · obtain ⟨c, mem, rest⟩ := inv sig old
    exact ⟨c, mem_append_left _ mem, rest⟩

theorem calls_kept {turn : Played S I → Gran × Candle I → Played S I}
    (each : ∀ p x, p.2 <+: (turn p x).2) (feed : List (Gran × Candle I)) (p : Played S I) :
    p.2 <+: (feed.foldl turn p).2 := by
  induction feed generalizing p with
  | nil => exact prefix_rfl
  | cons x feed ih => exact (each p x).trans (ih (turn p x))

theorem walkBar_keeps (st : Strategy S I) (p : Played S I) (x : Gran × Candle I) :
    p.2 <+: (walkBar st p x).2 := by
  unfold walkBar
  split
  · exact prefix_append _ _
  · exact prefix_rfl

theorem dispatchBar_keeps (st : Strategy S I) (p : Played S I) (x : Gran × Candle I) :
    p.2 <+: (dispatchBar st p x).2 := by
  unfold dispatchBar
  split_ifs
  · exact prefix_rfl
  · exact prefix_append _ _
  · exact prefix_rfl

theorem dispatchBar_eq {x : Gran × Candle I} (inv : Noted p) (earlier : st.grains x.1 = true →
      ∀ c ∈ p.2, c.signals ≠ [] → c.bar.tsCloseMs < x.2.tsCloseMs) :
    dispatchBar st p x = walkBar st p x := by
  by_cases wanted : st.grains x.1 = true
  · have opened : gated p.1 x.2 = false := by
      by_contra shut
      obtain ⟨sig, found, late⟩ := (Option.any_eq_true _ _).mp (Bool.not_eq_false _ ▸ shut)
      obtain ⟨c, mem, spoke, time⟩ := inv sig found
      have before := earlier wanted c mem spoke
      have late := of_decide_eq_true late
      omega
    rw [dispatchBar, walkBar, if_pos wanted, if_pos wanted, opened]
    rfl
  · rw [dispatchBar, walkBar, if_neg wanted, if_neg wanted]

theorem dispatch_walk (stamped : st.Stamped) (inv : Noted p)
    (apart : Apart (feed.foldl (walkBar st) p).2) :
    feed.foldl (dispatchBar st) p = feed.foldl (walkBar st) p := by
  induction feed generalizing p with
  | nil => rfl
  | cons x feed ih =>
    have same : dispatchBar st p x = walkBar st p x := by
      refine dispatchBar_eq inv fun wanted c mem spoke => ?_
      have walked : walkBar st p x = call st p x.1 x.2 := if_pos wanted
      have calls := calls_kept (walkBar_keeps st) feed (walkBar st p x)
      rw [foldl_cons] at apart
      rw [walked] at calls apart
      exact (pairwise_append.mp (apart.sublist calls.sublist)).2.2 c mem _ (.head _) spoke
    rw [foldl_cons, foldl_cons, same]
    refine ih ?_ apart
    unfold walkBar
    split
    · exact inv.call stamped x.1 x.2
    · exact inv

structure Gated (p : Played S I) : Prop where
  apart : Apart p.2
  last : ∀ c ∈ p.2, c.signals ≠ [] → ∃ sig ∈ p.1.lastSignal, c.bar.tsCloseMs ≤ sig.tsMs
  noted : Noted p

theorem call_eq (st : Strategy S I) (p : Played S I) (g : Gran) (bar : Candle I) :
    ∃ ctx signals, call st p g bar = (signals.foldl emitSignal ctx, p.2 ++ [⟨g, bar, signals⟩]) ∧
      ctx.lastSignal = p.1.lastSignal ∧
        (st.Stamped → ∀ sig ∈ signals, sig.tsMs = bar.tsCloseMs) :=
  ⟨_, _, rfl, rfl, fun stamped => stamped _ _ _⟩

theorem Gated.call (stamped : st.Stamped) (inv : Gated p) (g : Gran) {bar : Candle I}
    (earlier : ∀ sig ∈ p.1.lastSignal, sig.tsMs < bar.tsCloseMs) : Gated (call st p g bar) := by
  have noted := inv.noted.call stamped g bar
  have older : ∀ c ∈ p.2, c.signals ≠ [] → c.bar.tsCloseMs < bar.tsCloseMs := by
    intro c mem spoke
    obtain ⟨sig, last, le⟩ := inv.last c mem spoke
    exact le.trans_lt (earlier sig last)
  obtain ⟨ctx, signals, eq, same, stamps⟩ := call_eq st p g bar
  rw [eq] at noted ⊢
  refine ⟨pairwise_append.mpr ⟨inv.apart, pairwise_singleton .., ?_⟩, ?_, noted⟩
  · intro c mem d new spoke
    rw [mem_singleton.mp new]
    exact older c mem spoke
  · intro c mem spoke
    by_cases silent : signals = []
    · rcases mem_append.mp mem with old | new
      · simpa [silent, same] using inv.last c old spoke
      · rw [mem_singleton.mp new] at spoke
        exact absurd silent spoke
    · have last : (signals.foldl emitSignal ctx).lastSignal = some (signals.getLast silent) := by
        rw [lastSignal_emitted, getLast?_eq_some_getLast silent]
        rfl
      refine ⟨_, last, ?_⟩
      rw [stamps stamped _ (getLast_mem silent)]
      rcases mem_append.mp mem with old | new
      · exact (older c old spoke).le
      · rw [mem_singleton.mp new]

theorem Gated.dispatchBar (stamped : st.Stamped) (inv : Gated p) (x : Gran × Candle I) :
    Gated (dispatchBar st p x) := by
  unfold BacktestLive.dispatchBar
  split_ifs with wanted shut
  · exact inv
  · refine inv.call stamped x.1 fun sig last => ?_
    simpa [gated, Option.mem_def.mp last] using shut
  · exact inv

theorem gated_live (stamped : st.Stamped) (feed : List (Gran × Candle I)) (inv : Gated p) :
    Gated (feed.foldl (BacktestLive.dispatchBar st) p) := by
  induction feed generalizing p with
  | nil => exact inv
  | cons x feed ih => exact ih (inv.dispatchBar stamped x)

theorem gated_fresh (st : Strategy S I) : Gated (fresh st, ([] : List (Call I))) :=
  ⟨.nil, by simp, by simp [Noted, fresh]⟩

theorem bar_of_walk {c : Call I} (mem : c ∈ (feed.foldl (walkBar st) p).2) :
    c ∈ p.2 ∨ ∃ x ∈ feed, c.bar = x.2 := by
  induction feed generalizing p with
  | nil => exact .inl mem
  | cons x feed ih =>
    rcases ih mem with here | ⟨y, later, same⟩
    · unfold walkBar at here
      split at here
      · rcases mem_append.mp here with old | new
        · exact .inl old
        · exact .inr ⟨x, mem_cons_self, by rw [mem_singleton.mp new]⟩
      · exact .inl here
    · exact .inr ⟨y, .tail _ later, same⟩

theorem taken_of_calls (stamped : st.Stamped)
    (small : ∀ c ∈ (feed.foldl (dispatchBar st) (fresh st, [])).2,
      c.bar.tsCloseMs < CText.int64Max) :
    ∀ x ∈ feed, st.grains x.1 = true → x.2.tsCloseMs < CText.int64Max := by
  intro x mem wanted
  by_contra late
  obtain ⟨front, back, rfl⟩ := append_of_mem mem
  rw [foldl_append, foldl_cons] at small
  have inv := gated_live stamped front (gated_fresh st)
  have kept := calls_kept (dispatchBar_keeps st) back
    (dispatchBar st (front.foldl (dispatchBar st) (fresh st, [])) x)
  have first := dispatchBar_keeps st (front.foldl (dispatchBar st) (fresh st, [])) x
  have same : dispatchBar st (front.foldl (dispatchBar st) (fresh st, [])) x =
      walkBar st (front.foldl (dispatchBar st) (fresh st, [])) x :=
    dispatchBar_eq inv.noted fun _ c mem _ =>
      (small c (kept.subset (first.subset mem))).trans_le (not_lt.mp late)
  rw [same, walkBar, if_pos wanted] at kept small
  exact late (small _ (kept.subset (mem_append_right _ (.head _))))

theorem walk_taken (all : ∀ x ∈ feed, st.grains x.1 = true → x.2.tsCloseMs < CText.int64Max) :
    (feed.filter taken).foldl (walkBar st) p = feed.foldl (walkBar st) p := by
  induction feed generalizing p with
  | nil => rfl
  | cons x feed ih =>
    obtain ⟨here, later⟩ := forall_mem_cons.mp all
    cases small : taken x with
    | true => rw [filter_cons_of_pos small, foldl_cons, foldl_cons, ih later]
    | false =>
      have skipped : walkBar st p x = p := by
        refine if_neg fun wanted => ?_
        simp [taken, here wanted] at small
      rw [filter_cons_of_neg (by simp [small]), foldl_cons, skipped, ih later]

/-- The calls of a strategy to which every bar of the feed is handed in turn. -/
def offered (st : Strategy S I) (feed : List (Gran × Candle I)) : List (Call I) :=
  (feed.foldl (walkBar st) (fresh st, [])).2

/-- A strategy that is fed the bars one by one makes the calls, with the signals, that it makes
in a backtest over the same bars, exactly if it does not emit a signal on a bar that another it
is subscribed to follows at the same instant, and none of them closes at the last instant of
the clock. -/
theorem backtest_makes_live_calls_iff (stamped : st.Stamped) {feed : List (Gran × Candle I)}
    (sorted : feed.Pairwise Before) {turns : ℕ} (enough : feed.length ≤ turns) :
    (feed.foldl (dispatchBar st) (fresh st, [])).2 =
        (runIteration st turns (fun g => valuesAt g feed) (fresh st, [])).2 ↔
      Apart (offered st feed) ∧
        ∀ x ∈ feed, st.grains x.1 = true → x.2.tsCloseMs < CText.int64Max := by
  rw [runIteration_feed sorted enough]
  have start := gated_fresh (I := I) st
  constructor
  · intro same
    have small : ∀ c ∈ (feed.foldl (dispatchBar st) (fresh st, [])).2,
        c.bar.tsCloseMs < CText.int64Max := by
      intro c mem
      rw [same] at mem
      rcases bar_of_walk mem with none | ⟨x, walked, bar⟩
      · cases none
      · rw [bar]
        simpa [taken] using (mem_filter.mp walked).2
    have all := taken_of_calls stamped small
    rw [walk_taken all] at same
    refine ⟨?_, all⟩
    rw [offered, ← same]
    exact (gated_live stamped feed start).apart
  · rintro ⟨apart, all⟩
    rw [walk_taken all, dispatch_walk stamped start.noted apart]

def talker (speaks : Gran → Bool) : Strategy Unit Unit where
  grains g := g = .m1 || g = .m5
  init := ()
  onBar _ g bar := ((), if speaks g then [⟨1, bar.tsCloseMs, []⟩] else [])

theorem talker_stamped {speaks : Gran → Bool} : (talker speaks).Stamped := by
  intro ctx g bar sig mem
  dsimp only [talker] at mem
  split at mem
  · rw [mem_singleton.mp mem]
  · cases mem

def sampleBar (ms : ℤ) : Candle Unit := ⟨⟨⟨1, 1, 1, 1, 1⟩, ms⟩, (), 0⟩

def sampleFeed : List (Gran × Candle Unit) :=
  [(.m1, sampleBar 240000), (.m1, sampleBar 300000), (.m5, sampleBar 300000)]

instance (x y : Gran × Candle Unit) : Decidable (Before x y) :=
  inferInstanceAs (Decidable (_ ∨ _ ∧ _))

theorem backtest_makes_live_calls_fifth :
    (sampleFeed.foldl (dispatchBar (talker (· = .m5))) (fresh (talker (· = .m5)), [])).2 =
      (runIteration (talker (· = .m5)) 3 (fun g => valuesAt g sampleFeed)
        (fresh (talker (· = .m5)), [])).2 := by
  refine (backtest_makes_live_calls_iff talker_stamped (by decide) (by decide)).mpr ⟨?_, ?_⟩
  · unfold Apart
    decide +kernel
  · decide

/-- A signal on the minute: live the five minutes that close with it are dropped. -/
theorem backtest_calls_more : sampleFeed.Pairwise Before ∧
    ((sampleFeed.foldl (dispatchBar (talker (· = .m1)))
      (fresh (talker (· = .m1)), [])).2.map Call.grain) = [.m1, .m1] ∧
    ((runIteration (talker (· = .m1)) 3 (fun g => valuesAt g sampleFeed)
      (fresh (talker (· = .m1)), [])).2.map Call.grain) = [.m1, .m1, .m5] := by
  refine ⟨by decide, by decide +kernel, by decide +kernel⟩

end Gate

end BotManager.BacktestLive
