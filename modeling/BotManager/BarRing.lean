import BotManager.BarReplay
import BotManager.StepRun

/-! The ring of the minutes under trades and pages of candles. A replay compares with the last
label of the ring, a trade only with its own pending minute. The ring stays without holes and
doubles as long as a trade closes its minute right behind that label. -/

namespace BotManager.BarRing
open List Aggregator BarReplay StepRun

section Steps

variable {I : Type*} (pass : List (Candle I) → Bar → I)

/-- What runs under `mk->lock`; `noteFeedGap` is the report of lost frames. -/
inductive Op
  | trade (t : Trade)
  | page (rows : List ExchangeCandle)
  | noteFeedGap
  deriving DecidableEq

def step (s : Agg I) : Op → Option (Agg I)
  | .trade t => some (onTrade pass s t)
  | .page rows => some (onCandles pass s rows)
  | .noteFeedGap => some { s with feedGap := true }

def Aligned : Op → Prop
  | .page rows => ∀ row ∈ rows, minuteMs ∣ row.tsOpenMs
  | _ => True

/-- The second bar is the next minute, unless a repair was armed between the two. -/
def Next (a b : Candle I) : Prop :=
  a.tsCloseMs < b.tsCloseMs ∧ (a.repairs = b.repairs → b.tsCloseMs = a.tsCloseMs + minuteMs)

def GapFree (s : Agg I) : Prop := (s.level .m1).ring.IsChain Next

/-- A trade that closes the pending minute finds the ring empty, or its last label at the
start of that minute, or a repair armed since its last push. -/
def Keeps (s : Agg I) : Op → Prop
  | .trade t => ∀ p ∈ s.pending, 0 < t.tsMs → p.barStartMs < t.barMs →
      ∀ c ∈ (s.level .m1).ring.getLast?, c.tsCloseMs = p.barStartMs ∨ c.repairs ≠ s.repairs
  | _ => True

instance (a b : Candle I) : Decidable (Next a b) := inferInstanceAs (Decidable (_ ∧ (_ → _)))

instance (s : Agg I) : Decidable (GapFree s) := inferInstanceAs (Decidable (List.IsChain _ _))

instance (a : Op) : Decidable (Aligned a) := by
  unfold Aligned
  split <;> infer_instance

instance (s : Agg I) (a : Op) : Decidable (Keeps s a) := by
  unfold Keeps
  split <;> infer_instance

end Steps

section Ring

variable {I : Type*} (pass : List (Candle I) → Bar → I)

structure MinuteRing (s : Agg I) (last : Option (ℤ × ℕ)) : Prop where
  room : (s.level .m1).cap ≠ some 0
  chain : GapFree s
  tail : (s.level .m1).ring.getLast?.map (fun c => (c.tsCloseMs, c.repairs)) = last
  label : (s.level .m1).lastCloseMs = (last.map Prod.fst).getD 0
  aligned : ∀ l ∈ last, 0 < l.1 ∧ minuteMs ∣ l.1

variable {last : Option (ℤ × ℕ)} {s : Agg I}

theorem MinuteRing.congr {s' : Agg I} (ring : MinuteRing s last) (same : s'.level = s.level) :
    MinuteRing s' last := by
  obtain ⟨room, chain, tail, label, aligned⟩ := ring
  unfold GapFree at chain
  rw [← same] at room chain tail label
  exact ⟨room, chain, tail, label, aligned⟩

theorem trimmed_suffix (l : Level I) : trimmed l <:+ l.ring := by
  unfold trimmed
  split_ifs
  · exact drop_suffix _ _
  · exact suffix_rfl

theorem MinuteRing.push (ring : MinuteRing s last) (bar : Bar) (pos : 0 < bar.tsCloseMs)
    (aligned : minuteMs ∣ bar.tsCloseMs)
    (next : ∀ l ∈ last, l.1 < bar.tsCloseMs ∧ (l.2 = s.repairs → bar.tsCloseMs = l.1 + minuteMs)) :
    MinuteRing (feedMinute pass s bar) (some (bar.tsCloseMs, s.repairs)) := by
  have level := feedMinute_m1 pass ring.room bar
  have suffix := trimmed_suffix (s.level .m1)
  constructor
  case room =>
    rw [level]
    exact ring.room
  case chain =>
    unfold GapFree
    rw [level, isChain_append]
    refine ⟨ring.chain.suffix suffix, .singleton _, fun a old b new => ?_⟩
    obtain rfl := Option.mem_some.mp new
    have found : (a.tsCloseMs, a.repairs) ∈ last := by
      obtain ⟨pre, split⟩ := suffix
      rw [← ring.tail, ← split, getLast?_append_of_ne_nil]
      · exact Option.mem_map_of_mem _ old
      · rintro none
        rw [none] at old
        cases old
    exact next _ found
  case tail =>
    rw [level]
    simp
  case label =>
    rw [level]
    rfl
  case aligned =>
    intro l mem
    obtain rfl := Option.mem_some.mp mem
    exact ⟨pos, aligned⟩

theorem MinuteRing.quiet {l : ℤ × ℕ} (ring : MinuteRing s (some l)) (n : ℕ) :
    ∃ r, MinuteRing (emitEmptyRun pass s l.1 n) (some (l.1 + n * minuteMs, r)) ∧
      (l.2 = s.repairs → r = s.repairs) ∧
      (emitEmptyRun pass s l.1 n).pending = s.pending ∧
      (emitEmptyRun pass s l.1 n).repairs = s.repairs := by
  induction n generalizing s l with
  | zero =>
    refine ⟨l.2, ?_, id, rfl, rfl⟩
    rw [Nat.cast_zero, zero_mul, add_zero]
    exact ring
  | succ n ih =>
    obtain ⟨pos, aligned⟩ := ring.aligned l rfl
    obtain ⟨pending, -, repairs⟩ := feedMinute_rest pass s (emptyBar s l.1)
    have minute : minuteMs = 60000 := rfl
    have label : (emptyBar s l.1).tsCloseMs = l.1 + minuteMs := rfl
    have next : MinuteRing (emitEmpty1m pass s l.1) (some (l.1 + minuteMs, s.repairs)) := by
      refine ring.push pass _ (by omega) (dvd_add aligned dvd_rfl) fun l' mem => ?_
      obtain rfl := Option.mem_some.mp mem
      exact ⟨by omega, fun _ => label⟩
    obtain ⟨r, reached, same, pending', repairs'⟩ := ih next
    have total : l.1 + minuteMs + n * minuteMs = l.1 + (n + 1 : ℕ) * minuteMs := by
      rw [minute]
      omega
    rw [← total]
    exact ⟨r, reached, fun _ => (same repairs.symm).trans repairs, pending'.trans pending,
      repairs'.trans repairs⟩

theorem minutesUntil_eq {a b : ℤ} (left : minuteMs ∣ a) (right : minuteMs ∣ b) (le : a ≤ b) :
    a + minutesUntil a b * minuteMs = b := by
  unfold minutesUntil minuteMs at *
  omega

theorem MinuteRing.fill (ring : MinuteRing s last) {label : ℤ} (aligned : minuteMs ∣ label)
    (later : (s.level .m1).lastCloseMs < label) :
    ∃ last', MinuteRing (fillTo pass s label) last' ∧ (∀ l ∈ last', l.1 + minuteMs = label) ∧
      (fillTo pass s label).pending = s.pending ∧ (fillTo pass s label).repairs = s.repairs := by
  have start := ring.label
  cases last with
  | none =>
    have zero : (s.level .m1).lastCloseMs = 0 := start
    have same : fillTo pass s label = s := by
      unfold fillTo
      rw [zero]
      rfl
    rw [same]
    exact ⟨none, ring, fun _ mem => (nomatch mem), rfl, rfl⟩
  | some l =>
    have zero : (s.level .m1).lastCloseMs = l.1 := start
    obtain ⟨pos, whole⟩ := ring.aligned l rfl
    have run : fillTo pass s label =
        emitEmptyRun pass s l.1 (minutesUntil l.1 (label - minuteMs)) := by
      unfold fillTo
      rw [zero]
      dsimp only
      rw [if_pos (by omega)]
    have reaches : l.1 + minutesUntil l.1 (label - minuteMs) * minuteMs = label - minuteMs := by
      refine minutesUntil_eq whole (dvd_sub aligned dvd_rfl) ?_
      exact BarCascade.le_sub_of_dvd whole aligned (by omega)
    obtain ⟨r, filled, -, pending, repairs⟩ :=
      ring.quiet pass (minutesUntil l.1 (label - minuteMs))
    rw [reaches] at filled
    rw [run]
    refine ⟨_, filled, fun l' mem => ?_, pending, repairs⟩
    obtain rfl := Option.mem_some.mp mem
    exact sub_add_cancel _ _

theorem MinuteRing.replay (ring : MinuteRing s last) {bar : Bar}
    (aligned : minuteMs ∣ bar.tsCloseMs) :
    (replayBar pass s .m1 bar).1 = s ∨
      MinuteRing (replayBar pass s .m1 bar).1 (some (bar.tsCloseMs, s.repairs)) ∧
        (replayBar pass s .m1 bar).1.pending = s.pending ∧
        (replayBar pass s .m1 bar).1.repairs = s.repairs := by
  unfold replayBar
  rw [if_neg (by simp)]
  by_cases old : bar.tsCloseMs ≤ (s.level .m1).lastCloseMs
  · rw [if_pos old]
    exact .inl rfl
  · rw [if_neg old]
    right
    have nonneg : 0 ≤ (s.level .m1).lastCloseMs := by
      rw [ring.label]
      cases last with
      | none => exact le_rfl
      | some l => exact (ring.aligned l rfl).1.le
    obtain ⟨last', filled, ends, pending, repairs⟩ := ring.fill pass aligned (not_le.mp old)
    -- either bar, the one of the page or the carried one, has the label of the page
    have pushed : ∀ b : Bar, b.tsCloseMs = bar.tsCloseMs →
        MinuteRing (feedMinute pass (fillTo pass s bar.tsCloseMs) b)
            (some (bar.tsCloseMs, s.repairs)) ∧
          (feedMinute pass (fillTo pass s bar.tsCloseMs) b).pending = s.pending ∧
          (feedMinute pass (fillTo pass s bar.tsCloseMs) b).repairs = s.repairs := by
      intro b label
      obtain ⟨pending', -, repairs'⟩ := feedMinute_rest pass (fillTo pass s bar.tsCloseMs) b
      have minute : minuteMs = 60000 := rfl
      have next := filled.push pass b (by omega) (by rw [label]; exact aligned)
        fun l mem => by
          have here := ends l mem
          exact ⟨by omega, fun _ => by omega⟩
      rw [label, repairs] at next
      exact ⟨next, pending'.trans pending, repairs'.trans repairs⟩
    dsimp only
    rw [← fillTo]
    cases ((fillTo pass s bar.tsCloseMs).level .m1).ring.getLast? with
    | none => exact pushed bar rfl
    | some c =>
      dsimp only
      by_cases poison : Poison c.close bar
      · rw [if_pos poison]
        exact pushed _ (sub_add_cancel _ _)
      · rw [if_neg poison]
        exact pushed bar rfl

end Ring

section Runs

variable {I : Type*} (pass : List (Candle I) → Bar → I)

structure Inv (s : Agg I) (last : Option (ℤ × ℕ)) : Prop where
  ring : MinuteRing s last
  pending : ∀ p ∈ s.pending, 0 ≤ p.barStartMs ∧ minuteMs ∣ p.barStartMs
  armed : ∀ l ∈ last, l.2 ≠ s.repairs → ∃ p ∈ s.pending, l.1 < p.barStartMs

theorem Inv.page (inv : Inv s last) {bars : List Bar} (aligned : ∀ b ∈ bars, minuteMs ∣ b.tsCloseMs) :
    ∃ last', Inv (bars.foldl (fun s bar => (replayBar pass s .m1 bar).1) s) last' := by
  induction bars generalizing s last with
  | nil => exact ⟨last, inv⟩
  | cons bar bars ih =>
    have rest : ∀ b ∈ bars, minuteMs ∣ b.tsCloseMs := fun b mem =>
      aligned b (mem_cons_of_mem _ mem)
    rw [foldl_cons]
    rcases inv.ring.replay pass (aligned bar mem_cons_self) with
      same | ⟨ring, pending, repairs⟩
    · rw [same]
      exact ih inv rest
    · refine ih ⟨ring, ?_, fun l mem other => ?_⟩ rest
      · rw [pending]
        exact inv.pending
      · obtain rfl := Option.mem_some.mp mem
        exact absurd repairs.symm other

theorem barMs_spec {t : Trade} (positive : 0 < t.tsMs) : 0 ≤ t.barMs ∧ minuteMs ∣ t.barMs := by
  have value := barMs_eq positive
  refine ⟨by omega, ?_⟩
  rw [value]
  exact dvd_mul_left _ _

theorem MinuteRing.catchUp {expected : ℤ} (ring : MinuteRing s (some (expected, s.repairs)))
    (barMs : ℤ) :
    ∃ last', MinuteRing (catchUp pass s expected barMs) last' ∧
      ∀ l ∈ last', l.2 ≠ (catchUp pass s expected barMs).repairs → l.1 < barMs := by
  unfold Aggregator.catchUp
  dsimp only
  by_cases refuse : 0 < (if expected < barMs then (barMs - expected) / minuteMs else 0) ∧
      (s.feedGap ∨ maxCatchup1m < if expected < barMs then (barMs - expected) / minuteMs else 0)
  · rw [if_pos refuse]
    refine ⟨_, ring.congr rfl, fun l mem _ => ?_⟩
    obtain rfl := Option.mem_some.mp mem
    by_contra late
    rw [if_neg late] at refuse
    exact lt_irrefl _ refuse.1
  · rw [if_neg refuse]
    obtain ⟨r, run, same, -, repairs⟩ := ring.quiet pass (minutesUntil expected barMs)
    refine ⟨_, run.congr rfl, fun l mem other => ?_⟩
    obtain rfl := Option.mem_some.mp mem
    exact absurd ((same rfl).trans repairs.symm) other

theorem Inv.trade (inv : Inv s last) {t : Trade} (keeps : Keeps s (.trade t)) :
    ∃ last', Inv (onTrade pass s t) last' := by
  unfold onTrade
  by_cases early : t.tsMs ≤ 0
  · rw [if_pos early]
    exact ⟨last, inv⟩
  rw [if_neg early]
  have minute := barMs_spec (not_le.mp early)
  cases held : s.pending with
  | none =>
    refine ⟨last, inv.ring.congr rfl, fun p mem => ?_, fun l mem other => ?_⟩
    · obtain rfl := Option.mem_some.mp mem
      exact minute
    · obtain ⟨p, none, -⟩ := inv.armed l mem other
      rw [held] at none
      cases none
  | some p =>
    have start := inv.pending p held
    dsimp only
    by_cases same : t.barMs = p.barStartMs
    · rw [if_pos same]
      refine ⟨last, inv.ring.congr rfl, fun q mem => ?_, fun l mem other => ?_⟩
      · obtain rfl := Option.mem_some.mp mem
        exact start
      · obtain ⟨q, found, behind⟩ := inv.armed l mem other
        cases held.symm.trans found
        exact ⟨_, rfl, behind⟩
    rw [if_neg same]
    by_cases old : t.barMs < p.barStartMs
    · rw [if_pos old]
      exact ⟨last, inv⟩
    rw [if_neg old]
    have closes := keeps p held (not_le.mp early) (by omega)
    have ms : minuteMs = 60000 := rfl
    have label : (p.bar minuteMs).tsCloseMs = p.barStartMs + minuteMs := rfl
    obtain ⟨-, -, repairs⟩ := feedMinute_rest pass s (p.bar minuteMs)
    have pushed : MinuteRing (close1m pass s p)
        (some (p.barStartMs + minuteMs, (close1m pass s p).repairs)) := by
      have ring := inv.ring.push pass (p.bar minuteMs) (by omega)
        (dvd_add start.2 dvd_rfl) fun l mem => by
          have tail := inv.ring.tail
          rw [Option.mem_def.mp mem] at tail
          obtain ⟨c, found, rfl⟩ := Option.map_eq_some_iff.mp tail
          rcases closes c found with right | armed
          · exact ⟨by omega, fun _ => by omega⟩
          · obtain ⟨q, pending, behind⟩ := inv.armed _ mem armed
            cases held.symm.trans pending
            exact ⟨by omega, fun equal => absurd equal armed⟩
      have equal : (close1m pass s p).repairs = s.repairs := repairs
      rw [equal]
      exact ring.congr rfl
    obtain ⟨last', ring, awaited⟩ := pushed.catchUp pass t.barMs
    refine ⟨last', ring.congr rfl, fun q mem => ?_, fun l mem other => ?_⟩
    · obtain rfl := Option.mem_some.mp mem
      exact minute
    · exact ⟨_, rfl, awaited l mem other⟩

theorem step_inv {u : Agg I} {op : Op} (inv : ∃ last, Inv s last) (aligned : Aligned op)
    (keeps : Keeps s op) (moved : step pass s op = some u) : ∃ last, Inv u last := by
  obtain ⟨last, inv⟩ := inv
  cases op with
  | trade t =>
    cases moved
    exact inv.trade pass keeps
  | page rows =>
    cases moved
    have bars : onCandles pass s rows = (rows.reverse.map fun src =>
        (⟨src.toOhlcv, src.tsOpenMs + minuteMs⟩ : Bar)).foldl
          (fun s bar => (replayBar pass s .m1 bar).1) s := by
      rw [foldl_map]
      rfl
    rw [bars]
    refine inv.page pass fun b mem => ?_
    obtain ⟨row, member, rfl⟩ := mem_map.mp mem
    exact dvd_add (aligned row (mem_reverse.mp member)) dvd_rfl
  | noteFeedGap =>
    cases moved
    exact ⟨last, inv.ring.congr rfl, inv.pending, inv.armed⟩

theorem inv_empty {cap : Gran → Option ℕ} (room : cap .m1 ≠ some 0) :
    Inv (empty cap : Agg I) none :=
  ⟨⟨room, .nil, rfl, rfl, fun _ mem => (nomatch mem)⟩, fun _ mem => (nomatch mem),
    fun _ mem => (nomatch mem)⟩

theorem minutes_gap_free {cap : Gran → Option ℕ} (room : cap .m1 ≠ some 0) {ops : List Op}
    {t : Agg I}
    (run : Run (step pass) (fun s op => Aligned op ∧ Keeps s op) (empty cap) ops t) :
    Along (step pass) GapFree (empty cap) ops :=
  run.along (fun inv => inv.elim fun _ inv => inv.ring.chain)
    (fun inv ok moved => step_inv pass inv ok.1 ok.2 moved) ⟨none, inv_empty room⟩

def row (tsOpenMs : ℤ) : ExchangeCandle := ⟨⟨10, 10, 10, 10, 1⟩, tsOpenMs⟩

def calmOps : List Op :=
  [.trade ⟨180500, 10, 1⟩, .page [row 120000, row 60000], .trade ⟨240500, 10, 1⟩, .noteFeedGap,
    .trade ⟨420500, 10, 1⟩, .trade ⟨480500, 10, 1⟩]

theorem minutes_gap_free_sample :
    (∃ t, Run (step fun _ _ => ()) (fun s op => Aligned op ∧ Keeps s op) (empty (initCap 1))
        calmOps t ∧
      (t.level .m1).ring.map (fun c => (c.tsCloseMs, c.repairs)) =
        [(120000, 0), (180000, 0), (240000, 0), (300000, 0), (480000, 1)]) ∧
      Along (step fun _ _ => ()) GapFree (empty (initCap 1)) calmOps := by
  have run : Run (step fun _ _ => ()) (fun s op => Aligned op ∧ Keeps s op) (empty (initCap 1))
      calmOps _ :=
    runWhen_get (by decide +kernel)
  exact ⟨⟨_, run, by decide +kernel⟩, minutes_gap_free _ (by decide +kernel) run⟩

/-- The minute in progress comes in with a page and is then closed a second time. -/
theorem not_minutes_gap_free :
    ∃ (ops : List Op) (t : Agg Unit), (∀ op ∈ ops, Aligned op) ∧
      Run (step fun _ _ => ()) Any (empty (initCap 1)) ops t ∧ ¬ GapFree t ∧
      (t.level .m1).ring.map (fun c => (c.tsCloseMs, c.repairs)) = [(120000, 0), (120000, 0)] :=
  ⟨[.trade ⟨60500, 10, 1⟩, .page [row 60000], .trade ⟨120500, 10, 1⟩], _, by decide +kernel,
    run_get (by decide +kernel), by decide +kernel⟩

end Runs

end BotManager.BarRing
