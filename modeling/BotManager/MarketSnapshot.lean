import BotManager.StepRun
import BotManager.MarketEngine

/-! The operations of a persisted market with the upserts they enqueue. Every entry point of
whenmoon/market_engine.c and whenmoon/live.c that changes the session is itself responsible
for `wm_market_persist_locked`. Those that do not call it are the replies of the gateway, the
force trade in real mode, and the events that change a pending row without a booking. -/

namespace BotManager.MarketSnapshot
open CText FirstMatch StepRun MarketModel MarketLive MarketEngine

section System

structure Sys where
  market : Market
  queued : Option Session

def persistLocked (s : Sys) : Sys :=
  if s.market.marketId < 0 then s else { s with queued := some s.market.session }

inductive Op
  | signal (k : Knobs) (v : Venue) (markPx : ℚ) (markMs : ℤ) (sig : Signal)
  | force (k : Knobs) (v : Venue) (side : Side) (qty pxOverride : ℚ) (tsMs : ℤ)
      (reason : Option Bytes)
  | orderDone (coid : Bytes) (failed : Bool) (orderId : Bytes)
  | wsFill (k : Knobs) (f : Report)
  | wsOrder (k : Knobs) (o : Snapshot)
  | restPage (k : Knobs) (rows : List Report)
  | setMode (mode : Mode)
  | halt
  | reset (mode : Mode)
  | feed (lastPx lastBidPx lastAskPx : ℚ) (lastBookMs lastFeedMs : ℤ) (warmup : Warmup)

/-- Advice that comes to an order ends in an upsert, whatever becomes of the order. -/
def signal (k : Knobs) (v : Venue) (s : Sys) (markPx : ℚ) (markMs : ℤ) (sig : Signal) : Sys :=
  let after := { s with market := onSignal k v s.market markPx markMs sig }
  if 0 < markPx ∧ (signalOrder s.market markPx sig).isSome then persistLocked after else after

/-- The branch of real mode leaves the upsert to the submit, which makes none. -/
def force (k : Knobs) (v : Venue) (s : Sys) (side : Side) (qty pxOverride : ℚ) (tsMs : ℤ)
    (reason : Option Bytes) : Sys :=
  let r := forceTrade k v s.market side qty pxOverride tsMs reason
  let after := { s with market := r.1 }
  if s.market.session.mode ≠ .real ∧ r.2 = none then persistLocked after else after

/-- The engine enqueues an upsert after each fill it was asked to apply. -/
def booked (s : Sys) (r : Market × List Call) : Sys :=
  let after := { s with market := r.1 }
  if r.2 = [] then after else persistLocked after

def restPage (k : Knobs) (s : Sys) : List Report → Sys
  | [] => s
  | f :: rest => restPage k (booked s (onFill k s.market f)) rest

def step (s : Sys) : Op → Option Sys
  | .signal k v markPx markMs sig => some (signal k v s markPx markMs sig)
  | .force k v side qty pxOverride tsMs reason =>
    some (force k v s side qty pxOverride tsMs reason)
  | .orderDone coid failed orderId =>
    some { s with market := marketOrderDone s.market coid failed orderId }
  | .wsFill k f => some (booked s (handleWsFill k s.market f))
  | .wsOrder k o => some (booked s (handleWsOrder k s.market o))
  | .restPage k rows => some (restPage k s rows)
  | .setMode mode =>
    match setMode s.market mode with
    | none => some s
    | some mk => some (persistLocked { s with market := mk })
  | .halt => some (persistLocked { s with market := halt s.market })
  | .reset mode => some (persistLocked { s with market := reset s.market mode })
  | .feed lastPx lastBidPx lastAskPx lastBookMs lastFeedMs warmup =>
    some { s with market := { s.market with
      lastPx := lastPx, lastBidPx := lastBidPx, lastAskPx := lastAskPx,
      lastBookMs := lastBookMs, lastFeedMs := lastFeedMs, warmupState := warmup } }

theorem persistLocked_market : (persistLocked s).market = s.market := by
  unfold persistLocked
  split <;> rfl

theorem booked_market : (booked s r).market = r.1 := by
  unfold booked
  split
  · rfl
  · exact persistLocked_market

end System

variable {s : Sys}

variable {a b : Session} {mode : Mode} {p : Pending} {f : Report} {found : Found} {o : Snapshot} {op : Op}
  {qty pxOverride : ℚ} {reason : Option Bytes} {side : Side} {tsMs : ℤ}

section Snapshot

def Changed (a b : Session) : Prop :=
  a.position ≠ b.position ∨ (∃ m, a.stats m ≠ b.stats m) ∨ a.pending ≠ b.pending

structure Agrees (built now : Session) : Prop where
  position : built.position = now.position
  paper : built.stats .paper = now.stats .paper
  real : built.stats .real = now.stats .real
  pending : built.pending = now.pending

def Current (s : Sys) : Prop := ∃ built, s.queued = some built ∧ Agrees built s.market.session

def Settled (s t : Sys) : Prop := Changed s.market.session t.market.session → Current t

structure Kept (a b : Session) : Prop where
  position : b.position = a.position
  stats : b.stats = a.stats
  pending : b.pending = a.pending

theorem Kept.refl (a : Session) : Kept a a := ⟨rfl, rfl, rfl⟩

theorem Kept.trans {c : Session} (first : Kept a b) (second : Kept b c) : Kept a c :=
  ⟨second.position.trans first.position, second.stats.trans first.stats,
    second.pending.trans first.pending⟩

theorem Kept.not_changed (kept : Kept a b) : ¬ Changed a b := by
  rintro (position | ⟨m, stats⟩ | pending)
  · exact position kept.position.symm
  · exact stats (congrFun kept.stats.symm m)
  · exact pending kept.pending.symm

variable {t : Sys}

theorem Current.of_kept (current : Current s) (queued : t.queued = s.queued)
    (kept : Kept s.market.session t.market.session) : Current t := by
  obtain ⟨built, was, agrees⟩ := current
  exact ⟨built, queued.trans was, agrees.position.trans kept.position.symm,
    agrees.paper.trans (congrFun kept.stats .paper).symm,
    agrees.real.trans (congrFun kept.stats .real).symm, agrees.pending.trans kept.pending.symm⟩

theorem current_persistLocked (persisted : 0 ≤ s.market.marketId) :
    Current (persistLocked s) := by
  rw [persistLocked, if_neg (not_lt.mpr persisted)]
  exact ⟨s.market.session, rfl, rfl, rfl, rfl, rfl⟩

/-- Between the two states nothing moved, or the later one ends in an upsert. -/
def Tracks (s t : Sys) : Prop :=
  Kept s.market.session t.market.session ∧ t.queued = s.queued ∨ Current t

theorem Tracks.refl (s : Sys) : Tracks s s := .inl ⟨.refl _, rfl⟩

theorem Tracks.trans {s u : Sys} (first : Tracks s t) (second : Tracks t u) : Tracks s u := by
  rcases second with ⟨kept, same⟩ | current
  · rcases first with ⟨before, queued⟩ | current
    · exact .inl ⟨before.trans kept, same.trans queued⟩
    · exact .inr (current.of_kept same kept)
  · exact .inr current

theorem Tracks.settled (tracks : Tracks s t) : Settled s t := by
  intro changed
  rcases tracks with ⟨kept, -⟩ | current
  · exact absurd changed kept.not_changed
  · exact current

theorem Tracks.current (tracks : Tracks s t) (current : Current s) : Current t := by
  rcases tracks with ⟨kept, same⟩ | later
  · exact current.of_kept same kept
  · exact later

inductive Sound (s : Sys) : Sys → Prop
  | kept {mk : Market} (kept : Kept s.market.session mk.session)
      (same : mk.marketId = s.market.marketId) : Sound s { s with market := mk }
  | persisted {mk : Market} (same : mk.marketId = s.market.marketId) :
      Sound s (persistLocked { s with market := mk })

theorem Sound.tracks (sound : Sound s t) (persisted : 0 ≤ s.market.marketId) :
    Tracks s t ∧ 0 ≤ t.market.marketId := by
  cases sound with
  | kept kept same => exact ⟨.inl ⟨kept, rfl⟩, same ▸ persisted⟩
  | @persisted mk same =>
    have beyond : 0 ≤ mk.marketId := same ▸ persisted
    refine ⟨.inr (current_persistLocked beyond), ?_⟩
    rw [persistLocked_market]
    exact beyond

end Snapshot

section Condition

/-- The reply finds no row, or accepts one that it has nothing to add to. -/
def ReplyKeeps (failed : Bool) (orderId : Bytes) : Found → Prop
  | none => True
  | some (_, p, _) => failed = false ∧ p.gatewayAccepted = true ∧
      (orderId = [] ∨ orderId = p.orderId)

/-- The report finds no row or one that has its id, or else completes the row or finds its
list of ids full, with the id on no other row. -/
def ReportKeeps (f : Report) : Found → Prop
  | none => True
  | some (pre, p, post) => f.Valid → f.tradeId ∉ p.recordedTradeIds →
      (Complete (credit p f.tradeId f.size) ∨ tradeDedup ≤ p.recordedTradeIds.length) ∧
        recorded (pre ++ post) f.tradeId = false

def Stamped (p : Pending) (o : Snapshot) : Prop :=
  (o.orderId = [] ∨ o.orderId = p.orderId) ∧ (o.status = .opened → p.gatewayAccepted = true)

/-- A snapshot that takes the row away books its totals, with the id of that booking on no
other row; one that does not has nothing to add to the row. -/
def SnapshotKeeps (o : Snapshot) : Found → Prop
  | none => True
  | some (pre, p, post) =>
    (o.status.terminal = true → p.recordedTradeIds = [] ∧ 0 < o.cumulativeQuantity ∧
      (0 < o.avgPrice → recorded (pre ++ post) (orderIdSynthTid o.orderId) = false) ∧
      (o.avgPrice ≤ 0 → Stamped p o)) ∧
    (o.status.terminal = false → Stamped p o)

def PageKeeps (k : Knobs) (mk : Market) : List Report → Prop
  | [] => True
  | f :: rest => ReportKeeps f (findRest mk.session.pending f) ∧ PageKeeps k (onFill k mk f).1 rest

/-- Outside of real mode, or turned away before anything is looked at. -/
def ForceKeeps (v : Venue) (mk : Market) (qty pxOverride : ℚ) : Prop :=
  mk.session.mode ≠ .real ∨ qty ≤ 0 ∨ forcePx mk pxOverride = none ∨ mk.exchangeName = [] ∨
    v.hasCredentials = false

def Keeps (s : Sys) : Op → Prop
  | .force _ v _ qty pxOverride _ _ => ForceKeeps v s.market qty pxOverride
  | .orderDone coid failed orderId => ReplyKeeps failed orderId
      (splitFirst (fun p => decide (p.coid = coid)) s.market.session.pending)
  | .wsFill _ f => ReportKeeps f (findPendingByCoid s.market.session.pending f.coid)
  | .wsOrder _ o => SnapshotKeeps o (findPendingByCoid s.market.session.pending o.coid)
  | .restPage k rows => PageKeeps k s.market rows
  | _ => True

instance (failed : Bool) (orderId : Bytes) : (found : Found) →
    Decidable (ReplyKeeps failed orderId found)
  | none | some _ => by dsimp only [ReplyKeeps]; infer_instance

instance (f : Report) : (found : Found) → Decidable (ReportKeeps f found)
  | none | some _ => by dsimp only [ReportKeeps]; infer_instance

instance (p : Pending) (o : Snapshot) : Decidable (Stamped p o) :=
  inferInstanceAs (Decidable (_ ∧ _))

instance (o : Snapshot) : (found : Found) → Decidable (SnapshotKeeps o found)
  | none | some _ => by dsimp only [SnapshotKeeps]; infer_instance

instance decidablePageKeeps (k : Knobs) (mk : Market) : (rows : List Report) →
    Decidable (PageKeeps k mk rows)
  | [] => inferInstanceAs (Decidable True)
  | f :: rest =>
    have := decidablePageKeeps k (onFill k mk f).1 rest
    inferInstanceAs (Decidable (_ ∧ _))

instance (v : Venue) (mk : Market) (qty pxOverride : ℚ) :
    Decidable (ForceKeeps v mk qty pxOverride) :=
  inferInstanceAs (Decidable (_ ∨ _ ∨ _ ∨ _ ∨ _))

instance (s : Sys) (op : Op) : Decidable (Keeps s op) := by
  unfold Keeps
  split <;> infer_instance

end Condition

section Identity

variable {k : Knobs} {v : Venue} {mk : Market}

theorem applyFill_marketId :
    (applyFill k mk mode side qty execPx fee slippage tsMs reason).marketId = mk.marketId := by
  unfold applyFill
  split
  · split <;> rfl
  · rfl

theorem marketOrderDone_marketId :
    (marketOrderDone mk coid failed orderId).marketId = mk.marketId := by
  unfold marketOrderDone
  split
  · rfl
  · split <;> rfl

theorem dailyDrawdownTripped_marketId :
    (dailyDrawdownTripped mk markPx nowMs).1.marketId = mk.marketId := by
  unfold dailyDrawdownTripped
  split
  · rfl
  · dsimp only
    split
    · rfl
    · split_ifs <;> rfl

theorem placeOrder_marketId : (placeOrder v mk side qty px markMs).1.marketId = mk.marketId := by
  unfold placeOrder
  split
  · rfl
  · split
    · rfl
    · exact marketOrderDone_marketId

theorem realSubmit_marketId :
    (realSubmit k v mk side qty markPx markMs pxNamed).1.marketId = mk.marketId := by
  have gate : (dailyDrawdownTripped mk markPx v.drawdownNowMs).1.marketId = mk.marketId :=
    dailyDrawdownTripped_marketId
  fun_cases realSubmit k v mk side qty markPx markMs pxNamed with
  | case1 | case2 | case3 => rfl
  | case4 _ _ _ after refusal gated | case5 _ _ _ after gated =>
    rw [gated] at gate
    exact gate
  | case6 _ _ _ after gated =>
    rw [gated] at gate
    exact placeOrder_marketId.trans gate

theorem onSignal_marketId : (onSignal k v mk markPx markMs sig).marketId = mk.marketId :=
  onSignal_cases (P := fun after => after.marketId = mk.marketId) rfl rfl
    (fun _ _ _ => realSubmit_marketId)
    (fun _ _ _ => applyFill_marketId)

end Identity

section Operations

variable {k : Knobs} {v : Venue} {s : Sys} {mk : Market}

theorem onSignal_kept {markPx : ℚ} {markMs : ℤ} {sig : Signal}
    (idle : ¬ (0 < markPx ∧ (signalOrder mk markPx sig).isSome)) :
    Kept mk.session (onSignal k v mk markPx markMs sig).session := by
  unfold onSignal
  split
  · exact .refl _
  next priced =>
    have none : signalOrder (noteSignal mk markPx markMs sig) markPx sig = none := by
      refine Option.not_isSome_iff_eq_none.mp fun ordered => idle ⟨not_le.mp priced, ordered⟩
    dsimp only
    rw [none]
    exact ⟨rfl, rfl, rfl⟩

theorem sound_signal : Sound s (signal k v s markPx markMs sig) := by
  unfold signal
  split
  · exact .persisted onSignal_marketId
  next idle => exact .kept (onSignal_kept idle) onSignal_marketId

theorem rollDailyAnchor_fillsCount :
    (rollDailyAnchor st tsMs).lifetimeFillsCount = st.lifetimeFillsCount := by
  unfold rollDailyAnchor
  split <;> rfl

theorem countTrade_fillsCount :
    (countTrade st realized).lifetimeFillsCount = st.lifetimeFillsCount := by
  unfold countTrade
  split_ifs <;> rfl

theorem trackEquity_fillsCount :
    (trackEquity st equity).lifetimeFillsCount = st.lifetimeFillsCount := by
  unfold trackEquity
  dsimp only
  split_ifs <;> rfl

theorem settle_fillsCount :
    ((settle k mk mode side t px fee slippage tsMs reason).session.stats mode).lifetimeFillsCount =
      (mk.session.stats mode).lifetimeFillsCount + 1 := by
  unfold settle
  dsimp only
  rw [Function.update_self, trackEquity_fillsCount]
  unfold bookTrade
  dsimp only
  cases side with
  | buy => rw [rollDailyAnchor_fillsCount]
  | sell => rw [countTrade_fillsCount, rollDailyAnchor_fillsCount]

theorem applyFill_uncounted {execPx fee slippage : ℚ}
    (uncounted : ((applyFill k mk mode side qty execPx fee slippage tsMs reason).session.stats
      mode).lifetimeFillsCount = (mk.session.stats mode).lifetimeFillsCount) :
    applyFill k mk mode side qty execPx fee slippage tsMs reason = mk := by
  unfold applyFill at uncounted ⊢
  split
  next valid =>
    rw [dif_pos valid] at uncounted
    cases traded : trade mk.session.position side qty execPx tsMs valid.1 with
    | none => rfl
    | some t =>
      rw [traded] at uncounted
      rw [settle_fillsCount] at uncounted
      exact absurd uncounted (Nat.succ_ne_self _)
  · rfl

theorem forceTrade_refused (mode : mk.session.mode ≠ .real)
    (refused : (forceTrade k v mk side qty pxOverride tsMs reason).2 ≠ none) :
    (forceTrade k v mk side qty pxOverride tsMs reason).1 = mk := by
  revert refused
  fun_cases forceTrade k v mk side qty pxOverride tsMs reason with
  | case1 | case2 | case4 => exact fun _ => rfl
  | case3 _ _ _ real => exact absurd real mode
  | case5 _ _ _ _ _ _ _ uncounted => exact fun _ => applyFill_uncounted uncounted
  | case6 => exact fun refused => absurd rfl refused

theorem forceTrade_marketId (mode : mk.session.mode ≠ .real) :
    (forceTrade k v mk side qty pxOverride tsMs reason).1.marketId = mk.marketId := by
  fun_cases forceTrade k v mk side qty pxOverride tsMs reason with
  | case1 | case2 | case4 => rfl
  | case3 _ _ _ real => exact absurd real mode
  | case5 | case6 => exact applyFill_marketId

theorem forceTrade_turned (mode : mk.session.mode = .real)
    (keeps : ForceKeeps v mk qty pxOverride) :
    (forceTrade k v mk side qty pxOverride tsMs reason).1 = mk := by
  have away (px : ℚ) (turned : mk.exchangeName = [] ∨ v.hasCredentials = false) :
      (realSubmit k v mk side qty px tsMs (0 < pxOverride)).1 = mk := by
    unfold realSubmit
    rcases turned with unnamed | unknown
    · rw [if_pos unnamed]
      split <;> rfl
    · rw [if_pos unknown]
      split_ifs <;> rfl
  fun_cases forceTrade k v mk side qty pxOverride tsMs reason with
  | case1 | case2 => rfl
  | case3 valid px priced =>
    rcases keeps with other | empty | unpriced | turned
    · exact absurd mode other
    · exact absurd empty valid
    · rw [priced] at unpriced
      cases unpriced
    · exact away px turned
  | case4 _ _ _ paper | case5 _ _ _ paper | case6 _ _ _ paper => exact absurd mode paper

theorem sound_force (keeps : ForceKeeps v s.market qty pxOverride) :
    Sound s (force k v s side qty pxOverride tsMs reason) := by
  unfold force
  dsimp only
  by_cases mode : s.market.session.mode = .real
  · rw [if_neg fun both => both.1 mode, forceTrade_turned mode keeps]
    exact .kept (.refl _) rfl
  · split
    · exact .persisted (forceTrade_marketId mode)
    next refused =>
      rw [forceTrade_refused mode fun done => refused ⟨mode, done⟩]
      exact .kept (.refl _) rfl

theorem sound_orderDone {coid orderId : Bytes} {failed : Bool}
    (keeps : ReplyKeeps failed orderId
      (splitFirst (fun p => decide (p.coid = coid)) s.market.session.pending)) :
    Sound s { s with market := marketOrderDone s.market coid failed orderId } := by
  refine .kept ?_ marketOrderDone_marketId
  unfold marketOrderDone
  cases found : splitFirst (fun p => decide (p.coid = coid)) s.market.session.pending with
  | none => exact .refl _
  | some parts =>
    obtain ⟨pre, p, post⟩ := parts
    rw [found] at keeps
    obtain ⟨accepted, already, named⟩ := keeps
    have same : { p with orderId := (if orderId = [] then p.orderId else orderId),
                         gatewayAccepted := true } = p := by
      rcases named with none | own
      · rw [if_pos none, ← already]
      · rw [own, ite_self, ← already]
    dsimp only
    rw [accepted, if_neg Bool.false_ne_true, same]
    exact ⟨rfl, rfl, (splitFirst_some found).1.symm⟩

theorem sound_booked {r : Market × List Call} (same : r.1.marketId = s.market.marketId)
    (kept : r.2 = [] → Kept s.market.session r.1.session) : Sound s (booked s r) := by
  unfold booked
  split
  next none => exact .kept (kept none) same
  · exact .persisted same

theorem recordExternalFill_marketId : (recordExternalFill k mk c).1.marketId = mk.marketId := by
  unfold recordExternalFill
  split_ifs
  · rfl
  · rfl
  · exact applyFill_marketId

theorem recordExternalFill_calls (mk : Market) {c : Call} (sized : 0 < c.qty) (priced : 0 < c.px)
    (free : recorded mk.session.pending c.tradeId = false) :
    (recordExternalFill k mk c).2 = [c] := by
  rw [recordExternalFill, if_neg, if_neg (Bool.eq_false_iff.mp free)]
  exact not_or.mpr ⟨not_le.mpr sized, not_le.mpr priced⟩

theorem recorded_creditRow {pre post : List Pending}
    (absent : f.tradeId ∉ p.recordedTradeIds)
    (lands : Complete (credit p f.tradeId f.size) ∨ tradeDedup ≤ p.recordedTradeIds.length)
    (free : recorded (pre ++ post) f.tradeId = false) :
    recorded (creditRow pre p post f) f.tradeId = false := by
  unfold creditRow
  split
  · exact free
  next rest =>
    have full : tradeDedup ≤ p.recordedTradeIds.length := lands.resolve_left rest
    have ids : (credit p f.tradeId f.size).recordedTradeIds = p.recordedTradeIds :=
      if_neg (Nat.not_lt.mpr full)
    simp only [recorded, List.any_append, List.any_cons, Bool.or_eq_false_iff, ids] at free ⊢
    exact ⟨free.1, by simpa using absent, free.2⟩

theorem consumeFill_marketId {reason : Bytes} :
    (consumeFill k mk found f reason).1.marketId = mk.marketId := by
  fun_cases consumeFill k mk found f reason with
  | case3 => exact recordExternalFill_marketId
  | _ => rfl

theorem sound_consumeFill {reason : Bytes}
    (keeps : ReportKeeps f found) :
    Sound s (booked s (consumeFill k s.market found f reason)) := by
  refine sound_booked consumeFill_marketId fun unbooked => ?_
  unfold consumeFill at unbooked ⊢
  split
  next valid =>
    rw [if_pos valid] at unbooked
    cases found with
    | none => exact .refl _
    | some parts =>
      obtain ⟨pre, p, post⟩ := parts
      dsimp only at unbooked ⊢
      split
      · exact .refl _
      next absent =>
        rw [if_neg absent] at unbooked
        have absent : f.tradeId ∉ p.recordedTradeIds := by simpa using absent
        obtain ⟨lands, free⟩ := keeps valid absent
        have asked := recordExternalFill_calls (k := k) (c := f.call reason)
          (setPending s.market (creditRow pre p post f)) valid.2.1 valid.2.2
          (recorded_creditRow absent lands free)
        rw [asked] at unbooked
        cases unbooked
  · exact .refl _

theorem stamp_eq (stamped : Stamped p o) : stamp p o = p := by
  obtain ⟨named, opened⟩ := stamped
  have orderId : (if o.orderId = [] then p.orderId else o.orderId) = p.orderId := by
    rcases named with none | own
    · exact if_pos none
    · rw [own, ite_self]
  have accepted : (p.gatewayAccepted || o.status = .opened) = p.gatewayAccepted := by
    by_cases status : o.status = .opened
    · rw [opened status, Bool.true_or]
    · simp [status]
  unfold stamp
  rw [orderId, accepted]

theorem handleWsOrder_marketId : (handleWsOrder k mk o).1.marketId = mk.marketId := by
  fun_cases handleWsOrder k mk o with
  | case2 => exact recordExternalFill_marketId
  | _ => rfl

theorem sound_wsOrder
    (keeps : SnapshotKeeps o (findPendingByCoid s.market.session.pending o.coid)) :
    Sound s (booked s (handleWsOrder k s.market o)) := by
  refine sound_booked handleWsOrder_marketId fun unbooked => ?_
  unfold handleWsOrder at unbooked ⊢
  cases found : findPendingByCoid s.market.session.pending o.coid with
  | none => exact .refl _
  | some parts =>
    obtain ⟨pre, p, post⟩ := parts
    rw [found] at keeps unbooked
    have restored (stamped : Stamped p o) :
        Kept s.market.session (setPending s.market (pre ++ stamp p o :: post)).session := by
      rw [stamp_eq stamped]
      exact ⟨rfl, rfl, (findPendingByCoid_split found).symm⟩
    dsimp only at unbooked ⊢
    split
    next terminal =>
      rw [if_pos terminal] at unbooked
      obtain ⟨empty, total, booking, unpriced⟩ := keeps.1 terminal
      rw [if_pos ⟨empty, total⟩] at unbooked ⊢
      split
      next priced =>
        have asked := recordExternalFill_calls (k := k) (c := o.call)
          (setPending s.market (pre ++ post)) total priced (booking priced)
        rw [if_pos priced, asked] at unbooked
        cases unbooked
      next priced => exact restored (unpriced (not_lt.mp priced))
    next live => exact restored (keeps.2 (Bool.eq_false_iff.mpr live))

end Operations

section Runs

theorem tracks_restPage {k : Knobs} {rows : List Report}
    (keeps : PageKeeps k s.market rows) (persisted : 0 ≤ s.market.marketId) :
    Tracks s (restPage k s rows) ∧ 0 ≤ (restPage k s rows).market.marketId := by
  induction rows generalizing s with
  | nil => exact ⟨.refl s, persisted⟩
  | cons f rest ih =>
    obtain ⟨here, later⟩ := keeps
    have sound : Sound s (booked s (onFill k s.market f)) := sound_consumeFill here
    obtain ⟨first, after⟩ := sound.tracks persisted
    rw [← booked_market] at later
    obtain ⟨second, last⟩ := ih later after
    exact ⟨first.trans second, last⟩

theorem sound_setMode (moved : step s (.setMode mode) = some t) : Sound s t := by
  unfold step setMode at moved
  dsimp only at moved
  split at moved
  · cases moved
    exact .kept (.refl _) rfl
  next switched =>
    cases moved
    refine .persisted ?_
    split at switched
    · cases switched
    · cases switched
      rfl

theorem tracks_step (persisted : 0 ≤ s.market.marketId) (keeps : Keeps s op)
    (moved : step s op = some t) : Tracks s t ∧ 0 ≤ t.market.marketId := by
  cases op with
  | signal k v markPx markMs sig =>
    cases moved
    exact sound_signal.tracks persisted
  | force k v side qty pxOverride tsMs reason =>
    cases moved
    exact (sound_force keeps).tracks persisted
  | orderDone coid failed orderId =>
    cases moved
    exact (sound_orderDone keeps).tracks persisted
  | wsFill k f =>
    cases moved
    exact (sound_consumeFill keeps).tracks persisted
  | wsOrder k o =>
    cases moved
    exact (sound_wsOrder keeps).tracks persisted
  | restPage k rows =>
    cases moved
    exact tracks_restPage keeps persisted
  | setMode mode => exact (sound_setMode moved).tracks persisted
  | halt =>
    cases moved
    exact Sound.tracks (.persisted rfl) persisted
  | reset mode =>
    cases moved
    exact Sound.tracks (.persisted rfl) persisted
  | feed lastPx lastBidPx lastAskPx lastBookMs lastFeedMs warmup =>
    cases moved
    exact Sound.tracks (.kept (.refl _) rfl) persisted

theorem snapshot_never_lags {s t : Sys} {ops : List Op} (persisted : 0 ≤ s.market.marketId)
    (run : Run step Keeps s ops t) :
    Steps step Settled s ops ∧ (Current s → Along step Current s ops) := by
  constructor
  · refine run.steps (I := fun s => 0 ≤ s.market.marketId) (fun persisted keeps moved => ?_)
      persisted
    obtain ⟨tracks, later⟩ := tracks_step persisted keeps moved
    exact ⟨tracks.settled, later⟩
  · intro current
    refine run.along (I := fun s => 0 ≤ s.market.marketId ∧ Current s) And.right
      (fun inv keeps moved => ?_) ⟨persisted, current⟩
    obtain ⟨tracks, later⟩ := tracks_step inv.1 keeps moved
    exact ⟨later, tracks.current inv.2⟩

def added : Sys := persistLocked ⟨newMarket .real 1000, none⟩

def takes (coid : String) : Venue := ⟨true, 1, 1, 1, some (ascii coid), true⟩

def advise (coid : String) (score : ℚ) : Op :=
  .signal defaultKnobs (takes coid) 100 1 ⟨score, 1, []⟩

def quoted : Op := .feed 100 99 101 1 1 .ready

def bookedOrders : List Op :=
  [quoted, advise "c1" 1,
    .restPage defaultKnobs
      [⟨ascii "v1", ascii "c1", ascii "buy", 7, 100, 5000 / 2001, 0, 2⟩,
        ⟨ascii "v1", ascii "c1", ascii "buy", 7, 100, 5000 / 2001, 0, 2⟩],
    advise "c2" (-1), .orderDone (ascii "c9") true [],
    .wsOrder defaultKnobs
      ⟨ascii "v2", ascii "c2", ascii "sell", .filled, 5000 / 2001, 100, 0, 3⟩,
    .setMode .paper, advise "" 1, .halt, .reset .paper]

theorem snapshot_never_lags_sample : ∃ t : Sys, Run step Keeps added bookedOrders t ∧
    t.market.session.pending = [] ∧ (t.market.session.stats .real).lifetimeFillsCount = 2 ∧
      t.market.session.position ≠ none ∧ Steps step Settled added bookedOrders ∧
      Along step Current added bookedOrders := by
  have run : Run step Keeps added bookedOrders _ := runWhen_get (by decide +kernel)
  have persisted : 0 ≤ added.market.marketId := by decide
  have lags := snapshot_never_lags persisted run
  refine ⟨_, run, ?_, ?_, ?_, lags.1, lags.2 (current_persistLocked (by decide))⟩
  all_goals decide +kernel

theorem not_current_of_pending
    (stale : (s.queued.all fun built =>
      decide (built.pending ≠ s.market.session.pending)) = true) : ¬ Current s := by
  rintro ⟨built, queued, agrees⟩
  rw [queued, Option.all_some] at stale
  exact of_decide_eq_true stale agrees.pending

def Lags (s t : Sys) : Prop := Changed s.market.session t.market.session ∧ ¬ Current t

theorem lags_of_exec {ops : List Op}
    (ran : ((exec step s ops).any fun before => (step before op).any fun t =>
      decide (before.market.session.pending ≠ t.market.session.pending) &&
        t.queued.all fun built =>
          decide (built.pending ≠ t.market.session.pending)) = true) :
    ∃ before t, exec step s ops = some before ∧ step before op = some t ∧ Lags before t := by
  obtain ⟨before, reached, moves⟩ := (Option.any_eq_true _ _).mp ran
  obtain ⟨t, moved, both⟩ := (Option.any_eq_true _ _).mp moves
  obtain ⟨differ, stale⟩ := Bool.and_eq_true_iff.mp both
  exact ⟨before, t, reached, moved, .inr (.inr (of_decide_eq_true differ)),
    not_current_of_pending stale⟩

/-- An order the venue rejects is still in the last upsert, and one that the operator forced
is not in it. -/
theorem not_snapshot_never_lags :
    (∃ s t, exec step added [quoted, advise "c1" 1] = some s ∧
      step s (.orderDone (ascii "c1") true []) = some t ∧ Lags s t) ∧
    ∃ s t, exec step added [quoted] = some s ∧
      step s (.force defaultKnobs (takes "c1") .buy 1 0 2 none) = some t ∧ Lags s t :=
  ⟨lags_of_exec (by decide +kernel), lags_of_exec (by decide +kernel)⟩

end Runs

end BotManager.MarketSnapshot
