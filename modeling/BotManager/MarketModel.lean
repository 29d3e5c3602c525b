import Mathlib.Tactic.Linarith
import Mathlib.Tactic.FieldSimp
import Mathlib.Tactic.Ring
import BotManager.CText

/-! The market session of whenmoon/market_engine.c: one long-only position, a ledger for
each mode, and the fill engine that moves both. Amounts are rational numbers. Every
function runs under `mk->lock`. Rings keep their newest entries first. -/

namespace BotManager.MarketModel
open CText

inductive Mode
  | manual
  | paper
  | real
  deriving DecidableEq

inductive Warmup
  | cold
  | warming
  | final
  | ready
  deriving DecidableEq

inductive Side
  | buy
  | sell
  deriving DecidableEq

/-- A long of no quantity cannot be built; a flat market has none. -/
structure Long where
  qty : ℚ
  avgEntryPx : ℚ
  openedAtMs : ℤ
  pos : 0 < qty
  deriving DecidableEq

structure Stats where
  startingCash : ℚ
  cash : ℚ
  realizedPnlLifetime : ℚ
  realizedPnlToday : ℚ
  dailyAnchorMs : ℤ
  stackAnchorSats : ℚ
  lifetimeFees : ℚ
  lifetimeFillsCount : ℕ
  lastFillMs : ℤ
  nTrades : ℕ
  nWins : ℕ
  nLosses : ℕ
  grossProfit : ℚ
  grossLoss : ℚ
  maxDrawdown : ℚ
  equityPeak : ℚ
  deriving DecidableEq

structure FillSlot where
  tsMs : ℤ
  side : Side
  qty : ℚ
  price : ℚ
  fee : ℚ
  slippage : ℚ
  realizedPnl : ℚ
  cashAfter : ℚ
  positionAfter : ℚ
  reason : Bytes
  deriving DecidableEq

def fillRingCap : ℕ := 256
def tradeDedup : ℕ := 64
def equityRingCap : ℕ := 8192
def reasonSz : ℕ := 64

structure Pending where
  coid : Bytes
  orderId : Bytes
  side : Side
  limitPx : ℚ
  submittedQty : ℚ
  filledQty : ℚ
  submittedMs : ℤ
  gatewayAccepted : Bool
  recordedTradeIds : List ℤ
  deriving DecidableEq

structure Signal where
  score : ℚ
  tsMs : ℤ
  reason : Bytes
  deriving DecidableEq

structure Session where
  mode : Mode
  position : Option Long
  stats : Mode → Stats
  fills : Mode → List FillSlot
  pending : List Pending
  lastMarkPx : ℚ
  lastMarkMs : ℤ
  lastActedSignal : Option Signal
  feeBps : ℚ
  slipBps : ℚ
  sizeFrac : ℚ
  maxNotionalSats : ℚ
  dailyDrawdownBps : ℚ
  pendingCap : ℕ
  equitySamples : List (ℤ × ℚ)

structure Market where
  marketId : ℤ
  productId : Bytes
  exchangeName : Bytes
  warmupState : Warmup
  lastPx : ℚ
  lastBidPx : ℚ
  lastAskPx : ℚ
  lastBookMs : ℤ
  lastFeedMs : ℤ
  session : Session

/-- The settings that are read when they are needed and not kept in the session. -/
structure Knobs where
  ownHaltFrac : Option ℚ
  globalHaltFrac : Option ℚ
  markMaxAgeMs : ℤ
  postOnly : Bool

def defaultPaperLossHaltFrac : ℚ := 1 / 10

/-- The market's own fraction; a negative one inherits. -/
def paperLossHaltFrac (k : Knobs) : ℚ :=
  let frac := k.ownHaltFrac.getD (-1)
  if frac < 0 then k.globalHaltFrac.getD defaultPaperLossHaltFrac else frac

def utcDayFloorMs (tsMs : ℤ) : ℤ := tsMs.tdiv 86400000 * 86400000

def rollDailyAnchor (st : Stats) (tsMs : ℤ) : Stats :=
  if st.dailyAnchorMs = 0 ∨ st.dailyAnchorMs < utcDayFloorMs tsMs then
    { st with dailyAnchorMs := utcDayFloorMs tsMs, realizedPnlToday := 0, stackAnchorSats := 0 }
  else st

variable {k : Knobs} {mk : Market} {tsMs : ℤ}

section Fill

def dust : ℚ := 1 / 1000000000000

theorem dust_pos : 0 < dust := by norm_num [dust]

def held (position : Option Long) : ℚ := (position.map Long.qty).getD 0

structure Trade where
  qty : ℚ
  realized : ℚ
  position : Option Long

def openLong (qty px : ℚ) (tsMs : ℤ) (pos : 0 < qty) : Long := ⟨qty, px, tsMs, pos⟩

def scaleIn (l : Long) (qty px : ℚ) (pos : 0 < qty) : Long :=
  ⟨l.qty + qty, (l.qty * l.avgEntryPx + qty * px) / (l.qty + qty), l.openedAtMs,
    add_pos l.pos pos⟩

/-- A remainder of no more than `dust` is taken for none. -/
def closeOut (l : Long) (qty : ℚ) : Option Long :=
  if small : l.qty - qty ≤ dust then none
  else some ⟨l.qty - qty, l.avgEntryPx, l.openedAtMs, dust_pos.trans (not_le.mp small)⟩

def clipped (l : Long) (qty : ℚ) : ℚ := if l.qty < qty then l.qty else qty

/-- A sell against a flat market is dropped. -/
def trade (position : Option Long) (side : Side) (qty px : ℚ) (tsMs : ℤ) (pos : 0 < qty) :
    Option Trade :=
  match side, position with
  | .buy, none => some ⟨qty, 0, some (openLong qty px tsMs pos)⟩
  | .buy, some l => some ⟨qty, 0, some (scaleIn l qty px pos)⟩
  | .sell, none => none
  | .sell, some l =>
    some ⟨clipped l qty, (px - l.avgEntryPx) * clipped l qty, closeOut l (clipped l qty)⟩

def countTrade (st : Stats) (realized : ℚ) : Stats :=
  let st := { st with realizedPnlLifetime := st.realizedPnlLifetime + realized,
                      realizedPnlToday := st.realizedPnlToday + realized,
                      nTrades := st.nTrades + 1 }
  if 0 < realized then
    { st with nWins := st.nWins + 1, grossProfit := st.grossProfit + realized }
  else if realized < 0 then
    { st with nLosses := st.nLosses + 1, grossLoss := st.grossLoss - realized }
  else st

/-- Cash, fees and outcome counters of the ledger the fill is booked to. -/
def bookTrade (st : Stats) (side : Side) (t : Trade) (px fee : ℚ) (tsMs : ℤ) : Stats :=
  let moved := match side with
    | .buy => st.cash - t.qty * px
    | .sell => st.cash + t.qty * px
  let st := rollDailyAnchor
    { st with cash := moved - fee, lifetimeFees := st.lifetimeFees + fee } tsMs
  let st := match side with
    | .buy => st
    | .sell => countTrade st t.realized
  { st with lifetimeFillsCount := st.lifetimeFillsCount + 1, lastFillMs := tsMs }

def trackEquity (st : Stats) (equity : ℚ) : Stats :=
  let st := { st with equityPeak := if st.equityPeak < equity then equity else st.equityPeak }
  if 0 < st.equityPeak then
    let drawdown := (st.equityPeak - equity) / st.equityPeak
    { st with maxDrawdown := if st.maxDrawdown < drawdown then drawdown else st.maxDrawdown }
  else st

/-- The paper ledger's equity is below the floor of the loss halt. -/
def Breaches (k : Knobs) (st : Stats) (equity : ℚ) : Prop :=
  0 < paperLossHaltFrac k ∧ equity < st.startingCash * (1 - paperLossHaltFrac k)

instance (k : Knobs) (st : Stats) (equity : ℚ) : Decidable (Breaches k st equity) :=
  inferInstanceAs (Decidable (_ ∧ _))

/-- The mode after a fill; synthetic markets have no breaker. -/
def modeAfter (k : Knobs) (mk : Market) (mode : Mode) (st : Stats) (equity : ℚ) : Mode :=
  if mk.marketId ≠ -1 ∧ mode = .paper ∧ mk.session.mode = .paper ∧ Breaches k st equity then
    .manual
  else mk.session.mode

def fillSlot (side : Side) (t : Trade) (st : Stats) (px fee slippage : ℚ) (tsMs : ℤ)
    (reason : Option Bytes) : FillSlot :=
  ⟨tsMs, side, t.qty, px, fee, slippage, t.realized, st.cash, held t.position,
    bounded reasonSz (reason.getD [])⟩

def settle (k : Knobs) (mk : Market) (mode : Mode) (side : Side) (t : Trade)
    (px fee slippage : ℚ) (tsMs : ℤ) (reason : Option Bytes) : Market :=
  let s := mk.session
  let st := bookTrade (s.stats mode) side t px fee tsMs
  let equity := st.cash + held t.position * px
  { mk with session := { s with
      mode := modeAfter k mk mode st equity
      position := t.position
      stats := Function.update s.stats mode (trackEquity st equity)
      fills := Function.update s.fills mode
        ((fillSlot side t st px fee slippage tsMs reason :: s.fills mode).take fillRingCap)
      lastMarkPx := px
      lastMarkMs := tsMs
      equitySamples := ((tsMs, equity) :: s.equitySamples).take equityRingCap } }

def applyFill (k : Knobs) (mk : Market) (mode : Mode) (side : Side)
    (qty execPx fee slippage : ℚ) (tsMs : ℤ) (reason : Option Bytes) : Market :=
  if valid : 0 < qty ∧ 0 < execPx then
    match trade mk.session.position side qty execPx tsMs valid.1 with
    | none => mk
    | some t => settle k mk mode side t execPx fee slippage tsMs reason
  else mk

theorem applyFill_pending :
    (applyFill k mk mode side qty execPx fee slippage tsMs reason).session.pending =
      mk.session.pending := by
  unfold applyFill
  split
  · split <;> rfl
  · rfl

theorem held_some : held (some l) = l.qty := rfl

theorem held_nonneg : 0 ≤ held position := by
  cases position with
  | none => exact le_rfl
  | some l => exact l.pos.le

variable {l : Long} {mode : Mode} {qty : ℚ}

theorem clipped_all (all : l.qty ≤ qty) : clipped l qty = l.qty := by
  rcases lt_or_eq_of_le all with beyond | same
  · exact if_pos beyond
  · rw [clipped, same, if_neg (lt_irrefl qty)]

theorem closeOut_all (all : l.qty ≤ qty) : closeOut l (clipped l qty) = none := by
  rw [clipped_all all, closeOut, dif_pos (by rw [sub_self]; exact dust_pos.le)]

theorem held_closeOut (more : dust < l.qty - qty) :
    clipped l qty = qty ∧ held (closeOut l (clipped l qty)) = l.qty - qty := by
  have within : clipped l qty = qty := by
    rw [clipped, if_neg (by linarith [dust_pos])]
  refine ⟨within, ?_⟩
  rw [within, closeOut, dif_neg (not_le.mpr more)]
  rfl

variable {qty execPx fee slippage : ℚ} {reason : Option Bytes}

variable (sized : 0 < qty)
include sized

theorem held_applyFill_buy (priced : 0 < execPx) :
    held (applyFill k mk mode .buy qty execPx fee slippage tsMs reason).session.position =
      held mk.session.position + qty := by
  rw [applyFill, dif_pos ⟨sized, priced⟩]
  cases position : mk.session.position with
  | none => exact (zero_add qty).symm
  | some l => rfl

theorem held_applyFill_sell (priced : 0 < execPx)
    (leaves : held mk.session.position = qty ∨ dust < held mk.session.position - qty) :
    held (applyFill k mk mode .sell qty execPx fee slippage tsMs reason).session.position =
      held mk.session.position - qty := by
  rw [applyFill, dif_pos ⟨sized, priced⟩]
  cases position : mk.session.position with
  | none =>
    rw [position] at leaves
    have flat : held none = 0 := rfl
    rcases leaves with all | more
    · linarith
    · linarith [dust_pos]
  | some l =>
    rw [position, held_some] at leaves
    rcases leaves with all | more
    · have gone := closeOut_all all.le
      calc held (closeOut l (clipped l qty)) = 0 := by rw [gone]; rfl
        _ = held (some l) - qty := by rw [held_some, all, sub_self]
    · exact (held_closeOut more).2

theorem exists_long_of_within {position : Option Long}
    (within : qty ≤ held position) : ∃ l, position = some l ∧ clipped l qty = qty := by
  cases position with
  | none => exact absurd sized (not_lt.mpr within)
  | some l =>
    rw [held_some] at within
    exact ⟨l, rfl, if_neg (not_lt.mpr within)⟩

theorem held_applyFill_within (priced : 0 < execPx)
    (within : qty ≤ held mk.session.position) :
    held (applyFill k mk mode .sell qty execPx fee slippage tsMs reason).session.position =
        held mk.session.position - qty ∨
      held (applyFill k mk mode .sell qty execPx fee slippage tsMs reason).session.position = 0 ∧
        held mk.session.position - qty ≤ dust := by
  by_cases more : dust < held mk.session.position - qty
  · exact .inl (held_applyFill_sell sized priced (.inr more))
  · refine .inr ⟨?_, not_lt.mp more⟩
    obtain ⟨l, position, whole⟩ := exists_long_of_within sized within
    rw [position, held_some] at more
    have gone : closeOut l (clipped l qty) = none := by
      rw [whole, closeOut, dif_pos (not_lt.mp more)]
    rw [applyFill, dif_pos ⟨sized, priced⟩, position]
    calc held (closeOut l (clipped l qty)) = held none := by rw [gone]
      _ = 0 := rfl

end Fill

section Money

structure Money where
  startingCash : ℚ
  cash : ℚ
  realized : ℚ
  fees : ℚ

def money (st : Stats) : Money :=
  ⟨st.startingCash, st.cash, st.realizedPnlLifetime, st.lifetimeFees⟩

def Money.book (a : Money) (side : Side) (t : Trade) (px fee : ℚ) : Money :=
  match side with
  | .buy => { a with cash := a.cash - t.qty * px - fee, fees := a.fees + fee }
  | .sell => { a with cash := a.cash + t.qty * px - fee, realized := a.realized + t.realized,
                      fees := a.fees + fee }

theorem Money.book_startingCash (a : Money) :
    (a.book side t px fee).startingCash = a.startingCash := by
  cases side <;> rfl

variable (st : Stats)

theorem money_rollDailyAnchor (tsMs : ℤ) :
    money (rollDailyAnchor st tsMs) = money st := by
  unfold rollDailyAnchor
  split <;> rfl

theorem money_countTrade (realized : ℚ) :
    money (countTrade st realized) =
      { money st with realized := (money st).realized + realized } := by
  unfold countTrade
  dsimp only
  split_ifs <;> rfl

theorem money_trackEquity : money (trackEquity st equity) = money st := by
  unfold trackEquity
  dsimp only
  split_ifs <;> rfl

theorem money_bookTrade (side : Side) (t : Trade) (px fee : ℚ) (tsMs : ℤ) :
    money (bookTrade st side t px fee tsMs) = (money st).book side t px fee := by
  cases side with
  | buy =>
    unfold bookTrade
    exact money_rollDailyAnchor
      { st with cash := st.cash - t.qty * px - fee, lifetimeFees := st.lifetimeFees + fee } tsMs
  | sell =>
    have rolled := money_rollDailyAnchor
      { st with cash := st.cash + t.qty * px - fee, lifetimeFees := st.lifetimeFees + fee } tsMs
    have counted := money_countTrade (rollDailyAnchor
      { st with cash := st.cash + t.qty * px - fee, lifetimeFees := st.lifetimeFees + fee } tsMs)
      t.realized
    rw [rolled] at counted
    unfold bookTrade
    exact counted

theorem money_settle (k : Knobs) (mk : Market) (mode m : Mode) (side : Side) (t : Trade)
    (px fee slippage : ℚ) (tsMs : ℤ) (reason : Option Bytes) :
    money ((settle k mk mode side t px fee slippage tsMs reason).session.stats m) =
      if m = mode then (money (mk.session.stats m)).book side t px fee
      else money (mk.session.stats m) := by
  unfold settle
  by_cases same : m = mode
  · rw [if_pos same, same]
    dsimp only
    rw [Function.update_self, money_trackEquity, money_bookTrade]
  · rw [if_neg same]
    dsimp only
    rw [Function.update_of_ne same]

structure Framed (mk mk' : Market) : Prop where
  mode : mk'.session.mode = mk.session.mode
  feeBps : mk'.session.feeBps = mk.session.feeBps
  maxNotionalSats : mk'.session.maxNotionalSats = mk.session.maxNotionalSats

theorem Framed.refl (mk : Market) : Framed mk mk := ⟨rfl, rfl, rfl⟩

theorem Framed.trans {a b c : Market} (first : Framed a b) (second : Framed b c) : Framed a c :=
  ⟨second.mode.trans first.mode, second.feeBps.trans first.feeBps,
    second.maxNotionalSats.trans first.maxNotionalSats⟩

theorem applyFill_framed :
    Framed mk (applyFill k mk .real side qty execPx fee slippage tsMs reason) := by
  unfold applyFill
  split
  · split
    · exact .refl mk
    · refine ⟨if_neg ?_, rfl, rfl⟩
      rintro ⟨-, paper, -⟩
      cases paper
  · exact .refl mk

section RealFill

variable {k : Knobs} {mk : Market} {qty execPx fee slippage : ℚ} {tsMs : ℤ}
  {reason : Option Bytes}

theorem cash_applyFill_buy (sized : 0 < qty) (priced : 0 < execPx) :
    ((applyFill k mk .real .buy qty execPx fee slippage tsMs reason).session.stats .real).cash =
      (mk.session.stats .real).cash - qty * execPx - fee := by
  rw [applyFill, dif_pos ⟨sized, priced⟩]
  cases position : mk.session.position with
  | none | some l => exact congrArg Money.cash (money_settle k mk .real .real .buy _ _ _ _ _ _)

theorem cash_applyFill_sell (sized : 0 < qty) (priced : 0 < execPx)
    (within : qty ≤ held mk.session.position) :
    ((applyFill k mk .real .sell qty execPx fee slippage tsMs reason).session.stats .real).cash =
      (mk.session.stats .real).cash + qty * execPx - fee := by
  obtain ⟨l, position, whole⟩ := exists_long_of_within sized within
  have moved := congrArg Money.cash (money_settle k mk .real .real .sell
    ⟨clipped l qty, (execPx - l.avgEntryPx) * clipped l qty, closeOut l (clipped l qty)⟩
    execPx fee slippage tsMs reason)
  rw [if_pos rfl] at moved
  rw [applyFill, dif_pos ⟨sized, priced⟩, position]
  calc _ = (mk.session.stats .real).cash + clipped l qty * execPx - fee := moved
    _ = (mk.session.stats .real).cash + qty * execPx - fee := by rw [whole]

end RealFill

end Money

section Modes

def setMode (mk : Market) (mode : Mode) : Option Market :=
  if mk.session.position.isSome then none
  else some { mk with session := { mk.session with mode := mode } }

def halt (mk : Market) : Market :=
  { mk with session := { mk.session with mode := .manual } }

/-- The ledger of a mode starts over; a position goes with it only in that mode. The outcome
counters and the equity peak stay. -/
def reset (mk : Market) (mode : Mode) : Market :=
  let s := mk.session
  let st := s.stats mode
  { mk with session := { s with
      position := if mode = s.mode then none else s.position
      stats := Function.update s.stats mode
        { st with cash := st.startingCash, realizedPnlLifetime := 0, realizedPnlToday := 0,
                  dailyAnchorMs := 0, lifetimeFees := 0, lifetimeFillsCount := 0, lastFillMs := 0 }
      fills := Function.update s.fills mode [] } }

def newStats (startingCash : ℚ) : Stats :=
  ⟨startingCash, startingCash, 0, 0, 0, 0, 0, 0, 0, 0, 0, 0, 0, 0, 0, 0⟩

def newMarket (mode : Mode) (startingCash : ℚ) : Market where
  marketId := 1
  productId := ascii "BTC-USD"
  exchangeName := ascii "coinbase"
  warmupState := .ready
  lastPx := 0
  lastBidPx := 0
  lastAskPx := 0
  lastBookMs := 0
  lastFeedMs := 0
  session :=
    { mode := mode, position := none, stats := fun _ => newStats startingCash, fills := fun _ => []
      pending := [], lastMarkPx := 0, lastMarkMs := 0, lastActedSignal := none, feeBps := 5
      slipBps := 5, sizeFrac := 1 / 4, maxNotionalSats := 0, dailyDrawdownBps := 200
      pendingCap := 8, equitySamples := [] }

def defaultKnobs : Knobs := ⟨some (-1), some (1 / 10), 60000, false⟩

end Modes

end BotManager.MarketModel
