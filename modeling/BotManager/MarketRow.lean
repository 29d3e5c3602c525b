import BotManager.FirstMatch
import BotManager.JsonDoc
import BotManager.MarketModel

/-! The row of a market session in whenmoon/market_persist.c: the JSON texts and columns that
`wm_mp_build_upsert_locked` writes, and the readers of `wm_market_persist_restore_all` with
their names, positions and defaults. The session is the record of market.h, arrays and
counters as they are there. -/

namespace BotManager.MarketRow
open CText FirstMatch JsonDoc
open MarketModel (Mode Stats tradeDedup fillRingCap reasonSz)

section Session

structure Position where
  long : Bool
  qty : ℚ
  avgEntryPx : ℚ
  openedAtMs : ℤ
  deriving DecidableEq

/-- A slot of a fill ring; one that was never written has a side of zero. -/
structure Fill where
  tsMs : ℤ
  side : UInt8
  qty : ℚ
  price : ℚ
  fee : ℚ
  slippage : ℚ
  realizedPnl : ℚ
  cashAfter : ℚ
  positionAfter : ℚ
  reason : Bytes
  deriving DecidableEq

structure Ring where
  slots : List Fill
  n : ℕ
  head : ℕ
  deriving DecidableEq

structure Pending where
  coid : Bytes
  orderId : Bytes
  side : Bytes
  limitPx : ℚ
  submittedQty : ℚ
  filledQty : ℚ
  submittedMs : ℤ
  gatewayAccepted : Bool
  recordedTradeIds : List ℤ
  deriving DecidableEq

structure Signal where
  tsMs : ℤ
  score : ℚ
  confidence : ℚ
  reason : Bytes
  deriving DecidableEq

structure Session where
  mode : Mode
  position : Position
  stats : Mode → Stats
  fills : Mode → Ring
  pending : List Pending
  pendingN : ℕ
  lastMarkPx : ℚ
  lastMarkMs : ℤ
  lastActedSignal : Option Signal
  feeBps : ℚ
  slipBps : ℚ
  sizeFrac : ℚ
  maxNotionalSats : ℚ
  dailyDrawdownBps : ℚ
  pendingCap : ℕ

structure Key where
  marketId : ℤ
  label : Bytes
  deriving DecidableEq

structure Market where
  key : Key
  session : Session

def coidSz : ℕ := 64
def orderIdSz : ℕ := 64
def sideSz : ℕ := 8
def maxPending : ℕ := 32

end Session

section Writer

def g10 (x : ℚ) : ℚ := significant 10 x

def jsonEscapeByte (c : UInt8) : Bytes :=
  if c = 34 then [92, 34] else if c = 92 then [92, 92] else if c = 8 then [92, 98]
  else if c = 12 then [92, 102] else if c = 10 then [92, 110] else if c = 13 then [92, 114]
  else if c = 9 then [92, 116]
  else if c.toNat < 32 then [92, 117, 48, 48, hexDigit (c.toNat / 16), hexDigit (c.toNat % 16)]
  else [c]

def jsonEscape (src : Bytes) : Bytes := src.flatMap jsonEscapeByte

def posSideName (long : Bool) : Bytes := if long then ascii "long" else ascii "flat"

def jsonSignal : Option Signal → Json
  | none => .null
  | some sig => .obj
    [("ts_ms", .num sig.tsMs), ("score", .num (g10 sig.score)),
      ("confidence", .num (g10 sig.confidence)), ("reason", .str (jsonEscape sig.reason))]

/-- A slot without a side is written as a buy; the byte is not escaped. -/
def jsonOneFill (f : Fill) : Json := .obj
  [("ts_ms", .num f.tsMs), ("side", .str [if f.side ≠ 0 then f.side else 98]),
    ("qty", .num (g10 f.qty)), ("price", .num (g10 f.price)), ("fee", .num (g10 f.fee)),
    ("slippage", .num (g10 f.slippage)), ("realized_pnl", .num (g10 f.realizedPnl)),
    ("cash_after", .num (g10 f.cashAfter)), ("position_after", .num (g10 f.positionAfter)),
    ("reason", .str (jsonEscape f.reason))]

def jsonFillsRing (ring : Ring) : Json := .arr (ring.slots.map jsonOneFill)

def jsonOnePending (p : Pending) : Json := .obj
  [("coid", .str (jsonEscape p.coid)), ("order_id", .str (jsonEscape p.orderId)),
    ("side", .str (jsonEscape p.side)), ("limit_px", .num (g10 p.limitPx)),
    ("submitted_qty", .num (g10 p.submittedQty)), ("filled_qty", .num (g10 p.filledQty)),
    ("submitted_ms", .num p.submittedMs), ("gateway_accepted", .bool p.gatewayAccepted),
    ("trade_ids", .arr (p.recordedTradeIds.map fun id : ℤ => .num id))]

def jsonPendingRing (s : Session) : Json := .arr ((s.pending.take s.pendingN).map jsonOnePending)

def jsonOneStats (st : Stats) : Json := .obj
  [("starting_cash", .num (g10 st.startingCash)), ("cash", .num (g10 st.cash)),
    ("realized_pnl_lifetime", .num (g10 st.realizedPnlLifetime)),
    ("realized_pnl_today", .num (g10 st.realizedPnlToday)),
    ("daily_anchor_ms", .num st.dailyAnchorMs),
    ("stack_anchor_sats", .num (g10 st.stackAnchorSats)),
    ("lifetime_fees", .num (g10 st.lifetimeFees)),
    ("lifetime_fills_count", .num st.lifetimeFillsCount), ("last_fill_ms", .num st.lastFillMs),
    ("n_trades", .num st.nTrades), ("n_wins", .num st.nWins), ("n_losses", .num st.nLosses),
    ("gross_profit", .num (g10 st.grossProfit)), ("gross_loss", .num (g10 st.grossLoss)),
    ("max_drawdown", .num (g10 st.maxDrawdown)), ("equity_peak", .num (g10 st.equityPeak))]

def modeName : Mode → Bytes
  | .manual => ascii "manual"
  | .paper => ascii "paper"
  | .real => ascii "real"

inductive Cell
  | text (s : Bytes)
  | num (x : ℚ)
  | bool (b : Bool)
  | json (doc : Json)

def insertColumns : List String :=
  ["market_id", "instance", "enabled", "mode", "position_side", "position_qty", "position_avg",
    "position_opened_ms", "stats_paper", "stats_real", "fills_paper", "fills_real", "pending",
    "last_mark_px", "last_mark_ms", "last_signal", "has_last_signal", "fills_n_paper",
    "fills_head_paper", "fills_n_real", "fills_head_real", "fee_bps", "slip_bps", "size_frac",
    "max_notional_sats", "daily_drawdown_bps", "pending_cap", "pending_n"]

def insertValues (mk : Market) : List Cell :=
  let s := mk.session
  [.num mk.key.marketId, .text mk.key.label, .bool true, .text (modeName s.mode),
    .text (posSideName s.position.long), .num (g10 s.position.qty),
    .num (g10 s.position.avgEntryPx), .num s.position.openedAtMs,
    .json (jsonOneStats (s.stats .paper)), .json (jsonOneStats (s.stats .real)),
    .json (jsonFillsRing (s.fills .paper)), .json (jsonFillsRing (s.fills .real)),
    .json (jsonPendingRing s), .num (g10 s.lastMarkPx), .num s.lastMarkMs,
    .json (jsonSignal s.lastActedSignal), .bool s.lastActedSignal.isSome,
    .num (s.fills .paper).n, .num (s.fills .paper).head, .num (s.fills .real).n,
    .num (s.fills .real).head, .num (g10 s.feeBps), .num (g10 s.slipBps), .num (g10 s.sizeFrac),
    .num (g10 s.maxNotionalSats), .num (g10 s.dailyDrawdownBps), .num s.pendingCap,
    .num s.pendingN]

def updateColumns : List String :=
  ["enabled", "mode", "position_side", "position_qty", "position_avg", "position_opened_ms",
    "stats_paper", "stats_real", "fills_paper", "fills_real", "pending", "last_mark_px",
    "last_mark_ms", "last_signal", "has_last_signal", "fills_n_paper", "fills_head_paper",
    "fills_n_real", "fills_head_real", "fee_bps", "slip_bps", "size_frac", "max_notional_sats",
    "daily_drawdown_bps", "pending_cap", "pending_n"]

def Row := String → Option Cell

def insertRow (mk : Market) : Row := fun column => (insertColumns.zip (insertValues mk)).lookup column

def updateRow (old new : Row) : Row := fun column =>
  if column ∈ updateColumns then new column else old column

end Writer

section Reader

def jdouble (obj : Json) (key : String) (default : ℚ) : ℚ :=
  match obj.get key with
  | some (.num x) => if x.den = 1 then saturate x.num else x
  | _ => default

def jint64 (obj : Json) (key : String) (default : ℤ) : ℤ :=
  match obj.get key with
  | some (.num x) => if x.den = 1 then saturate x.num else default
  | _ => default

def jstr (obj : Json) (key : String) : Option Bytes :=
  match obj.get key with
  | some (.str written) => some (unescape written)
  | _ => none

def asUnsigned (bits : ℕ) (z : ℤ) : ℕ := (z % 2 ^ bits).toNat

def loadStats (obj : Json) (out : Stats) : Stats where
  startingCash := jdouble obj "starting_cash" out.startingCash
  cash := jdouble obj "cash" out.cash
  realizedPnlLifetime := jdouble obj "realized_pnl_lifetime" 0
  realizedPnlToday := jdouble obj "realized_pnl_today" 0
  dailyAnchorMs := jint64 obj "daily_anchor_ms" 0
  stackAnchorSats := jdouble obj "stack_anchor_sats" 0
  lifetimeFees := jdouble obj "lifetime_fees" 0
  lifetimeFillsCount := asUnsigned 64 (jint64 obj "lifetime_fills_count" 0)
  lastFillMs := jint64 obj "last_fill_ms" 0
  nTrades := asUnsigned 32 (jint64 obj "n_trades" 0)
  nWins := asUnsigned 32 (jint64 obj "n_wins" 0)
  nLosses := asUnsigned 32 (jint64 obj "n_losses" 0)
  grossProfit := jdouble obj "gross_profit" 0
  grossLoss := jdouble obj "gross_loss" 0
  maxDrawdown := jdouble obj "max_drawdown" 0
  equityPeak := jdouble obj "equity_peak" 0

def loadSlot {α : Type*} (load : Json → α → α) (doc : Json) (out : α) : α :=
  match doc with
  | .null => out
  | obj => load obj out

def loadOneFill (obj : Json) (_ : Fill) : Fill where
  tsMs := jint64 obj "ts_ms" 0
  side := ((jstr obj "side").getD []).head?.getD 0
  qty := jdouble obj "qty" 0
  price := jdouble obj "price" 0
  fee := jdouble obj "fee" 0
  slippage := jdouble obj "slippage" 0
  realizedPnl := jdouble obj "realized_pnl" 0
  cashAfter := jdouble obj "cash_after" 0
  positionAfter := jdouble obj "position_after" 0
  reason := bounded reasonSz ((jstr obj "reason").getD [])

def loadSlots {α : Type*} (load : Json → α → α) (items : List Json) (slots : List α) : List α :=
  items.zipWith (loadSlot load) slots ++ slots.drop items.length

def loadFillsRing (doc : Json) (slots : List Fill) : List Fill :=
  match doc with
  | .arr items => loadSlots loadOneFill (items.take fillRingCap) slots
  | _ => slots

/-- An entry that is not an integer leaves the id that stood there. -/
def loadTradeId (old : ℤ) : Json → ℤ
  | .num x => if x.den = 1 then saturate x.num else old
  | _ => old

def loadTradeIds (obj : Json) (out : List ℤ) : List ℤ :=
  match obj.get "trade_ids" with
  | some (.arr items) => (items.take tradeDedup).mapIdx fun i e => loadTradeId (out.getD i 0) e
  | _ => out

def getBoolean : Json → Bool
  | .bool b => b
  | .num x => x ≠ 0
  | .str written => written ≠ []
  | _ => false

def loadOnePending (obj : Json) (out : Pending) : Pending where
  coid := ((jstr obj "coid").map (bounded coidSz)).getD out.coid
  orderId := ((jstr obj "order_id").map (bounded orderIdSz)).getD out.orderId
  side := ((jstr obj "side").map (bounded sideSz)).getD out.side
  limitPx := jdouble obj "limit_px" 0
  submittedQty := jdouble obj "submitted_qty" 0
  filledQty := jdouble obj "filled_qty" 0
  submittedMs := jint64 obj "submitted_ms" 0
  gatewayAccepted := ((obj.get "gateway_accepted").map getBoolean).getD out.gatewayAccepted
  recordedTradeIds := loadTradeIds obj out.recordedTradeIds

/-- The slots of the pending array and how many of them are in use. -/
def loadPendingRing (doc : Json) (slots : List Pending) (n : ℕ) : List Pending × ℕ :=
  match doc with
  | .arr items =>
    let items := items.take maxPending
    (loadSlots loadOnePending items slots, items.length)
  | _ => (slots, n)

def loadSignal (doc : Json) (hasSignal : Bool) : Option Signal :=
  match hasSignal, doc with
  | false, _ => none
  | true, .null => none
  | true, obj => some ⟨jint64 obj "ts_ms" 0, jdouble obj "score" 0, jdouble obj "confidence" 0,
      bounded reasonSz ((jstr obj "reason").getD [])⟩

def modeParse (tok : Bytes) : Option Mode :=
  if strcasecmp tok (ascii "manual") then some .manual
  else if strcasecmp tok (ascii "paper") then some .paper
  else if strcasecmp tok (ascii "real") then some .real
  else none

def posSideParse (s : Bytes) : Bool := s = ascii "long"

def selectColumns : List String :=
  ["market_id", "mode", "position_side", "position_qty", "position_avg", "position_opened_ms",
    "stats_paper", "stats_real", "fills_paper", "fills_real", "pending", "last_mark_px",
    "last_mark_ms", "last_signal", "has_last_signal", "fills_n_paper", "fills_head_paper",
    "fills_n_real", "fills_head_real", "fee_bps", "slip_bps", "size_frac", "max_notional_sats",
    "daily_drawdown_bps", "pending_cap", "pending_n", "instance"]

def select (row : Row) : List (Option Cell) := selectColumns.map row

def cell (cells : List (Option Cell)) (i : ℕ) : Option Cell := (cells[i]?).getD none

def Cell.toText : Cell → Bytes
  | .text s => s
  | _ => []

def Cell.strtod : Cell → ℚ
  | .num x => x
  | _ => 0

def Cell.strtoll : Cell → ℤ
  | .num x => saturate (x.num.tdiv x.den)
  | _ => 0

def Cell.strtoul (bits : ℕ) : Cell → ℕ
  | .num x => asUnsigned bits (x.num.tdiv x.den)
  | _ => 0

def Cell.isTrue : Cell → Bool
  | .bool b => b
  | _ => false

def docOf : Option Cell → Json
  | some (.json doc) => doc
  | _ => .null

def hydrate (cells : List (Option Cell)) (s : Session) : Session :=
  let pending := loadPendingRing (docOf (cell cells 10)) s.pending s.pendingN
  { mode := ((cell cells 1).bind fun c => modeParse c.toText).getD s.mode
    position :=
      { long := ((cell cells 2).map fun c => posSideParse c.toText).getD false
        qty := ((cell cells 3).map Cell.strtod).getD 0
        avgEntryPx := ((cell cells 4).map Cell.strtod).getD 0
        openedAtMs := ((cell cells 5).map Cell.strtoll).getD 0 }
    stats := fun m =>
      match m with
      | .paper => loadSlot loadStats (docOf (cell cells 6)) (s.stats .paper)
      | .real => loadSlot loadStats (docOf (cell cells 7)) (s.stats .real)
      | .manual => s.stats .manual
    fills := fun m =>
      match m with
      | .paper =>
        { slots := loadFillsRing (docOf (cell cells 8)) (s.fills .paper).slots
          n := ((cell cells 15).map (Cell.strtoul 64)).getD 0
          head := ((cell cells 16).map (Cell.strtoul 32)).getD 0 }
      | .real =>
        { slots := loadFillsRing (docOf (cell cells 9)) (s.fills .real).slots
          n := ((cell cells 17).map (Cell.strtoul 64)).getD 0
          head := ((cell cells 18).map (Cell.strtoul 32)).getD 0 }
      | .manual => s.fills .manual
    pending := pending.1
    pendingN := ((cell cells 25).map (Cell.strtoul 32)).getD pending.2
    lastMarkPx := ((cell cells 11).map Cell.strtod).getD 0
    lastMarkMs := ((cell cells 12).map Cell.strtoll).getD 0
    lastActedSignal :=
      loadSignal (docOf (cell cells 13)) (((cell cells 14).map Cell.isTrue).getD false)
    feeBps := ((cell cells 19).map Cell.strtod).getD s.feeBps
    slipBps := ((cell cells 20).map Cell.strtod).getD s.slipBps
    sizeFrac := ((cell cells 21).map Cell.strtod).getD s.sizeFrac
    maxNotionalSats := ((cell cells 22).map Cell.strtod).getD s.maxNotionalSats
    dailyDrawdownBps := ((cell cells 23).map Cell.strtod).getD s.dailyDrawdownBps
    pendingCap := ((cell cells 24).map (Cell.strtoul 32)).getD s.pendingCap }

end Reader

section Table

def rowKey (row : Row) : Option Key :=
  match row "market_id", row "instance" with
  | some (.num id), some (.text label) => some ⟨id.num, label⟩
  | _, _ => none

def upsert (table : List Row) (mk : Market) : List Row :=
  match splitFirst (fun row => decide (rowKey row = some mk.key)) table with
  | some (pre, old, post) => pre ++ updateRow old (insertRow mk) :: post
  | none => table ++ [insertRow mk]

def selectedKey (cells : List (Option Cell)) : Option Key :=
  (cell cells 0).map fun id => ⟨id.strtoll, ((cell cells 26).map Cell.toText).getD []⟩

def restoreRow (markets : List Market) (cells : List (Option Cell)) : List Market :=
  match selectedKey cells with
  | none => markets
  | some key =>
    match splitFirst (fun mk => decide (mk.key = key)) markets with
    | none => markets
    | some (pre, mk, post) => pre ++ { mk with session := hydrate cells mk.session } :: post

def restoreAll (table : List Row) (markets : List Market) : List Market :=
  (table.map select).foldl restoreRow markets

end Table

end BotManager.MarketRow
