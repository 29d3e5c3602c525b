import BotManager.FirstMatch
import BotManager.MarketModel

/-! Real orders of whenmoon/live.c and the paths by which their executions come back: the
submit with its gates, the reply of the gateway, the WebSocket events, and the rows of a
REST page of fills. Both feeds record a trade id on the pending row before the engine is
asked to book it, and the engine looks at the rows again.

The ids of an order belong to one market, the one modelled here. A path returns the market
and the calls of `wm_market_apply_fill_locked` it made. -/

namespace BotManager.MarketLive
open CText FirstMatch MarketModel

section Numeraire

inductive BtcLeg
  | none
  | base
  | quote
  deriving DecidableEq

def satsPerBtc : ℚ := 100000000

/-- Which side of `BASE-QUOTE` is bitcoin. -/
def numeraireLeg (productId : Bytes) : BtcLeg :=
  let base := productId.takeWhile (· ≠ 45)
  match productId.dropWhile (· ≠ 45) with
  | [] => .none
  | _ :: quote =>
    if base.length = 0 ∨ quote = [] then .none
    else if base.length = 3 ∧ strncasecmp 3 productId (ascii "BTC") then .base
    else if strcasecmp quote (ascii "BTC") then .quote
    else .none

def numeraireSatsToQuote (leg : BtcLeg) (markPx sats : ℚ) : Option ℚ :=
  match leg with
  | .base => if 0 < markPx then some (sats / satsPerBtc * markPx) else none
  | .quote => some (sats / satsPerBtc)
  | .none => none

/-- A leg of quantity zero asks nothing of the mark. -/
def numeraireStackSats (leg : BtcLeg) (markPx cash positionQty : ℚ) : Option ℚ :=
  match leg with
  | .base =>
    if cash = 0 then some (positionQty * satsPerBtc)
    else if 0 < markPx then some ((positionQty + cash / markPx) * satsPerBtc)
    else none
  | .quote =>
    if positionQty = 0 then some (cash * satsPerBtc)
    else if 0 < markPx then some ((cash + positionQty * markPx) * satsPerBtc)
    else none
  | .none => none

end Numeraire

section Submit

inductive Refusal
  | invalidArgs
  | noExchange
  | noCredentials
  | drawdownUnpriced
  | drawdownTripped
  | pendingFull (n cap : ℕ)
  | capUnpriced
  | noPriceObserved
  | markStale (ageMs boundMs : ℤ)
  | noProduct
  | noBook
  | bookStale (ageMs boundMs : ℤ)
  | mintFailed
  | venueRefused
  deriving DecidableEq

structure Venue where
  hasCredentials : Bool
  drawdownNowMs : ℤ
  feedNowMs : ℤ
  bookNowMs : ℤ
  coid : Option Bytes
  airborne : Bool

variable (mk : Market)

def setReal (st : Stats) : Market :=
  { mk with session := { mk.session with stats := Function.update mk.session.stats .real st } }

/-- The gate of the daily drawdown; the first look at a day sets its anchor. -/
def dailyDrawdownTripped (markPx : ℚ) (nowMs : ℤ) : Market × Option Refusal :=
  if mk.session.dailyDrawdownBps ≤ 0 then (mk, none)
  else
    let st := rollDailyAnchor (mk.session.stats .real) nowMs
    match numeraireStackSats (numeraireLeg mk.productId) markPx st.cash
        (held mk.session.position) with
    | none => (setReal mk st, some .drawdownUnpriced)
    | some stack =>
      if st.stackAnchorSats ≤ 0 then (setReal mk { st with stackAnchorSats := stack }, none)
      else if st.stackAnchorSats * (1 - mk.session.dailyDrawdownBps / 10000) < stack then
        (setReal mk st, none)
      else (setReal mk st, some .drawdownTripped)

/-- The per-order cap clips the quantity; a cap that cannot be priced refuses. -/
def clipNotional (qty markPx : ℚ) : Except Refusal ℚ :=
  if 0 < mk.session.maxNotionalSats then
    match numeraireSatsToQuote (numeraireLeg mk.productId) markPx mk.session.maxNotionalSats with
    | none => .error .capUnpriced
    | some cap => .ok (if cap < qty * markPx then cap / markPx else qty)
  else .ok qty

def staleMark (maxAgeMs : ℤ) (v : Venue) : Option Refusal :=
  if 0 < maxAgeMs then
    if mk.lastFeedMs = 0 then some .noPriceObserved
    else if maxAgeMs < v.feedNowMs - mk.lastFeedMs then
      some (.markStale (v.feedNowMs - mk.lastFeedMs) maxAgeMs)
    else none
  else none

def touch (side : Side) : ℚ :=
  match side with
  | .buy => mk.lastBidPx
  | .sell => mk.lastAskPx

def limitPx (k : Knobs) (mk : Market) (side : Side) (markPx : ℚ) (maxAgeMs : ℤ) (pxNamed : Bool)
    (v : Venue) : Except Refusal ℚ :=
  if k.postOnly ∧ ¬ pxNamed then
    if mk.lastBookMs = 0 ∨ touch mk side ≤ 0 then .error .noBook
    else if 0 < maxAgeMs ∧ maxAgeMs < v.bookNowMs - mk.lastBookMs then
      .error (.bookStale (v.bookNowMs - mk.lastBookMs) maxAgeMs)
    else .ok (touch mk side)
  else .ok markPx

/-- The gates behind the drawdown, up to the quantity and price of the order. -/
def submitTerms (k : Knobs) (mk : Market) (side : Side) (qty markPx : ℚ) (pxNamed : Bool)
    (v : Venue) : Except Refusal (ℚ × ℚ) :=
  if mk.session.pendingCap ≤ mk.session.pending.length then
    .error (.pendingFull mk.session.pending.length mk.session.pendingCap)
  else
    match clipNotional mk qty markPx with
    | .error refusal => .error refusal
    | .ok qty =>
      let maxAgeMs := if pxNamed then 0 else k.markMaxAgeMs
      match staleMark mk maxAgeMs v with
      | some refusal => .error refusal
      | none =>
        if mk.productId = [] then .error .noProduct
        else (limitPx k mk side markPx maxAgeMs pxNamed v).map fun px => (qty, px)

def newPending (coid : Bytes) (side : Side) (qty px : ℚ) (markMs : ℤ) : Pending :=
  ⟨coid, [], side, px, qty, 0, markMs, false, []⟩

def setPending (rows : List Pending) : Market :=
  { mk with session := { mk.session with pending := rows } }

theorem setPending_pending :
    (setPending mk rows).session.pending = rows := rfl

/-- The reply to a submit: an error takes the row away. -/
def marketOrderDone (coid : Bytes) (failed : Bool) (orderId : Bytes) : Market :=
  match splitFirst (fun p => decide (p.coid = coid)) mk.session.pending with
  | none => mk
  | some (pre, p, post) =>
    if failed then setPending mk (pre ++ post)
    else
      let orderId := if orderId = [] then p.orderId else orderId
      setPending mk (pre ++ { p with orderId := orderId, gatewayAccepted := true } :: post)

/-- The row is there before the request goes out, so that a refusal finds it. -/
def placeOrder (v : Venue) (mk : Market) (side : Side) (qty px : ℚ) (markMs : ℤ) :
    Market × Option Refusal :=
  match v.coid with
  | none => (mk, some .mintFailed)
  | some coid =>
    let placed := setPending mk (mk.session.pending ++ [newPending coid side qty px markMs])
    if v.airborne then (placed, none)
    else (marketOrderDone placed coid true [], some .venueRefused)

def realSubmit (k : Knobs) (v : Venue) (mk : Market) (side : Side) (qty markPx : ℚ) (markMs : ℤ)
    (pxNamed : Bool) : Market × Option Refusal :=
  if qty ≤ 0 ∨ markPx ≤ 0 then (mk, some .invalidArgs)
  else if mk.exchangeName = [] then (mk, some .noExchange)
  else if v.hasCredentials = false then (mk, some .noCredentials)
  else
    match dailyDrawdownTripped mk markPx v.drawdownNowMs with
    | (mk, some refusal) => (mk, some refusal)
    | (mk, none) =>
      match submitTerms k mk side qty markPx pxNamed v with
      | .error refusal => (mk, some refusal)
      | .ok (qty, px) => placeOrder v mk side qty px markMs

end Submit

section Fills

structure Call where
  tradeId : ℤ
  side : Side
  qty : ℚ
  px : ℚ
  fee : ℚ
  tsMs : ℤ
  reason : Bytes
  deriving DecidableEq

variable (rows : List Pending)

def recorded (tradeId : ℤ) : Bool :=
  rows.any fun p => p.recordedTradeIds.contains tradeId

def recordExternalFill (k : Knobs) (mk : Market) (c : Call) : Market × List Call :=
  if c.qty ≤ 0 ∨ c.px ≤ 0 then (mk, [])
  else if recorded mk.session.pending c.tradeId then (mk, [])
  else (applyFill k mk .real c.side c.qty c.px c.fee 0 c.tsMs (some c.reason), [c])

abbrev Found := Option (List Pending × Pending × List Pending)

def findPendingByCoid (coid : Bytes) : Found :=
  if coid = [] then none else splitFirst (fun p => decide (p.coid = coid)) rows

def findPendingByOrderId (orderId : Bytes) : Found :=
  if orderId = [] then none
  else splitFirst (fun p => decide (p.orderId ≠ [] ∧ p.orderId = orderId)) rows

theorem findPendingByCoid_split {rows pre post : List Pending} {p : Pending} {coid : Bytes}
    (found : findPendingByCoid rows coid = some (pre, p, post)) : rows = pre ++ p :: post := by
  unfold findPendingByCoid at found
  split at found
  · cases found
  · exact (splitFirst_some found).1

structure Report where
  orderId : Bytes
  coid : Bytes
  side : Bytes
  tradeId : ℤ
  price : ℚ
  size : ℚ
  fee : ℚ
  timeMs : ℤ
  deriving DecidableEq

def sideOf (text : Bytes) : Side :=
  if text.head? = some 98 ∨ text.head? = some 66 then .buy else .sell

def Report.call (f : Report) (reason : Bytes) : Call :=
  ⟨f.tradeId, sideOf f.side, f.size, f.price, f.fee, f.timeMs, reason⟩

theorem Report.call_tradeId (f : Report) :
    (f.call reason).tradeId = f.tradeId := rfl

def Report.Valid (f : Report) : Prop := f.tradeId ≠ 0 ∧ 0 < f.size ∧ 0 < f.price

instance (f : Report) : Decidable f.Valid := inferInstanceAs (Decidable (_ ∧ _ ∧ _))

/-- The row after an execution; a full list of ids takes no more. -/
def credit (p : Pending) (tradeId : ℤ) (size : ℚ) : Pending :=
  { p with
    recordedTradeIds :=
      if p.recordedTradeIds.length < tradeDedup then p.recordedTradeIds ++ [tradeId]
      else p.recordedTradeIds
    filledQty := p.filledQty + size }

def Complete (p : Pending) : Prop := p.submittedQty - dust ≤ p.filledQty

instance (p : Pending) : Decidable (Complete p) := inferInstanceAs (Decidable (_ ≤ _))

/-- The rows after an execution on one of them: a complete order goes. -/
def creditRow (pre : List Pending) (p : Pending) (post : List Pending) (f : Report) :
    List Pending :=
  if Complete (credit p f.tradeId f.size) then pre ++ post
  else pre ++ credit p f.tradeId f.size :: post

/-- Both feeds: find the row, skip an id it has, record it, then ask the engine. -/
def consumeFill (k : Knobs) (mk : Market) (found : Found) (f : Report) (reason : Bytes) :
    Market × List Call :=
  if f.Valid then
    match found with
    | none => (mk, [])
    | some (pre, p, post) =>
      if p.recordedTradeIds.contains f.tradeId then (mk, [])
      else recordExternalFill k (setPending mk (creditRow pre p post f)) (f.call reason)
  else (mk, [])

def handleWsFill (k : Knobs) (mk : Market) (f : Report) : Market × List Call :=
  consumeFill k mk (findPendingByCoid mk.session.pending f.coid) f (ascii "ws-fill")

/-- A row of a page may lack the client order id. -/
def findRest (f : Report) : Found :=
  (findPendingByCoid rows f.coid).or (findPendingByOrderId rows f.orderId)

def onFill (k : Knobs) (mk : Market) (f : Report) : Market × List Call :=
  consumeFill k mk (findRest mk.session.pending f) f (ascii "rest-fill")

def onFills (k : Knobs) (mk : Market) : List Report → Market × List Call
  | [] => (mk, [])
  | f :: rest =>
    let first := onFill k mk f
    let later := onFills k first.1 rest
    (later.1, first.2 ++ later.2)

inductive Status
  | opened
  | filled
  | cancelled
  | expired
  | failed
  | other
  deriving DecidableEq

def Status.terminal : Status → Bool
  | .filled | .cancelled | .expired | .failed => true
  | .opened | .other => false

structure Snapshot where
  orderId : Bytes
  coid : Bytes
  side : Bytes
  status : Status
  cumulativeQuantity : ℚ
  avgPrice : ℚ
  totalFees : ℚ
  timeMs : ℤ
  deriving DecidableEq

/-- FNV-1a over the order id, as a signed number that is not zero. -/
def orderIdSynthTid (orderId : Bytes) : ℤ :=
  let h := orderId.foldl (fun (h : ℕ) c => (h ^^^ c.toNat) * 1099511628211 % 2 ^ 64)
    1469598103934665603
  if h = 0 then 1 else if h < 2 ^ 63 then h else (h : ℤ) - 2 ^ 64

def Snapshot.call (o : Snapshot) : Call :=
  ⟨orderIdSynthTid o.orderId, sideOf o.side, o.cumulativeQuantity, o.avgPrice, o.totalFees,
    o.timeMs, ascii "ws-order-agg"⟩

def stamp (p : Pending) (o : Snapshot) : Pending :=
  { p with orderId := if o.orderId = [] then p.orderId else o.orderId
           gatewayAccepted := p.gatewayAccepted || o.status = .opened }

/-- A terminal snapshot takes the row away. Where no execution was recorded it is the only
record of them, and its totals are booked. -/
def handleWsOrder (k : Knobs) (mk : Market) (o : Snapshot) : Market × List Call :=
  match findPendingByCoid mk.session.pending o.coid with
  | none => (mk, [])
  | some (pre, p, post) =>
    if o.status.terminal then
      if p.recordedTradeIds = [] ∧ 0 < o.cumulativeQuantity then
        if 0 < o.avgPrice then recordExternalFill k (setPending mk (pre ++ post)) o.call
        else (setPending mk (pre ++ stamp p o :: post), [])
      else (setPending mk (pre ++ post), [])
    else (setPending mk (pre ++ stamp p o :: post), [])

end Fills

end BotManager.MarketLive
