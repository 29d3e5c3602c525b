import BotManager.MarketLive

/-! The two ways whenmoon/market_engine.c starts a trade: the advice of a strategy, and the
operator's force trade. In paper and manual mode the fill is made at once; in real mode an
order goes to the venue. -/

namespace BotManager.MarketEngine
open CText MarketModel MarketLive

structure Order where
  side : Side
  qty : ℚ
  px : ℚ
  slip : ℚ
  deriving DecidableEq

inductive Advice
  | hold
  | buy
  | sell
  deriving DecidableEq

def signalAdvice (sig : Signal) : Advice :=
  if 0 < sig.score then .buy else if sig.score < 0 then .sell else .hold

section Signal

variable (mk : Market) (markPx : ℚ)

def noteSignal (markMs : ℤ) (sig : Signal) : Market :=
  { mk with session := { mk.session with
      lastMarkPx := markPx, lastMarkMs := markMs, lastActedSignal := some sig } }

def signalSlip : ℚ :=
  if mk.session.mode = .real then 0 else markPx * (mk.session.slipBps / 10000)

/-- A buy spends `sizeFrac` of the cash with the fee included. -/
def buyOrder : Option Order :=
  let px := markPx + signalSlip mk markPx
  let unitCost := px * (1 + mk.session.feeBps / 10000)
  if px ≤ 0 ∨ unitCost ≤ 0 then none
  else
    let qty := (mk.session.stats mk.session.mode).cash * mk.session.sizeFrac / unitCost
    if qty ≤ 0 then none else some ⟨.buy, qty, px, signalSlip mk markPx⟩

def sellOrder : Option Order :=
  let px := markPx - signalSlip mk markPx
  if px ≤ 0 ∨ held mk.session.position ≤ 0 then none
  else some ⟨.sell, held mk.session.position, px, signalSlip mk markPx⟩

def signalOrder (sig : Signal) : Option Order :=
  if mk.warmupState ≠ .ready ∨ mk.session.mode = .manual then none
  else
    match signalAdvice sig with
    | .hold => none
    | .buy => if mk.session.position.isSome then none else buyOrder mk markPx
    | .sell => if mk.session.position.isNone then none else sellOrder mk markPx

def signalMs (sig : Signal) (markMs : ℤ) : ℤ := if sig.tsMs ≠ 0 then sig.tsMs else markMs

def fillFee (order : Order) : ℚ :=
  order.qty * order.px * (mk.session.feeBps / 10000)

/-- A fill of the engine's own, in the ledger of the market's mode. -/
def fillOrder (k : Knobs) (mk : Market) (order : Order) (tsMs : ℤ) (reason : Bytes) : Market :=
  applyFill k mk mk.session.mode order.side order.qty order.px (fillFee mk order)
    (order.qty * order.slip) tsMs (some reason)

def onSignal (k : Knobs) (v : Venue) (mk : Market) (markPx : ℚ) (markMs : ℤ) (sig : Signal) :
    Market :=
  if markPx ≤ 0 then mk
  else
    let mk := noteSignal mk markPx markMs sig
    match signalOrder mk markPx sig with
    | none => mk
    | some order =>
      if mk.session.mode = .real then
        (realSubmit k v mk order.side order.qty markPx (signalMs sig markMs) false).1
      else fillOrder k mk order (signalMs sig markMs) sig.reason

theorem onSignal_cases {P : Market → Prop} {k : Knobs} {v : Venue} {mk : Market} {markPx : ℚ}
    {markMs : ℤ} {sig : Signal} (ignored : P mk) (noted : P (noteSignal mk markPx markMs sig))
    (submitted : ∀ order, signalOrder mk markPx sig = some order → mk.session.mode = .real →
      P (realSubmit k v (noteSignal mk markPx markMs sig) order.side order.qty markPx
        (signalMs sig markMs) false).1)
    (filled : ∀ order, signalOrder mk markPx sig = some order → mk.session.mode ≠ .real →
      P (fillOrder k (noteSignal mk markPx markMs sig) order (signalMs sig markMs) sig.reason)) :
    P (onSignal k v mk markPx markMs sig) := by
  -- the mark and the cached advice do not show in the order
  have same : signalOrder (noteSignal mk markPx markMs sig) markPx sig =
      signalOrder mk markPx sig := rfl
  unfold onSignal
  split
  · exact ignored
  · dsimp only
    rw [same]
    cases found : signalOrder mk markPx sig with
    | none => exact noted
    | some order =>
      dsimp only
      split
      next mode => exact submitted order found mode
      next mode => exact filled order found mode

end Signal

section Force

inductive ForceRefusal
  | invalidArgs
  | noLiveMark
  | nothingToSell
  | badPx
  | noFill
  | submit (refusal : Refusal)
  deriving DecidableEq

/-- The operator's price, else the ticker, else the last mark. -/
def forcePx (mk : Market) (pxOverride : ℚ) : Option ℚ :=
  if 0 < pxOverride then some pxOverride
  else if 0 < mk.lastPx then some mk.lastPx
  else if 0 < mk.session.lastMarkPx then some mk.session.lastMarkPx
  else none

def forceSlip (mk : Market) (px pxOverride : ℚ) : ℚ :=
  if mk.session.mode = .paper ∧ pxOverride ≤ 0 then px * (mk.session.slipBps / 10000) else 0

def forceOrder (mk : Market) (side : Side) (qty px pxOverride : ℚ) : Except ForceRefusal Order :=
  if side = .sell ∧ mk.session.position.isNone then .error .nothingToSell
  else
    let slip := forceSlip mk px pxOverride
    let px := match side with
      | .buy => px + slip
      | .sell => px - slip
    if px ≤ 0 then .error .badPx else .ok ⟨side, qty, px, slip⟩

def forceTrade (k : Knobs) (v : Venue) (mk : Market) (side : Side) (qty pxOverride : ℚ) (tsMs : ℤ)
    (reason : Option Bytes) : Market × Option ForceRefusal :=
  if qty ≤ 0 then (mk, some .invalidArgs)
  else
    match forcePx mk pxOverride with
    | none => (mk, some .noLiveMark)
    | some px =>
      if mk.session.mode = .real then
        let r := realSubmit k v mk side qty px tsMs (0 < pxOverride)
        (r.1, r.2.map .submit)
      else
        match forceOrder mk side qty px pxOverride with
        | .error refusal => (mk, some refusal)
        | .ok order =>
          let after := fillOrder k mk order tsMs (reason.getD (ascii "force-operator"))
          if (after.session.stats mk.session.mode).lifetimeFillsCount =
              (mk.session.stats mk.session.mode).lifetimeFillsCount then
            (after, some .noFill)
          else (after, none)

end Force

end BotManager.MarketEngine
