import Mathlib.Algebra.Order.BigOperators.Group.List
import BotManager.StepRun
import BotManager.MarketEngine

/-! What the pending orders of a market in real mode can still take: the sells out of the
position, the buys out of the cash. Advice is checked against the position, which moves with
the fills and not with the orders, so the bound holds as long as a signal acts only on what
the orders before it have left. -/

namespace BotManager.MarketExposure
open List CText StepRun FirstMatch MarketModel MarketLive MarketEngine

variable {qty charge : ℚ} {mk' mk : Market} {f : Report}

section Book

def unfilled (p : Pending) : ℚ := p.submittedQty - p.filledQty

def cost (feeBps qty px : ℚ) : ℚ := qty * px * (1 + feeBps / 10000)

@[simp] def sellShare (p : Pending) : ℚ := if p.side = .sell then unfilled p else 0

def buyShare (feeBps : ℚ) (p : Pending) : ℚ :=
  if p.side = .buy then cost feeBps (unfilled p) p.limitPx else 0

@[simp] def sellExposure (rows : List Pending) : ℚ := (rows.map sellShare).sum

@[simp] def buyExposure (feeBps : ℚ) (rows : List Pending) : ℚ := (rows.map (buyShare feeBps)).sum

def sellRows (rows : List Pending) : List Pending := rows.filter fun p => p.side = .sell

structure Covered (feeBps cash held : ℚ) (rows : List Pending) : Prop where
  sound : ∀ p ∈ rows, 0 < unfilled p ∧ 0 < p.limitPx
  single : (sellRows rows).length ≤ 1
  sells : sellExposure rows ≤ held
  buys : buyExposure feeBps rows ≤ cash

theorem sellExposure_append : sellExposure (a ++ b) = sellExposure a + sellExposure b := by
  simp

theorem sellExposure_cons : sellExposure (p :: rows) = sellShare p + sellExposure rows := by
  simp

theorem buyExposure_append :
    buyExposure feeBps (a ++ b) = buyExposure feeBps a + buyExposure feeBps b := by
  simp

theorem buyExposure_cons :
    buyExposure feeBps (p :: rows) = buyShare feeBps p + buyExposure feeBps rows := by
  simp

variable {feeBps cash held : ℚ} {rows pre post : List Pending} {p p' : Pending}

theorem rate_pos (fee : 0 ≤ feeBps) : 0 < 1 + feeBps / 10000 := by
  have share : 0 ≤ feeBps / 10000 := div_nonneg fee (by norm_num)
  linarith

variable {px : ℚ} {row : List Pending}

theorem sellShare_nonneg (left : 0 < unfilled p) : 0 ≤ sellShare p := by
  unfold sellShare
  split_ifs
  · exact left.le
  · exact le_rfl

structure Within (feeBps : ℚ) (p : Pending) (taken : Side) (qty px fee : ℚ) : Prop where
  side : taken = p.side
  size : qty ≤ unfilled p
  buy : taken = .buy → px ≤ p.limitPx ∧ fee ≤ qty * px * (feeBps / 10000)
  sell : taken = .sell → fee ≤ qty * px

instance (feeBps : ℚ) (p : Pending) (taken : Side) (qty px fee : ℚ) :
    Decidable (Within feeBps p taken qty px fee) :=
  decidable_of_iff (taken = p.side ∧ qty ≤ unfilled p ∧
      (taken = .buy → px ≤ p.limitPx ∧ fee ≤ qty * px * (feeBps / 10000)) ∧
      (taken = .sell → fee ≤ qty * px))
    ⟨fun h => ⟨h.1, h.2.1, h.2.2.1, h.2.2.2⟩, fun h => ⟨h.side, h.size, h.buy, h.sell⟩⟩

inductive Credited (p : Pending) (qty : ℚ) : List Pending → Prop
  | gone : Credited p qty []
  | kept (p' : Pending) (side : p'.side = p.side) (limit : p'.limitPx = p.limitPx)
      (left : unfilled p' = unfilled p - qty) (more : dust < unfilled p') : Credited p qty [p']

theorem sellExposure_eq_zero (none : sellRows rows = []) : sellExposure rows = 0 := by
  have all : ∀ q ∈ rows, sellShare q = 0 := by
    intro q mem
    have other := filter_eq_nil_iff.mp none q mem
    exact if_neg (by simpa using other)
  unfold sellExposure
  rw [map_congr_left all]
  simp

theorem Covered.place (covered : Covered feeBps cash held rows) (left : 0 < unfilled p)
    (priced : 0 < p.limitPx)
    (sell : p.side = .sell → (∀ q ∈ rows, q.side = .buy) ∧ unfilled p ≤ held)
    (buy : p.side = .buy → buyExposure feeBps rows + cost feeBps (unfilled p) p.limitPx ≤ cash) :
    Covered feeBps cash held (rows ++ [p]) := by
  have sound : ∀ q ∈ rows ++ [p], 0 < unfilled q ∧ 0 < q.limitPx := by
    intro q mem
    rcases mem_append.mp mem with old | new
    · exact covered.sound q old
    · rw [mem_singleton.mp new]
      exact ⟨left, priced⟩
  cases side : p.side with
  | buy =>
    refine ⟨sound, ?_, ?_, ?_⟩
    · simpa [sellRows, side] using covered.single
    · rw [sellExposure_append]
      simpa [side] using covered.sells
    · rw [buyExposure_append]
      simpa [buyShare, side] using buy side
  | sell =>
    obtain ⟨alone, fits⟩ := sell side
    have none : sellRows rows = [] := by
      refine filter_eq_nil_iff.mpr fun q mem => ?_
      simp [alone q mem]
    refine ⟨sound, ?_, ?_, ?_⟩
    · rw [sellRows, filter_append, ← sellRows, none]
      simp [side]
    · rw [sellExposure_append, sellExposure_eq_zero none]
      simpa [side] using fits
    · rw [buyExposure_append]
      simpa [buyShare, side] using covered.buys

section Fee

variable (fee : 0 ≤ feeBps)
include fee

theorem cost_mono {a b : ℚ} (priced : 0 ≤ px) (le : a ≤ b) : cost feeBps a px ≤ cost feeBps b px :=
  mul_le_mul_of_nonneg_right (mul_le_mul_of_nonneg_right le priced) (rate_pos fee).le

theorem cost_pos (sized : 0 < qty) (priced : 0 < px) : 0 < cost feeBps qty px :=
  mul_pos (mul_pos sized priced) (rate_pos fee)

theorem buyShare_nonneg (left : 0 < unfilled p) (priced : 0 < p.limitPx) :
    0 ≤ buyShare feeBps p := by
  unfold buyShare
  split_ifs
  · exact (cost_pos fee left priced).le
  · exact le_rfl

theorem Covered.sublist {fewer : List Pending} (covered : Covered feeBps cash held rows)
    (sub : fewer.Sublist rows) : Covered feeBps cash held fewer := by
  refine ⟨fun p mem => covered.sound p (sub.subset mem), ?_, ?_, ?_⟩
  · exact (sub.filter _).length_le.trans covered.single
  · refine le_trans (List.Sublist.sum_le_sum (sub.map sellShare) fun x mem => ?_) covered.sells
    obtain ⟨p, inside, rfl⟩ := mem_map.mp mem
    exact sellShare_nonneg (covered.sound p inside).1
  · refine le_trans (List.Sublist.sum_le_sum (sub.map (buyShare feeBps)) fun x mem => ?_)
      covered.buys
    obtain ⟨p, inside, rfl⟩ := mem_map.mp mem
    exact buyShare_nonneg fee (covered.sound p inside).1 (covered.sound p inside).2

theorem Covered.sell_le (covered : Covered feeBps cash held rows) (mem : p ∈ rows)
    (side : p.side = .sell) : unfilled p ≤ held := by
  have alone := (covered.sublist fee (singleton_sublist.mpr mem)).sells
  simpa [side] using alone

theorem Covered.replace (covered : Covered feeBps cash held (pre ++ p :: post))
    (side : p'.side = p.side) (limit : p'.limitPx = p.limitPx) (left : 0 < unfilled p')
    (less : unfilled p' ≤ unfilled p) : Covered feeBps cash held (pre ++ p' :: post) := by
  have own := covered.sound p (by simp)
  have sellLess : sellShare p' ≤ sellShare p := by
    unfold sellShare
    rw [side]
    split_ifs
    · exact less
    · exact le_rfl
  have buyLess : buyShare feeBps p' ≤ buyShare feeBps p := by
    unfold buyShare
    rw [side, limit]
    split_ifs
    · exact cost_mono fee own.2.le less
    · exact le_rfl
  have sells := covered.sells
  have buys := covered.buys
  rw [sellExposure_append, sellExposure_cons] at sells
  rw [buyExposure_append, buyExposure_cons] at buys
  refine ⟨fun q mem => ?_, ?_, ?_, ?_⟩
  · rcases mem_append.mp mem with front | back
    · exact covered.sound q (mem_append_left _ front)
    · rcases mem_cons.mp back with rfl | back
      · exact ⟨left, by rw [limit]; exact own.2⟩
      · exact covered.sound q (by simp [back])
  · have same : (sellRows (pre ++ p' :: post)).length = (sellRows (pre ++ p :: post)).length := by
      simp only [sellRows, filter_append, filter_cons, side]
      split_ifs <;> simp
    rw [same]
    exact covered.single
  · rw [sellExposure_append, sellExposure_cons]
    linarith
  · rw [buyExposure_append, buyExposure_cons]
    linarith

theorem Credited.covered (sized : 0 < qty) (credited : Credited p qty row)
    (covered : Covered feeBps cash held (pre ++ p :: post)) :
    Covered feeBps cash held (pre ++ (row ++ post)) := by
  cases credited with
  | gone => exact covered.sublist fee (by simp)
  | kept p' side limit left more =>
    exact covered.replace fee side limit (dust_pos.trans more) (by linarith)

theorem Covered.bought (sized : 0 < qty)
    (within : Within feeBps p .buy qty px charge) (credited : Credited p qty row)
    (covered : Covered feeBps cash held (pre ++ p :: post)) :
    Covered feeBps (cash - qty * px - charge) (held + qty) (pre ++ (row ++ post)) := by
  have after := credited.covered fee sized covered
  obtain ⟨below, rate⟩ := within.buy rfl
  have own := covered.sound p (by simp)
  have side : p.side = .buy := within.side.symm
  have spent : qty * px + charge ≤ cost feeBps qty p.limitPx := by
    calc qty * px + charge ≤ cost feeBps qty px := by
          unfold cost
          linarith
      _ ≤ cost feeBps qty p.limitPx :=
          mul_le_mul_of_nonneg_right (mul_le_mul_of_nonneg_left below sized.le) (rate_pos fee).le
  have freed : buyExposure feeBps row + cost feeBps qty p.limitPx ≤ buyShare feeBps p := by
    rw [buyShare, if_pos side]
    cases credited with
    | gone =>
      have less := cost_mono fee own.2.le within.size
      simpa using less
    | kept p' same limit left more =>
      have share : buyExposure feeBps [p'] = cost feeBps (unfilled p - qty) p.limitPx := by
        simp [buyShare, same, side, left, limit]
      rw [share]
      unfold cost
      linarith
  have all := covered.buys
  rw [buyExposure_append, buyExposure_cons] at all
  refine ⟨after.sound, after.single, ?_, ?_⟩
  · linarith [after.sells]
  · rw [buyExposure_append, buyExposure_append]
    linarith

theorem Covered.sold {held' : ℚ} (sized : 0 < qty)
    (within : Within feeBps p .sell qty px charge) (credited : Credited p qty row)
    (covered : Covered feeBps cash held (pre ++ p :: post))
    (left : held' = held - qty ∨ held' = 0 ∧ held - qty ≤ dust) :
    Covered feeBps (cash + qty * px - charge) held' (pre ++ (row ++ post)) := by
  have after := credited.covered fee sized covered
  have proceeds := within.sell rfl
  have side : p.side = .sell := within.side.symm
  have others : sellExposure pre + sellExposure post = 0 := by
    have single := covered.single
    have none : sellRows pre = [] ∧ sellRows post = [] := by
      simp only [sellRows, filter_append, filter_cons, side, decide_true, if_true,
        length_append, length_cons] at single ⊢
      exact ⟨length_eq_zero_iff.mp (by omega), length_eq_zero_iff.mp (by omega)⟩
    rw [sellExposure_eq_zero none.1, sellExposure_eq_zero none.2, add_zero]
  have all := covered.sells
  rw [sellExposure_append, sellExposure_cons, sellShare, if_pos side] at all
  refine ⟨after.sound, after.single, ?_, by linarith [after.buys]⟩
  rw [sellExposure_append, sellExposure_append]
  cases credited with
  | gone =>
    have none : sellExposure [] = 0 := rfl
    rcases left with rest | ⟨flat, -⟩
    · linarith [within.size]
    · linarith
  | kept p' same limit rest more =>
    have share : sellExposure [p'] = unfilled p - qty := by
      simp [same, side, rest]
    rcases left with whole | ⟨-, small⟩
    · linarith
    · linarith

end Fee

end Book

section System

inductive Op
  | signal (k : Knobs) (v : Venue) (markPx : ℚ) (markMs : ℤ) (sig : Signal)
  | orderDone (coid : Bytes) (failed : Bool) (orderId : Bytes)
  | wsFill (k : Knobs) (f : Report)
  | restFill (k : Knobs) (f : Report)
  | wsOrder (k : Knobs) (o : Snapshot)
  | feed (lastPx lastBidPx lastAskPx : ℚ) (lastBookMs lastFeedMs : ℤ)

def step (mk : Market) : Op → Option Market
  | .signal k v markPx markMs sig =>
    if mk.session.mode = .real ∧ mk.warmupState = .ready then
      some (onSignal k v mk markPx markMs sig)
    else none
  | .orderDone coid failed orderId => some (marketOrderDone mk coid failed orderId)
  | .wsFill k f => some (handleWsFill k mk f).1
  | .restFill k f => some (onFill k mk f).1
  | .wsOrder k o => some (handleWsOrder k mk o).1
  | .feed lastPx lastBidPx lastAskPx lastBookMs lastFeedMs =>
    some { mk with lastPx := lastPx, lastBidPx := lastBidPx, lastAskPx := lastAskPx,
                   lastBookMs := lastBookMs, lastFeedMs := lastFeedMs }

def realCash (mk : Market) : ℚ := (mk.session.stats .real).cash

/-- A sell finds no other pending, a buy the share of the cash it is about to spend; a buy
that rests on the bid finds it no higher than the mark. -/
def OrderFits (k : Knobs) (mk : Market) (markPx : ℚ) : Side → Prop
  | .sell => ∀ p ∈ mk.session.pending, p.side = .buy
  | .buy => buyExposure mk.session.feeBps mk.session.pending + realCash mk * mk.session.sizeFrac ≤
      realCash mk ∧ (k.postOnly = true → mk.lastBidPx ≤ markPx)

def SignalFits (k : Knobs) (mk : Market) (markPx : ℚ) : Option Order → Prop
  | none => True
  | some order => OrderFits k mk markPx order.side

def ReportFits (feeBps : ℚ) (f : Report) : Found → Prop
  | none => True
  | some (_, p, _) => f.Valid → f.tradeId ∉ p.recordedTradeIds →
      Within feeBps p (sideOf f.side) f.size f.price f.fee

def SnapshotFits (feeBps : ℚ) (o : Snapshot) : Found → Prop
  | none => True
  | some (_, p, _) => p.recordedTradeIds = [] → 0 < o.cumulativeQuantity → 0 < o.avgPrice →
      Within feeBps p (sideOf o.side) o.cumulativeQuantity o.avgPrice o.totalFees

def Keeps (mk : Market) : Op → Prop
  | .signal k _ markPx _ sig => SignalFits k mk markPx (signalOrder mk markPx sig)
  | .wsFill _ f =>
    ReportFits mk.session.feeBps f (findPendingByCoid mk.session.pending f.coid)
  | .restFill _ f => ReportFits mk.session.feeBps f (findRest mk.session.pending f)
  | .wsOrder _ o =>
    SnapshotFits mk.session.feeBps o (findPendingByCoid mk.session.pending o.coid)
  | _ => True

instance (k : Knobs) (mk : Market) (markPx : ℚ) :
    (side : Side) → Decidable (OrderFits k mk markPx side)
  | .sell => inferInstanceAs (Decidable (∀ p ∈ _, _))
  | .buy => inferInstanceAs (Decidable (_ ∧ _))

instance (k : Knobs) (mk : Market) (markPx : ℚ) :
    (order : Option Order) → Decidable (SignalFits k mk markPx order)
  | none => inferInstanceAs (Decidable True)
  | some order => inferInstanceAs (Decidable (OrderFits k mk markPx order.side))

instance (feeBps : ℚ) (f : Report) : (found : Found) → Decidable (ReportFits feeBps f found)
  | none | some _ => by dsimp only [ReportFits]; infer_instance

instance (feeBps : ℚ) (o : Snapshot) : (found : Found) → Decidable (SnapshotFits feeBps o found)
  | none | some _ => by dsimp only [SnapshotFits]; infer_instance

instance (mk : Market) (op : Op) : Decidable (Keeps mk op) := by
  unfold Keeps
  split <;> infer_instance

structure Inv (mk : Market) : Prop where
  mode : mk.session.mode = .real
  fee : 0 ≤ mk.session.feeBps
  uncapped : mk.session.maxNotionalSats ≤ 0
  covered : Covered mk.session.feeBps (realCash mk) (held mk.session.position) mk.session.pending

theorem Inv.rows (inv : Inv mk) (framed : Framed mk mk')
    (covered : Covered mk.session.feeBps (realCash mk') (held mk'.session.position)
      mk'.session.pending) : Inv mk' := by
  refine ⟨framed.mode.trans inv.mode, ?_, ?_, ?_⟩
  · rw [framed.feeBps]
    exact inv.fee
  · rw [framed.maxNotionalSats]
    exact inv.uncapped
  · rw [framed.feeBps]
    exact covered

end System

section Fill

variable {k : Knobs} {mk : Market} {pre post : List Pending} {p : Pending}

theorem framed_setPending : Framed mk (setPending mk rows) :=
  ⟨rfl, rfl, rfl⟩

theorem creditRow_eq (pre : List Pending) (p : Pending) (post : List Pending) (f : Report) :
    ∃ row, creditRow pre p post f = pre ++ (row ++ post) ∧ Credited p f.size row := by
  unfold creditRow
  split_ifs with complete
  · exact ⟨[], rfl, .gone⟩
  · refine ⟨[credit p f.tradeId f.size], rfl, .kept _ rfl rfl ?_ ?_⟩
    · unfold unfilled credit
      ring
    · unfold Complete at complete
      unfold unfilled
      have more := not_le.mp complete
      have same : (credit p f.tradeId f.size).submittedQty = p.submittedQty := rfl
      linarith

theorem findRest_split {rows pre post : List Pending} {p : Pending}
    (found : findRest rows f = some (pre, p, post)) : rows = pre ++ p :: post := by
  unfold findRest at found
  rcases Option.or_eq_some_iff.mp found with own | ⟨-, other⟩
  · exact findPendingByCoid_split own
  · unfold findPendingByOrderId at other
    split at other
    · cases other
    · exact (splitFirst_some other).1

variable (inv : Inv mk)
include inv

theorem Inv.recordExternalFill {c : Call}
    (split : mk.session.pending = pre ++ p :: post) (sized : 0 < c.qty) (priced : 0 < c.px)
    (within : Within mk.session.feeBps p c.side c.qty c.px c.fee) (credited : Credited p c.qty row) :
    Inv (MarketLive.recordExternalFill k (setPending mk (pre ++ (row ++ post))) c).1 := by
  have covered := inv.covered
  rw [split] at covered
  unfold MarketLive.recordExternalFill
  split_ifs
  · exact inv.rows framed_setPending (credited.covered inv.fee sized covered)
  · exact inv.rows framed_setPending (credited.covered inv.fee sized covered)
  · refine inv.rows (framed_setPending.trans applyFill_framed) ?_
    rw [applyFill_pending]
    cases side : c.side with
    | buy =>
      rw [side] at within
      unfold realCash
      rw [cash_applyFill_buy sized priced, held_applyFill_buy sized priced]
      exact covered.bought inv.fee sized within credited
    | sell =>
      rw [side] at within
      have enough : c.qty ≤ held (setPending mk (pre ++ (row ++ post))).session.position :=
        within.size.trans (covered.sell_le inv.fee (by simp) within.side.symm)
      unfold realCash
      rw [cash_applyFill_sell sized priced enough]
      exact covered.sold inv.fee sized within credited
        (held_applyFill_within sized priced enough)

theorem Inv.consumeFill {found : Found} {reason : Bytes}
    (split : ∀ pre p post, found = some (pre, p, post) → mk.session.pending = pre ++ p :: post)
    (fits : ReportFits mk.session.feeBps f found) :
    Inv (MarketLive.consumeFill k mk found f reason).1 := by
  revert split fits
  fun_cases MarketLive.consumeFill k mk found f reason with
  | case3 valid pre p post new =>
    intro split fits
    obtain ⟨row, rows, credited⟩ := creditRow_eq pre p post f
    rw [rows]
    have new : f.tradeId ∉ p.recordedTradeIds := by simpa using new
    exact inv.recordExternalFill (split pre p post rfl) valid.2.1 valid.2.2 (fits valid new)
      credited
  | _ => exact fun _ _ => inv

theorem Inv.stamp {p' : Pending} (split : mk.session.pending = pre ++ p :: post)
    (side : p'.side = p.side) (limit : p'.limitPx = p.limitPx) (left : unfilled p' = unfilled p) :
    Inv (setPending mk (pre ++ p' :: post)) := by
  have covered := inv.covered
  rw [split] at covered
  have own := covered.sound p (by simp)
  refine inv.rows framed_setPending (covered.replace inv.fee side limit ?_ left.le)
  rw [left]
  exact own.1

theorem Inv.sublist {rows : List Pending} (sub : rows.Sublist mk.session.pending) :
    Inv (setPending mk rows) :=
  inv.rows framed_setPending (inv.covered.sublist inv.fee sub)

theorem Inv.orderDone {coid orderId : Bytes} {failed : Bool} :
    Inv (marketOrderDone mk coid failed orderId) := by
  unfold marketOrderDone
  cases found : splitFirst (fun p => decide (p.coid = coid)) mk.session.pending with
  | none => exact inv
  | some parts =>
    obtain ⟨pre, p, post⟩ := parts
    have split := (splitFirst_some found).1
    have gone : Inv (setPending mk (pre ++ post)) := by
      refine inv.sublist ?_
      rw [split]
      simp
    cases failed with
    | true => exact gone
    | false => exact inv.stamp split rfl rfl rfl

theorem Inv.wsOrder {o : Snapshot}
    (fits : SnapshotFits mk.session.feeBps o (findPendingByCoid mk.session.pending o.coid)) :
    Inv (handleWsOrder k mk o).1 := by
  have gone {pre p post} (found : findPendingByCoid mk.session.pending o.coid = some (pre, p, post)) :
      Inv (setPending mk (pre ++ post)) := by
    refine inv.sublist ?_
    rw [findPendingByCoid_split found]
    simp
  fun_cases handleWsOrder k mk o with
  | case1 => exact inv
  | case2 pre p post found _ first priced =>
    rw [found] at fits
    exact inv.recordExternalFill (findPendingByCoid_split found) first.2 priced
      (fits first.1 first.2 priced) .gone
  | case3 pre p post found | case5 pre p post found =>
    exact inv.stamp (findPendingByCoid_split found) rfl rfl rfl
  | case4 pre p post found => exact gone found

end Fill

section Submit

variable {k : Knobs} {v : Venue} {mk mk' : Market} {side : Side} {qty markPx : ℚ} {markMs : ℤ}

structure Quiet (mk mk' : Market) : Prop where
  framed : Framed mk mk'
  cash : realCash mk' = realCash mk
  position : mk'.session.position = mk.session.position

theorem quiet_setReal {st : Stats} (cash : st.cash = realCash mk) : Quiet mk (setReal mk st) := by
  refine ⟨⟨rfl, rfl, rfl⟩, ?_, rfl⟩
  unfold realCash setReal
  dsimp only
  rw [Function.update_self]
  exact cash

theorem drawdown_quiet (mk : Market) (markPx : ℚ) (nowMs : ℤ) :
    Quiet mk (dailyDrawdownTripped mk markPx nowMs).1 ∧
      (dailyDrawdownTripped mk markPx nowMs).1.session.pending = mk.session.pending ∧
      ∀ side, touch (dailyDrawdownTripped mk markPx nowMs).1 side = touch mk side := by
  have rolled : (rollDailyAnchor (mk.session.stats .real) nowMs).cash = realCash mk :=
    congrArg Money.cash (money_rollDailyAnchor _ _)
  unfold dailyDrawdownTripped
  split_ifs
  · exact ⟨⟨.refl mk, rfl, rfl⟩, rfl, fun _ => rfl⟩
  · dsimp only
    have kept (st : Stats) : ∀ side, touch (setReal mk st) side = touch mk side := by
      rintro ⟨⟩ <;> rfl
    split
    · exact ⟨quiet_setReal rolled, rfl, kept _⟩
    · split_ifs <;> exact ⟨quiet_setReal rolled, rfl, kept _⟩

def Priced (k : Knobs) (mk : Market) (side : Side) (markPx px : ℚ) : Prop :=
  px = markPx ∨ k.postOnly = true ∧ px = touch mk side ∧ 0 < px

theorem limitPx_priced {maxAgeMs : ℤ} (found : limitPx k mk side markPx maxAgeMs named v = .ok px) :
    Priced k mk side markPx px := by
  unfold limitPx at found
  split_ifs at found with resting missing stale
  · cases found
    exact .inr ⟨resting.1, rfl, not_le.mp fun low => missing (.inr low)⟩
  · cases found
    exact .inl rfl

theorem submitTerms_ok {terms : ℚ × ℚ} (uncapped : mk.session.maxNotionalSats ≤ 0)
    (found : submitTerms k mk side qty markPx named v = .ok terms) :
    terms.1 = qty ∧ Priced k mk side markPx terms.2 := by
  have whole : clipNotional mk qty markPx = .ok qty := if_neg (not_lt.mpr uncapped)
  revert found
  fun_cases submitTerms k mk side qty markPx named v with
  | case5 _ clipped clip maxAgeMs =>
    rw [whole] at clip
    cases clip
    intro found
    cases price : limitPx k mk side markPx maxAgeMs named v with
    | error refusal =>
      rw [price] at found
      cases found
    | ok px =>
      rw [price] at found
      cases found
      exact ⟨rfl, limitPx_priced price⟩
  | _ => nofun

structure Submitted (k : Knobs) (side : Side) (qty markPx : ℚ) (mk mk' : Market) : Prop where
  quiet : Quiet mk mk'
  rows : mk'.session.pending.Sublist mk.session.pending ∨
    ∃ coid px ms, Priced k mk side markPx px ∧
      mk'.session.pending.Sublist (mk.session.pending ++ [newPending coid side qty px ms])

theorem orderDone_sublist (mk : Market) (coid orderId : Bytes) :
    Quiet mk (marketOrderDone mk coid true orderId) ∧
      (marketOrderDone mk coid true orderId).session.pending.Sublist mk.session.pending := by
  unfold marketOrderDone
  split
  · exact ⟨⟨.refl mk, rfl, rfl⟩, .refl _⟩
  next pre p post found =>
    refine ⟨⟨⟨rfl, rfl, rfl⟩, rfl, rfl⟩, ?_⟩
    rw [(splitFirst_some found).1]
    show (pre ++ post).Sublist (pre ++ p :: post)
    simp

theorem placeOrder_submitted (priced : Priced k mk side markPx px) :
    Submitted k side qty markPx mk (placeOrder v mk side qty px markMs).1 := by
  unfold placeOrder
  split
  · exact ⟨⟨.refl mk, rfl, rfl⟩, .inl (.refl _)⟩
  next coid minted =>
    dsimp only
    split
    · exact ⟨⟨⟨rfl, rfl, rfl⟩, rfl, rfl⟩, .inr ⟨coid, px, markMs, priced, .refl _⟩⟩
    · obtain ⟨quiet, fewer⟩ := orderDone_sublist
        (setPending mk (mk.session.pending ++ [newPending coid side qty px markMs])) coid []
      refine ⟨⟨framed_setPending.trans quiet.framed, quiet.cash, quiet.position⟩, .inr ?_⟩
      exact ⟨coid, px, markMs, priced, fewer⟩

theorem Submitted.rolled {rolled : Market} (after : Submitted k side qty markPx rolled mk')
    (quiet : Quiet mk rolled) (pending : rolled.session.pending = mk.session.pending)
    (touched : ∀ side, touch rolled side = touch mk side) :
    Submitted k side qty markPx mk mk' := by
  refine ⟨⟨quiet.framed.trans after.quiet.framed, after.quiet.cash.trans quiet.cash,
    after.quiet.position.trans quiet.position⟩, ?_⟩
  have rows := after.rows
  rw [pending] at rows
  rcases rows with fewer | ⟨coid, px, ms, priced, rows⟩
  · exact .inl fewer
  · refine .inr ⟨coid, px, ms, ?_, rows⟩
    unfold Priced at priced ⊢
    rw [← touched]
    exact priced

theorem realSubmit_submitted (uncapped : mk.session.maxNotionalSats ≤ 0) :
    Submitted k side qty markPx mk (realSubmit k v mk side qty markPx markMs named).1 := by
  have same : Submitted k side qty markPx mk mk := ⟨⟨.refl mk, rfl, rfl⟩, .inl (.refl _)⟩
  obtain ⟨quiet, pending, touched⟩ := drawdown_quiet mk markPx v.drawdownNowMs
  unfold realSubmit
  split_ifs
  · exact same
  · exact same
  · exact same
  · cases gate : dailyDrawdownTripped mk markPx v.drawdownNowMs with
    | mk rolled refusal =>
      rw [gate] at quiet pending touched
      dsimp only at quiet pending touched
      have kept : Submitted k side qty markPx mk rolled := ⟨quiet, .inl (by rw [pending])⟩
      cases refusal with
      | some refusal => exact kept
      | none =>
        dsimp only
        split
        · exact kept
        next qty' px terms =>
          rw [← quiet.framed.maxNotionalSats] at uncapped
          obtain ⟨whole, priced⟩ := submitTerms_ok uncapped terms
          obtain rfl : qty' = qty := whole
          exact (placeOrder_submitted priced).rolled quiet pending touched

end Submit

section Signal

variable {k : Knobs} {v : Venue} {mk : Market} {markPx : ℚ} {markMs : ℤ} {sig : Signal}

theorem signalOrder_real {order : Order} (mode : mk.session.mode = .real)
    (found : signalOrder mk markPx sig = some order) :
    0 < order.qty ∧ 0 < markPx ∧
      ((order.side = .sell ∧ order.qty = held mk.session.position) ∨
        order.side = .buy ∧
          cost mk.session.feeBps order.qty markPx = realCash mk * mk.session.sizeFrac) := by
  have slip : signalSlip mk markPx = 0 := if_pos mode
  revert found
  fun_cases signalOrder mk markPx sig with
  | case4 =>
    intro found
    unfold buyOrder at found
    rw [slip, add_zero] at found
    dsimp only at found
    split_ifs at found with refused small
    cases found
    obtain ⟨priced, unit⟩ := not_or.mp refused
    have unit := not_le.mp unit
    refine ⟨not_le.mp small, not_le.mp priced, .inr ⟨rfl, ?_⟩⟩
    unfold cost realCash
    rw [mode, mul_assoc, div_mul_cancel₀ _ unit.ne']
  | case6 =>
    intro found
    unfold sellOrder at found
    rw [slip, sub_zero] at found
    dsimp only at found
    split_ifs at found with refused
    cases found
    obtain ⟨priced, some⟩ := not_or.mp refused
    exact ⟨not_le.mp some, not_le.mp priced, .inl ⟨rfl, rfl⟩⟩
  | _ => nofun

theorem unfilled_newPending (coid : Bytes) (side : Side) (qty px : ℚ) (markMs : ℤ) :
    unfilled (newPending coid side qty px markMs) = qty :=
  sub_zero qty

theorem Inv.submitted {side : Side} (inv : Inv mk)
    (placed : Submitted k side qty markPx mk mk') (sized : 0 < qty) (marked : 0 < markPx)
    (fits : OrderFits k mk markPx side)
    (terms : (side = .sell ∧ qty = held mk.session.position) ∨
      side = .buy ∧ cost mk.session.feeBps qty markPx = realCash mk * mk.session.sizeFrac) :
    Inv mk' := by
  obtain ⟨⟨framed, cash, position⟩, rows⟩ := placed
  refine inv.rows framed ?_
  rw [cash, position]
  rcases rows with fewer | ⟨coid, px, ms, priced, rows⟩
  · exact inv.covered.sublist inv.fee fewer
  · refine Covered.sublist inv.fee ?_ rows
    have positive : 0 < px := by
      rcases priced with mark | ⟨-, -, touched⟩
      · rw [mark]
        exact marked
      · exact touched
    have left := unfilled_newPending coid side qty px ms
    refine inv.covered.place (by rw [left]; exact sized) positive (fun sell => ?_) fun buy => ?_
    · obtain rfl : side = .sell := sell
      rcases terms with ⟨-, whole⟩ | ⟨other, -⟩
      · exact ⟨fits, by rw [left, whole]⟩
      · cases other
    · obtain rfl : side = .buy := buy
      obtain ⟨room, resting⟩ := fits
      rcases terms with ⟨other, -⟩ | ⟨-, spent⟩
      · cases other
      · have below : px ≤ markPx := by
          rcases priced with mark | ⟨post, touched, -⟩
          · exact mark.le
          · rw [touched]
            exact resting post
        have dearest : cost mk.session.feeBps qty px ≤ cost mk.session.feeBps qty markPx :=
          mul_le_mul_of_nonneg_right (mul_le_mul_of_nonneg_left below sized.le)
            (rate_pos inv.fee).le
        rw [left]
        exact (add_le_add_right (dearest.trans spent.le) _).trans room

theorem Inv.onSignal (inv : Inv mk) (fits : SignalFits k mk markPx (signalOrder mk markPx sig)) :
    Inv (onSignal k v mk markPx markMs sig) := by
  have noted : Inv (noteSignal mk markPx markMs sig) := { inv with }
  refine onSignal_cases inv noted (fun order found _ => ?_) fun order _ mode =>
    absurd inv.mode mode
  rw [found] at fits
  obtain ⟨sized, priced, terms⟩ := signalOrder_real inv.mode found
  exact noted.submitted (realSubmit_submitted noted.uncapped) sized priced fits terms

end Signal

section Runs

theorem inv_step {op : Op} (inv : Inv mk) (keeps : Keeps mk op)
    (moved : step mk op = some mk') : Inv mk' := by
  cases op with
  | signal k v markPx markMs sig =>
    obtain ⟨-, rfl⟩ := fired moved
    exact inv.onSignal keeps
  | orderDone coid failed orderId =>
    cases moved
    exact inv.orderDone
  | wsFill k f =>
    cases moved
    exact inv.consumeFill (fun _ _ _ found => findPendingByCoid_split found) keeps
  | restFill k f =>
    cases moved
    exact inv.consumeFill (fun _ _ _ found => findRest_split found) keeps
  | wsOrder k o =>
    cases moved
    exact inv.wsOrder keeps
  | feed lastPx lastBidPx lastAskPx lastBookMs lastFeedMs =>
    cases moved
    exact { inv with }

structure Start (mk : Market) : Prop where
  mode : mk.session.mode = .real
  fee : 0 ≤ mk.session.feeBps
  uncapped : mk.session.maxNotionalSats ≤ 0
  solvent : 0 ≤ realCash mk
  idle : mk.session.pending = []

theorem Start.inv (start : Start mk) : Inv mk := by
  refine ⟨start.mode, start.fee, start.uncapped, ?_⟩
  rw [start.idle]
  exact ⟨by simp, by simp [sellRows], held_nonneg, start.solvent⟩

theorem never_overcommitted {mk s : Market} {ops : List Op} (start : Start mk)
    (run : Run step Keeps mk ops s) :
    sellExposure s.session.pending ≤ held s.session.position ∧
      buyExposure s.session.feeBps s.session.pending ≤ realCash s := by
  have inv := run.invariant inv_step start.inv
  exact ⟨inv.covered.sells, inv.covered.buys⟩

theorem start_newMarket {startingCash : ℚ} (solvent : 0 ≤ startingCash) :
    Start (newMarket .real startingCash) :=
  ⟨rfl, by norm_num [newMarket], le_rfl, solvent, rfl⟩

def takes (coid : String) : Venue := ⟨true, 1, 1, 1, some (ascii coid), true⟩

def advise (coid : String) (score markPx : ℚ) : Op :=
  .signal defaultKnobs (takes coid) markPx 1 ⟨score, 1, []⟩

def quoted : Op := .feed 100 99 101 1 1

def roundTrip : List Op :=
  [quoted, advise "c1" 1 100, .orderDone (ascii "c1") false (ascii "v1"),
    .restFill defaultKnobs ⟨ascii "v1", [], ascii "buy", 7, 100, 1, 0, 2⟩,
    .wsFill defaultKnobs ⟨ascii "v1", ascii "c1", ascii "buy", 8, 100, 2999 / 2001, 0, 3⟩,
    advise "c2" (-1) 100]

theorem never_overcommitted_sample : Start (newMarket .real 1000) ∧ ∃ s : Market,
    Run step Keeps (newMarket .real 1000) roundTrip s ∧ sellRows s.session.pending ≠ [] ∧
      sellExposure s.session.pending ≤ held s.session.position ∧
      buyExposure s.session.feeBps s.session.pending ≤ realCash s := by
  have start : Start (newMarket .real 1000) := start_newMarket (by norm_num)
  have run : Run step Keeps (newMarket .real 1000) roundTrip _ := runWhen_get (by decide +kernel)
  exact ⟨start, _, run, by decide +kernel, never_overcommitted start run⟩

def repeatedAdvice : List Op :=
  [quoted, advise "c1" 1 100, advise "c2" 1 100, advise "c3" 1 100, advise "c4" 1 100,
    advise "c5" 1 100]

theorem not_never_overcommitted : Start (newMarket .real 1000) ∧ ∃ s : Market,
    exec step (newMarket .real 1000) repeatedAdvice = some s ∧
      realCash s < buyExposure s.session.feeBps s.session.pending :=
  ⟨start_newMarket (by norm_num), _, (Option.some_get (by decide +kernel)).symm, by decide +kernel⟩

end Runs

end BotManager.MarketExposure
