import BotManager.StepRun
import BotManager.MarketEngine

/-! The ledgers of a market over its runs in paper and manual mode. One position serves
three ledgers, so the money a ledger lacks must be what it paid for the open position.
A fill keeps this for the ledger of the market's mode; what can break it is a change of mode
with the position open, which the halt and the paper breaker make. -/

namespace BotManager.MarketLedger
open CText StepRun MarketModel MarketLive MarketEngine

variable {position : Option Long} {reason : Option Bytes} {order : Order} {mk mk' : Market}
  {v : Venue} {k : Knobs} {fee : ℚ}

section Fill

def basis (position : Option Long) : ℚ := (position.map fun l => l.qty * l.avgEntryPx).getD 0

def surplus (a : Money) : ℚ := a.cash - (a.startingCash + a.realized - a.fees)

def released (side : Side) (t : Trade) (px : ℚ) : ℚ :=
  match side with
  | .buy => -(t.qty * px)
  | .sell => t.qty * px - t.realized

theorem surplus_book : surplus (a.book side t px fee) = surplus a + released side t px := by
  cases side with
  | buy | sell =>
    unfold surplus released Money.book
    ring

def Leaves (position : Option Long) (side : Side) (qty : ℚ) : Prop :=
  side = .sell → held position ≤ qty ∨ dust < held position - qty

variable {qty px : ℚ} {side : Side} {t : Trade} {tsMs : ℤ}

theorem basis_scaleIn (pos : 0 < qty) :
    basis (some (scaleIn l qty px pos)) = basis (some l) + qty * px := by
  have whole : l.qty + qty ≠ 0 := (add_pos l.pos pos).ne'
  simp only [basis, scaleIn, Option.map_some, Option.getD_some]
  field_simp

theorem basis_closeOut (leaves : l.qty ≤ qty ∨ dust < l.qty - qty) :
    basis (closeOut l (clipped l qty)) = basis (some l) - clipped l qty * l.avgEntryPx := by
  rcases leaves with all | more
  · rw [closeOut_all all, clipped_all all]
    simp [basis]
  · rw [(held_closeOut more).1, closeOut, dif_neg (not_le.mpr more)]
    simp only [basis, Option.map_some, Option.getD_some]
    ring

theorem basis_trade {pos : 0 < qty} (leaves : Leaves position side qty)
    (traded : trade position side qty px tsMs pos = some t) :
    basis t.position = basis position - released side t px := by
  cases side with
  | buy =>
    cases position with
    | none =>
      cases traded
      simp [basis, openLong, released]
    | some l =>
      cases traded
      rw [basis_scaleIn, released]
      ring
  | sell =>
    cases position with
    | none => cases traded
    | some l =>
      cases traded
      rw [basis_closeOut (leaves rfl), released]
      ring

end Fill

section System

inductive Op
  | signal (k : Knobs) (v : Venue) (markPx : ℚ) (markMs : ℤ) (sig : Signal)
  | force (k : Knobs) (v : Venue) (side : Side) (qty pxOverride : ℚ) (tsMs : ℤ)
      (reason : Option Bytes)
  | setMode (mode : Mode)
  | halt
  | feed (lastPx : ℚ) (warmup : Warmup)

def step (mk : Market) : Op → Option Market
  | .signal k v markPx markMs sig =>
    if mk.session.mode ≠ .real then some (onSignal k v mk markPx markMs sig) else none
  | .force k v side qty pxOverride tsMs reason =>
    if mk.session.mode ≠ .real then some (forceTrade k v mk side qty pxOverride tsMs reason).1
    else none
  | .setMode mode => some ((setMode mk mode).getD mk)
  | .halt => some (halt mk)
  | .feed lastPx warmup => some { mk with lastPx := lastPx, warmupState := warmup }

/-- The paper ledger, valued at the price of the fill and less its fee, is below the floor
of the loss halt. -/
def Trips (k : Knobs) (mk : Market) (order : Order) : Prop :=
  mk.marketId ≠ -1 ∧ mk.session.mode = .paper ∧
    Breaches k (mk.session.stats .paper) ((mk.session.stats .paper).cash +
      held mk.session.position * order.px - fillFee mk order)

instance (k : Knobs) (mk : Market) (order : Order) : Decidable (Trips k mk order) :=
  inferInstanceAs (Decidable (_ ∧ _ ∧ _))

/-- The fill closes the position, or leaves more than dust and the breaker alone. -/
def FillKeeps (k : Knobs) (mk : Market) (order : Order) : Prop :=
  match order.side with
  | .buy => ¬ Trips k mk order
  | .sell => held mk.session.position ≤ order.qty ∨
      dust < held mk.session.position - order.qty ∧ ¬ Trips k mk order

instance (k : Knobs) (mk : Market) (order : Order) : Decidable (FillKeeps k mk order) := by
  unfold FillKeeps
  split <;> infer_instance

def OrderKeeps (k : Knobs) (mk : Market) : Option Order → Prop
  | none => True
  | some order => FillKeeps k mk order

instance (k : Knobs) (mk : Market) (order : Option Order) : Decidable (OrderKeeps k mk order) := by
  unfold OrderKeeps
  split <;> infer_instance

def forcedOrder (mk : Market) (side : Side) (qty pxOverride : ℚ) : Option Order :=
  (forcePx mk pxOverride).bind fun px => (forceOrder mk side qty px pxOverride).toOption

def Keeps (mk : Market) : Op → Prop
  | .signal k _ markPx _ sig => OrderKeeps k mk (signalOrder mk markPx sig)
  | .force k _ side qty pxOverride _ _ => OrderKeeps k mk (forcedOrder mk side qty pxOverride)
  | .halt => mk.session.position = none ∨ mk.session.mode = .manual
  | _ => True

instance (mk : Market) (op : Op) : Decidable (Keeps mk op) := by
  unfold Keeps
  split <;> infer_instance

structure Fresh (mk : Market) : Prop where
  flat : mk.session.position = none
  ledgers : ∀ m, (mk.session.stats m).cash = (mk.session.stats m).startingCash ∧
    (mk.session.stats m).realizedPnlLifetime = 0 ∧ (mk.session.stats m).lifetimeFees = 0

def Balanced (st : Stats) : Prop :=
  st.cash = st.startingCash + st.realizedPnlLifetime - st.lifetimeFees

instance (st : Stats) : Decidable (Balanced st) := inferInstanceAs (Decidable (_ = _))

theorem fresh_newMarket : Fresh (newMarket mode startingCash) :=
  ⟨rfl, fun _ => ⟨rfl, rfl, rfl⟩⟩

end System

section Runs

/-- Each ledger lacks what it paid for the position: the ledger of the market's mode its
basis, the others nothing. -/
def Inv (mk : Market) : Prop :=
  ∀ m, surplus (money (mk.session.stats m)) +
    (if m = mk.session.mode then basis mk.session.position else 0) = 0

theorem basis_none : basis none = 0 := rfl

theorem Inv.flat (inv : Inv mk) (flat : mk.session.position = none)
    (position : mk'.session.position = none) (stats : mk'.session.stats = mk.session.stats) :
    Inv mk' := by
  intro m
  have here := inv m
  rw [flat, basis_none, ite_self] at here
  rw [position, basis_none, ite_self, stats]
  exact here

theorem Inv.settle {slippage : ℚ} {pos : 0 < qty} (inv : Inv mk)
    (leaves : Leaves mk.session.position side qty)
    (traded : trade mk.session.position side qty px tsMs pos = some t) (stays : t.position = none ∨
      (MarketModel.settle k mk mk.session.mode side t px fee slippage tsMs reason).session.mode =
        mk.session.mode) :
    Inv (MarketModel.settle k mk mk.session.mode side t px fee slippage tsMs reason) := by
  have moved := basis_trade leaves traded
  have after : ∀ m, surplus (money ((MarketModel.settle k mk mk.session.mode side t px fee slippage
      tsMs reason).session.stats m)) +
      (if m = mk.session.mode then basis t.position else 0) = 0 := by
    intro m
    have here := inv m
    rw [money_settle]
    split_ifs at here ⊢
    · rw [surplus_book, moved]
      linarith
    · exact here
  intro m
  have here := after m
  rcases stays with closed | same
  · rw [closed, basis_none, ite_self] at here
    have flat : (MarketModel.settle k mk mk.session.mode side t px fee slippage tsMs
      reason).session.position = none := closed
    rw [flat, basis_none, ite_self]
    exact here
  · rw [same]
    exact here

theorem equity_trade {pos : 0 < qty}
    (opened : side = .sell → dust < held position - qty)
    (traded : trade position side qty px tsMs pos = some t) :
    (bookTrade st side t px fee tsMs).cash + held t.position * px =
      st.cash + held position * px - fee := by
  have cash : (bookTrade st side t px fee tsMs).cash = ((money st).book side t px fee).cash :=
    congrArg Money.cash (money_bookTrade st side t px fee tsMs)
  rw [cash]
  cases side with
  | buy =>
    cases position with
    | none =>
      cases traded
      simp only [Money.book, money, held, openLong, Option.map_some, Option.map_none,
        Option.getD_some, Option.getD_none]
      ring
    | some l =>
      cases traded
      simp only [Money.book, money, held, scaleIn, Option.map_some, Option.getD_some]
      ring
  | sell =>
    cases position with
    | none => cases traded
    | some l =>
      cases traded
      obtain ⟨within, rest⟩ := held_closeOut (opened rfl)
      dsimp only
      rw [rest, within, held_some]
      simp only [Money.book, money]
      ring

theorem modeAfter_eq {st : Stats} {equity : ℚ} (quiet : ¬ Trips k mk order)
    (start : mk.session.mode = .paper →
      st.startingCash = (mk.session.stats .paper).startingCash ∧
      equity = (mk.session.stats .paper).cash + held mk.session.position * order.px -
        fillFee mk order) : modeAfter k mk mk.session.mode st equity = mk.session.mode := by
  unfold modeAfter
  refine if_neg fun ⟨live, paper, _, breach⟩ => quiet ⟨live, paper, ?_⟩
  obtain ⟨floor, value⟩ := start paper
  unfold Breaches at breach ⊢
  rw [← value, ← floor]
  exact breach

theorem inv_fillOrder {reason : Bytes} (inv : Inv mk) (keeps : FillKeeps k mk order) :
    Inv (fillOrder k mk order tsMs reason) := by
  unfold fillOrder applyFill
  split
  next valid =>
    split
    · exact inv
    next t traded =>
      have floor : ∀ m, (bookTrade (mk.session.stats m) order.side t order.px (fillFee mk order)
          tsMs).startingCash = (mk.session.stats m).startingCash := by
        intro m
        have same := congrArg Money.startingCash
          (money_bookTrade (mk.session.stats m) order.side t order.px (fillFee mk order) tsMs)
        exact same.trans (Money.book_startingCash _)
      have stays (quiet : ¬ Trips k mk order)
          (opened : order.side = .sell → dust < held mk.session.position - order.qty) :
          (settle k mk mk.session.mode order.side t order.px (fillFee mk order)
            (order.qty * order.slip) tsMs (some reason)).session.mode = mk.session.mode := by
        refine modeAfter_eq quiet fun paper => ?_
        rw [paper]
        exact ⟨floor .paper, equity_trade opened traded⟩
      unfold FillKeeps at keeps
      split at keeps
      next side =>
        refine inv.settle (fun sell => ?_) traded (.inr (stays keeps fun sell => ?_))
        · rw [side] at sell
          cases sell
        · rw [side] at sell
          cases sell
      next side =>
        rcases keeps with all | ⟨more, quiet⟩
        · refine inv.settle (fun _ => .inl all) traded (.inl ?_)
          rw [side] at traded
          cases position : mk.session.position with
          | none =>
            rw [position] at traded
            cases traded
          | some l =>
            rw [position] at traded all
            cases traded
            exact closeOut_all all
        · exact inv.settle (fun _ => .inr more) traded (.inr (stays quiet fun _ => more))
  · exact inv

theorem inv_onSignal {markPx : ℚ} {markMs : ℤ} {sig : Signal} (inv : Inv mk)
    (mode : mk.session.mode ≠ .real) (keeps : OrderKeeps k mk (signalOrder mk markPx sig)) :
    Inv (onSignal k v mk markPx markMs sig) := by
  have noted : Inv (noteSignal mk markPx markMs sig) := inv
  refine onSignal_cases inv noted (fun order _ real => absurd real mode) fun order found _ => ?_
  rw [found] at keeps
  exact inv_fillOrder noted keeps

theorem inv_forceTrade {pxOverride : ℚ} (inv : Inv mk)
    (mode : mk.session.mode ≠ .real) (keeps : OrderKeeps k mk (forcedOrder mk side qty pxOverride)) :
    Inv (forceTrade k v mk side qty pxOverride tsMs reason).1 := by
  fun_cases forceTrade k v mk side qty pxOverride tsMs reason with
  | case1 | case2 | case4 => exact inv
  | case3 _ _ _ real => exact absurd real mode
  | case5 _ px priced _ order planned | case6 _ px priced _ order planned =>
    have forced : forcedOrder mk side qty pxOverride = some order := by
      simp [forcedOrder, priced, planned, Except.toOption]
    rw [forced] at keeps
    exact inv_fillOrder inv keeps

theorem inv_step {op : Op} (inv : Inv mk) (keeps : Keeps mk op)
    (moved : step mk op = some mk') : Inv mk' := by
  cases op with
  | signal k v markPx markMs sig =>
    obtain ⟨mode, rfl⟩ := fired moved
    exact inv_onSignal inv mode keeps
  | force k v side qty pxOverride tsMs reason =>
    obtain ⟨mode, rfl⟩ := fired moved
    exact inv_forceTrade inv mode keeps
  | setMode mode =>
    cases moved
    unfold setMode
    split
    · exact inv
    next flat =>
      have flat : mk.session.position = none := by simpa using flat
      exact inv.flat flat flat rfl
  | halt =>
    cases moved
    rcases keeps with flat | manual
    · exact inv.flat flat flat rfl
    · intro m
      have here := inv m
      rw [manual] at here
      exact here
  | feed lastPx warmup =>
    cases moved
    exact inv

theorem Fresh.inv {mk : Market} (fresh : Fresh mk) : Inv mk := by
  intro m
  obtain ⟨cash, realized, fees⟩ := fresh.ledgers m
  rw [fresh.flat, basis_none, ite_self]
  simp only [surplus, money, cash, realized, fees]
  ring

theorem ledgers_balanced {mk s : Market} {ops : List Op} (fresh : Fresh mk)
    (run : Run step Keeps mk ops s) (flat : s.session.position = none) (m : Mode) :
    Balanced (s.session.stats m) := by
  have inv := run.invariant inv_step fresh.inv
  have here := inv m
  rw [flat, basis_none, ite_self] at here
  simp only [surplus, money] at here
  unfold Balanced
  linarith

def idleVenue : Venue := ⟨true, 0, 0, 0, none, true⟩

def roundTrips : List Op :=
  [.signal defaultKnobs idleVenue 100 1 ⟨1, 1, []⟩,
    .signal defaultKnobs idleVenue 110 2 ⟨-1, 2, []⟩, .halt,
    .force defaultKnobs idleVenue .buy 2 100 3 none,
    .force defaultKnobs idleVenue .sell 5 120 4 none]

theorem ledgers_balanced_sample : ∃ s : Market,
    Run step Keeps (newMarket .paper 1000) roundTrips s ∧ s.session.position = none ∧
      ∀ m, Balanced (s.session.stats m) := by
  have run : Run step Keeps (newMarket .paper 1000) roundTrips _ := runWhen_get (by decide +kernel)
  exact ⟨_, run, by decide +kernel, ledgers_balanced fresh_newMarket run (by decide +kernel)⟩

def haltedTrip : List Op :=
  [.signal defaultKnobs idleVenue 100 1 ⟨1, 1, []⟩, .halt,
    .force defaultKnobs idleVenue .sell 5 100 2 none]

theorem not_ledgers_balanced : Fresh (newMarket .paper 1000) ∧ ∃ s : Market,
    exec step (newMarket .paper 1000) haltedTrip = some s ∧ s.session.position = none ∧
      ¬ Balanced (s.session.stats .paper) :=
  ⟨fresh_newMarket, _, (Option.some_get (by decide +kernel)).symm, by decide +kernel⟩

end Runs

end BotManager.MarketLedger
