import BotManager.StepRun
import BotManager.MarketLive

/-! The executions of one live order, over every sequence of what the two feeds report of
it. The feed records a trade id on the pending row and then asks the engine, which drops an
id that is on a row: a report is booked when it takes the row away, and only then. -/

namespace BotManager.MarketBooking
open List CText StepRun FirstMatch MarketModel MarketLive

section System

structure Target where
  coid : Bytes
  orderId : Bytes
  side : Side
  named : coid ≠ []

structure Sys where
  market : Market
  reported : List Report
  calls : List Call

inductive Event
  | wsFill (k : Knobs) (f : Report)
  | restFill (k : Knobs) (f : Report)
  | accepted (coid orderId : Bytes)
  | wsOrder (k : Knobs) (o : Snapshot)

def Known (s : Sys) (f : Report) : Prop := f.tradeId ∈ s.reported.map Report.tradeId

instance (s : Sys) (f : Report) : Decidable (Known s f) :=
  inferInstanceAs (Decidable (_ ∈ _))

def note (s : Sys) (f : Report) : List Report := if Known s f then s.reported else s.reported ++ [f]

@[simp] def afterFill (s : Sys) (f : Report) (r : Market × List Call) : Sys :=
  ⟨r.1, note s f, s.calls ++ r.2⟩

def step (s : Sys) : Event → Option Sys
  | .wsFill k f => some (afterFill s f (handleWsFill k s.market f))
  | .restFill k f => some (afterFill s f (onFill k s.market f))
  | .accepted coid orderId => some { s with market := marketOrderDone s.market coid false orderId }
  | .wsOrder k o =>
    let r := handleWsOrder k s.market o
    some { s with market := r.1, calls := s.calls ++ r.2 }

section Target

variable (t : Target)

/-- The events are about the order. A page may leave its own id out, a reply or a snapshot
the venue's. A terminal snapshot comes when every execution has been reported, and its
total is theirs. -/
def About (s : Sys) : Event → Prop
  | .wsFill _ f => f.Valid ∧ sideOf f.side = t.side ∧ f.coid = t.coid
  | .restFill _ f => f.Valid ∧ sideOf f.side = t.side ∧ (f.coid = t.coid ∨ f.coid = []) ∧
      f.orderId = t.orderId
  | .accepted coid orderId => coid = t.coid ∧ (orderId = t.orderId ∨ orderId = [])
  | .wsOrder _ o => o.coid = t.coid ∧ (o.orderId = t.orderId ∨ o.orderId = []) ∧
      (o.status.terminal = true → o.cumulativeQuantity = (s.reported.map Report.size).sum)

end Target

def LandsAt (found : Found) (f : Report) : Prop :=
  match found with
  | none => False
  | some (pre, p, post) =>
    Complete (credit p f.tradeId f.size) ∧ recorded (pre ++ post) f.tradeId = false

def Lands (s : Sys) : Event → Prop
  | .wsFill _ f => Known s f ∨ LandsAt (findPendingByCoid s.market.session.pending f.coid) f
  | .restFill _ f => Known s f ∨ LandsAt (findRest s.market.session.pending f) f
  | _ => True

end System

section Feed

variable {pre post : List Pending} {p : Pending} {f : Report}

def booked (k : Knobs) (mk : Market) (rows : List Pending) (f : Report) (reason : Bytes) :
    Market × List Call :=
  (applyFill k (setPending mk rows) .real (sideOf f.side) f.size f.price f.fee 0 f.timeMs
    (some reason), [f.call reason])

theorem booked_pending : (booked k mk rows f reason).1.session.pending = rows :=
  applyFill_pending

theorem recorded_append : recorded (a ++ b) tradeId = (recorded a tradeId || recorded b tradeId) :=
  any_append

theorem recorded_cons :
    recorded (a :: b) tradeId = (a.recordedTradeIds.contains tradeId || recorded b tradeId) :=
  any_cons

theorem recorded_creditRow (empty : p.recordedTradeIds = []) :
    recorded (creditRow pre p post f) f.tradeId = false ↔
      Complete (credit p f.tradeId f.size) ∧ recorded (pre ++ post) f.tradeId = false := by
  have mine : (credit p f.tradeId f.size).recordedTradeIds = [f.tradeId] := by
    simp [credit, empty, tradeDedup]
  unfold creditRow
  split_ifs with complete
  · simp [complete]
  · simp [complete, recorded_append, recorded_cons, mine]

theorem consumeFill_calls (k : Knobs) (mk : Market) (reason : Bytes) {found : Found}
    (valid : f.Valid)
    (empty : ∀ pre p post, found = some (pre, p, post) → p.recordedTradeIds = []) :
    (LandsAt found f → ∃ pre p post, found = some (pre, p, post) ∧
      consumeFill k mk found f reason = booked k mk (pre ++ post) f reason) ∧
    (¬ LandsAt found f → (consumeFill k mk found f reason).2 = []) := by
  cases found with
  | none => exact ⟨False.elim, fun _ => by simp [consumeFill, valid]⟩
  | some parts =>
    obtain ⟨pre, p, post⟩ := parts
    have empty := empty pre p post rfl
    have asked : consumeFill k mk (some (pre, p, post)) f reason =
        recordExternalFill k (setPending mk (creditRow pre p post f)) (f.call reason) := by
      simp [consumeFill, valid, empty]
    have sized : ¬ ((f.call reason).qty ≤ 0 ∨ (f.call reason).px ≤ 0) := by
      rintro (size | price)
      · exact absurd valid.2.1 (not_lt.mpr size)
      · exact absurd valid.2.2 (not_lt.mpr price)
    rw [asked, recordExternalFill, if_neg sized, setPending_pending, Report.call_tradeId]
    constructor
    · intro lands
      refine ⟨pre, p, post, rfl, ?_⟩
      have free := (recorded_creditRow empty).mpr lands
      have rows : creditRow pre p post f = pre ++ post := if_pos lands.1
      rw [if_neg (Bool.eq_false_iff.mp free), rows]
      rfl
    · intro stays
      have held : recorded (creditRow pre p post f) f.tradeId = true := by
        rw [← Bool.not_eq_false]
        exact fun free => stays ((recorded_creditRow empty).mp free)
      rw [if_pos held]

end Feed

variable {position : Option Long} {s : Sys} {p : Pending} {e : Event}

section Runs

variable {t : Target}

def Mine (t : Target) (p : Pending) : Prop :=
  p.coid = t.coid ∨ p.orderId ≠ [] ∧ p.orderId = t.orderId

structure Row (t : Target) (rows pre : List Pending) (p : Pending) (post : List Pending) :
    Prop where
  split : rows = pre ++ p :: post
  coid : p.coid = t.coid
  orderId : p.orderId = [] ∨ p.orderId = t.orderId
  empty : p.recordedTradeIds = []
  others : ∀ q ∈ pre ++ post, ¬ Mine t q

structure Exact (t : Target) (position : Option Long) (s : Sys) : Prop where
  once : s.calls.map Call.tradeId = s.reported.map Report.tradeId
  total : (s.calls.map Call.qty).sum = (s.reported.map Report.size).sum
  bought : t.side = .buy →
    held s.market.session.position = held position + (s.reported.map Report.size).sum
  sold : t.side = .sell →
    (held position = (s.reported.map Report.size).sum ∨
      dust < held position - (s.reported.map Report.size).sum) →
    held s.market.session.position = held position - (s.reported.map Report.size).sum

inductive Inv (t : Target) (position : Option Long) (s : Sys) : Prop
  | waiting (pre : List Pending) (p : Pending) (post : List Pending)
      (row : Row t s.market.session.pending pre p post) (reported : s.reported = [])
      (calls : s.calls = []) (held : s.market.session.position = position)
  | settled (gone : ∀ q ∈ s.market.session.pending, ¬ Mine t q) (exact : Exact t position s)

theorem Exact.start (reported : s.reported = [])
    (calls : s.calls = []) (held : s.market.session.position = position) : Exact t position s := by
  constructor
  · rw [reported, calls]
    rfl
  · rw [reported, calls]
    rfl
  · intro _
    rw [reported, held]
    exact (add_zero _).symm
  · intro _ _
    rw [reported, held]
    exact (sub_zero _).symm

theorem Inv.exact (inv : Inv t position s) : Exact t position s := by
  cases inv with
  | waiting pre p post row reported calls held => exact .start reported calls held
  | settled gone exact => exact exact

variable {rows : List Pending} {pre post : List Pending}

theorem Row.findByCoid (row : Row t rows pre p post) :
    findPendingByCoid rows t.coid = some (pre, p, post) := by
  rw [findPendingByCoid, if_neg t.named, row.split]
  refine splitFirst_append (fun q mem => ?_) (decide_eq_true row.coid)
  have other := row.others q (mem_append_left _ mem)
  exact decide_eq_false fun same => other (.inl same)

theorem findByCoid_gone (gone : ∀ q ∈ rows, ¬ Mine t q) : findPendingByCoid rows t.coid = none := by
  rw [findPendingByCoid, if_neg t.named]
  exact splitFirst_eq_none fun q mem => decide_eq_false fun same => gone q mem (.inl same)

theorem findByOrderId_gone (gone : ∀ q ∈ rows, ¬ Mine t q) :
    findPendingByOrderId rows t.orderId = none := by
  unfold findPendingByOrderId
  split
  · rfl
  · exact splitFirst_eq_none fun q mem => decide_eq_false fun same => gone q mem (.inr same)

theorem Row.findByOrderId (row : Row t rows pre p post) :
    findPendingByOrderId rows t.orderId = none ∨
      findPendingByOrderId rows t.orderId = some (pre, p, post) := by
  unfold findPendingByOrderId
  split
  · exact .inl rfl
  next known =>
    have others : ∀ q ∈ pre ++ post,
        decide (q.orderId ≠ [] ∧ q.orderId = t.orderId) = false := fun q mem =>
      decide_eq_false fun same => row.others q mem (.inr same)
    rw [row.split]
    rcases row.orderId with unknown | stamped
    · refine .inl (splitFirst_eq_none fun q mem => ?_)
      rcases mem_cons.mp (perm_middle.mem_iff.mp mem) with rfl | other
      · simp [unknown]
      · exact others q other
    · refine .inr (splitFirst_append (fun q mem => others q (mem_append_left _ mem)) ?_)
      simp [stamped, known]

theorem findByCoid_nil : findPendingByCoid rows [] = none := if_pos rfl

variable {f : Report}

theorem Row.findRest (row : Row t rows pre p post) (coid : f.coid = t.coid ∨ f.coid = [])
    (orderId : f.orderId = t.orderId) :
    MarketLive.findRest rows f = none ∨ MarketLive.findRest rows f = some (pre, p, post) := by
  unfold MarketLive.findRest
  rw [orderId]
  rcases coid with own | missing
  · rw [own, row.findByCoid]
    exact .inr rfl
  · rw [missing, findByCoid_nil]
    exact row.findByOrderId

theorem findRest_gone (gone : ∀ q ∈ rows, ¬ Mine t q)
    (coid : f.coid = t.coid ∨ f.coid = []) (orderId : f.orderId = t.orderId) :
    MarketLive.findRest rows f = none := by
  unfold MarketLive.findRest
  rw [orderId, findByOrderId_gone gone]
  rcases coid with own | missing
  · rw [own, findByCoid_gone gone]
    rfl
  · rw [missing, findByCoid_nil]
    rfl

structure Finds (t : Target) (rows : List Pending) (found : Found) : Prop where
  own : ∀ pre p post, Row t rows pre p post → found = none ∨ found = some (pre, p, post)
  gone : (∀ q ∈ rows, ¬ Mine t q) → found = none

section Fill

variable {k : Knobs} {position : Option Long} {s : Sys} {found : Found} {f : Report}
  {reason : Bytes}

theorem Exact.first (valid : f.Valid) (side : sideOf f.side = t.side) (reported : s.reported = [])
    (calls : s.calls = []) (before : s.market.session.position = position) :
    Exact t position (afterFill s f (booked k s.market rows f reason)) := by
  have noted : note s f = [f] := by simp [note, Known, reported]
  have size : ((note s f).map Report.size).sum = f.size := by simp [noted]
  constructor
  · simp [booked, noted, calls, Report.call]
  · simp [booked, noted, calls, Report.call]
  · intro buy
    dsimp only [afterFill, booked]
    rw [size, side, buy, ← before]
    exact held_applyFill_buy valid.2.1 valid.2.2
  · intro sell leaves
    dsimp only [afterFill, booked] at leaves ⊢
    rw [size, ← before] at leaves
    rw [size, side, sell, ← before]
    exact held_applyFill_sell valid.2.1 valid.2.2 leaves

theorem Inv.fill (inv : Inv t position s) (finds : Finds t s.market.session.pending found)
    (valid : f.Valid) (side : sideOf f.side = t.side) (lands : Known s f ∨ LandsAt found f) :
    Inv t position (afterFill s f (consumeFill k s.market found f reason)) := by
  cases inv with
  | waiting pre p post row reported calls before =>
    have first : LandsAt found f := by
      refine lands.resolve_left fun known => ?_
      rw [Known, reported] at known
      cases known
    have here : found = some (pre, p, post) := by
      refine (finds.own pre p post row).resolve_left fun none => ?_
      rw [none] at first
      exact first
    have empty : ∀ pre' p' post', found = some (pre', p', post') → p'.recordedTradeIds = [] := by
      intro pre' p' post' same
      rw [here] at same
      cases same
      exact row.empty
    obtain ⟨pre', p', post', same, made⟩ :=
      (consumeFill_calls k s.market reason valid empty).1 first
    rw [here] at same
    cases same
    rw [made]
    refine .settled ?_ (.first valid side reported calls before)
    dsimp only [afterFill]
    rw [booked_pending]
    exact row.others
  | settled gone exact =>
    have missing := finds.gone gone
    rw [missing] at lands ⊢
    have known : Known s f := lands.resolve_right id
    have same : afterFill s f (consumeFill k s.market none f reason) = s := by
      simp [consumeFill, note, known]
    rw [same]
    exact .settled gone exact

theorem Inv.lands_of_exact (inv : Inv t position s) (finds : Finds t s.market.session.pending found)
    (valid : f.Valid)
    (after : Exact t position (afterFill s f (consumeFill k s.market found f reason))) :
    Known s f ∨ LandsAt found f := by
  by_contra neither
  obtain ⟨fresh, stays⟩ := not_or.mp neither
  have empty : ∀ pre p post, found = some (pre, p, post) → p.recordedTradeIds = [] := by
    intro pre p post same
    cases inv with
    | waiting pre' p' post' row reported calls before =>
      rcases finds.own pre' p' post' row with none | some
      · rw [none] at same
        cases same
      · rw [some] at same
        cases same
        exact row.empty
    | settled gone exact =>
      rw [finds.gone gone] at same
      cases same
  have unbooked : (consumeFill k s.market found f reason).2 = [] :=
    (consumeFill_calls k s.market reason valid empty).2 stays
  have before := congrArg length inv.exact.once
  have now := congrArg length after.once
  simp [unbooked, note, fresh] at before now
  omega

end Fill

section Events

variable {position : Option Long} {s u : Sys}

theorem Row.replace {p' : Pending} (row : Row t rows pre p post)
    (coid : p'.coid = p.coid) (orderId : p'.orderId = p.orderId ∨ p'.orderId = t.orderId)
    (empty : p'.recordedTradeIds = p.recordedTradeIds) : Row t (pre ++ p' :: post) pre p' post := by
  refine ⟨rfl, coid.trans row.coid, ?_, empty.trans row.empty, row.others⟩
  rcases orderId with old | new
  · rw [old]
    exact row.orderId
  · exact .inr new

theorem stamped {old new own : Bytes} (about : new = own ∨ new = []) :
    (if new = [] then old else new) = old ∨ (if new = [] then old else new) = own := by
  split_ifs with missing
  · exact .inl rfl
  · exact .inr (about.resolve_right missing)

theorem finds_ws (coid : f.coid = t.coid) : Finds t rows (findPendingByCoid rows f.coid) := by
  rw [coid]
  exact ⟨fun _ _ _ row => .inr row.findByCoid, findByCoid_gone⟩

theorem finds_rest (coid : f.coid = t.coid ∨ f.coid = [])
    (orderId : f.orderId = t.orderId) : Finds t rows (findRest rows f) :=
  ⟨fun _ _ _ row => row.findRest coid orderId, fun gone => findRest_gone gone coid orderId⟩

variable (inv : Inv t position s)
include inv

theorem Inv.accepted {orderId : Bytes}
    (about : orderId = t.orderId ∨ orderId = []) :
    Inv t position { s with market := marketOrderDone s.market t.coid false orderId } := by
  cases inv with
  | waiting pre p post row reported calls before =>
    have found := row.findByCoid
    rw [findPendingByCoid, if_neg t.named] at found
    refine .waiting pre { p with
      orderId := if orderId = [] then p.orderId else orderId, gatewayAccepted := true } post
      ?_ reported calls ?_
    · dsimp only
      rw [marketOrderDone, found]
      exact row.replace rfl (stamped about) rfl
    · dsimp only
      rw [marketOrderDone, found]
      exact before
  | settled gone exact =>
    have missing := findByCoid_gone gone
    rw [findPendingByCoid, if_neg t.named] at missing
    have same : marketOrderDone s.market t.coid false orderId = s.market := by
      rw [marketOrderDone, missing]
    rw [same]
    exact .settled gone exact

theorem Inv.wsOrder {k : Knobs} {o : Snapshot}
    (about : About t s (.wsOrder k o)) :
    Inv t position { s with market := (handleWsOrder k s.market o).1,
                            calls := s.calls ++ (handleWsOrder k s.market o).2 } := by
  obtain ⟨coid, orderId, total⟩ := about
  cases inv with
  | waiting pre p post row reported calls before =>
    have found := row.findByCoid
    by_cases ends : o.status.terminal = true
    · have nothing : o.cumulativeQuantity = 0 := by
        rw [total ends, reported]
        rfl
      have gone : handleWsOrder k s.market o = (setPending s.market (pre ++ post), []) := by
        simp [handleWsOrder, coid, found, ends, nothing]
      rw [gone]
      exact .settled row.others (.start reported (by rw [calls]; rfl) before)
    · have kept : handleWsOrder k s.market o =
          (setPending s.market (pre ++ stamp p o :: post), []) := by
        simp [handleWsOrder, coid, found, ends]
      rw [kept]
      exact .waiting pre (stamp p o) post (row.replace rfl (stamped orderId) rfl) reported
        (by rw [calls]; rfl) before
  | settled gone exact =>
    have same : handleWsOrder k s.market o = (s.market, []) := by
      rw [handleWsOrder, coid, findByCoid_gone gone]
    rw [same, append_nil]
    exact .settled gone exact

theorem inv_step (about : About t s e) (lands : Lands s e)
    (moved : step s e = some u) : Inv t position u := by
  cases e with
  | wsFill k f =>
    cases moved
    obtain ⟨valid, side, coid⟩ := about
    exact inv.fill (finds_ws coid) valid side lands
  | restFill k f =>
    cases moved
    obtain ⟨valid, side, coid, orderId⟩ := about
    exact inv.fill (finds_rest coid orderId) valid side lands
  | accepted coid orderId =>
    cases moved
    obtain ⟨rfl, orderId⟩ := about
    exact inv.accepted orderId
  | wsOrder k o =>
    cases moved
    exact inv.wsOrder about

theorem lands_of_exact (about : About t s e)
    (moved : step s e = some u) (exact : Exact t position u) : Lands s e := by
  cases e with
  | wsFill k f =>
    cases moved
    obtain ⟨valid, side, coid⟩ := about
    exact inv.lands_of_exact (finds_ws coid) valid exact
  | restFill k f =>
    cases moved
    obtain ⟨valid, side, coid, orderId⟩ := about
    exact inv.lands_of_exact (finds_rest coid orderId) valid exact
  | accepted coid orderId | wsOrder k o => exact trivial

omit inv

def start (mk : Market) : Sys := ⟨mk, [], []⟩

instance (s : Sys) (e : Event) : Decidable (About t s e) := by
  unfold About
  split <;> infer_instance

instance (f : Report) (found : Found) : Decidable (LandsAt found f) := by
  unfold LandsAt
  split <;> infer_instance

instance (s : Sys) (e : Event) : Decidable (Lands s e) := by
  unfold Lands
  split <;> infer_instance

theorem booked_once_iff {mk : Market} {pre post : List Pending} {p : Pending} {events : List Event}
    {s : Sys} (row : Row t mk.session.pending pre p post)
    (run : Run step (About t) (start mk) events s) :
    Along step (Exact t mk.session.position) (start mk) events ↔
      Run step (fun s e => About t s e ∧ Lands s e) (start mk) events s :=
  run.along_iff Inv.exact (fun inv => inv_step inv) (fun inv => lands_of_exact inv)
    (.waiting pre p post row rfl rfl rfl)

def placed : Market := setPending (newMarket .real 1000) [newPending (ascii "c1") .buy 1 100 0]

def placedTarget : Target := ⟨ascii "c1", ascii "v1", .buy, by decide⟩

theorem placed_row : Row placedTarget placed.session.pending []
    (newPending (ascii "c1") .buy 1 100 0) [] :=
  ⟨rfl, rfl, .inl rfl, rfl, by simp⟩

def report (tradeId : ℤ) (size : ℚ) : Report :=
  ⟨ascii "v1", ascii "c1", ascii "buy", tradeId, 100, size, 0, 1⟩

def wholeFill : List Event :=
  [.accepted (ascii "c1") (ascii "v1"), .wsFill defaultKnobs (report 7 1),
    .restFill defaultKnobs (report 7 1),
    .wsOrder defaultKnobs ⟨ascii "v1", ascii "c1", ascii "buy", .filled, 1, 100, 0, 2⟩]

theorem booked_once_iff_sample :
    (∃ s, Run step (fun s e => About placedTarget s e ∧ Lands s e) (start placed) wholeFill s) ∧
      Along step (Exact placedTarget placed.session.position) (start placed) wholeFill := by
  have run : Run step (fun s e => About placedTarget s e ∧ Lands s e) (start placed) wholeFill _ :=
    runWhen_get (by decide +kernel)
  exact ⟨⟨_, run⟩, (booked_once_iff placed_row (run.mono fun _ _ both => both.1)).mpr run⟩

def splitFill : List Event :=
  [.accepted (ascii "c1") (ascii "v1"), .wsFill defaultKnobs (report 7 (2 / 5)),
    .wsFill defaultKnobs (report 8 (3 / 5))]

theorem not_booked_once : ∃ s, Run step (About placedTarget) (start placed) splitFill s ∧
    s.reported.map Report.tradeId = [7, 8] ∧ s.calls.map Call.tradeId = [8] ∧
      held s.market.session.position = 3 / 5 :=
  ⟨_, runWhen_get (by decide +kernel), by decide +kernel⟩

end Events

end Runs

end BotManager.MarketBooking
