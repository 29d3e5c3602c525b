import Mathlib.Data.List.Nodup
import BotManager.MarketEngine
import BotManager.MarketRow

/-! A session that is written to its row and read back into a market of the same key. The
row has the ledgers and fill rings of paper and real mode only. Amounts are decimals of at
most ten significant digits; one that stands in a JSON text without a fraction is read
through an integer of 64 bits. -/

namespace BotManager.MarketRestore
open List CText FirstMatch JsonDoc MarketRow
open MarketModel (Mode Stats tradeDedup fillRingCap reasonSz)

section Fits

/-- An amount that `%.10g` and the JSON readers keep. -/
def Amount (x : ℚ) : Prop := Decimal 10 x ∧ (x.den = 1 → Fits64 x.num)

structure StatsFit (st : Stats) : Prop where
  amounts : ∀ x ∈ [st.startingCash, st.cash, st.realizedPnlLifetime, st.realizedPnlToday,
    st.stackAnchorSats, st.lifetimeFees, st.grossProfit, st.grossLoss, st.maxDrawdown,
    st.equityPeak], Amount x
  dailyAnchorMs : Fits64 st.dailyAnchorMs
  lastFillMs : Fits64 st.lastFillMs
  fillsCount : st.lifetimeFillsCount < 2 ^ 63
  counts : ∀ n ∈ [st.nTrades, st.nWins, st.nLosses], n < 2 ^ 32

structure FillFit (f : Fill) : Prop where
  amounts : ∀ x ∈ [f.qty, f.price, f.fee, f.slippage, f.realizedPnl, f.cashAfter,
    f.positionAfter], Amount x
  tsMs : Fits64 f.tsMs
  side : f.side = 0 ∨ f.side = 98 ∨ f.side = 115
  reason : f.reason.length < reasonSz

structure RingFit (ring : Ring) : Prop where
  slots : ∀ f ∈ ring.slots, FillFit f
  size : ring.slots.length = fillRingCap
  n : ring.n < 2 ^ 63
  head : ring.head < 2 ^ 31

structure PendingFit (p : Pending) : Prop where
  amounts : ∀ x ∈ [p.limitPx, p.submittedQty, p.filledQty], Amount x
  submittedMs : Fits64 p.submittedMs
  tradeIds : ∀ id ∈ p.recordedTradeIds, Fits64 id
  tradeIdsSize : p.recordedTradeIds.length ≤ tradeDedup
  coid : p.coid.length < coidSz
  orderId : p.orderId.length < orderIdSz
  side : p.side.length < sideSz

structure SignalFit (sig : Signal) : Prop where
  amounts : ∀ x ∈ [sig.score, sig.confidence], Amount x
  tsMs : Fits64 sig.tsMs
  reason : sig.reason.length < reasonSz

structure SessionFit (s : Session) : Prop where
  amounts : ∀ x ∈ [s.position.qty, s.position.avgEntryPx, s.lastMarkPx, s.feeBps, s.slipBps,
    s.sizeFrac, s.maxNotionalSats, s.dailyDrawdownBps], Decimal 10 x
  times : ∀ z ∈ [s.position.openedAtMs, s.lastMarkMs], Fits64 z
  paper : StatsFit (s.stats .paper)
  real : StatsFit (s.stats .real)
  paperFills : RingFit (s.fills .paper)
  realFills : RingFit (s.fills .real)
  pending : ∀ p ∈ s.pending.take s.pendingN, PendingFit p
  pendingSize : s.pending.length = maxPending
  pendingN : s.pendingN ≤ maxPending
  pendingCap : s.pendingCap < 2 ^ 31
  signal : ∀ sig, s.lastActedSignal = some sig → SignalFit sig

end Fits

variable {key : Key} {bits n : ℕ} {table : List Row} {p : Pending} {mk : Market} {row : Row}

section Readers

variable {obj : Json} {key : String}

theorem g10_eq {x : ℚ} (decimal : Decimal 10 x) : g10 x = x := significant_eq decimal

theorem jdouble_eq {x d : ℚ} (found : obj.get key = some (.num (g10 x))) (fits : Amount x) :
    jdouble obj key d = x := by
  unfold jdouble
  rw [found, g10_eq fits.1]
  dsimp only
  split
  next whole =>
    rw [saturate_eq (fits.2 whole)]
    exact Rat.coe_int_num_of_den_eq_one whole
  next => rfl

theorem jint64_eq {z d : ℤ} (found : obj.get key = some (.num z)) (fits : Fits64 z) :
    jint64 obj key d = z := by
  unfold jint64
  rw [found]
  dsimp only
  rw [if_pos (Rat.den_intCast z), Rat.num_intCast, saturate_eq fits]

theorem asUnsigned_natCast (fits : n < 2 ^ bits) : asUnsigned bits n = n := by
  have whole : (n : ℤ) % 2 ^ bits = n :=
    Int.emod_eq_of_lt (Int.natCast_nonneg n) (by exact_mod_cast fits)
  rw [asUnsigned, whole, Int.toNat_natCast]

theorem jcount_eq {d : ℤ} (found : obj.get key = some (.num n)) (small : n < 2 ^ 63)
    (fits : n < 2 ^ bits) : asUnsigned bits (jint64 obj key d) = n := by
  have range : Fits64 n := by
    unfold Fits64 int64Min int64Max
    constructor <;> omega
  have cast : obj.get key = some (.num ((n : ℤ) : ℚ)) := by rw [found, Int.cast_natCast]
  rw [jint64_eq cast range, asUnsigned_natCast fits]

theorem unescape_escapeByte (c : UInt8) (rest : Bytes) :
    unescape (jsonEscapeByte c ++ rest) = c :: unescape rest := by
  fun_cases jsonEscapeByte c with
  | case1 same | case2 _ same | case3 _ _ same | case4 _ _ _ same | case5 _ _ _ _ same
  | case6 _ _ _ _ _ same | case7 _ _ _ _ _ _ same =>
    subst same
    exact unescape_letter (by decide)
  | case8 _ _ _ _ _ _ _ control =>
    have low : c.toNat < 128 := by omega
    have same : UInt8.ofNat c.toNat = c := UInt8.ofNat_toNat
    have read := unescape_unicode low rest
    rw [same] at read
    exact read
  | case9 _ backslash => exact unescape_plain backslash

theorem unescape_jsonEscape {s : Bytes} : unescape (jsonEscape s) = s := by
  induction s with
  | nil => rfl
  | cons c s ih =>
    have step := unescape_escapeByte c (jsonEscape s)
    rw [ih] at step
    exact step

theorem jstr_eq {s : Bytes} (found : obj.get key = some (.str (jsonEscape s))) :
    jstr obj key = some s := by
  unfold jstr
  rw [found]
  dsimp only
  rw [unescape_jsonEscape]

end Readers

section Documents

theorem loadStats_jsonOneStats {st out : Stats} (fit : StatsFit st) :
    loadStats (jsonOneStats st) out = st := by
  have amount := fit.amounts
  simp only [forall_mem_cons] at amount
  obtain ⟨a1, a2, a3, a4, a5, a6, a7, a8, a9, a10, -⟩ := amount
  have counts := fit.counts
  simp only [forall_mem_cons] at counts
  obtain ⟨c1, c2, c3, -⟩ := counts
  unfold loadStats
  rw [jdouble_eq (x := st.startingCash) rfl a1, jdouble_eq (x := st.cash) rfl a2,
    jdouble_eq (x := st.realizedPnlLifetime) rfl a3, jdouble_eq (x := st.realizedPnlToday) rfl a4,
    jdouble_eq (x := st.stackAnchorSats) rfl a5, jdouble_eq (x := st.lifetimeFees) rfl a6,
    jdouble_eq (x := st.grossProfit) rfl a7, jdouble_eq (x := st.grossLoss) rfl a8,
    jdouble_eq (x := st.maxDrawdown) rfl a9, jdouble_eq (x := st.equityPeak) rfl a10,
    jint64_eq (z := st.dailyAnchorMs) rfl fit.dailyAnchorMs,
    jcount_eq (n := st.lifetimeFillsCount) rfl fit.fillsCount (fit.fillsCount.trans (by norm_num)),
    jint64_eq (z := st.lastFillMs) rfl fit.lastFillMs,
    jcount_eq (n := st.nTrades) rfl (by omega) c1, jcount_eq (n := st.nWins) rfl (by omega) c2,
    jcount_eq (n := st.nLosses) rfl (by omega) c3]

/-- A slot that holds no fill comes back with the side of a buy. -/
def marked (f : Fill) : Fill := { f with side := if f.side ≠ 0 then f.side else 98 }

theorem loadOneFill_jsonOneFill {f : Fill} (fit : FillFit f) (out : Fill) :
    loadOneFill (jsonOneFill f) out = marked f := by
  have amount := fit.amounts
  simp only [forall_mem_cons] at amount
  obtain ⟨a1, a2, a3, a4, a5, a6, a7, -⟩ := amount
  have side : jstr (jsonOneFill f) "side" = some [if f.side ≠ 0 then f.side else 98] := by
    have plain : (if f.side ≠ 0 then f.side else 98) ≠ 92 := by
      rcases fit.side with none | buy | sell
      · simp [none]
      · simp [buy]
      · simp [sell]
    exact congrArg some (unescape_plain plain)
  unfold loadOneFill marked
  rw [side, jstr_eq (s := f.reason) rfl, jint64_eq (z := f.tsMs) rfl fit.tsMs,
    jdouble_eq (x := f.qty) rfl a1, jdouble_eq (x := f.price) rfl a2,
    jdouble_eq (x := f.fee) rfl a3, jdouble_eq (x := f.slippage) rfl a4,
    jdouble_eq (x := f.realizedPnl) rfl a5, jdouble_eq (x := f.cashAfter) rfl a6,
    jdouble_eq (x := f.positionAfter) rfl a7]
  simp only [Option.getD_some, head?_cons, bounded_of_lt fit.reason]

theorem loadTradeIds_jsonOnePending {out : List ℤ} (fit : PendingFit p) :
    loadTradeIds (jsonOnePending p) out = p.recordedTradeIds := by
  have found : (jsonOnePending p).get "trade_ids" =
      some (.arr (p.recordedTradeIds.map fun id : ℤ => .num id)) := rfl
  unfold loadTradeIds
  rw [found]
  dsimp only
  rw [take_of_length_le (by rw [length_map]; exact fit.tradeIdsSize)]
  refine ext_getElem (by simp) fun i inside _ => ?_
  have here : Fits64 p.recordedTradeIds[i] := fit.tradeIds _ (getElem_mem _)
  simp [loadTradeId, saturate_eq here]

theorem loadOnePending_jsonOnePending {out : Pending} (fit : PendingFit p) :
    loadOnePending (jsonOnePending p) out = p := by
  have amount := fit.amounts
  simp only [forall_mem_cons] at amount
  obtain ⟨a1, a2, a3, -⟩ := amount
  have accepted : (jsonOnePending p).get "gateway_accepted" = some (.bool p.gatewayAccepted) := rfl
  unfold loadOnePending
  rw [accepted, loadTradeIds_jsonOnePending fit, jstr_eq (s := p.coid) rfl,
    jstr_eq (s := p.orderId) rfl, jstr_eq (s := p.side) rfl, jdouble_eq (x := p.limitPx) rfl a1,
    jdouble_eq (x := p.submittedQty) rfl a2, jdouble_eq (x := p.filledQty) rfl a3,
    jint64_eq (z := p.submittedMs) rfl fit.submittedMs]
  simp only [Option.map_some, Option.getD_some, getBoolean, bounded_of_lt fit.coid,
    bounded_of_lt fit.orderId, bounded_of_lt fit.side]

theorem loadSlots_map {α : Type*} (load : Json → α → α) (read : α → α) (json : α → Json)
    (written slots : List α) (enough : written.length ≤ slots.length)
    (each : ∀ a ∈ written, ∀ out, loadSlot load (json a) out = read a) :
    loadSlots load (written.map json) slots = written.map read ++ slots.drop written.length := by
  unfold loadSlots
  rw [length_map]
  congr 1
  induction written generalizing slots with
  | nil => rfl
  | cons a rest ih =>
    cases slots with
    | nil => exact absurd enough (by simp)
    | cons out slots =>
      obtain ⟨here, later⟩ := forall_mem_cons.mp each
      rw [map_cons, zipWith_cons_cons, here, map_cons,
        ih slots (Nat.le_of_succ_le_succ enough) later]

end Documents

section Session

structure SameRing (ring restored : Ring) : Prop where
  slots : restored.slots = ring.slots.map marked
  n : restored.n = ring.n
  head : restored.head = ring.head

structure Restored (s r : Session) : Prop where
  mode : r.mode = s.mode
  position : r.position = s.position
  paper : r.stats .paper = s.stats .paper
  real : r.stats .real = s.stats .real
  paperFills : SameRing (s.fills .paper) (r.fills .paper)
  realFills : SameRing (s.fills .real) (r.fills .real)
  pending : r.pending.take r.pendingN = s.pending.take s.pendingN
  pendingN : r.pendingN = s.pendingN
  lastMark : r.lastMarkPx = s.lastMarkPx ∧ r.lastMarkMs = s.lastMarkMs
  signal : r.lastActedSignal = s.lastActedSignal
  feeBps : r.feeBps = s.feeBps
  slipBps : r.slipBps = s.slipBps
  sizeFrac : r.sizeFrac = s.sizeFrac
  maxNotionalSats : r.maxNotionalSats = s.maxNotionalSats
  dailyDrawdownBps : r.dailyDrawdownBps = s.dailyDrawdownBps
  pendingCap : r.pendingCap = s.pendingCap

structure Sized (s : Session) : Prop where
  paper : (s.fills .paper).slots.length = fillRingCap
  real : (s.fills .real).slots.length = fillRingCap
  pending : s.pending.length = maxPending

theorem modeParse_modeName {m : Mode} : modeParse (modeName m) = some m := by
  cases m <;> decide +kernel

theorem posSideParse_posSideName {long : Bool} : posSideParse (posSideName long) = long := by
  cases long <;> decide +kernel

theorem strtoll_intCast {z : ℤ} (fits : Fits64 z) : (Cell.num z).strtoll = z := by
  rw [Cell.strtoll, Rat.num_intCast, Rat.den_intCast, Nat.cast_one, Int.tdiv_one,
    saturate_eq fits]

theorem strtoul_natCast (fits : n < 2 ^ bits) : (Cell.num n).strtoul bits = n := by
  rw [Cell.strtoul, Rat.num_natCast, Rat.den_natCast, Nat.cast_one, Int.tdiv_one,
    asUnsigned_natCast fits]

theorem sameRing_load {ring : Ring} (fit : RingFit ring) {slots : List Fill}
    (sized : slots.length = fillRingCap) :
    SameRing ring ⟨loadFillsRing (jsonFillsRing ring) slots,
      (Cell.num ring.n).strtoul 64, (Cell.num ring.head).strtoul 32⟩ := by
  refine ⟨?_, strtoul_natCast (fit.n.trans (by norm_num)),
    strtoul_natCast (fit.head.trans (by norm_num))⟩
  have size := fit.size
  have all : (ring.slots.map jsonOneFill).take fillRingCap = ring.slots.map jsonOneFill :=
    take_of_length_le (by rw [length_map, size])
  have loaded := loadSlots_map loadOneFill marked jsonOneFill ring.slots slots
    (by rw [size, sized]) fun f mem out => loadOneFill_jsonOneFill (fit.slots f mem) out
  have rest : slots.drop ring.slots.length = [] :=
    drop_eq_nil_of_le (by rw [size, sized])
  calc loadFillsRing (jsonFillsRing ring) slots
      = loadSlots loadOneFill ((ring.slots.map jsonOneFill).take fillRingCap) slots := rfl
    _ = ring.slots.map marked := by rw [all, loaded, rest, append_nil]

theorem pending_load {s : Session} (fit : SessionFit s) (slots : List Pending) (n : ℕ)
    (sized : slots.length = maxPending) :
    (loadPendingRing (jsonPendingRing s) slots n).1.take s.pendingN = s.pending.take s.pendingN := by
  have few := fit.pendingN
  have length : (s.pending.take s.pendingN).length = s.pendingN := by
    rw [length_take, fit.pendingSize, Nat.min_eq_left few]
  have all : ((s.pending.take s.pendingN).map jsonOnePending).take maxPending =
      (s.pending.take s.pendingN).map jsonOnePending :=
    take_of_length_le (by rw [length_map, length]; exact few)
  have loaded := loadSlots_map loadOnePending id jsonOnePending (s.pending.take s.pendingN) slots
    (by rw [length, sized]; exact few) fun p mem out =>
      loadOnePending_jsonOnePending (fit.pending p mem)
  have whole : (loadPendingRing (jsonPendingRing s) slots n).1 =
      s.pending.take s.pendingN ++ slots.drop s.pendingN := by
    calc (loadPendingRing (jsonPendingRing s) slots n).1
        = loadSlots loadOnePending
            (((s.pending.take s.pendingN).map jsonOnePending).take maxPending) slots := rfl
      _ = s.pending.take s.pendingN ++ slots.drop s.pendingN := by
            rw [all, loaded, map_id, length]
  rw [whole, take_append_of_le_length (by rw [length]), take_of_length_le length.le]

theorem loadSignal_jsonSignal {last : Option Signal}
    (fit : ∀ sig, last = some sig → SignalFit sig) :
    loadSignal (jsonSignal last) last.isSome = last := by
  cases last with
  | none => rfl
  | some sig =>
    have fit := fit sig rfl
    have amount := fit.amounts
    simp only [forall_mem_cons] at amount
    obtain ⟨a1, a2, -⟩ := amount
    unfold loadSignal
    dsimp only [Option.isSome, jsonSignal]
    rw [jint64_eq (z := sig.tsMs) rfl fit.tsMs, jdouble_eq (x := sig.score) rfl a1,
      jdouble_eq (x := sig.confidence) rfl a2, jstr_eq (s := sig.reason) rfl, Option.getD_some,
      bounded_of_lt fit.reason]

theorem hydrate_updateRow {old : Row} {s : Session} (mk : Market) :
    hydrate (select (updateRow old (insertRow mk))) s = hydrate (select (insertRow mk)) s := rfl

theorem restored_hydrate (fit : SessionFit mk.session) {s : Session}
    (sized : Sized s) : Restored mk.session (hydrate (select (insertRow mk)) s) := by
  have amount := fit.amounts
  simp only [forall_mem_cons] at amount
  obtain ⟨a1, a2, a3, a4, a5, a6, a7, a8, -⟩ := amount
  have times := fit.times
  simp only [forall_mem_cons] at times
  obtain ⟨t1, t2, -⟩ := times
  have counted : (Cell.num mk.session.pendingN).strtoul 32 = mk.session.pendingN :=
    strtoul_natCast (fit.pendingN.trans_lt (by decide))
  constructor
  case mode => exact congrArg (Option.getD · s.mode) modeParse_modeName
  case position =>
    calc (hydrate (select (insertRow mk)) s).position
        = ⟨posSideParse (posSideName mk.session.position.long), g10 mk.session.position.qty,
            g10 mk.session.position.avgEntryPx,
            (Cell.num mk.session.position.openedAtMs).strtoll⟩ := rfl
      _ = mk.session.position := by
          rw [posSideParse_posSideName, g10_eq a1, g10_eq a2, strtoll_intCast t1]
  case paper => exact loadStats_jsonOneStats fit.paper
  case real => exact loadStats_jsonOneStats fit.real
  case paperFills => exact sameRing_load fit.paperFills sized.paper
  case realFills => exact sameRing_load fit.realFills sized.real
  case pending =>
    have rows := pending_load fit s.pending s.pendingN sized.pending
    calc (hydrate (select (insertRow mk)) s).pending.take
          (hydrate (select (insertRow mk)) s).pendingN
        = (loadPendingRing (jsonPendingRing mk.session) s.pending s.pendingN).1.take
            ((Cell.num mk.session.pendingN).strtoul 32) := rfl
      _ = mk.session.pending.take mk.session.pendingN := by rw [counted, rows]
  case pendingN => exact counted
  case lastMark => exact ⟨g10_eq a3, strtoll_intCast t2⟩
  case signal => exact loadSignal_jsonSignal fit.signal
  case feeBps => exact g10_eq a4
  case slipBps => exact g10_eq a5
  case sizeFrac => exact g10_eq a6
  case maxNotionalSats => exact g10_eq a7
  case dailyDrawdownBps => exact g10_eq a8
  case pendingCap => exact strtoul_natCast (fit.pendingCap.trans (by norm_num))

end Session

section Table

structure Keyed (row : Row) (key : Key) : Prop where
  marketId : row "market_id" = some (.num key.marketId)
  label : row "instance" = some (.text key.label)
  fits : Fits64 key.marketId

theorem Keyed.rowKey (keyed : Keyed row key) : rowKey row = some key := by
  unfold MarketRow.rowKey
  rw [keyed.marketId, keyed.label]
  dsimp only
  rw [Rat.num_intCast]

theorem Keyed.selectedKey (keyed : Keyed row key) : selectedKey (select row) = some key := by
  have id : cell (select row) 0 = some (.num key.marketId) := keyed.marketId
  have label : cell (select row) 26 = some (.text key.label) := keyed.label
  unfold MarketRow.selectedKey
  rw [id, label, Option.map_some, strtoll_intCast keyed.fits]
  rfl

structure TableFit (table : List Row) : Prop where
  keyed : ∀ row ∈ table, ∃ key, Keyed row key
  unique : (table.map rowKey).Nodup

theorem upsert_split (fit : TableFit table)
    (fits : Fits64 mk.key.marketId) :
    ∃ pre old post, upsert table mk = pre ++ updateRow old (insertRow mk) :: post ∧
      Keyed (updateRow old (insertRow mk)) mk.key ∧
      ∀ row ∈ pre ++ post, selectedKey (select row) ≠ some mk.key := by
  have others (rows : List Row) (sub : ∀ row ∈ rows, row ∈ table ∧ rowKey row ≠ some mk.key) :
      ∀ row ∈ rows, selectedKey (select row) ≠ some mk.key := by
    intro row mem same
    obtain ⟨key, keyed⟩ := fit.keyed row (sub row mem).1
    rw [keyed.selectedKey, ← keyed.rowKey] at same
    exact (sub row mem).2 same
  unfold upsert
  cases found : splitFirst (fun row => decide (rowKey row = some mk.key)) table with
  | none =>
    have absent := splitFirst_none found
    refine ⟨table, insertRow mk, [], ?_, ⟨rfl, rfl, fits⟩, ?_⟩
    · have same : updateRow (insertRow mk) (insertRow mk) = insertRow mk := by
        funext column
        exact ite_self _
      rw [same]
    · rw [append_nil]
      exact others table fun row mem => ⟨mem, of_decide_eq_false (absent row mem)⟩
  | some parts =>
    obtain ⟨pre, old, post⟩ := parts
    obtain ⟨whole, same, -⟩ := splitFirst_some found
    have same : rowKey old = some mk.key := of_decide_eq_true same
    obtain ⟨key, keyed⟩ := fit.keyed old (by rw [whole]; simp)
    have key_eq : key = mk.key := Option.some.inj (keyed.rowKey.symm.trans same)
    subst key_eq
    have unique := fit.unique
    rw [whole, map_append, map_cons, nodup_middle, nodup_cons,
      ← map_append, same] at unique
    refine ⟨pre, old, post, rfl, ⟨keyed.marketId, keyed.label, fits⟩, ?_⟩
    refine others (pre ++ post) fun row mem => ⟨?_, fun equal => ?_⟩
    · rw [whole]
      simp only [mem_append, mem_cons] at mem ⊢
      tauto
    · exact unique.1 (mem_map.mpr ⟨row, mem, equal⟩)

def running (markets : List Market) (key : Key) : Option Market :=
  markets.find? fun mk => decide (mk.key = key)

theorem running_restoreRow (markets : List Market) (cells : List (Option Cell)) :
    running (restoreRow markets cells) key =
      if selectedKey cells = some key then
        (running markets key).map fun mk => { mk with session := hydrate cells mk.session }
      else running markets key := by
  unfold restoreRow running
  cases selected : selectedKey cells with
  | none => exact (if_neg (by simp)).symm
  | some own =>
    dsimp only
    have passed {l : List Market} (none : ∀ mk ∈ l, decide (mk.key = own) = false) :
        l.find? (fun mk => decide (mk.key = own)) = Option.none :=
      find?_eq_none.mpr fun mk mem => Bool.eq_false_iff.mp (none mk mem)
    cases found : splitFirst (fun mk => decide (mk.key = own)) markets with
    | none =>
      by_cases same : own = key
      · subst same
        rw [if_pos rfl, passed (splitFirst_none found)]
        rfl
      · rw [if_neg fun equal => same (Option.some.inj equal)]
    | some parts =>
      obtain ⟨pre, mk, post⟩ := parts
      obtain ⟨whole, here, before⟩ := splitFirst_some found
      have here : mk.key = own := of_decide_eq_true here
      dsimp only
      rw [whole]
      by_cases same : own = key
      · subst same
        rw [if_pos rfl, find?_append, find?_append, passed before, Option.none_or,
          Option.none_or, find?_cons_of_pos (by simpa using here),
          find?_cons_of_pos (by simpa using here)]
        rfl
      · have other : mk.key ≠ key := fun equal => same (here.symm.trans equal)
        rw [if_neg fun equal => same (Option.some.inj equal), find?_append,
          find?_append, find?_cons_of_neg (by simpa using other),
          find?_cons_of_neg (by simpa using other)]

theorem running_foldl_other (rows : List (List (Option Cell))) (markets : List Market)
    (others : ∀ cells ∈ rows, selectedKey cells ≠ some key) :
    running (rows.foldl restoreRow markets) key = running markets key := by
  induction rows generalizing markets with
  | nil => rfl
  | cons cells rows ih =>
    obtain ⟨here, later⟩ := forall_mem_cons.mp others
    rw [foldl_cons, ih _ later, running_restoreRow, if_neg here]

theorem running_restoreAll (mk : Market) (fit : TableFit table)
    (fits : Fits64 mk.key.marketId) (markets : List Market) :
    running (restoreAll (upsert table mk) markets) mk.key =
      (running markets mk.key).map fun fresh =>
        { fresh with session := hydrate (select (insertRow mk)) fresh.session } := by
  obtain ⟨pre, old, post, whole, keyed, others⟩ := upsert_split fit fits
  have away (rows : List Row) (sub : ∀ row ∈ rows, row ∈ pre ++ post) :
      ∀ cells ∈ rows.map select, selectedKey cells ≠ some mk.key := by
    intro cells mem
    obtain ⟨row, member, rfl⟩ := mem_map.mp mem
    exact others row (sub row member)
  rw [restoreAll, whole, map_append, map_cons, foldl_append, foldl_cons,
    running_foldl_other _ _ (away post fun row mem => mem_append_right _ mem),
    running_restoreRow, if_pos keyed.selectedKey,
    running_foldl_other _ _ (away pre fun row mem => mem_append_left _ mem)]
  simp only [hydrate_updateRow]

end Table

section RoundTrip

/-- Whatever a running market of the key had, it has the session of the row after the
restore, but for the manual ledger, which the row does not carry. -/
theorem persist_restore {table : List Row} (mk : Market) {fresh : Market} {markets : List Market}
    (stored : TableFit table) (fits : Fits64 mk.key.marketId) (fit : SessionFit mk.session)
    (found : running markets mk.key = some fresh) (sized : Sized fresh.session) :
    ∃ r, running (restoreAll (upsert table mk) markets) mk.key = some r ∧
      Restored mk.session r.session ∧ r.session.stats .manual = fresh.session.stats .manual ∧
      r.session.fills .manual = fresh.session.fills .manual := by
  refine ⟨{ fresh with session := hydrate (select (insertRow mk)) fresh.session }, ?_,
    restored_hydrate fit sized, rfl, rfl⟩
  rw [running_restoreAll mk stored fits, found]
  rfl

def fillRecord (f : MarketModel.FillSlot) : Fill :=
  ⟨f.tsMs, match f.side with | .buy => 98 | .sell => 115, f.qty, f.price, f.fee, f.slippage,
    f.realizedPnl, f.cashAfter, f.positionAfter, f.reason⟩

def emptyFill : Fill := ⟨0, 0, 0, 0, 0, 0, 0, 0, 0, []⟩

def ringRecord (fills : List MarketModel.FillSlot) : Ring :=
  ⟨fills.reverse.map fillRecord ++ replicate (fillRingCap - fills.length) emptyFill,
    fills.length, fills.length % fillRingCap⟩

def pendingRecord (p : MarketModel.Pending) : Pending :=
  ⟨p.coid, p.orderId, match p.side with | .buy => ascii "buy" | .sell => ascii "sell", p.limitPx,
    p.submittedQty, p.filledQty, p.submittedMs, p.gatewayAccepted, p.recordedTradeIds⟩

def emptyPending : Pending := ⟨[], [], [], 0, 0, 0, 0, false, []⟩

def positionRecord : Option MarketModel.Long → Position
  | none => ⟨false, 0, 0, 0⟩
  | some l => ⟨true, l.qty, l.avgEntryPx, l.openedAtMs⟩

def record (s : MarketModel.Session) : Session where
  mode := s.mode
  position := positionRecord s.position
  stats := s.stats
  fills := fun m => ringRecord (s.fills m)
  pending := s.pending.map pendingRecord ++
    replicate (maxPending - s.pending.length) emptyPending
  pendingN := s.pending.length
  lastMarkPx := s.lastMarkPx
  lastMarkMs := s.lastMarkMs
  lastActedSignal := s.lastActedSignal.map fun sig => ⟨sig.tsMs, sig.score, 0, sig.reason⟩
  feeBps := s.feeBps
  slipBps := s.slipBps
  sizeFrac := s.sizeFrac
  maxNotionalSats := s.maxNotionalSats
  dailyDrawdownBps := s.dailyDrawdownBps
  pendingCap := s.pendingCap

def btc : Key := ⟨1, ascii "mako"⟩

def added : Market := ⟨btc, record (MarketModel.newMarket .manual 10000).session⟩

def waiting : MarketModel.Pending :=
  ⟨ascii "c1", ascii "v1", .buy, 100, 1 / 2, 1 / 4, 7, true, [41]⟩

def traded : MarketModel.Session :=
  { (MarketModel.newMarket .paper 1000).session with
    position := some ⟨1, 100, 5, by norm_num⟩
    stats := fun m => match m with
      | .paper => { MarketModel.newStats 1000 with
          cash := 8999 / 10, lifetimeFees := 1 / 10, lifetimeFillsCount := 1, lastFillMs := 5 }
      | _ => MarketModel.newStats 1000
    fills := fun m => match m with
      | .paper => [⟨5, .buy, 1, 100, 1 / 10, 0, 0, 8999 / 10, 1, ascii "buy \"dip\""⟩]
      | _ => []
    pending := [waiting]
    lastActedSignal := some ⟨1, 5, ascii "cross"⟩ }

def Hundredths (x : ℚ) : Prop :=
  (x * 100).den = 1 ∧ |(x * 100).num| < 10 ^ 10 ∧ (x.den = 1 → Fits64 x.num)

instance (x : ℚ) : Decidable (Hundredths x) := inferInstanceAs (Decidable (_ ∧ _ ∧ _))

theorem amounts_of_hundredths {amounts : List ℚ} (all : ∀ x ∈ amounts, Hundredths x) :
    ∀ x ∈ amounts, Amount x := by
  intro x mem
  obtain ⟨whole, few, range⟩ := all x mem
  refine ⟨⟨(x * 100).num, -2, few, ?_⟩, range⟩
  rw [Rat.coe_int_num_of_den_eq_one whole]
  norm_num
  ring

theorem fit_emptyFill : FillFit emptyFill :=
  ⟨amounts_of_hundredths (by decide +kernel), by decide, by decide, by decide⟩

theorem fit_ringRecord {fills : List MarketModel.FillSlot} (few : fills.length ≤ fillRingCap)
    (each : ∀ f ∈ fills, FillFit (fillRecord f)) : RingFit (ringRecord fills) := by
  have cap : fillRingCap = 256 := rfl
  refine ⟨?_, ?_, ?_, ?_⟩
  · intro f mem
    rcases mem_append.mp mem with held | spare
    · obtain ⟨slot, member, rfl⟩ := mem_map.mp held
      exact each slot (mem_reverse.mp member)
    · rw [eq_of_mem_replicate spare]
      exact fit_emptyFill
  · simp only [ringRecord, length_append, length_map, length_reverse,
      length_replicate]
    omega
  · simp only [ringRecord]
    omega
  · simp only [ringRecord, cap]
    omega

theorem fit_waiting : PendingFit (pendingRecord waiting) := by
  refine ⟨amounts_of_hundredths (by decide +kernel), ?_, ?_, ?_, ?_, ?_, ?_⟩
  all_goals decide

theorem fit_traded : SessionFit (record traded) where
  amounts := fun x mem => (amounts_of_hundredths (by decide +kernel) x mem).1
  times := by decide
  paper := ⟨amounts_of_hundredths (by decide +kernel), by decide, by decide, by decide, by decide⟩
  real := ⟨amounts_of_hundredths (by decide +kernel), by decide, by decide, by decide, by decide⟩
  paperFills := by
    refine fit_ringRecord (by decide) fun f mem => ?_
    obtain rfl := mem_singleton.mp mem
    exact ⟨amounts_of_hundredths (by decide +kernel), by decide, by decide, by decide⟩
  realFills := fit_ringRecord (by decide) nofun
  pending := by
    intro p mem
    obtain rfl : p = pendingRecord waiting := mem_singleton.mp mem
    exact fit_waiting
  pendingSize := by decide
  pendingN := by decide
  pendingCap := by decide
  signal := by
    rintro sig found
    cases found
    exact ⟨amounts_of_hundredths (by decide +kernel), by decide, by decide⟩

theorem sized_added : Sized added.session :=
  ⟨length_replicate, length_replicate, by decide⟩

theorem tableFit_nil : TableFit [] :=
  ⟨nofun, nodup_nil⟩

theorem persist_restore_sample : ∃ r,
    running (restoreAll (upsert [] ⟨btc, record traded⟩) [added]) btc = some r ∧
      Restored (record traded) r.session ∧
      r.session.stats .manual = added.session.stats .manual ∧
      r.session.fills .manual = added.session.fills .manual :=
  persist_restore ⟨btc, record traded⟩ tableFit_nil (by decide) fit_traded rfl sized_added

def forced : MarketModel.Session :=
  (MarketEngine.forceTrade MarketModel.defaultKnobs ⟨true, 0, 0, 0, none, true⟩
    (MarketModel.newMarket .manual 10000) .buy 1 100 5 none).1.session

def rich : MarketModel.Session := (MarketModel.newMarket .paper (10 ^ 19)).session

/-- The position comes back, and the ledger that paid for it has never traded; a slot that holds no
fill comes back as a buy. An amount of `2 ^ 63` or more is cut down to `2 ^ 63 - 1`. -/
theorem not_persist_restore :
    (∃ r, running (restoreAll (upsert [] ⟨btc, record forced⟩) [added]) btc = some r ∧
      (forced.stats .manual).lifetimeFillsCount = 1 ∧
      (r.session.stats .manual).lifetimeFillsCount = 0 ∧
      (forced.stats .manual).cash = 10000 - 100 - 1 / 20 ∧
      (r.session.stats .manual).cash = 10000 ∧
      ((record forced).fills .paper).slots.head?.map Fill.side = some 0 ∧
      (r.session.fills .paper).slots.head?.map Fill.side = some 98) ∧
    ∃ r, running (restoreAll (upsert [] ⟨btc, record rich⟩) [added]) btc = some r ∧
      (rich.stats .paper).cash = 10 ^ 19 ∧ (r.session.stats .paper).cash = 2 ^ 63 - 1 := by
  have restored := running_restoreAll ⟨btc, record forced⟩ tableFit_nil (by decide) [added]
  have cut := running_restoreAll ⟨btc, record rich⟩ tableFit_nil (by decide) [added]
  exact ⟨⟨_, restored, by decide +kernel, rfl, by decide +kernel, rfl, by decide +kernel,
      by decide +kernel⟩,
    _, cut, rfl, by decide +kernel⟩

end RoundTrip

end BotManager.MarketRestore
