import BotManager.DeferredModel
import Mathlib.Order.Bounds.Basic

/-!
Deferred work is delivered at most once: a claim is in the hands of one delivery, or logged, or
returned, and an occurrence that is still pending has none.

The argument has three parts. A lock is held by one sweep, and what it locked stays due until it
commits. What a delivery holds was claimed by the bot it belongs to, and is past its check only if
it had not expired. The claims in hand and in the log are one list, which a turn leaves as it is,
adds the claim of a pending row to, or takes a claim from that is given back.
-/

namespace BotManager.DeferredOnce
open List DeferredModel FramePool StepRun

variable {frames frames' others calls : List Frame} {m m' : Desk} {bot i now ns id : ℕ}
    {taken waiting : List ℕ} {f : Frame} {cal : Calendar} {s : Sys} {row : Row}

/-! ## Locks -/

def lockedAt (m : Desk) (i : ℕ) : ℕ := ((m.rows i).any Row.locked).toNat

def locks (i : ℕ) (f : Frame) : ℕ := f.taken.count i

structure Locked (m : Desk) (frames : List Frame) : Prop where
  count : ∀ i, weigh (locks i) frames = lockedAt m i
  due : ∀ f ∈ frames, ∀ i ∈ f.taken, ∃ row, m.rows i = some row ∧ f.wants row = true

theorem lockedAt_le (m : Desk) (i : ℕ) : lockedAt m i ≤ 1 := Bool.toNat_le _

theorem Locked.held (inv : Locked m frames) (mem : f ∈ frames) (mine : i ∈ f.taken) :
    lockedAt m i = 1 := by
  have counted := le_weigh (locks i) mem
  have positive : 0 < f.taken.count i := count_pos_iff.mpr mine
  have bound := lockedAt_le m i
  rw [inv.count i, locks] at counted
  omega

def Open (row row' : Option Row) : Prop :=
  row' = row ∨ row.any Row.locked = false ∧ row'.any Row.locked = false

theorem Locked.swap (inv : Locked m frames) (rows : ∀ i, Open (m.rows i) (m'.rows i))
    (count : ∀ i, weigh (locks i) frames' = weigh (locks i) frames)
    (old : ∀ g ∈ frames', g.taken ≠ [] → g ∈ frames) : Locked m' frames' := by
  refine ⟨fun i => ?_, fun g mem i mine => ?_⟩
  · rw [count, inv.count, lockedAt, lockedAt]
    rcases rows i with same | ⟨before, after⟩
    · rw [same]
    · rw [before, after]
  · have there := old g mem (ne_nil_of_mem mine)
    have held := inv.held there mine
    rcases rows i with same | ⟨free, -⟩
    · rw [same]
      exact inv.due g there i mine
    · rw [lockedAt, free] at held
      cases held

theorem Locked.perm (inv : Locked m frames) (same : frames.Perm frames') : Locked m frames' :=
  inv.swap (fun _ => .inl rfl) (fun i => (weigh_perm (locks i) same).symm)
    fun _ mem _ => same.mem_iff.mpr mem

theorem weigh_locks (calm : ∀ g ∈ calls, g.taken = []) : weigh (locks i) calls = 0 :=
  weigh_eq_zero.mpr fun g mem => by rw [locks, calm g mem, count_nil]

theorem Locked.quiet (inv : Locked m (f :: others)) (still : f.taken = [])
    (calm : ∀ g ∈ calls, g.taken = []) (rows : ∀ i, Open (m.rows i) (m'.rows i)) :
    Locked m' (calls ++ others) := by
  refine inv.swap rows (fun i => ?_) fun g mem some => ?_
  · rw [weigh_append, weigh_locks calm, weigh_cons, locks, still, count_nil]
  · exact .tail _ ((mem_append.mp mem).resolve_left fun called => some (calm g called))

variable {after : Option Row} {o : Option ℕ} {r : Row}

theorem open_setRow (there : m.rows id = some row) (free : row.locked = false)
    (open_ : after.any Row.locked = false) :
    ∀ i, Open (m.rows i) ((m.setRow id after).rows i) := by
  refine setRow_rel (fun _ _ => .inl rfl) (.inr ⟨?_, open_⟩)
  rw [there, Option.any_some, free]

theorem deliveries_claim {g : Frame} (mem : g ∈ m.deliveries bot now taken) :
    ∃ i ∈ taken, ∃ row, m.rows i = some row ∧ g = .deliver (row.claimed i bot now) := by
  obtain ⟨i, sorted, made⟩ := mem_filterMap.mp mem
  obtain ⟨row, there, rfl⟩ := Option.map_eq_some_iff.mp made
  exact ⟨i, (perm_insertionSort (· ≤ ·) taken).mem_iff.mp sorted, row, there, rfl⟩

theorem Locked.commit (inv : Locked m (.sweep ns bot now waiting taken :: others)) :
    Locked (m.claimAll cal now taken) (m.deliveries bot now taken ++ others) := by
  have rows (i : ℕ) : (m.claimAll cal now taken).rows i =
      if i ∈ taken then (m.rows i).map (Row.claimDue cal now) else m.rows i := rfl
  have calm : ∀ g ∈ m.deliveries bot now taken, g.taken = [] := by
    intro g mem
    obtain ⟨i, -, row, -, rfl⟩ := deliveries_claim mem
    rfl
  have split (i : ℕ) : taken.count i + weigh (locks i) others = lockedAt m i := by
    have count := inv.count i
    rwa [weigh_cons] at count
  refine ⟨fun i => ?_, forall_mem_append.mpr ⟨fun g mem => ?_, fun g mem i mine => ?_⟩⟩
  · have split := split i
    rw [weigh_append, weigh_locks calm, Nat.zero_add]
    by_cases held : i ∈ taken
    · have one := inv.held (.head _) held
      have positive : 0 < taken.count i := count_pos_iff.mpr held
      have free : lockedAt (m.claimAll cal now taken) i = 0 := by
        rw [lockedAt, rows, if_pos held]
        cases m.rows i <;> rfl
      omega
    · have same : lockedAt (m.claimAll cal now taken) i = lockedAt m i := by
        rw [lockedAt, rows, if_neg held, lockedAt]
      rw [same, ← split, count_eq_zero.mpr held, Nat.zero_add]
  · rw [calm g mem]
    exact nofun
  · have theirs : g.taken.count i ≤ weigh (locks i) others := le_weigh (locks i) mem
    have positive : 0 < g.taken.count i := count_pos_iff.mpr mine
    have bound := lockedAt_le m i
    have zero : taken.count i = 0 := by
      have := split i
      omega
    rw [rows, if_neg (count_eq_zero.mp zero)]
    exact inv.due g (.tail _ mem) i mine

theorem Locked.lock {waiting' : List ℕ}
    (inv : Locked m (.sweep ns bot now waiting taken :: others)) (there : m.rows id = some row)
    (free : row.locked = false) (due : row.dueFor ns bot now = true) :
    Locked (m.setRow id (some { row with locked := true }))
      (.sweep ns bot now waiting' (taken ++ [id]) :: others) := by
  have unlocked : lockedAt m id = 0 := by
    rw [lockedAt, there, Option.any_some, free]
    rfl
  have same {g : Frame} (mem : g ∈ Frame.sweep ns bot now waiting taken :: others)
      {i : ℕ} (mine : i ∈ g.taken) :
      ∃ r, (m.setRow id (some { row with locked := true })).rows i = some r ∧ g.wants r = true := by
    have held := inv.held mem mine
    rw [setRow_of_ne (by rintro rfl; omega)]
    exact inv.due g mem i mine
  refine ⟨fun i => ?_, forall_mem_cons.mpr ⟨?_, fun g mem i => same (.tail _ mem)⟩⟩
  · have count := inv.count i
    rw [weigh_cons] at count ⊢
    have locked : (taken ++ [id]).count i + weigh (locks i) others =
        lockedAt m i + if id = i then 1 else 0 := by
      change taken.count i + _ = _ at count
      rw [count_append, count_singleton, ← count]
      simp only [beq_iff_eq]
      omega
    rw [lockedAt]
    refine locked.trans ?_
    by_cases here : i = id
    · subst here
      rw [setRow_self, unlocked, if_pos rfl]
      rfl
    · rw [setRow_of_ne here, if_neg (Ne.symm here)]
      rfl
  · refine forall_mem_append.mpr ⟨fun i => same (.head _), fun i new => ?_⟩
    rw [mem_singleton.mp new]
    exact ⟨_, setRow_self m id _, due⟩

theorem Locked.turn (inv : Locked m (f :: others)) (turn : Turn cal m f m' calls) :
    Locked m' (calls ++ others) := by
  cases turn with
  | commit => exact inv.commit
  | skip _ => exact ⟨inv.count, forall_mem_cons.mpr (forall_mem_cons.mp inv.due)⟩
  | lock _ there free due => exact inv.lock there free due
  | miss idle rest =>
    exact inv.quiet (idle_taken idle) (fun g mem => idle_taken (rest g mem)) fun _ => .inl rfl
  | lapse _ there free _ | present there free _ =>
    exact inv.quiet rfl (by simp [Frame.taken]) (open_setRow there free free)
  | stop there free => exact inv.quiet rfl (by simp) (open_setRow there free rfl)
  | putBack _ there free => exact inv.quiet rfl (by simp) (open_setRow there free free)
  | drop _ => exact inv.quiet rfl (by simp) fun _ => .inl rfl
  | pass _ before after idle _ _ =>
    refine inv.quiet (claim_taken before) (forall_mem_append.mpr ⟨fun g mem => ?_, ?_⟩)
      fun _ => .inl rfl
    · exact idle_taken (idle g mem)
    · simpa using claim_taken after
  | settle before _ => exact inv.quiet (claim_taken before) (by simp) fun _ => .inl rfl

/-! ## Whose claims are delivered -/

def Fit (f : Frame) : Prop :=
  ∀ c, f.claim = some c → c.speaker = c.owner ∧ (f ≠ .deliver c → c.expired = false)

structure Proper (m : Desk) (frames : List Frame) : Prop where
  claims : ∀ f ∈ frames, Fit f
  logged : ∀ e ∈ m.log, e.claim.speaker = e.claim.owner ∧
    ∀ refusing, e.fate = .spoken refusing → e.claim.expired = false

theorem Proper.perm (inv : Proper m frames) (same : frames.Perm frames') : Proper m frames' where
  claims f mem := inv.claims f (same.mem_iff.mpr mem)
  logged := inv.logged

theorem fit_silent (silent : f.claim = none) : Fit f := fun c has => by
  rw [silent] at has
  cases has

theorem Proper.turn (locked : Locked m (f :: others)) (inv : Proper m (f :: others))
    (turn : Turn cal m f m' calls) : Proper m' (calls ++ others) := by
  obtain ⟨mine, old⟩ := forall_mem_cons.mp inv.claims
  -- what is called, where nothing is logged
  have called {m' : Desk} {calls : List Frame} (fresh : ∀ g ∈ calls, Fit g)
      (log : m'.log = m.log) : Proper m' (calls ++ others) :=
    ⟨forall_mem_append.mpr ⟨fresh, old⟩, log ▸ inv.logged⟩
  have logs (claim : Claimed) (fate : Fate) (own : claim.speaker = claim.owner)
      (timely : ∀ refusing, fate = .spoken refusing → claim.expired = false) :
      ∀ e ∈ (m.record claim fate).log, e.claim.speaker = e.claim.owner ∧
        ∀ refusing, e.fate = .spoken refusing → e.claim.expired = false :=
    forall_mem_append.mpr ⟨inv.logged, forall_mem_singleton.mpr ⟨own, timely⟩⟩
  cases turn with
  | @commit ns bot now waiting taken =>
    refine called (fun g mem c has => ?_) rfl
    obtain ⟨i, held, row, there, rfl⟩ := deliveries_claim mem
    cases has
    obtain ⟨same, found, due⟩ := locked.due _ (.head _) i held
    cases there.symm.trans found
    exact ⟨(dueFor_iff.mp due).1.symm, fun other => absurd rfl other⟩
  | skip _ | lock => exact called (forall_mem_singleton.mpr (fit_silent rfl)) rfl
  | miss _ rest => exact called (fun g mem => fit_silent (idle_claim (rest g mem))) rfl
  | lapse _ _ _ lapsed =>
    exact ⟨forall_mem_cons.mpr ⟨fit_silent rfl, old⟩,
      logs _ _ (lapsedFor_iff.mp lapsed).1.symm nofun⟩
  | present there free present =>
    refine called (forall_mem_singleton.mpr fun c has => ?_) rfl
    cases has
    exact ⟨(presentFor_iff.mp present).1.symm, fun other => absurd rfl other⟩
  | stop | drop _ | putBack => exact called (by simp) rfl
  | @pass f g claim stops before after idle timely _ =>
    obtain ⟨own, checked⟩ := mine claim before
    have fresh : claim.expired = false := by
      by_cases first : f = .deliver claim
      · exact timely first
      · exact checked first
    refine called (forall_mem_append.mpr ⟨fun g mem => fit_silent (idle_claim (idle g mem)),
      forall_mem_singleton.mpr fun c has => ?_⟩) rfl
    cases after.symm.trans has
    exact ⟨own, fun _ => fresh⟩
  | @settle f claim fate before said =>
    obtain ⟨own, checked⟩ := mine claim before
    refine ⟨old, logs claim fate own fun refusing same => checked ?_⟩
    rw [(said refusing same).1]
    exact nofun

/-! ## One claim for an occurrence -/

def Ahead (row : Row) : Option ℕ → Prop
  | none => row.repeating = false
  | some d => row.repeating = true ∧ row.due ≤ d

def Alike (claim : Claimed) (row : Row) : Prop :=
  claim.repeating = row.repeating ∧ claim.owner = row.bot

structure RowOnce (row : Option Row) (count : Option ℕ → ℕ) : Prop where
  single : ∀ o, count o ≤ 1
  pending : ∀ r, row = some r → r.delivered = none → ∀ o, Ahead r o → count o = 0
  settled : ∀ r, row = some r → r.repeating = false → r.delivered ≠ none → count none = 1

def Kept (row row' : Option Row) : Prop :=
  ∀ r', row' = some r' → ∃ r, row = some r ∧ r'.repeating = r.repeating ∧ r'.bot = r.bot ∧
    r'.delivered = r.delivered ∧ r'.due = r.due

theorem Kept.refl (row : Option Row) : Kept row row :=
  fun r' found => ⟨r', found, rfl, rfl, rfl, rfl⟩

theorem kept_setRow (there : m.rows id = some row)
    (like : Kept (some row) after) : ∀ i, Kept (m.rows i) ((m.setRow id after).rows i) :=
  setRow_rel (fun _ => Kept.refl) (there ▸ like)

section RowOnce

variable {count count' : Option ℕ → ℕ} {r : Row}

theorem ahead_occurrence : Ahead row row.occurrence := by
  unfold Row.occurrence
  cases again : row.repeating with
  | false => exact again
  | true => exact ⟨again, le_refl _⟩

theorem Ahead.back (ahead : Ahead r o) (repeating : r.repeating = row.repeating)
    (due : row.due ≤ r.due) : Ahead row o := by
  cases o with
  | none => exact repeating.symm.trans ahead
  | some d => exact ⟨repeating.symm.trans ahead.1, due.trans ahead.2⟩

theorem RowOnce.keep {old new : Option Row} (inv : RowOnce old count) (kept : Kept old new)
    (fewer : ∀ o, count' o ≤ count o)
    (same : ∀ r, new = some r → r.repeating = false → count' none = count none) :
    RowOnce new count' := by
  refine ⟨fun o => (fewer o).trans (inv.single o), fun r' after waits o ahead => ?_,
    fun r' after once gone => ?_⟩
  · obtain ⟨r, before, repeating, -, delivered, due⟩ := kept r' after
    have zero := inv.pending r before (delivered ▸ waits) o (ahead.back repeating due.ge)
    exact Nat.le_zero.mp (zero ▸ fewer o)
  · obtain ⟨r, before, repeating, -, delivered, -⟩ := kept r' after
    rw [same r' after once]
    exact inv.settled r before (repeating ▸ once) (delivered ▸ gone)

theorem RowOnce.take (inv : RowOnce (some row) count) (repeating : r.repeating = row.repeating)
    (waits : row.delivered = none)
    (past : r.delivered ≠ none ∨ (row.repeating = true ∧ row.due < r.due))
    (more : ∀ o, count' o = count o + if row.occurrence = o then 1 else 0) :
    RowOnce (some r) count' := by
  have open_ := inv.pending row rfl waits
  refine ⟨fun o => ?_, fun s there waits' o ahead => ?_, fun s there once gone => ?_⟩
  · rw [more o]
    split
    next here =>
      subst here
      rw [open_ _ ahead_occurrence]
    next => exact inv.single o
  · cases there
    obtain ⟨again, later⟩ := past.resolve_left (not_not.mpr waits')
    rw [more o, open_ o (ahead.back repeating later.le), if_neg]
    -- the occurrence that was claimed now lies behind the row
    rintro rfl
    rw [Row.occurrence, if_pos again] at ahead
    exact absurd ahead.2 (not_le.mpr later)
  · cases there
    have oneShot : row.occurrence = none := by rw [Row.occurrence, ← repeating, once]; rfl
    rw [more, oneShot, if_pos rfl, open_ none (repeating.symm.trans once)]

theorem RowOnce.putBack (inv : RowOnce (some row) count) (repeating : r.repeating = row.repeating)
    (once : row.repeating = false) (waits : r.delivered = none) (fewer : ∀ o, count' o ≤ count o)
    (less : count' none + 1 = count none) : RowOnce (some r) count' := by
  refine ⟨fun o => (fewer o).trans (inv.single o), fun s there _ o ahead => ?_,
    fun s there _ gone => ?_⟩
  · cases there
    cases o with
    | none =>
      have single := inv.single none
      omega
    | some d =>
      have again := ahead.1
      rw [repeating, once] at again
      cases again
  · cases there
    exact absurd waits gone

end RowOnce

def claims (m : Desk) (frames : List Frame) : List Claimed :=
  frames.filterMap Frame.claim ++ m.log.map Entry.claim

def tally (cs : List Claimed) (i : ℕ) (o : Option ℕ) : ℕ :=
  cs.countP fun c => c.id = i ∧ c.occurrence = o

structure Once (m : Desk) (cs : List Claimed) : Prop where
  each : ∀ i, RowOnce (m.rows i) (tally cs i)
  fresh : ∀ i, m.nextRow ≤ i → m.rows i = none
  known : ∀ c ∈ cs, c.id < m.nextRow ∧ ∀ row, m.rows c.id = some row → Alike c row

variable {cs cs' : List Claimed} {claim : Claimed} {fate : Fate}

theorem tally_cons :
    tally (claim :: cs) i o =
      tally cs i o + if claim.id = i ∧ claim.occurrence = o then 1 else 0 := by
  rw [tally, countP_cons, ← tally]
  simp only [decide_eq_true_eq]

theorem Once.keep (inv : Once m cs) (next : m'.nextRow = m.nextRow)
    (rows : ∀ i, Kept (m.rows i) (m'.rows i)) (same : cs.Perm cs') : Once m' cs' := by
  have counts (i : ℕ) (o : Option ℕ) : tally cs' i o = tally cs i o := same.symm.countP_eq _
  refine ⟨fun i => (inv.each i).keep (rows i) (fun o => (counts i o).le) fun _ _ _ => counts i none,
    fun i high => ?_, fun c mem => ?_⟩
  · refine Option.eq_none_iff_forall_ne_some.mpr fun r' after => ?_
    obtain ⟨r, before, -⟩ := rows i r' after
    rw [inv.fresh i (next ▸ high)] at before
    cases before
  · obtain ⟨low, alike⟩ := inv.known c (same.mem_iff.mpr mem)
    refine ⟨next ▸ low, fun r' after => ?_⟩
    obtain ⟨r, before, repeating, bot, -, -⟩ := rows _ r' after
    obtain ⟨again, owner⟩ := alike r before
    exact ⟨again.trans repeating.symm, owner.trans bot.symm⟩

variable (there : m.rows id = some row)
include there

theorem Once.change (inv : Once m cs)
    (repeating : r.repeating = row.repeating) (bot : r.bot = row.bot)
    (here : RowOnce (some r) (tally cs' id)) (others : ∀ i ≠ id, tally cs' i = tally cs i)
    (new : ∀ c ∈ cs', c ∈ cs ∨ c.id = id ∧ Alike c row) : Once (m.setRow id (some r)) cs' := by
  have low : id < m.nextRow := by
    by_contra high
    rw [inv.fresh id (not_lt.mp high)] at there
    cases there
  refine ⟨fun i => ?_, fun i high => ?_, fun c mem => ?_⟩
  · by_cases same : i = id
    · subst same
      rwa [setRow_self]
    · rw [setRow_of_ne same, others i same]
      exact inv.each i
  · have high : m.nextRow ≤ i := high
    rw [setRow_of_ne (by omega)]
    exact inv.fresh i high
  · have known : c.id < m.nextRow ∧ ∀ row, m.rows c.id = some row → Alike c row := by
      rcases new c mem with old | ⟨rfl, alike⟩
      · exact inv.known c old
      · refine ⟨low, fun other found => ?_⟩
        cases there.symm.trans found
        exact alike
    refine ⟨known.1, fun r' after => ?_⟩
    by_cases same : c.id = id
    · rw [same, setRow_self] at after
      cases after
      obtain ⟨again, owner⟩ := known.2 row (same ▸ there)
      exact ⟨again.trans repeating.symm, owner.trans bot.symm⟩
    · rw [setRow_of_ne same] at after
      exact known.2 r' after

theorem Once.take (inv : Once m cs) (waits : row.delivered = none)
    (repeating : r.repeating = row.repeating) (owner : r.bot = row.bot)
    (past : r.delivered ≠ none ∨ (row.repeating = true ∧ row.due < r.due)) (bot now : ℕ) :
    Once (m.setRow id (some r)) (row.claimed id bot now :: cs) := by
  have same : (row.claimed id bot now).id = id := rfl
  have occurs : (row.claimed id bot now).occurrence = row.occurrence := rfl
  refine inv.change there repeating owner ?_ (fun i other => funext fun o => ?_) fun c mem => ?_
  · refine (there ▸ inv.each id).take repeating waits past fun o => ?_
    rw [tally_cons, same, occurs]
    simp only [true_and]
  · rw [tally_cons, same, if_neg fun both => other both.1.symm, Nat.add_zero]
  · rcases mem_cons.mp mem with rfl | old
    · exact .inr ⟨rfl, rfl, rfl⟩
    · exact .inl old

theorem Once.takeNow (inv : Once m cs)
    (waits : row.delivered = none) (bot now : ℕ) :
    Once (m.setRow id (some { row with delivered := some now })) (row.claimed id bot now :: cs) :=
  inv.take (r := { row with delivered := some now }) there waits rfl rfl
    (.inl (Option.some_ne_none now)) bot now

omit there

theorem Once.drop (inv : Once m (claim :: cs))
    (skipped : claim.repeating = true ∨ m.rows claim.id = none) : Once m cs := by
  refine ⟨fun i => (inv.each i).keep (Kept.refl _) (fun o => ?_) fun r found once => ?_, inv.fresh,
    fun c mem => inv.known c (.tail _ mem)⟩
  · rw [tally_cons]
    exact Nat.le_add_right _ _
  · rw [tally_cons, if_neg, Nat.add_zero]
    rintro ⟨rfl, none⟩
    rcases skipped with again | missing
    · rw [Claimed.occurrence, if_pos again] at none
      cases none
    · rw [missing] at found
      cases found

theorem Once.putBack (inv : Once m (claim :: cs)) (once : claim.repeating = false)
    (there : m.rows claim.id = some row) :
    Once (m.setRow claim.id (some { row with delivered := none })) cs := by
  have alike := (inv.known claim (.head _)).2 row there
  have oneShot : claim.occurrence = none := by rw [Claimed.occurrence, once]; rfl
  refine inv.change there rfl rfl ?_ (fun i other => funext fun o => ?_)
    fun c mem => .inl (.tail _ mem)
  · refine (there ▸ inv.each claim.id).putBack rfl (alike.1.symm.trans once) rfl (fun o => ?_) ?_
    · rw [tally_cons]
      exact Nat.le_add_right _ _
    · rw [tally_cons, oneShot, if_pos ⟨rfl, rfl⟩]
  · rw [tally_cons, if_neg fun both => other both.1.symm, Nat.add_zero]

/-! The commit of a sweep claims all its rows at once. -/

theorem advance_later {period due : ℕ} (positive : 0 < period) (reached : due ≤ now) :
    now < due + ((now - due) / period + 1) * period := by
  have split := Nat.div_add_mod (now - due) period
  have small := Nat.mod_lt (now - due) positive
  rw [Nat.add_mul, Nat.one_mul, Nat.mul_comm]
  omega

theorem Row.period_pos (again : row.repeating = true) (interval : row.repeatDays = 0) :
    0 < row.period := by
  have floor : repeatMin ≤ row.repeatSecs := by simpa [Row.repeating, interval] using again
  unfold repeatMin at floor
  unfold Row.period
  omega

theorem claimDue_later (again : row.repeating = true) (open_ : row.expired now = false)
    (reached : row.due ≤ now) : now < (row.claimDue cal now).due := by
  change now < row.advance cal now
  rw [Row.advance, if_neg (by simp [again, open_])]
  by_cases weekly : row.repeatDays ≠ 0
  · rw [if_pos weekly]
    exact cal.later _ _ _ _
  · rw [if_neg weekly]
    exact advance_later (Row.period_pos again (not_not.mp weekly)) reached

theorem claimDue_past (reached : row.due ≤ now) : (row.claimDue cal now).delivered ≠ none ∨
    (row.repeating = true ∧ row.due < (row.claimDue cal now).due) := by
  by_cases goes : row.repeating = true ∧ row.expired now = false
  · exact .inr ⟨goes.1, reached.trans_lt (claimDue_later goes.1 goes.2 reached)⟩
  · left
    rw [Row.claimDue, if_neg (by simpa using goes)]
    simp

theorem Once.takeAll (inv : Once m cs) (bot : ℕ) (nodup : taken.Nodup) (due : ∀ i ∈ taken,
    ∃ row, m.rows i = some row ∧ row.delivered = none ∧ row.due ≤ now) :
    Once (m.claimAll cal now taken)
      ((taken.filterMap fun i => (m.rows i).map fun row => row.claimed i bot now) ++ cs) := by
  induction taken generalizing m cs with
  | nil => exact inv.keep rfl (fun i => Kept.refl _) (.refl _)
  | cons id taken ih =>
    obtain ⟨fresh, nodup⟩ := nodup_cons.mp nodup
    obtain ⟨row, there, waits, reached⟩ := due id (.head _)
    have first := inv.take there waits (r := row.claimDue cal now) rfl rfl (claimDue_past reached)
      bot now
    have same {i : ℕ} (mem : i ∈ taken) :
        (m.setRow id (some (row.claimDue cal now))).rows i = m.rows i := by
      apply setRow_of_ne
      rintro rfl
      exact fresh mem
    have later := ih first nodup fun i mem => same mem ▸ due i (.tail _ mem)
    refine later.keep rfl (fun i => ?_) ?_
    · have rows : (m.claimAll cal now (id :: taken)).rows i =
          ((m.setRow id (some (row.claimDue cal now))).claimAll cal now taken).rows i := by
        simp only [Desk.claimAll]
        by_cases here : i = id
        · subst here
          rw [if_pos (.head _), if_neg fresh, setRow_self, there, Option.map_some]
        · rw [setRow_of_ne here]
          simp only [mem_cons, here, false_or]
      rw [rows]
      exact Kept.refl _
    · rw [filterMap_congr fun i mem => by rw [same mem], filterMap_cons, there]
      exact perm_middle

theorem Locked.nodup (inv : Locked m (f :: others)) : f.taken.Nodup := by
  refine nodup_iff_count_le_one.mpr fun i => ?_
  have count := inv.count i
  have bound := lockedAt_le m i
  rw [weigh_cons, locks] at count
  omega

theorem claims_some (has : f.claim = some claim) :
    claims m (f :: others) = claim :: claims m others := by
  rw [claims, filterMap_cons, has]
  rfl

theorem claims_silent (silent : ∀ g ∈ calls, g.claim = none) :
    claims m (calls ++ others) = claims m others := by
  rw [claims, filterMap_append, filterMap_eq_nil_iff.mpr silent, nil_append, claims]

theorem claims_record : (claim :: claims m frames).Perm (claims (m.record claim fate) frames) := by
  have log : (m.record claim fate).log.map Entry.claim = m.log.map Entry.claim ++ [claim] := by
    rw [Desk.record, map_append, map_singleton]
  rw [claims, claims, log, ← append_assoc]
  exact (perm_append_singleton claim _).symm

theorem Once.commit (inv : Once m (claims m others))
    (locked : Locked m (.sweep ns bot now waiting taken :: others)) :
    Once (m.claimAll cal now taken)
      (claims (m.claimAll cal now taken) (m.deliveries bot now taken ++ others)) := by
  have due : ∀ i ∈ taken, ∃ row, m.rows i = some row ∧ row.delivered = none ∧ row.due ≤ now := by
    intro i held
    obtain ⟨row, there, due⟩ := locked.due _ (.head _) i held
    obtain ⟨-, waits, reached, -⟩ := dueFor_iff.mp due
    exact ⟨row, there, waits, reached⟩
  refine (inv.takeAll bot locked.nodup due).keep rfl (fun i => Kept.refl _) ?_
  have made : (m.deliveries bot now taken).filterMap Frame.claim =
      (taken.insertionSort (· ≤ ·)).filterMap fun i =>
        (m.rows i).map fun row => row.claimed i bot now := by
    rw [Desk.deliveries, filterMap_filterMap]
    refine filterMap_congr fun i _ => ?_
    cases m.rows i <;> rfl
  rw [claims, claims, filterMap_append, made, append_assoc]
  exact ((perm_insertionSort (· ≤ ·) taken).symm.filterMap _).append_right _

theorem Once.turn (locked : Locked m (f :: others)) (inv : Once m (claims m (f :: others)))
    (turn : Turn cal m f m' calls) : Once m' (claims m' (calls ++ others)) := by
  have alone (idle : f.claim = none) : Once m (claims m others) := by
    rwa [← claims_silent (forall_mem_singleton.mpr idle)]
  cases turn with
  | commit => exact (alone rfl).commit locked
  | skip _ => exact alone rfl
  | lock _ there free due =>
    refine (alone rfl).keep rfl (kept_setRow there fun r' same => ?_) (.refl _)
    cases same
    exact ⟨_, rfl, rfl, rfl, rfl, rfl⟩
  | miss idle rest =>
    rw [claims_silent fun g mem => idle_claim (rest g mem)]
    exact alone (idle_claim idle)
  | @lapse ns bot now _ _ _ _ there free lapsed =>
    have taken := (alone rfl).takeNow there (lapsedFor_iff.mp lapsed).2.1 bot now
    exact taken.keep rfl (fun _ => Kept.refl _) claims_record
  | @present ns bot now _ _ there free present =>
    exact (alone rfl).takeNow there (presentFor_iff.mp present).2.1 bot now
  | stop there free => exact (alone rfl).keep rfl (kept_setRow there nofun) (.refl _)
  | drop skipped => exact inv.drop skipped
  | putBack once there free => exact inv.putBack once there
  | pass _ before after idle _ _ =>
    rw [claims_some before] at inv
    rw [append_assoc, claims_silent fun g mem => idle_claim (idle g mem)]
    exact (claims_some after).symm ▸ inv
  | settle before _ =>
    rw [claims_some before] at inv
    exact inv.keep rfl (fun _ => Kept.refl _) claims_record

/-! ## Runs -/

structure Inv (s : Sys) : Prop where
  locked : Locked s.desk s.threads.flatten
  proper : Proper s.desk s.threads.flatten
  once : Once s.desk (claims s.desk s.threads.flatten)

theorem claims_perm (same : frames.Perm frames') : (claims m frames).Perm (claims m frames') :=
  (same.filterMap _).append_right _

theorem inv_created : Inv created :=
  ⟨⟨fun _ => rfl, nofun⟩, ⟨nofun, nofun⟩, ⟨fun _ => ⟨fun _ => Nat.zero_le 1, nofun, nofun⟩,
    fun _ _ => rfl, nofun⟩⟩

variable (inv : Inv s)
include inv

theorem Inv.turn {rest : List Frame} (found : top s.threads i = some (f, rest))
    (turn : Turn cal s.desk f m calls) : Inv ⟨m, s.threads.set i (calls ++ rest)⟩ := by
  obtain ⟨before, after⟩ := turn_perm found
  have locked := inv.locked.perm before
  have once := inv.once.keep rfl (fun _ => Kept.refl _) (claims_perm before)
  exact ⟨(locked.turn turn).perm (after calls).symm,
    ((inv.proper.perm before).turn locked turn).perm (after calls).symm,
    (once.turn locked turn).keep rfl (fun _ => Kept.refl _) (claims_perm (after calls).symm)⟩

theorem Inv.spawn {frame : Frame} (silent : frame.claim = none)
    (still : frame.taken = []) : Inv (s.spawn frame) := by
  have frames : (s.spawn frame).threads.flatten = s.threads.flatten ++ [frame] :=
    flatten_spawn s.threads [frame]
  have calm : ∀ g ∈ [frame], g.taken = [] := forall_mem_singleton.mpr still
  refine ⟨inv.locked.swap (fun _ => .inl rfl) (fun i => ?_) fun g mem some => ?_,
    ⟨?_, inv.proper.logged⟩, ?_⟩
  · rw [frames, weigh_append, weigh_locks calm, Nat.add_zero]
  · rw [frames] at mem
    exact (mem_append.mp mem).resolve_right fun new => some (calm g new)
  · rw [frames]
    exact forall_mem_append.mpr ⟨inv.proper.claims,
      forall_mem_singleton.mpr (fit_silent silent)⟩
  · refine inv.once.keep rfl (fun _ => Kept.refl _) ?_
    rw [frames]
    refine .trans ?_ (claims_perm perm_append_comm)
    rw [claims_silent (forall_mem_singleton.mpr silent)]
    exact .refl _

theorem Inv.insert (row : Row) (free : row.locked = false)
    (waits : row.delivered = none) : Inv { s with desk := s.desk.insert row } := by
  have missing := inv.once.fresh s.desk.nextRow le_rfl
  have elsewhere {i : ℕ} (other : i ≠ s.desk.nextRow) : (s.desk.insert row).rows i = s.desk.rows i :=
    setRow_of_ne other _
  have zero (o : Option ℕ) : tally (claims s.desk s.threads.flatten) s.desk.nextRow o = 0 := by
    refine countP_eq_zero.mpr fun c mem here => ?_
    have low := (inv.once.known c mem).1
    have same := (of_decide_eq_true here).1
    omega
  refine ⟨inv.locked.swap ?_ (fun _ => rfl) fun _ mem _ => mem,
    ⟨inv.proper.claims, inv.proper.logged⟩, fun i => ?_, fun i high => ?_, fun c mem => ?_⟩
  · refine setRow_rel (fun _ _ => .inl rfl) (.inr ⟨?_, free⟩)
    rw [missing, Option.any_none]
  · change RowOnce ((s.desk.insert row).rows i) (tally (claims s.desk s.threads.flatten) i)
    by_cases new : i = s.desk.nextRow
    · subst new
      have here : (s.desk.insert row).rows s.desk.nextRow = some row := setRow_self s.desk _ _
      rw [here]
      refine ⟨fun o => (zero o).le.trans (Nat.zero_le 1), fun _ _ _ o _ => zero o,
        fun r there _ gone => ?_⟩
      cases there
      exact absurd waits gone
    · rw [elsewhere new]
      exact inv.once.each i
  · have above : s.desk.nextRow + 1 ≤ i := high
    exact (elsewhere (by omega)).trans (inv.once.fresh i (by omega))
  · obtain ⟨low, alike⟩ := inv.once.known c mem
    refine ⟨Nat.lt_succ_of_lt low, fun r there => alike r ?_⟩
    exact (elsewhere (by omega)).symm.trans there

theorem Inv.rework (next : m.nextRow = s.desk.nextRow) (log : m.log = s.desk.log)
    (locked : Locked m s.threads.flatten) (rows : ∀ i, Kept (s.desk.rows i) (m.rows i)) :
    Inv { s with desk := m } := by
  refine ⟨locked, ⟨inv.proper.claims, log ▸ inv.proper.logged⟩, inv.once.keep next rows ?_⟩
  rw [claims, claims, log]

theorem Inv.merged (survivor : ℕ) (absorbed : List ℕ) (store : DossierModel.Store) :
    Inv { s with desk := s.desk.merged survivor absorbed store } := by
  have rows (i : ℕ) : (s.desk.merged survivor absorbed store).rows i =
      (s.desk.rows i).map (Row.detach absorbed) := rfl
  refine inv.rework rfl rfl ⟨fun i => ?_, fun f mem i mine => ?_⟩ fun i r' found => ?_
  · rw [inv.locked.count i, lockedAt, lockedAt, rows]
    cases s.desk.rows i <;> rfl
  · obtain ⟨row, there, due⟩ := inv.locked.due f mem i mine
    refine ⟨row.detach absorbed, by rw [rows, there, Option.map_some], ?_⟩
    cases f <;> exact due
  · obtain ⟨row, there, rfl⟩ := Option.map_eq_some_iff.mp ((rows i).symm.trans found)
    exact ⟨row, there, rfl, rfl, rfl, rfl⟩

theorem Inv.step {t : Sys} {op : Op} (moved : step cal s op = some t) : Inv t := by
  cases op with
  | turn i yes =>
    obtain ⟨⟨f, rest⟩, found, turned⟩ := Option.bind_eq_some_iff.mp moved
    obtain ⟨⟨m, calls⟩, ran, rfl⟩ := Option.map_eq_some_iff.mp turned
    exact inv.turn found (act_turn ran)
  | sweep ns bot now order | presenceScan ns bot now order =>
    obtain ⟨-, rfl⟩ := fired moved
    exact inv.spawn rfl rfl
  | sighting ns bot now id =>
    cases moved
    exact inv.spawn rfl rfl
  | insert o =>
    obtain ⟨-, rfl⟩ := fired moved
    exact inv.insert o.row rfl rfl
  | cancel id =>
    obtain ⟨m, removed, rfl⟩ := Option.map_eq_some_iff.mp moved
    rcases remove_cases removed with rfl | ⟨row, there, free, rfl⟩
    · exact inv
    · exact inv.rework rfl rfl
        (inv.locked.swap (open_setRow there free rfl) (fun _ => rfl) fun _ mem _ => mem)
        (kept_setRow there nofun)
  | meet ns sig label =>
    cases moved
    exact inv.rework rfl rfl ⟨inv.locked.count, inv.locked.due⟩ fun _ => Kept.refl _
  | optout id out req =>
    obtain ⟨-, rfl⟩ := fired moved
    exact inv.rework rfl rfl ⟨inv.locked.count, inv.locked.due⟩ fun _ => Kept.refl _
  | merge survivor absorbed =>
    rw [DeferredModel.step] at moved
    split at moved
    next => cases moved
    next =>
      obtain ⟨store, -, rfl⟩ := Option.map_eq_some_iff.mp moved
      exact inv.merged survivor absorbed store

omit inv

/-! ## At most once -/

def spoken (s : Sys) : List Claimed :=
  s.desk.log.filterMap fun e =>
    match e.fate with
    | .spoken _ => some e.claim
    | .expired | .optedOut => none

theorem mem_spoken {c : Claimed} (mem : c ∈ spoken s) :
    ∃ e ∈ s.desk.log, e.claim = c ∧ ∃ refusing, e.fate = .spoken refusing := by
  obtain ⟨e, there, made⟩ := mem_filterMap.mp mem
  refine ⟨e, there, ?_⟩
  split at made
  next refusing same => exact ⟨Option.some.inj made, refusing, same⟩
  next => cases made
  next => cases made

theorem countP_spoken_le {p : Claimed → Bool}
    (one : ∀ c, p c = true → c.id = i ∧ c.occurrence = o) :
    (spoken s).countP p ≤ tally (claims s.desk s.threads.flatten) i o := by
  have part : (spoken s).Sublist (s.desk.log.map Entry.claim) := by
    unfold spoken
    induction s.desk.log with
    | nil => exact .slnil
    | cons e log ih =>
      rw [filterMap_cons, map_cons]
      split
      next => exact ih.cons _
      next c made =>
        split at made
        · cases made
          exact ih.cons_cons _
        · cases made
        · cases made
  calc
    (spoken s).countP p ≤ (s.desk.log.map Entry.claim).countP p := part.countP_le
    _ ≤ tally (s.desk.log.map Entry.claim) i o :=
      countP_mono_left fun c _ holds => decide_eq_true (one c holds)
    _ ≤ tally (claims s.desk s.threads.flatten) i o := (sublist_append_right _ _).countP_le

def Interval (row : Row) : Prop := row.repeating = true ∧ row.repeatDays = 0

theorem advance_least (interval : Interval row) (open_ : row.expired now = false)
    (reached : row.due ≤ now) :
    IsLeast {t | ∃ k, t = row.due + k * row.period ∧ now < t} (row.claimDue cal now).due := by
  have written : (row.claimDue cal now).due =
      row.due + ((now - row.due) / row.period + 1) * row.period := by
    change row.advance cal now = _
    rw [Row.advance, if_neg (by simp [interval.1, open_]), if_neg (not_not.mpr interval.2)]
  refine ⟨⟨_, written, claimDue_later interval.1 open_ reached⟩, ?_⟩
  rintro t ⟨k, rfl, later⟩
  have above : (now - row.due) / row.period < k := by
    rw [Nat.div_lt_iff_lt_mul (Row.period_pos interval.1 interval.2)]
    omega
  have steps : ((now - row.due) / row.period + 1) * row.period ≤ k * row.period :=
    Nat.mul_le_mul_right _ above
  omega

theorem claimDue_expired (late : row.expired now = true) :
    row.claimDue cal now = { row with delivered := some now, locked := false } := by
  have kept : row.advance cal now = row.due := if_pos (.inr late)
  simp only [Row.claimDue, kept, late, Bool.not_true, Bool.and_false, Bool.false_eq_true, if_false]

structure AtMostOnce (cal : Calendar) (s : Sys) : Prop where
  oneShot : ∀ i, (spoken s).countP (fun c => c.id = i ∧ c.repeating = false) ≤ 1
  occurrence : ∀ i d, (spoken s).countP (fun c => c.id = i ∧ c.repeating = true ∧ c.due = d) ≤ 1
  rightful : ∀ c ∈ spoken s, c.speaker = c.owner ∧ c.expired = false ∧
    ∀ row, s.desk.rows c.id = some row → c.repeating = row.repeating ∧ c.owner = row.bot
  advance : ∀ row now, Interval row → row.expired now = false → row.due ≤ now →
    IsLeast {t | ∃ k, t = row.due + k * row.period ∧ now < t} (row.claimDue cal now).due
  lapsed : ∀ (row : Row) (now : ℕ), row.expired now = true →
    row.claimDue cal now = { row with delivered := some now, locked := false }
  returned : ∀ i row, s.desk.rows i = some row → row.repeating = false →
    (∀ f ∈ s.threads.flatten, f.claim.map Claimed.id ≠ some i) →
    (∀ e ∈ s.desk.log, e.claim.id ≠ i) → row.delivered = none

theorem Inv.atMostOnce (inv : Inv s) : AtMostOnce cal s := by
  have single (i : ℕ) (o : Option ℕ) : tally (claims s.desk s.threads.flatten) i o ≤ 1 :=
    (inv.once.each i).single o
  refine ⟨fun i => ?_, fun i d => ?_, fun c mem => ?_, fun row now => advance_least,
    fun row now => claimDue_expired, ?_⟩
  · refine (countP_spoken_le fun c holds => ?_).trans (single i none)
    obtain ⟨same, once⟩ := of_decide_eq_true holds
    exact ⟨same, by rw [Claimed.occurrence, once]; rfl⟩
  · refine (countP_spoken_le fun c holds => ?_).trans (single i (some d))
    obtain ⟨same, again, due⟩ := of_decide_eq_true holds
    exact ⟨same, by rw [Claimed.occurrence, again, due]; rfl⟩
  · obtain ⟨e, there, rfl, refusing, said⟩ := mem_spoken mem
    obtain ⟨own, timely⟩ := inv.proper.logged e there
    have all := mem_append_right (s.threads.flatten.filterMap Frame.claim)
      (mem_map_of_mem (f := Entry.claim) there)
    exact ⟨own, timely refusing said, (inv.once.known _ all).2⟩
  · intro i row there once idle unsettled
    by_contra delivered
    have one := (inv.once.each i).settled row there once delivered
    obtain ⟨c, mem, here⟩ := countP_pos_iff.mp (one.ge.trans' Nat.zero_lt_one)
    have same := (of_decide_eq_true here).1
    rcases mem_append.mp mem with held | logged
    · obtain ⟨f, inThread, has⟩ := mem_filterMap.mp held
      exact idle f inThread (by rw [has, ← same]; rfl)
    · obtain ⟨e, inLog, rfl⟩ := mem_map.mp logged
      exact unsettled e inLog same

theorem delivered_once (cal : Calendar) {labels : List Op} {s : Sys}
    (run : Run (step cal) Any created labels s) : AtMostOnce cal s :=
  (run.invariant (fun inv _ moved => inv.step moved) inv_created).atMostOnce

def daily : Calendar where
  next _ _ _ now := now + 86400000000
  later _ _ _ now := by omega

def reminder (secs : ℕ) (expires : Option ℕ) : Order :=
  { ns := 1, bot := 1, dossier := 0, source := .remind, kind := .say, repeatSecs := secs
    repeatDays := 0, repeatMinute := 0, tz := [], onPresence := false, due := 100
    expires := expires }

def overlapping : List Op :=
  [.insert (reminder 0 none), .insert (reminder 300 none), .sweep 1 1 200 [0, 1],
    .sweep 1 1 250 [0, 1], .turn 0 true, .turn 1 true, .turn 1 true, .turn 0 true] ++
  replicate 6 (.turn 0 true) ++ replicate 6 (.turn 1 true)

theorem delivered_once_overlapping :
    ∃ s, Run (step daily) Any created overlapping s ∧
      (spoken s).map (fun c => (c.id, c.due)) = [(0, 100), (1, 100)] ∧ AtMostOnce daily s := by
  have run : Run (step daily) Any created overlapping _ := run_get (by decide +kernel)
  exact ⟨_, run, by decide +kernel, delivered_once daily run⟩

def lateClaim : List Op :=
  [.insert (reminder 300 (some 150)), .sweep 1 1 200 [0], .turn 0 true, .turn 0 true]

/-- A repeat that had expired is claimed like a one-shot: its due time stays where it was. -/
theorem expired_repeat_stays :
    ∃ s, Run (step daily) Any created lateClaim s ∧
      ∃ row, s.desk.rows 0 = some row ∧ Interval row ∧ row.delivered = some 200 ∧ row.due = 100 :=
  ⟨_, run_get (by decide +kernel), _, (Option.some_get (by decide +kernel)).symm,
    ⟨by decide +kernel, by decide +kernel⟩, by decide +kernel⟩

end BotManager.DeferredOnce
