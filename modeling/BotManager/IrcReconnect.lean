import BotManager.IrcModel

/-!
What the IRC driver's backoff keeps: the references counted by their holders, and the slot for
the one task that may be armed.

The slot stays exact as long as no call of `irc_arm_reconnect` reserves it while another one is
still between its two locked sections. The flag alone does not keep such calls apart: a task that
fires early clears it for the call that submitted it.
-/

namespace BotManager.IrcReconnect
open List IrcModel FramePool StepRun

/-! ## References -/

@[simp] def late : Frame → Bool
  | .cancel | .cancelTask _ | .detach => true
  | _ => false

@[simp] def part : Frame → Bool
  | .submit | .store _ | .unwanted _ | .clear _ | .cancelTask (some _) => true
  | _ => false

def plain : Frame → Bool
  | .look | .take | .attempt | .loadConfig | .openSession | .dial | .disconnect
  | .sockDestroy _ => true
  | _ => false

structure Counted (m : Irc) (frames : List Frame) : Prop where
  refs : m.refs = m.registered.toNat + m.live.length + m.queued.length + weigh carries frames
  freed : m.freed = if m.refs = 0 then 1 else 0
  alive : m.dead = false → m.registered = true ∨ .retire ∈ frames
  past : ∀ f ∈ frames, late f = true → m.dead = true

variable {f : Frame} {m m' : Irc} {others frames calls : List Frame} {s : Sys} {h k : ℕ}

theorem act_plain (yes : Bool) (quiet : plain f = true) :
    (∃ session shutdown, (act m yes f).1 = { m with session := session, shutdown := shutdown }) ∧
      ∀ g ∈ (act m yes f).2, carries g = 0 ∧ late g = false ∧ part g = false := by
  cases f with
  | look | attempt | loadConfig | dial =>
    refine ⟨⟨m.session, m.shutdown, rfl⟩, ?_⟩
    rw [act]
    split <;> simp
  | openSession =>
    refine ⟨⟨m.session, m.shutdown, rfl⟩, ?_⟩
    rw [act]
    split_ifs <;> simp
  | take =>
    refine ⟨⟨none, m.shutdown, rfl⟩, ?_⟩
    rw [act]
    cases m.session <;> simp
  | disconnect => exact ⟨⟨m.session, true, rfl⟩, by simp [act]⟩
  | sockDestroy session => exact ⟨⟨m.session, m.shutdown, rfl⟩, by simp [act]⟩
  | _ => cases quiet

theorem Counted.held (inv : Counted m frames) (alive : m.dead = false) :
    m.refs ≠ 0 ∧ m.freed = 0 := by
  have positive : m.refs ≠ 0 := by
    have refs := inv.refs
    rcases inv.alive alive with there | mem
    · rw [there, Bool.toNat_true] at refs
      omega
    · have weight := le_weigh carries mem
      simp only [carries] at weight
      omega
  have freed := inv.freed
  rw [if_neg positive] at freed
  exact ⟨positive, freed⟩

theorem taskCancel_cases (m : Irc) (h : Option ℕ) :
    m.taskCancel h = (m, false) ∨ ∃ k, h = some k ∧ k ∈ m.queued ∧
      m.taskCancel h = ({ m with queued := m.queued.erase k }, true) := by
  rcases h with _ | k
  · exact .inl rfl
  · by_cases mem : k ∈ m.queued
    · exact .inr ⟨k, rfl, mem, by simp only [Irc.taskCancel, mem, ↓reduceIte]⟩
    · exact .inl (by simp only [Irc.taskCancel, mem, ↓reduceIte])

theorem release_eq : m.release =
    { m with refs := m.refs - 1, freed := if m.refs - 1 = 0 then m.freed + 1 else m.freed } := by
  unfold Irc.release
  by_cases last : m.refs - 1 = 0 <;> simp [last]

section Counting

variable (inv : Counted m (f :: others))
include inv

theorem Counted.change (calls : List Frame) (plain : f ≠ .retire) (dead : m'.dead = m.dead)
    (registered : m'.registered = m.registered) (freed : m'.freed = if m'.refs = 0 then 1 else 0)
    (refs : m'.refs + (m.live.length + m.queued.length + carries f) = m.refs + (m'.live.length + m'.queued.length + weigh carries calls))
    (calm : ∀ g ∈ calls, late g = true → m.dead = true) : Counted m' (calls ++ others) := by
  refine ⟨?_, freed, fun alive => ?_, fun g mem marked => ?_⟩
  · have before := inv.refs
    rw [weigh_cons] at before
    rw [weigh_append, registered]
    omega
  · rw [dead] at alive
    rw [registered]
    rcases inv.alive alive with there | mem
    · exact .inl there
    · exact .inr (mem_append_right _ ((mem_cons.mp mem).resolve_left plain.symm))
  · rw [dead]
    rcases mem_append.mp mem with called | there
    · exact calm g called marked
    · exact inv.past g (.tail _ there) marked

theorem Counted.dropped (carrier : carries f = 1) (plain : f ≠ .retire) :
    Counted m.release others := by
  have refs := inv.refs
  have freed := inv.freed
  rw [weigh_cons, carrier] at refs
  rw [if_neg (by omega : m.refs ≠ 0)] at freed
  rw [release_eq, freed]
  refine inv.change [] plain rfl rfl rfl ?_ (fun _ => (nomatch ·))
  rw [carrier, weigh_nil]
  dsimp only
  omega

theorem Counted.returned (h : Option ℕ) (plain : f ≠ .retire) (free : carries f = 0) :
    Counted (giveBack (m.taskCancel h)).1 ((giveBack (m.taskCancel h)).2 ++ others) := by
  rcases taskCancel_cases m h with missed | ⟨k, -, mem, taken⟩
  · rw [missed]
    exact inv.change [] plain rfl rfl inv.freed (by rw [free]; rfl)
      (fun _ => (nomatch ·))
  · rw [taken]
    refine inv.change [.release] plain rfl rfl inv.freed ?_ (by simp)
    have size := length_erase_of_mem mem
    have some := length_pos_of_mem mem
    rw [free]
    simp only [giveBack, weigh_cons, weigh_nil, carries, size]
    omega

theorem Counted.plain (yes : Bool) (quiet : plain f = true) :
    Counted (act m yes f).1 ((act m yes f).2 ++ others) := by
  obtain ⟨⟨session, shutdown, same⟩, calls⟩ := act_plain (m := m) yes quiet
  have none : weigh carries (act m yes f).2 = 0 := weigh_eq_zero.mpr fun g mem => (calls g mem).1
  have free : carries f = 0 := by cases f <;> first | rfl | cases quiet
  rw [same]
  refine inv.change _ (by rintro rfl; cases quiet) rfl rfl inv.freed (by rw [none, free])
    fun g mem marked => ?_
  exact absurd ((calls g mem).2.1.symm.trans marked) Bool.false_ne_true

theorem Counted.turn (yes : Bool) : Counted (act m yes f).1 ((act m yes f).2 ++ others) := by
  have freed := inv.freed
  cases f with
  | arm =>
    rw [act]
    split
    next free =>
      have held := inv.held free.1
      refine inv.change _ (by simp) rfl rfl ?_ ?_ (by simp)
      · simpa using held.2
      · simp only [Irc.hold, weigh_cons, weigh_nil, carries]
        omega
    next => exact inv.change _ (by simp) rfl rfl freed (by simp) (by simp)
  | submit =>
    rw [act]
    split
    · refine inv.change _ (by simp) rfl rfl freed ?_ (by simp)
      simp only [weigh_cons, weigh_nil, carries, length_append, length_cons,
        length_nil]
      omega
    · exact inv.change _ (by simp) rfl rfl freed (by simp) (by simp)
  | store h =>
    refine inv.change _ (by simp) rfl rfl freed ?_ ?_
    · cases h with
      | none => simp [act]
      | some h => cases arming : m.arming <;> simp [act, arming]
    · cases h with
      | none => simp [act]
      | some h => cases arming : m.arming <;> simp [act, arming]
  | unwanted h => exact inv.returned (some h) (by simp) rfl
  | clear h =>
    exact inv.change _ (by simp) rfl rfl freed (by simp [act]) (by simp [act])
  | look | take | attempt | loadConfig | openSession | dial | disconnect | sockDestroy _ =>
    exact inv.plain yes rfl
  | taskEnd | release => exact inv.dropped rfl (by simp)
  | install =>
    rw [act]
    split
    next open_ =>
      have held := inv.held open_.2
      refine inv.change _ (by simp) rfl rfl ?_ ?_ (by simp)
      · simpa using held.2
      · simp only [Irc.hold, weigh_cons, weigh_nil, carries, length_cons]
        omega
    next =>
      refine inv.change _ (by simp) rfl rfl freed ?_ ?_
      · split <;> simp
      · split <;> simp
  | silence | retire =>
    have refs := inv.refs
    refine ⟨?_, freed, (nomatch ·), fun _ _ _ => rfl⟩
    simpa [act] using refs
  | cancel =>
    have dead := inv.past .cancel mem_cons_self rfl
    exact inv.change _ (by simp) rfl rfl freed (by simp [act]) fun _ _ _ => dead
  | cancelTask h => exact inv.returned h (by simp) (by cases h <;> rfl)
  | detach =>
    have dead := inv.past .detach mem_cons_self rfl
    refine inv.change _ (by simp) rfl rfl freed ?_ fun _ _ _ => dead
    rw [act]
    cases m.session <;> simp

end Counting

/-! ## The slot -/

def Pending (m : Irc) (frames : List Frame) (h : ℕ) : Prop :=
  h ∈ m.queued ∨ .clear h ∈ frames

def holds (task : Option ℕ) (h : ℕ) : ℕ := if task = some h then 1 else 0

structure Slot (m : Irc) (frames : List Frame) : Prop where
  single : weigh flying frames ≤ 1
  flagged : m.arming = true → 1 ≤ weigh flying frames
  vacant : 1 ≤ weigh flying frames → m.task = none
  ahead : m.queued.length + weigh ahead frames ≤ 1
  owned : ∀ h, holds m.task h + weigh (owns h) frames ≤ 1
  fresh : ∀ h, m.nextTask ≤ h → m.task ≠ some h ∧ weigh (owns h) frames = 0
  named : ∀ h, m.task = some h → Pending m frames h
  stored : ∀ h, m.arming = true → .store (some h) ∈ frames → Pending m frames h
  reserved : m.dead = false → .submit ∈ frames → m.arming = true
  tracked : ∀ h, m.dead = false → Pending m frames h →
    m.task = some h ∨ m.arming = true ∧ .store (some h) ∈ frames

variable {frames' : List Frame}

theorem Slot.congr (inv : Slot m frames) (same : frames.Perm frames')
    (arming : m'.arming = m.arming) (task : m'.task = m.task) (queued : m'.queued = m.queued)
    (next : m'.nextTask = m.nextTask) (dead : m'.dead = false → m.dead = false) :
    Slot m' frames' := by
  have pending h : Pending m' frames' h ↔ Pending m frames h := by
    rw [Pending, Pending, queued, same.mem_iff]
  have weight w := weigh_perm w same
  constructor
  · exact weight flying ▸ inv.single
  · exact weight flying ▸ arming ▸ inv.flagged
  · exact weight flying ▸ task ▸ inv.vacant
  · exact weight IrcModel.ahead ▸ queued ▸ inv.ahead
  · exact fun h => weight (owns h) ▸ task ▸ inv.owned h
  · exact fun h => weight (owns h) ▸ next ▸ task ▸ inv.fresh h
  · exact fun h named => (pending h).mpr (inv.named h (task ▸ named))
  · exact fun h armed mem =>
      (pending h).mpr (inv.stored h (arming ▸ armed) (same.mem_iff.mpr mem))
  · exact fun alive mem => arming ▸ inv.reserved (dead alive) (same.mem_iff.mpr mem)
  · intro h alive there
    rw [task, arming, ← same.mem_iff]
    exact inv.tracked h (dead alive) ((pending h).mp there)

theorem Slot.perm (same : frames.Perm frames') (inv : Slot m frames) :
    Slot m frames' := inv.congr same rfl rfl rfl rfl id

theorem flying_pos (none : weigh flying frames = 0) :
    .submit ∉ frames ∧ ∀ h, .store h ∉ frames := by
  have zero := weigh_eq_zero.mp none
  exact ⟨fun mem => Nat.one_ne_zero (zero _ mem), fun h mem => Nat.one_ne_zero (zero _ mem)⟩

theorem not_clear (none : weigh ahead frames = 0) :
    .clear h ∉ frames := fun mem => Nat.one_ne_zero (weigh_eq_zero.mp none _ mem)

theorem parts_append (apart : ∀ g ∈ calls, part g = false) (frames : List Frame) :
    (calls ++ frames).filter part = frames.filter part := by
  have none : calls.filter part = [] :=
    filter_eq_nil_iff.mpr fun g mem => Bool.eq_false_iff.mp (apart g mem)
  rw [filter_append, none, nil_append]

theorem Slot.keep (inv : Slot m ((f :: others).filter part)) (apart : part f = false)
    (calm : ∀ g ∈ calls, part g = false) (arming : m'.arming = m.arming) (task : m'.task = m.task)
    (queued : m'.queued = m.queued) (next : m'.nextTask = m.nextTask)
    (dead : m'.dead = false → m.dead = false) : Slot m' ((calls ++ others).filter part) := by
  rw [filter_cons_of_neg (Bool.eq_false_iff.mp apart)] at inv
  rw [parts_append calm]
  exact inv.congr (.refl _) arming task queued next dead

theorem Slot.plain (yes : Bool) (inv : Slot m ((f :: others).filter part))
    (quiet : plain f = true) : Slot (act m yes f).1 (((act m yes f).2 ++ others).filter part) := by
  obtain ⟨⟨session, shutdown, same⟩, calls⟩ := act_plain (m := m) yes quiet
  have apart : part f = false := by cases f <;> first | rfl | cases quiet
  rw [same]
  exact inv.keep apart (fun g mem => (calls g mem).2.2) rfl rfl rfl rfl id

theorem Slot.idle (inv : Slot m frames) (free : m.Free) (alone : weigh flying frames = 0) :
    m.queued = [] ∧ weigh IrcModel.ahead frames = 0 := by
  obtain ⟨alive, unarmed, empty⟩ := free
  have none h : ¬Pending m frames h := by
    intro pending
    rcases inv.tracked h alive pending with named | ⟨armed, -⟩
    · exact Option.some_ne_none h (named.symm.trans empty)
    · exact Bool.false_ne_true (unarmed.symm.trans armed)
  refine ⟨eq_nil_iff_forall_not_mem.mpr fun h mem => none h (.inl mem), ?_⟩
  refine weigh_eq_zero.mpr fun f mem => ?_
  cases f with
  | submit => exact absurd mem (flying_pos alone).1
  | clear h => exact absurd (.inr mem) (none h)
  | _ => rfl

theorem Slot.arm (inv : Slot m others) (free : m.Free) (alone : weigh flying others = 0) :
    Slot { m with arming := true }.hold (.submit :: others) := by
  obtain ⟨queue, clears⟩ := inv.idle free alone
  obtain ⟨alive, unarmed, empty⟩ := free
  obtain ⟨noSubmit, noStore⟩ := flying_pos alone
  have owned := inv.owned
  have fresh := inv.fresh
  constructor
  · simp [alone]
  · simp
  · exact fun _ => empty
  · simp [queue, clears]
  · simpa using owned
  · simpa using fresh
  · exact fun h named => absurd (named.symm.trans empty) (by simp)
  · exact fun h _ mem => absurd ((mem_cons.mp mem).resolve_left (by simp)) (noStore _)
  · exact fun _ _ => rfl
  · intro h _ pending
    rcases pending with waiting | cleared
    · exact absurd (show h ∈ m.queued from waiting) (by simp [queue])
    · exact absurd ((mem_cons.mp cleared).resolve_left (by simp)) (not_clear clears)

theorem Slot.lone (inv : Slot m (f :: others)) (flies : flying f = 1) :
    weigh flying others = 0 ∧ m.task = none := by
  have single := inv.single
  rw [weigh_cons, flies] at single
  exact ⟨by omega, inv.vacant (by rw [weigh_cons]; omega)⟩

theorem Slot.submit (inv : Slot m (.submit :: others)) (h : Option ℕ) (next : ℕ)
    (new : ∀ k, h = some k → m.nextTask ≤ k ∧ k < next) (later : m.nextTask ≤ next) :
    m.queued = [] ∧ Slot { m with queued := h.toList, nextTask := next } (.store h :: others) := by
  obtain ⟨alone, empty⟩ := inv.lone rfl
  obtain ⟨noSubmit, noStore⟩ := flying_pos alone
  have room := inv.ahead
  simp only [weigh_cons, IrcModel.ahead] at room
  have queue : m.queued = [] := length_eq_zero_iff.mp (by omega)
  have clears : weigh IrcModel.ahead others = 0 := by omega
  have owned := inv.owned
  have fresh := inv.fresh
  simp only [weigh_cons, owns, Nat.zero_add] at owned fresh
  have mine (k : ℕ) : owns k (.store h) = if h = some k then 1 else 0 := by
    cases h <;> simp
  refine ⟨queue, ?_⟩
  constructor
  · simp [alone]
  · simp
  · exact fun _ => empty
  · cases h <;> simp [clears]
  · intro k
    rw [weigh_cons, mine]
    by_cases same : h = some k
    · obtain ⟨-, none⟩ := fresh k (new k same).1
      simp [holds, empty, same, none]
    · simpa [same] using owned k
  · intro k high
    obtain ⟨unnamed, none⟩ := fresh k (Nat.le_trans later high)
    rw [weigh_cons, mine, none, if_neg fun same => absurd (new k same).2 (Nat.not_lt.mpr high)]
    exact ⟨unnamed, rfl⟩
  · exact fun k named => absurd (named.symm.trans empty) (by simp)
  · intro k _ mem
    have same : h = some k := by
      rcases mem_cons.mp mem with here | there
      · simpa using here.symm
      · exact absurd there (noStore _)
    exact .inl (by simp [same])
  · exact fun _ mem => absurd ((mem_cons.mp mem).resolve_left (by simp)) noSubmit
  · intro k alive pending
    rcases pending with waiting | cleared
    · have same : h = some k := Option.mem_toList.mp waiting
      exact .inr ⟨inv.reserved alive mem_cons_self, same ▸ mem_cons_self⟩
    · exact absurd ((mem_cons.mp cleared).resolve_left (by simp)) (not_clear clears)

variable {yes : Bool} {t : Sys}

theorem Slot.store (inv : Slot m (.store (some h) :: others)) (wanted : m.arming = true) :
    Slot { m with arming := false, task := some h } others := by
  obtain ⟨alone, empty⟩ := inv.lone rfl
  obtain ⟨noSubmit, noStore⟩ := flying_pos alone
  have room := inv.ahead
  have owned := inv.owned
  have fresh := inv.fresh
  simp only [weigh_cons, IrcModel.ahead, Nat.zero_add] at room
  constructor
  · exact alone ▸ Nat.zero_le 1
  · exact (nomatch ·)
  · exact fun flight => absurd flight (by omega)
  · exact room
  · intro k
    have bound := owned k
    simp only [weigh_cons, owns, holds, empty, Option.some.injEq, reduceCtorEq, if_false,
      Nat.zero_add] at bound ⊢
    exact bound
  · intro k later
    obtain ⟨-, none⟩ := fresh k later
    simp only [weigh_cons, owns] at none
    have other : h ≠ k := by
      intro same
      rw [if_pos same] at none
      omega
    exact ⟨fun named => other (Option.some.inj named), by omega⟩
  · rintro k named
    cases named
    exact (inv.stored h wanted mem_cons_self).imp_right fun cleared =>
      (mem_cons.mp cleared).resolve_left (by simp)
  · exact fun k _ mem => absurd mem (noStore _)
  · exact fun _ mem => absurd mem noSubmit
  · intro k alive pending
    rcases inv.tracked k alive (pending.imp_right (.tail _)) with named | ⟨-, mem⟩
    · exact absurd (named.symm.trans empty) (by simp)
    · rcases mem_cons.mp mem with here | there
      · exact .inl (by simpa using here.symm)
      · exact absurd there (noStore _)

theorem Slot.gone {h : Option ℕ} (inv : Slot m (.store h :: others))
    (unstored : h = none ∨ m.arming = false) (alive : m.dead = false) :
    .submit ∉ others ∧ ∀ k, ¬Pending m others k := by
  obtain ⟨alone, vacant⟩ := inv.lone rfl
  obtain ⟨noSubmit, noStore⟩ := flying_pos alone
  refine ⟨noSubmit, fun k pending => ?_⟩
  rcases inv.tracked k alive (pending.imp_right (.tail _)) with named | ⟨armed, mem⟩
  · exact absurd (named.symm.trans vacant) (by simp)
  · rcases unstored with rfl | unarmed
    · exact noStore _ ((mem_cons.mp mem).resolve_left (by simp))
    · exact absurd (unarmed.symm.trans armed) (by simp)

theorem Slot.empty (front : List Frame) (inv : Slot m (front ++ others)) (calls : List Frame)
    (none : m.dead = false → .submit ∉ others ∧ ∀ h, ¬Pending m others h)
    (flights : weigh flying calls = 0) (clears : weigh IrcModel.ahead calls = 0)
    (handles : ∀ h, weigh (owns h) calls ≤ holds m.task h + weigh (owns h) front) :
    Slot { m with arming := false, task := Option.none } (calls ++ others) := by
  have single := inv.single
  have room := inv.ahead
  rw [weigh_append] at single room
  obtain ⟨noSubmit, noStore⟩ := flying_pos flights
  constructor
  · rw [weigh_append, flights]
    omega
  · exact (nomatch ·)
  · exact fun _ => rfl
  · have less : m.queued.length + weigh IrcModel.ahead others ≤ 1 := by omega
    simpa [clears] using less
  · intro h
    have owned := inv.owned h
    have handled := handles h
    rw [weigh_append] at owned
    rw [weigh_append, holds, if_neg (by simp)]
    omega
  · intro h later
    obtain ⟨unnamed, unheld⟩ := inv.fresh h later
    have handled := handles h
    rw [holds, if_neg unnamed] at handled
    rw [weigh_append] at unheld
    refine ⟨by simp, ?_⟩
    rw [weigh_append]
    omega
  · exact fun h => (nomatch ·)
  · exact fun h => (nomatch ·)
  · intro alive mem
    exact absurd ((mem_append.mp mem).resolve_left noSubmit) (none alive).1
  · intro h alive pending
    exact absurd (pending.imp_right fun cleared =>
      (mem_append.mp cleared).resolve_left (not_clear clears)) ((none alive).2 h)

theorem Slot.leave (inv : Slot m (f :: others)) (flight : flying f = 0)
    (clears : IrcModel.ahead f = 0) : Slot m others := by
  have rest {g : Frame} (other : g ≠ f) (mem : g ∈ f :: others) : g ∈ others :=
    (mem_cons.mp mem).resolve_left other
  have single := inv.single
  have flagged := inv.flagged
  have vacant := inv.vacant
  have room := inv.ahead
  simp only [weigh_cons, flight, clears, Nat.zero_add] at single flagged vacant room
  have pending {h : ℕ} (there : Pending m (f :: others) h) : Pending m others h :=
    there.imp_right (rest (by rintro rfl; cases clears))
  refine ⟨single, flagged, vacant, room, fun h => ?_, fun h later => ?_,
    fun h named => pending (inv.named h named),
    fun h armed mem => pending (inv.stored h armed (.tail _ mem)),
    fun alive mem => inv.reserved alive (.tail _ mem), fun h alive there => ?_⟩
  · have owned := inv.owned h
    rw [weigh_cons] at owned
    omega
  · obtain ⟨unnamed, unheld⟩ := inv.fresh h later
    rw [weigh_cons] at unheld
    exact ⟨unnamed, by omega⟩
  · refine (inv.tracked h alive (there.imp_right (.tail _))).imp_right fun ⟨armed, mem⟩ => ?_
    exact ⟨armed, rest (by rintro rfl; cases flight) mem⟩

theorem Slot.dequeue (inv : Slot m others) (unnamed : m.task ≠ some k)
    (unstored : .store (some k) ∉ others) :
    Slot { m with queued := m.queued.erase k } others := by
  have left {h : ℕ} (other : h ≠ k) (there : Pending m others h) :
      Pending { m with queued := m.queued.erase k } others h :=
    there.imp_left (mem_erase_of_ne other).mpr
  refine ⟨inv.single, inv.flagged, inv.vacant, ?_, inv.owned, inv.fresh, fun h named => ?_,
    fun h armed mem => ?_, inv.reserved, fun h alive there => ?_⟩
  · have shorter := length_erase_le (a := k) (l := m.queued)
    exact Nat.le_trans (Nat.add_le_add_right shorter _) inv.ahead
  · exact left (fun same => unnamed (same ▸ named)) (inv.named h named)
  · exact left (fun same => unstored (same ▸ mem)) (inv.stored h armed mem)
  · exact inv.tracked h alive (there.imp_left mem_of_mem_erase)

theorem Slot.returned (inv : Slot m (f :: others.filter part))
    (holder : ∀ h, owns h f = if k = h then 1 else 0) (flight : flying f = 0)
    (clears : IrcModel.ahead f = 0) :
    Slot (giveBack (m.taskCancel (some k))).1
      (((giveBack (m.taskCancel (some k))).2 ++ others).filter part) := by
  have still := inv.leave flight clears
  rcases taskCancel_cases m (some k) with missed | ⟨_, same, -, taken⟩
  · rw [missed]
    exact still
  · cases same
    rw [taken]
    -- the handle is nowhere else
    have bound := inv.owned k
    rw [weigh_cons, holder, if_pos rfl] at bound
    refine still.dequeue (fun named => ?_) fun mem => ?_
    · rw [holds, if_pos named] at bound
      omega
    · have weight := le_weigh (owns k) mem
      simp only [owns, if_pos] at weight
      omega

theorem Slot.turn (inv : Slot m ((f :: others).filter part))
    (counted : Counted m (f :: others))
    (alone : f = .arm → m.Free → weigh flying (others.filter part) = 0) :
    Slot (act m yes f).1 (((act m yes f).2 ++ others).filter part) := by
  cases f with
  | arm =>
    rw [act]
    split
    next free => exact Slot.arm inv free (alone rfl free)
    next => exact inv
  | submit =>
    rw [act]
    split
    · obtain ⟨queue, queued⟩ := Slot.submit inv (some m.nextTask) (m.nextTask + 1)
        (by simp) (Nat.le_succ _)
      rw [queue]
      exact queued
    · obtain ⟨queue, refused⟩ := Slot.submit inv none _ nofun (Nat.le_refl _)
      exact refused.congr (.refl _) rfl rfl queue rfl id
  | store h =>
    have inv : Slot m (.store h :: others.filter part) := inv
    have vacant := (inv.lone rfl).2
    cases h with
    | none =>
      have emptied := Slot.empty [.store none] inv [] (inv.gone (.inl rfl)) rfl rfl
        fun _ => Nat.zero_le _
      simpa [act, vacant] using emptied
    | some h =>
      cases wanted : m.arming with
      | true => simpa [act, wanted] using inv.store wanted
      | false =>
        have emptied := Slot.empty [.store (some h)] inv [.unwanted h]
          (inv.gone (.inr wanted)) rfl rfl fun k => by simp
        simpa [act, wanted, vacant, filter_cons] using emptied
  | unwanted h => exact Slot.returned inv (fun _ => rfl) rfl rfl
  | clear h =>
    have inv : Slot m (.clear h :: others.filter part) := inv
    have room := inv.ahead
    simp only [weigh_cons, IrcModel.ahead] at room
    have clears : weigh IrcModel.ahead (others.filter part) = 0 := by omega
    have queue : m.queued = [] := length_eq_zero_iff.mp (by omega)
    refine Slot.empty [.clear h] inv [] (fun _ => ⟨?_, fun k pending => ?_⟩) rfl rfl
      fun _ => Nat.zero_le _
    · exact fun mem => Nat.one_ne_zero (weigh_eq_zero.mp clears _ mem)
    · rcases pending with waiting | cleared
      · exact absurd waiting (by simp [queue])
      · exact not_clear clears cleared
  | cancel =>
    have dead := counted.past .cancel mem_cons_self rfl
    have dying : m.dead = false → .submit ∉ others.filter part ∧
        ∀ h, ¬Pending m (others.filter part) h := fun alive =>
      absurd (alive.symm.trans dead) Bool.false_ne_true
    cases task : m.task with
    | none =>
      have emptied := Slot.empty [] inv [] dying rfl rfl fun _ => Nat.zero_le _
      simpa [act, task] using emptied
    | some h =>
      have emptied := Slot.empty [] inv [.cancelTask (some h)] dying rfl rfl fun k => by
        simp [holds, task]
      simpa [act, task, filter_cons] using emptied
  | cancelTask h =>
    cases h with
    | none => exact inv
    | some h => exact Slot.returned inv (fun _ => rfl) rfl rfl
  | look | take | attempt | loadConfig | openSession | dial | disconnect | sockDestroy _ =>
    exact inv.plain yes rfl
  | install =>
    rw [act]
    split
    next => exact inv.congr (.refl _) rfl rfl rfl rfl id
    next =>
      refine inv.keep rfl ?_ rfl rfl rfl rfl id
      split <;> simp
  | silence | retire => exact inv.congr (.refl _) rfl rfl rfl rfl nofun
  | detach =>
    refine inv.keep rfl ?_ rfl rfl rfl rfl id
    rw [act]
    cases m.session <;> simp
  | taskEnd | release =>
    rw [act, release_eq]
    exact inv.congr (.refl _) rfl rfl rfl rfl id

/-! ## Whole runs -/

/-- `irc_arm_reconnect` reserves the slot only while no other call of it is between its two
locked sections. -/
def Alone (s : Sys) : Op → Prop
  | .turn i _ => (top s.threads i).map Prod.fst = some .arm → s.irc.Free →
      weigh flying s.threads.flatten = 0
  | _ => True

instance (s : Sys) (op : Op) : Decidable (Alone s op) := by
  unfold Alone
  split <;> infer_instance

structure Inv (s : Sys) : Prop where
  counted : Counted s.irc s.threads.flatten
  slot : Slot s.irc (s.threads.flatten.filter part)

theorem Counted.perm (same : frames.Perm frames') (inv : Counted m frames) :
    Counted m frames' := by
  refine ⟨weigh_perm carries same ▸ inv.refs, inv.freed, fun alive => ?_, fun f mem => ?_⟩
  · exact (inv.alive alive).imp_right same.mem_iff.mp
  · exact inv.past f (same.mem_iff.mpr mem)

theorem Inv.turn {i : ℕ} (inv : Inv s) (alone : Alone s (.turn i yes))
    (moved : step s (.turn i yes) = some t) : Inv t := by
  obtain ⟨⟨f, rest⟩, found, rfl⟩ := Option.map_eq_some_iff.mp moved
  obtain ⟨before, after⟩ := turn_perm found
  have counted := inv.counted.perm before
  have slot := inv.slot.perm (before.filter part)
  have others : f = .arm → s.irc.Free →
      weigh flying ((s.threads.set i rest).flatten.filter part) = 0 := by
    rintro rfl free
    have none := weigh_eq_zero.mp (alone (by rw [found]; rfl) free)
    exact weigh_eq_zero.mpr fun g mem =>
      none g (before.mem_iff.mpr (.tail _ (mem_of_mem_filter mem)))
  have same := (after (act s.irc yes f).2).symm
  exact ⟨(counted.turn yes).perm same, (slot.turn counted others).perm (same.filter part)⟩

theorem Counted.spawn (inv : Counted m frames) (dead : m'.dead = m.dead)
    (freed : m'.freed = m.freed) (same : m'.refs = m.refs)
    (refs : m'.registered.toNat + m'.live.length + m'.queued.length + weigh carries calls =
      m.registered.toNat + m.live.length + m.queued.length)
    (registered : m'.registered = m.registered ∨ .retire ∈ calls)
    (calm : ∀ f ∈ calls, late f = false) : Counted m' (frames ++ calls) := by
  refine ⟨?_, ?_, fun alive => ?_, fun f mem marked => ?_⟩
  · have before := inv.refs
    rw [weigh_append, same]
    omega
  · rw [freed, same]
    exact inv.freed
  · rcases registered with unchanged | retiring
    · rw [unchanged]
      exact (inv.alive (dead ▸ alive)).imp_right (mem_append_left _)
    · exact .inr (mem_append_right _ retiring)
  · rw [dead]
    rcases mem_append.mp mem with there | called
    · exact inv.past f there marked
    · exact absurd (marked.symm.trans (calm f called)) (by simp)

theorem Slot.spawn (inv : Slot m (frames.filter part)) (calm : ∀ f ∈ calls, part f = false)
    (arming : m'.arming = m.arming) (task : m'.task = m.task) (queued : m'.queued = m.queued)
    (next : m'.nextTask = m.nextTask) (dead : m'.dead = m.dead) :
    Slot m' ((frames ++ calls).filter part) := by
  have called := parts_append calm frames ▸ inv
  exact called.congr (perm_append_comm.filter part) arming task queued next
    fun alive => dead ▸ alive

theorem Slot.fire (inv : Slot m frames) (mem : h ∈ m.queued) :
    Slot { m with queued := m.queued.erase h } (.clear h :: frames) := by
  have size := length_erase_of_mem mem
  have some := length_pos_of_mem mem
  have pending k : Pending { m with queued := m.queued.erase h } (.clear h :: frames) k ↔
      Pending m frames k := by
    constructor
    · rintro (waiting | cleared)
      · exact .inl (mem_of_mem_erase waiting)
      · rcases mem_cons.mp cleared with here | there
        · obtain rfl : k = h := by simpa using here
          exact .inl mem
        · exact .inr there
    · rintro (waiting | cleared)
      · by_cases same : k = h
        · exact .inr (same ▸ mem_cons_self)
        · exact .inl ((mem_erase_of_ne same).mpr waiting)
      · exact .inr (.tail _ cleared)
  constructor
  · simpa using inv.single
  · simpa using inv.flagged
  · simpa using inv.vacant
  · have room := inv.ahead
    simp only [weigh_cons, IrcModel.ahead, size]
    omega
  · simpa using inv.owned
  · simpa using inv.fresh
  · exact fun k named => (pending k).mpr (inv.named k named)
  · intro k armed stored
    exact (pending k).mpr (inv.stored k armed ((mem_cons.mp stored).resolve_left (by simp)))
  · exact fun alive there =>
      inv.reserved alive ((mem_cons.mp there).resolve_left (by simp))
  · intro k alive there
    exact (inv.tracked k alive ((pending k).mp there)).imp_right fun ⟨armed, stored⟩ =>
      ⟨armed, .tail _ stored⟩

theorem Inv.spawned (counted : Counted m (s.threads.flatten ++ calls))
    (slot : Slot m ((s.threads.flatten ++ calls).filter part)) : Inv (s.spawn m calls) := by
  constructor <;> rwa [Sys.spawn, flatten_spawn]

theorem Inv.step {op : Op} (inv : Inv s) (alone : Alone s op) (moved : step s op = some t) :
    Inv t := by
  obtain ⟨counted, slot⟩ := inv
  cases op with
  | turn i yes => exact Inv.turn ⟨counted, slot⟩ alone moved
  | arm | connect =>
    cases moved
    refine .spawned ?_ (slot.spawn (by simp) rfl rfl rfl rfl rfl)
    exact counted.spawn rfl rfl rfl (by simp) (.inl rfl) (by simp)
  | fire h =>
    obtain ⟨mem, rfl⟩ := fired moved
    have size := length_erase_of_mem mem
    have some := length_pos_of_mem mem
    refine .spawned ?_ ?_
    · refine counted.spawn rfl rfl rfl ?_ (.inl rfl) (by simp)
      simp only [weigh_cons, weigh_nil, carries, size]
      omega
    · rw [filter_append]
      exact (slot.fire mem).perm (perm_append_singleton _ _).symm
  | sessionDone session =>
    obtain ⟨⟨mem, -, -⟩, rfl⟩ := fired moved
    have size := length_erase_of_mem mem
    have some := length_pos_of_mem mem
    refine .spawned ?_ (slot.spawn (by simp) rfl rfl rfl rfl rfl)
    refine counted.spawn rfl rfl rfl ?_ (.inl rfl) (by simp)
    simp only [weigh_cons, weigh_nil, carries, size]
    omega
  | unregister connected =>
    obtain ⟨there, rfl⟩ := fired moved
    refine .spawned (counted.spawn rfl rfl rfl ?_ (.inr (by simp)) ?_)
      (slot.spawn ?_ rfl rfl rfl rfl rfl)
    · cases connected <;> simp [there] <;> omega
    · cases connected <;> simp
    · cases connected <;> simp

theorem Inv.created : Inv created := by
  constructor
  · exact ⟨rfl, rfl, fun _ => .inl rfl, fun _ => (nomatch ·)⟩
  · constructor <;> simp [IrcModel.created, Pending, holds]

def instanceRefs (s : Sys) : ℕ :=
  s.irc.registered.toNat + weigh (fun f => if f = .retire ∨ f = .detach then 1 else 0)
    s.threads.flatten

def running (s : Sys) : ℕ := weigh (fun f => if f = .taskEnd then 1 else 0) s.threads.flatten

/-- References that a call has in hand: for a task it is about to submit or could not, or one
that it is about to give back. -/
def inHand (s : Sys) : ℕ :=
  weigh (fun f => if f = .submit ∨ f = .store none ∨ f = .release then 1 else 0)
    s.threads.flatten

def inside : Frame → Bool
  | .arm | .submit | .store _ | .unwanted _ | .clear _ | .cancel | .cancelTask _ | .release => true
  | _ => false

structure Exact (s : Sys) : Prop where
  queued : s.irc.queued.length ≤ 1
  refs : s.irc.refs =
    instanceRefs s + s.irc.live.length + (s.irc.queued.length + running s) + inHand s
  freed : s.irc.freed = if s.irc.refs = 0 then 1 else 0
  settled : (∀ f ∈ s.threads.flatten, inside f = false) → s.irc.arming = false ∧ inHand s = 0 ∧
    ∀ h, s.irc.task = some h → h ∈ s.irc.queued

theorem carries_split : weigh carries frames =
    weigh (fun f => if f = .retire ∨ f = .detach then 1 else 0) frames +
      weigh (fun f => if f = .taskEnd then 1 else 0) frames +
      weigh (fun f => if f = .submit ∨ f = .store none ∨ f = .release then 1 else 0) frames := by
  induction frames with
  | nil => rfl
  | cons f frames ih =>
    have here : carries f = (if f = .retire ∨ f = .detach then 1 else 0) +
        (if f = .taskEnd then 1 else 0) +
        if f = .submit ∨ f = .store none ∨ f = .release then 1 else 0 := by
      cases f with
      | store h => cases h <;> rfl
      | _ => rfl
    simp only [weigh_cons, ih, here]
    omega

theorem Inv.exact (inv : Inv s) : Exact s := by
  obtain ⟨counted, slot⟩ := inv
  refine ⟨?_, ?_, counted.freed, fun idle => ⟨?_, ?_, fun h named => ?_⟩⟩
  · have room := slot.ahead
    omega
  · have refs := counted.refs
    rw [carries_split] at refs
    rw [instanceRefs, running, inHand]
    omega
  · have grounded : weigh flying (s.threads.flatten.filter part) = 0 := by
      refine weigh_eq_zero.mpr fun f mem => ?_
      have outside := idle f (mem_filter.mp mem).1
      cases f <;> first | rfl | cases outside
    refine Bool.eq_false_iff.mpr fun armed => ?_
    have flight := slot.flagged armed
    omega
  · refine weigh_eq_zero.mpr fun f mem => if_neg ?_
    have outside := idle f mem
    rintro (rfl | rfl | rfl) <;> cases outside
  · rcases slot.named h named with waiting | cleared
    · exact waiting
    · cases idle _ (mem_filter.mp cleared).1

theorem reconnect_exact {ops : List Op} {t : Sys} (run : Run step Alone created ops t) :
    Along step Exact created ops :=
  run.along Inv.exact Inv.step Inv.created

def earlyFiring : List Op :=
  [.arm, .turn 0 true, .turn 0 true, .fire 0, .turn 1 true, .turn 0 true, .turn 0 true,
    .turn 1 false, .turn 1 true, .turn 1 false, .turn 1 false, .turn 1 true, .turn 1 true,
    .turn 1 true, .turn 1 true,
    .unregister true, .turn 2 true, .turn 2 true, .turn 2 true, .turn 2 true, .turn 2 true,
    .turn 2 true, .turn 2 true, .turn 2 true, .turn 2 true, .turn 2 true]

theorem reconnect_exact_earlyFiring : ∃ t, Run step Alone created earlyFiring t ∧
    (t.irc.refs = 0 ∧ t.irc.freed = 1) ∧ Along step Exact created earlyFiring := by
  have run : Run step Alone created earlyFiring _ := runWhen_get (by decide)
  exact ⟨_, run, by decide, reconnect_exact run⟩

def reused : List Op :=
  [.arm, .turn 0 true, .turn 0 true, .fire 0, .turn 1 true, .turn 1 false, .turn 1 true,
    .turn 1 false, .turn 1 false, .turn 1 true, .turn 1 true,
    .turn 0 true, .turn 1 true, .turn 1 true, .turn 1 true, .turn 1 true]

theorem stale_handle_stored : ∃ t, Run step Any created reused t ∧
    t.threads.flatten = [] ∧ t.irc.dead = false ∧ t.irc.task = some 0 ∧ t.irc.queued = [] :=
  ⟨_, run_get (by decide), by decide⟩

end BotManager.IrcReconnect
