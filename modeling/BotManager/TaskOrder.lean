import Mathlib.Algebra.Order.Ring.Int
import Mathlib.Data.List.TakeWhile
import BotManager.TaskOwnership

/-! The order in which core/task.c hands out work. Both queues stay sorted, by
priority and by wake-up time, with ties in order of insertion, through every path
that inserts and every removal from the middle. From that, `task_assign` returns
the first eligible task of the ready queue it finds after waking the expired timers. -/

namespace BotManager.TaskOrder
open List StepRun StableInsert TaskModel TaskOwnership

abbrev ReadyBefore : Task → Task → Prop := Before (·.priority) (·.stamp)
abbrev TimerBefore : Task → Task → Prop := Before (·.sleepUntil) (·.stamp)

structure Sorted (s : Sys) : Prop where
  ready : s.ready.Pairwise ReadyBefore
  timer : s.timer.Pairwise TimerBefore
  readyStamp : ∀ t ∈ s.ready, t.stamp < s.ticks
  timerStamp : ∀ t ∈ s.timer, t.stamp < s.ticks

theorem sorted_taskInit : Sorted taskInit where
  ready := .nil
  timer := .nil
  readyStamp t h := by simp at h
  timerStamp t h := by simp at h

variable {s u : Sys} {t v : Task} {now wake : ℤ} {k : ℕ}

variable {chain : List Node} {down : Bool} {op : Op} {type : TaskType} {allow : Bool} {t' : Task}
  {labels : List Op}

section Kept

variable (sorted : Sorted s)
include sorted

theorem Sorted.sublist (ready : u.ready.Sublist s.ready) (timer : u.timer.Sublist s.timer)
    (ticks : u.ticks = s.ticks) : Sorted u where
  ready := sorted.ready.sublist ready
  timer := sorted.timer.sublist timer
  readyStamp t h := by
    rw [ticks]
    exact sorted.readyStamp t (ready.subset h)
  timerStamp t h := by
    rw [ticks]
    exact sorted.timerStamp t (timer.subset h)

theorem Sorted.readyPush (t : Task) : Sorted (s.readyPush t) where
  ready := insertBy_pairwise sorted.ready sorted.readyStamp
  timer := sorted.timer
  readyStamp u h := by
    rcases (mem_insertBy _ _).mp h with rfl | old
    · exact Nat.lt_succ_self _
    · exact Nat.lt_succ_of_lt (sorted.readyStamp u old)
  timerStamp u h := Nat.lt_succ_of_lt (sorted.timerStamp u h)

theorem Sorted.timerPush (t : Task) : Sorted (s.timerPush t) where
  ready := sorted.ready
  timer := insertBy_pairwise sorted.timer sorted.timerStamp
  readyStamp u h := Nat.lt_succ_of_lt (sorted.readyStamp u h)
  timerStamp u h := by
    rcases (mem_insertBy _ _).mp h with rfl | old
    · exact Nat.lt_succ_self _
    · exact Nat.lt_succ_of_lt (sorted.timerStamp u old)

theorem Sorted.queues (ready : u.ready = s.ready) (timer : u.timer = s.timer)
    (ticks : u.ticks = s.ticks) : Sorted u :=
  sorted.sublist (ready ▸ .refl _) (timer ▸ .refl _) ticks

theorem sorted_promoteHead {rest : List Task} (h : s.timer = t :: rest) :
    Sorted (promoteHead t rest s) := by
  have popped : Sorted { s with timer := rest } :=
    sorted.sublist (.refl _) (h ▸ sublist_cons_self t rest) rfl
  exact (popped.readyPush { t with state := .waiting }).queues rfl rfl rfl

theorem sorted_timerPromote (now : ℤ) : Sorted (timerPromote now s) :=
  timerPromote_keeps (fun _ _ _ h sorted => sorted_promoteHead sorted h) sorted

theorem sorted_taskAssign (type : TaskType) (now : ℤ) : Sorted (taskAssign type allow now s).2 := by
  have base := sorted_timerPromote sorted now
  simp only [taskAssign]
  split
  · exact base
  · exact base.sublist eraseP_sublist (.refl _) rfl

theorem sorted_taskSubmit (t : Node) (now : ℤ) : Sorted (taskSubmit t chain now s) := by
  obtain ⟨st, eq⟩ := taskSubmit_eq now s t chain
  rw [eq, submitMove]
  split
  · exact (sorted.timerPush _).queues rfl rfl rfl
  · exact (sorted.readyPush _).queues rfl rfl rfl

theorem sorted_taskCancel (h : ℕ) : Sorted (taskCancel h s).2 := by
  rcases taskCancel_cases h s with ⟨-, eq | eq⟩ | ⟨t, -, ⟨-, eq⟩ | ⟨-, eq⟩⟩
  · rwa [eq]
  · rw [eq]
    exact sorted.queues rfl rfl rfl
  all_goals
    obtain ⟨st, counted⟩ := uncount_eq _ t _
    rw [eq, counted]
  · exact sorted.sublist eraseP_sublist (.refl _) rfl
  · exact sorted.sublist (.refl _) eraseP_sublist rfl

theorem sorted_finishSwitch : Sorted (finishSwitch t now down s) := by
  obtain ⟨st, ⟨-, eq⟩ | ⟨-, -, eq⟩ | ⟨-, -, eq | ⟨_, _, eq⟩⟩⟩ := finishSwitch_cases t now down s
  all_goals rw [eq]
  · cases t.link with
    | nil => exact sorted.queues rfl rfl rfl
    | cons child rest => exact (sorted.readyPush _).queues rfl rfl rfl
  · exact sorted.queues rfl rfl rfl
  · exact (sorted.readyPush t).queues rfl rfl rfl
  · exact (sorted.timerPush _).queues rfl rfl rfl

theorem sorted_step (h : step s op = some u) : Sorted u := by
  cases op with
  | create spec =>
    cases h
    exact sorted.queues rfl rfl rfl
  | submit t chain now =>
    obtain ⟨_, rfl⟩ := fired h
    apply sorted_taskSubmit
    exact sorted.queues rfl rfl rfl
  | addPersist t | spawned k | spawnFailed k =>
    obtain ⟨_, rfl⟩ := fired h
    exact sorted.queues rfl rfl rfl
  | assign type allow now =>
    cases h
    exact sorted_taskAssign sorted type now
  | promote now =>
    cases h
    exact sorted_timerPromote sorted now
  | cancel handle =>
    cases h
    exact sorted_taskCancel sorted handle
  | finish t result wake now down =>
    obtain ⟨_, rfl⟩ := fired h
    apply sorted_finishSwitch
    exact sorted.queues rfl rfl rfl

end Kept

theorem sorted_reachable (reached : Reachable step taskInit s) : Sorted s :=
  reached.invariant sorted_taskInit fun sorted => sorted_step sorted

def expired (now : ℤ) (t : Task) : Bool := t.sleepUntil ≤ now

def Woken (v t : Task) : Prop := t = { v with state := .waiting, stamp := t.stamp }

structure Promotion (gone : List Task) (s u : Sys) : Prop where
  kept : s.ready.Sublist u.ready
  origin : ∀ t ∈ u.ready, t ∈ s.ready ∨ ∃ v ∈ gone, Woken v t ∧ s.ticks ≤ t.stamp
  woken : ∀ v ∈ gone, ∃ t ∈ u.ready, Woken v t

theorem promotion_timerPromoteLoop (l : List Task) (s : Sys) (h : s.timer = l) :
    (timerPromoteLoop now l s).timer = l.dropWhile (expired now) ∧
      Promotion (l.takeWhile (expired now)) s (timerPromoteLoop now l s) := by
  induction l generalizing s with
  | nil => exact ⟨h, .refl _, fun t mem => .inl mem, fun v mem => by simp at mem⟩
  | cons t rest ih =>
    simp only [timerPromoteLoop]
    by_cases due : t.sleepUntil ≤ now
    · have head : expired now t = true := by simpa [expired] using due
      obtain ⟨timer, promoted⟩ := ih (promoteHead t rest s) rfl
      rw [if_pos due, dropWhile_cons_of_pos head, takeWhile_cons_of_pos head]
      have pushed : s.ready.Sublist (promoteHead t rest s).ready := sublist_insertBy _ _
      refine ⟨timer, pushed.trans promoted.kept, fun u mem => ?_, fun v mem => ?_⟩
      · rcases promoted.origin u mem with old | ⟨v, memv, woken, late⟩
        · rcases (mem_insertBy _ _).mp old with rfl | old
          · exact .inr ⟨t, mem_cons_self, rfl, le_refl _⟩
          · exact .inl old
        · have ticks : (promoteHead t rest s).ticks = s.ticks + 1 := rfl
          exact .inr ⟨v, .tail _ memv, woken, by omega⟩
      · rcases mem_cons.mp mem with rfl | later
        · refine ⟨_, promoted.kept.subset ((mem_insertBy _ _).mpr (.inl rfl)), rfl⟩
        · exact promoted.woken v later
    · have head : ¬ expired now t = true := by simpa [expired] using due
      rw [if_neg due, dropWhile_cons_of_neg head, takeWhile_cons_of_neg head]
      exact ⟨h, .refl _, fun t mem => .inl mem, fun v mem => by simp at mem⟩

theorem timerPromote_timer (sorted : Sorted s) (now : ℤ) :
    (timerPromote now s).timer = s.timer.filter (fun t => now < t.sleepUntil) := by
  rw [timerPromote, (promotion_timerPromoteLoop s.timer s rfl).1]
  exact dropWhile_eq_filter sorted.timer

theorem mem_takeWhile_expired (sorted : Sorted s) (now : ℤ) :
    v ∈ s.timer.takeWhile (expired now) ↔ v ∈ s.timer ∧ v.sleepUntil ≤ now := by
  constructor
  · intro mem
    exact ⟨(takeWhile_sublist _).subset mem,
      by simpa [expired] using mem_takeWhile_imp mem⟩
  · rintro ⟨mem, due⟩
    rw [← takeWhile_append_dropWhile (p := expired now) (l := s.timer)] at mem
    rcases mem_append.mp mem with early | late
    · exact early
    · have rest : s.timer.dropWhile (expired now) = _ := dropWhile_eq_filter sorted.timer
      rw [rest, mem_filter, decide_eq_true_eq] at late
      omega

theorem promotion_timerPromote (now : ℤ) (s : Sys) :
    Promotion (s.timer.takeWhile (expired now)) s (timerPromote now s) :=
  (promotion_timerPromoteLoop s.timer s rfl).2

def available (now : ℤ) (s : Sys) (t : Task) : Prop :=
  t ∈ s.ready ∨ t ∈ s.timer ∧ t.sleepUntil ≤ now

theorem Woken.eligible (woken : Woken v t) (type : TaskType) (allow : Bool) :
    eligible type allow t = eligible type allow v := by
  rw [woken]
  rfl

theorem Woken.priority (woken : Woken v t) : t.priority = v.priority := by rw [woken]

theorem available_iff (sorted : Sorted s) (now : ℤ) :
    (∀ t ∈ (timerPromote now s).ready, ∃ v, available now s v ∧ (t = v ∨ Woken v t)) ∧
      ∀ v, available now s v → ∃ t ∈ (timerPromote now s).ready, t = v ∨ Woken v t := by
  have promoted := promotion_timerPromote now s
  refine ⟨fun t mem => ?_, fun v may => ?_⟩
  · rcases promoted.origin t mem with old | ⟨v, memv, woken, _⟩
    · exact ⟨t, .inl old, .inl rfl⟩
    · exact ⟨v, .inr ((mem_takeWhile_expired sorted now).mp memv), .inr woken⟩
  · rcases may with old | due
    · exact ⟨v, promoted.kept.subset old, .inl rfl⟩
    · obtain ⟨t, mem, woken⟩ := promoted.woken v ((mem_takeWhile_expired sorted now).mpr due)
      exact ⟨t, mem, .inr woken⟩

theorem taskAssign_none_iff (sorted : Sorted s) :
    (taskAssign type allow now s).1 = none ↔
      ∀ v, available now s v → ¬ eligible type allow v := by
  obtain ⟨origin, present⟩ := available_iff sorted now
  have none_iff : (taskAssign type allow now s).1 = none ↔
      (timerPromote now s).ready.find? (eligible type allow) = none := by
    simp only [taskAssign]
    split
    next miss => simp [miss]
    next t hit => simp [hit]
  rw [none_iff, find?_eq_none]
  constructor
  · intro miss v may hit
    obtain ⟨t, mem, same⟩ := present v may
    rcases same with rfl | woken
    · exact miss t mem hit
    · exact miss t mem ((woken.eligible type allow).trans hit)
  · intro miss t mem hit
    obtain ⟨v, may, same⟩ := origin t mem
    rcases same with rfl | woken
    · exact miss t may hit
    · exact miss v may ((woken.eligible type allow).symm.trans hit)

/-- `t'` is handed out by an assignment in `s` that ends in `u`. `t` is its place in the
ready queue after the promotion. -/
structure HandedOut (type : TaskType) (allow : Bool) (now : ℤ) (s : Sys) (t' : Task) (u : Sys) :
    Prop where
  chosen : ∃ t before after, (timerPromote now s).ready = before ++ t :: after ∧
    t' = dispatched t ∧ eligible type allow t ∧
    (∀ v ∈ (timerPromote now s).ready, eligible type allow v → v = t ∨ ReadyBefore t v) ∧
    u.ready = before ++ after
  notPassedOver : ∀ v, available now s v → eligible type allow v → t'.priority ≤ v.priority
  running : u.running = t' :: s.running
  timer : u.timer = s.timer.filter (fun t => now < t.sleepUntil)

theorem handedOut_of_assign (sorted : Sorted s)
    (h : (taskAssign type allow now s).1 = some t') :
    HandedOut type allow now s t' (taskAssign type allow now s).2 := by
  have base := sorted_timerPromote sorted now
  have timer := timerPromote_timer sorted now
  obtain ⟨_, present⟩ := available_iff sorted now
  cases found : (timerPromote now s).ready.find? (eligible type allow) with
  | none => simp [taskAssign, found] at h
  | some t =>
    have result : taskAssign type allow now s =
        (some (dispatched t), dequeue (eligible type allow) t (timerPromote now s)) := by
      simp [taskAssign, found]
    rw [result] at h ⊢
    obtain rfl : dispatched t = t' := Option.some.inj h
    have first := first_of_find? base.ready found
    obtain ⟨before, after, whole, rest⟩ := eraseP_split found
    refine ⟨⟨t, before, after, whole, rfl, find?_some found, first, rest⟩, ?_, ?_, timer⟩
    · intro v may hit
      obtain ⟨w, mem, same⟩ := present v may
      have hitw : eligible type allow w := by
        rcases same with rfl | woken
        · exact hit
        · exact (woken.eligible type allow).trans hit
      have prio : w.priority = v.priority := by
        rcases same with rfl | woken
        · rfl
        · exact woken.priority
      have least : t.priority ≤ w.priority := by
        rcases first w mem hitw with rfl | lt | ⟨eq, _⟩
        · exact le_refl _
        · exact lt.le
        · exact eq.le
      exact prio ▸ least
    · have same := (frame_timerPromote now s).running
      simp only [dequeue, Sys.inc, Sys.dec, same]

def clockReadings : Op → List ℤ
  | .assign _ _ now => [now]
  | .promote now => [now]
  | _ => []

def Asleep (k : ℕ) (wake : ℤ) (s : Sys) : Prop := ∃ t ∈ s.timer, t.serial = k ∧ t.sleepUntil = wake

theorem Asleep.mono (asleep : Asleep k wake s) (kept : s.timer ⊆ u.timer) : Asleep k wake u := by
  obtain ⟨t, mem, same⟩ := asleep
  exact ⟨t, kept mem, same⟩

theorem asleep_promote (sorted : Sorted s) (asleep : Asleep k wake s) (early : now < wake) :
    Asleep k wake (timerPromote now s) := by
  obtain ⟨t, mem, serial, rfl⟩ := asleep
  refine ⟨t, ?_, serial, rfl⟩
  rw [timerPromote_timer sorted]
  exact mem_filter.mpr ⟨mem, by simpa using early⟩

theorem taskAssign_timer (type : TaskType) (now : ℤ) :
    (taskAssign type allow now s).2.timer = (timerPromote now s).timer := by
  simp only [taskAssign]
  split <;> rfl

theorem subset_timerPush : s.timer ⊆ (s.timerPush t).timer :=
  (sublist_insertBy _ _).subset

theorem taskSubmit_timer (t : Node) (now : ℤ) : s.timer ⊆ (taskSubmit t chain now s).timer := by
  obtain ⟨st, eq⟩ := taskSubmit_eq now s t chain
  rw [eq, submitMove]
  split
  · exact subset_timerPush
  · exact List.Subset.refl _

theorem finishSwitch_timer (t : Task) (down : Bool) :
    s.timer ⊆ (finishSwitch t now down s).timer := by
  obtain ⟨st, ⟨-, eq⟩ | ⟨-, -, eq⟩ | ⟨-, -, eq | ⟨_, _, eq⟩⟩⟩ := finishSwitch_cases t now down s
  all_goals rw [eq]
  · cases t.link with
    | nil | cons child rest => exact List.Subset.refl _
  · exact List.Subset.refl _
  · exact List.Subset.refl _
  · exact subset_timerPush

theorem mem_taskCancel_timer {h : ℕ} (found : queued h s = some v) (mem : t ∈ s.timer)
    (other : t ≠ v) : t ∈ (taskCancel h s).2.timer := by
  rcases taskCancel_cases h s with ⟨absent, -⟩ | ⟨w, place, ⟨-, eq⟩ | ⟨timer, eq⟩⟩
  · cases absent.symm.trans found
  all_goals
    obtain ⟨st, counted⟩ := uncount_eq _ w _
    cases place.symm.trans found
    rw [eq, counted]
  · exact mem
  · obtain ⟨before, after, whole, rest⟩ := eraseP_split timer
    simp only [rest]
    rw [whole] at mem
    simpa [other] using mem

theorem asleep_cancel (own : Owned s) (asleep : Asleep k wake s) (h : ℕ) :
    Asleep k wake (taskCancel h s).2 ∨ Freed k (taskCancel h s).2 := by
  obtain ⟨t, mem, rfl, rfl⟩ := asleep
  cases found : queued h s with
  | none =>
    refine .inl ⟨t, ?_, rfl, rfl⟩
    rcases taskCancel_cases h s with ⟨-, eq | eq⟩ | ⟨v, place, -⟩
    · rwa [eq]
    · rwa [eq]
    · cases found.symm.trans place
  | some v =>
    by_cases same : t.serial = v.serial
    · rw [same]
      exact .inr (freed_cancel own found)
    · refine .inl ⟨t, ?_, rfl, rfl⟩
      exact mem_taskCancel_timer found mem fun eq => same (by rw [eq])

theorem asleep_step (own : Owned s) (sorted : Sorted s) (asleep : Asleep k wake s)
    (h : step s op = some u) :
    Asleep k wake u ∨ Freed k u ∨ ∃ now ∈ clockReadings op, wake ≤ now := by
  cases op with
  | create spec =>
    cases h
    exact .inl asleep
  | submit t chain now =>
    obtain ⟨_, rfl⟩ := fired h
    have before : Asleep k wake { s with fresh := s.fresh.filter (· ∉ t :: chain) } := asleep
    exact .inl (before.mono (taskSubmit_timer t now))
  | addPersist t | spawned j | spawnFailed j =>
    obtain ⟨_, rfl⟩ := fired h
    exact .inl asleep
  | assign type allow now =>
    cases h
    by_cases due : wake ≤ now
    · exact .inr (.inr ⟨now, mem_singleton_self now, due⟩)
    · have still := asleep_promote sorted asleep (not_le.mp due)
      exact .inl (still.mono (by simp [taskAssign_timer]))
  | promote now =>
    cases h
    by_cases due : wake ≤ now
    · exact .inr (.inr ⟨now, mem_singleton_self now, due⟩)
    · exact .inl (asleep_promote sorted asleep (not_le.mp due))
  | cancel handle =>
    cases h
    rcases asleep_cancel own asleep handle with still | freed
    · exact .inl still
    · exact .inr (.inl freed)
  | finish t result next now down =>
    obtain ⟨_, rfl⟩ := fired h
    have before : Asleep k wake ((unlinkRunning t.serial s).dec .running) := asleep
    exact .inl (before.mono (finishSwitch_timer _ down))

theorem asleep_run (own : Owned s) (sorted : Sorted s) (asleep : Asleep k wake s)
    (run : Run step Any s labels u) :
    Asleep k wake u ∨ Freed k u ∨ ∃ op ∈ labels, ∃ now ∈ clockReadings op, wake ≤ now := by
  induction run with
  | nil s => exact .inl asleep
  | cons _ head tail ih =>
    rcases asleep_step own sorted asleep head with still | freed | due
    · rcases ih (owned_step own head) (sorted_step sorted head) still with
        still | freed | ⟨op, mem, due⟩
      · exact .inl still
      · exact .inr (.inl freed)
      · exact .inr (.inr ⟨op, .tail _ mem, due⟩)
    · exact .inr (.inl (freed_run freed tail))
    · exact .inr (.inr ⟨_, mem_cons_self, due⟩)

theorem slept_of_assign (own : Owned s) (sorted : Sorted s) (mem : t ∈ s.timer)
    (run : Run step Any s labels u)
    (h : (taskAssign type allow now u).1 = some t') (same : t'.serial = t.serial) :
    ∃ op ∈ labels ++ [.assign type allow now], ∃ r ∈ clockReadings op, t.sleepUntil ≤ r := by
  have whole : Run step Any s (labels ++ [.assign type allow now]) (taskAssign type allow now u).2 :=
    run.append (.cons trivial rfl (.nil _))
  rcases asleep_run own sorted ⟨t, mem, rfl, rfl⟩ whole with ⟨v, memv, serial, _⟩ | freed | due
  · have own' := run.invariant (I := Owned) (fun own _ head => owned_step own head) own
    have assigned : step u (.assign type allow now) = some (taskAssign type allow now u).2 := rfl
    have other := (owned_step own' assigned).timer_ne_running memv (assigned_running h)
    exact absurd (serial.trans same.symm) other
  · have owned := one_le_owners (.inr (.inr (assigned_running h)))
    rw [same, freed.2.1] at owned
    omega
  · exact due

structure Schedules (s : Sys) (type : TaskType) (allow : Bool) (now : ℤ) : Prop where
  none_iff : (taskAssign type allow now s).1 = none ↔ ∀ v, available now s v → ¬ eligible type allow v
  none_state : (taskAssign type allow now s).1 = none →
    (taskAssign type allow now s).2 = timerPromote now s
  handedOut : ∀ t, (taskAssign type allow now s).1 = some t →
    HandedOut type allow now s t (taskAssign type allow now s).2
  /-- The ready tasks keep their order, and those joining them are the expired ones, all of them. -/
  promotion : s.ready.Sublist (timerPromote now s).ready ∧
    (∀ t ∈ (timerPromote now s).ready, t ∈ s.ready ∨
      ∃ v ∈ s.timer, v.sleepUntil ≤ now ∧ Woken v t ∧ s.ticks ≤ t.stamp) ∧
    (∀ v ∈ s.timer, v.sleepUntil ≤ now → ∃ t ∈ (timerPromote now s).ready, Woken v t) ∧
    (timerPromote now s).timer = s.timer.filter (fun t => now < t.sleepUntil)

theorem schedules (sorted : Sorted s) (type : TaskType) (allow : Bool) (now : ℤ) :
    Schedules s type allow now where
  none_iff := taskAssign_none_iff sorted
  none_state h := by
    simp only [taskAssign] at h ⊢
    split at h
    next => simp
    next => cases h
  handedOut t h := handedOut_of_assign sorted h
  promotion := by
    have promoted := promotion_timerPromote now s
    refine ⟨promoted.kept, fun t mem => ?_, fun v mem due => ?_, timerPromote_timer sorted now⟩
    · rcases promoted.origin t mem with old | ⟨v, memv, woken, late⟩
      · exact .inl old
      · have due := (mem_takeWhile_expired sorted now).mp memv
        exact .inr ⟨v, due.1, due.2, woken, late⟩
    · exact promoted.woken v ((mem_takeWhile_expired sorted now).mpr ⟨mem, due⟩)

theorem scheduling_order {s : Sys} (reached : Reachable step taskInit s) :
    (s.ready.Pairwise ReadyBefore ∧ s.timer.Pairwise TimerBefore) ∧
      (∀ type allow now, Schedules s type allow now) ∧
      ∀ t ∈ s.timer, ∀ labels u, Run step Any s labels u →
        ∀ type allow now t', (taskAssign type allow now u).1 = some t' → t'.serial = t.serial →
          ∃ op ∈ labels ++ [.assign type allow now], ∃ r ∈ clockReadings op, t.sleepUntil ≤ r := by
  have sorted := sorted_reachable reached
  refine ⟨⟨sorted.ready, sorted.timer⟩, schedules sorted, ?_⟩
  intro t mem labels u run type allow now t' h same
  exact slept_of_assign (owned_reachable reached) sorted mem run h same

theorem scheduling_order_deferred : ∃ s, Reachable step taskInit s ∧ s.timer.length = 1 ∧
    s.timer.Pairwise TimerBefore ∧ (taskAssign .any true 9 s).1 = none ∧
    (taskAssign .any true 10 s).1.map (·.serial) = some 0 := by
  have reached : Reachable step taskInit _ :=
    ⟨[.create (sampleSpec .deferred), .submit (sampleNode 0 .deferred) [] 0], run_of_exec rfl⟩
  have order := scheduling_order reached
  refine ⟨_, reached, rfl, order.1.2, ?_, rfl⟩
  rw [(order.2.1 .any true 9).none_iff]
  intro v may
  rcases may with mem | ⟨mem, due⟩
  · cases mem
  · rw [mem_singleton.mp mem] at due
    exact absurd due (by decide)

/-- `sleep_until` binds a sleeping task only: one whose callback asked to run again at once
is handed out before the time it left there. And the assignment moves expired timers, not
only the task it returns. -/
theorem not_scheduling_order_literal :
    (¬ ∀ s, Reachable step taskInit s → ∀ type allow now t,
      (taskAssign type allow now s).1 = some t → t.sleepUntil ≤ now) ∧
    ¬ ∀ s, Reachable step taskInit s → ∀ type allow now t,
      (taskAssign type allow now s).1 = some t → ∀ v ∈ s.timer, v.serial ≠ t.serial →
        v ∈ (taskAssign type allow now s).2.timer := by
  constructor
  · intro all
    have reached : Reachable step taskInit _ :=
      ⟨[.create (sampleSpec .once), .submit (sampleNode 0 .once) [] 0, .assign .any true 0,
        .finish ⟨{ sampleNode 0 .once with state := .running, runCount := 1 }, [], 0⟩
          .waiting 100 0 false], run_of_exec rfl⟩
    have early := all _ reached .any true 0 _ rfl
    revert early
    decide
  · intro all
    have reached : Reachable step taskInit _ :=
      ⟨[.create (sampleSpec .once), .submit (sampleNode 0 .once) [] 0,
        .create (sampleSpec .deferred), .submit (sampleNode 1 .deferred) [] 0], run_of_exec rfl⟩
    have still := all _ reached .any true 10 _ rfl _ mem_cons_self (by decide)
    revert still
    decide

end BotManager.TaskOrder
