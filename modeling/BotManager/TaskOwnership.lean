import Mathlib.Data.List.Perm.Subperm
import BotManager.TaskModel

/-! Every allocated task has one owner: the caller that created it, one of the three
lists, or the link chain of a listed task. The sections of core/task.c are first
measured with an arbitrary weight on listed tasks; ownership counts a serial with it. -/

namespace BotManager.TaskOwnership
open List StepRun StableInsert TaskModel

section Moves
variable (h : ℕ) (c : Counter) (t : Task) (now : ℤ) (down : Bool) (s : Sys)

theorem timerPromote_keeps {P : Sys → Prop} {now : ℤ} {s : Sys}
    (head : ∀ t rest s, s.timer = t :: rest → P s → P (promoteHead t rest s)) (base : P s) :
    P (timerPromote now s) := by
  have loop (l : List Task) (s : Sys) (whole : s.timer = l) (base : P s) :
      P (timerPromoteLoop now l s) := by
    induction l generalizing s with
    | nil => exact base
    | cons t rest ih =>
      simp only [timerPromoteLoop]
      split
      · exact ih _ rfl (head t rest s whole base)
      · exact base
  exact loop s.timer s rfl base

theorem releaseKind_eq : ∃ st, releaseKind t s = { s with stats := st } := by
  unfold releaseKind
  split <;> split <;> exact ⟨_, rfl⟩

theorem uncount_eq : ∃ st, uncount c t s = { s with stats := st } := by
  unfold uncount
  split <;> exact ⟨_, rfl⟩

def submitMove (t : Node) (link : List Node) (now : ℤ) (s : Sys) : Sys :=
  if sleepsFirst t now then s.timerPush ⟨{ t with state := .sleeping }, link, 0⟩
  else s.readyPush ⟨{ t with state := .waiting }, link, 0⟩

theorem taskSubmit_eq (t : Node) (chain : List Node) : ∃ st, taskSubmit t chain now s =
    { submitMove t (submittedLink t chain) now s with stats := st } := by
  have counted (l : List Node) (s : Sys) :
      ∃ st, l.foldl (fun s _ => (s.inc .total).inc .linked) s = { s with stats := st } := by
    induction l generalizing s with
    | nil => exact ⟨_, rfl⟩
    | cons _ rest ih => exact ih ((s.inc .total).inc .linked)
  simp only [taskSubmit, submitQueued, submitMove]
  split <;> split <;> exact counted _ _

def promoteLink : List Node → Sys → Sys
  | [], s => s
  | child :: rest, s => s.readyPush ⟨{ child with state := .waiting }, rest, 0⟩

theorem taskRetireLocked_eq :
    ∃ st, taskRetireLocked t s = { promoteLink t.link s with stats := st } := by
  obtain ⟨st, eq⟩ := releaseKind_eq t s
  rw [taskRetireLocked, eq]
  cases t.link with
  | nil | cons child rest => exact ⟨_, rfl⟩

@[simp] def retires (t : Task) (shuttingDown : Bool) : Bool :=
  t.state = .running || t.state = .ended && !reschedules t.toNode shuttingDown

theorem finishSwitch_cases : ∃ st,
    retires t down = true ∧ finishSwitch t now down s = { promoteLink t.link s with stats := st } ∨
    retires t down = false ∧ t.state = .fatal ∧ finishSwitch t now down s = { s with stats := st } ∨
    retires t down = false ∧ t.state ≠ .fatal ∧
      (finishSwitch t now down s = { s.readyPush t with stats := st } ∨
        ∃ state sleepUntil, finishSwitch t now down s =
          { s.timerPush { t with state, sleepUntil } with stats := st }) := by
  obtain ⟨retired, retire⟩ := taskRetireLocked_eq t s
  obtain ⟨released, release⟩ := releaseKind_eq t s
  cases state : t.state with
  | ended =>
    by_cases again : reschedules t.toNode down = true
    · exact ⟨_, .inr (.inr ⟨by simp [state, again], by simp, .inr ⟨.sleeping, _, by
        simp only [finishSwitch, state, again]; rfl⟩⟩)⟩
    · exact ⟨retired, .inl ⟨by simp [state, again], by
        simp [finishSwitch, state, again, retire]⟩⟩
  | running =>
    exact ⟨retired, .inl ⟨by simp [state], by simp [finishSwitch, state, retire]⟩⟩
  | fatal =>
    exact ⟨_, .inr (.inl ⟨by simp [state], rfl, by
      simp only [finishSwitch, state, release]; rfl⟩)⟩
  | waiting =>
    exact ⟨_, .inr (.inr ⟨by simp [state], by simp, .inl (by
      simp only [finishSwitch, state]; rfl)⟩)⟩
  | sleeping =>
    exact ⟨_, .inr (.inr ⟨by simp [state], by simp, .inr ⟨.sleeping, t.sleepUntil, by
      simp only [finishSwitch, state]; rw [← state]; rfl⟩⟩)⟩

def queued (h : ℕ) (s : Sys) : Option Task :=
  if h = 0 then none else (s.ready.find? (·.id = h)).or (s.timer.find? (·.id = h))

theorem taskCancel_cases :
    queued h s = none ∧ (taskCancel h s = (false, s) ∨
      taskCancel h s = (false, { s with running := markCancelled h s.running })) ∨
    ∃ t, queued h s = some t ∧
      (s.ready.find? (·.id = h) = some t ∧ taskCancel h s =
          (true, uncount .waiting t { s with ready := s.ready.eraseP (·.id = h) }) ∨
        s.timer.find? (·.id = h) = some t ∧ taskCancel h s =
          (true, uncount .sleeping t { s with timer := s.timer.eraseP (·.id = h) })) := by
  unfold queued taskCancel
  by_cases zero : h = 0
  · exact .inl ⟨if_pos zero, .inl (if_pos zero)⟩
  · rw [if_neg zero, if_neg zero]
    cases s.ready.find? (·.id = h) with
    | some t => exact .inr ⟨t, rfl, .inl ⟨rfl, rfl⟩⟩
    | none =>
      cases s.timer.find? (·.id = h) with
      | some t => exact .inr ⟨t, rfl, .inr ⟨rfl, rfl⟩⟩
      | none => exact .inl ⟨rfl, .inr rfl⟩

end Moves

/-- What a section can do to the lists, apart from moving tasks between them, shows
in any weight that reads only the serial, the kind and the link chain. -/
abbrev Weight := ℕ → TaskKind → List Node → ℕ

@[simp] def weigh (g : Weight) (t : Task) : ℕ := g t.serial t.kind t.link

def held (g : Weight) (s : Sys) : ℕ :=
  load (weigh g) s.ready + load (weigh g) s.timer + load (weigh g) s.running

variable {t : Task}

section Held
variable (g : Weight)

@[simp] theorem held_inc : held g (s.inc c) = held g s := rfl
@[simp] theorem held_dec : held g (s.dec c) = held g s := rfl

@[simp] theorem held_readyPush (t : Task) (s : Sys) :
    held g (s.readyPush t) = weigh g t + held g s := by
  simp [held, Sys.readyPush, readyInsert]
  omega

@[simp] theorem held_timerPush (s : Sys) : held g (s.timerPush t) = weigh g t + held g s := by
  simp [held, Sys.timerPush, timerInsert]
  omega

theorem held_promoteHead {rest : List Task} {s : Sys} (h : s.timer = t :: rest) :
    held g (promoteHead t rest s) = held g s := by
  simp only [promoteHead, held_inc, held_dec, held_readyPush]
  simp [held, h]
  omega

@[simp] theorem held_timerPromote (s : Sys) : held g (timerPromote now s) = held g s :=
  timerPromote_keeps (P := fun u => held g u = held g s)
    (fun _ _ _ h same => (held_promoteHead g h).trans same) rfl

theorem held_dequeue {test : Task → Bool} {s : Sys}
    (found : s.ready.find? test = some t) : held g (dequeue test t s) = held g s := by
  have moved := load_eraseP (weigh g) found
  simp only [held, dequeue, load_cons, Sys.inc, Sys.dec, moved]
  simp only [dispatched, weigh]
  omega

@[simp] theorem held_taskAssign (allow : Bool) (s : Sys) :
    held g (taskAssign type allow now s).2 = held g s := by
  rw [← held_timerPromote g s]
  simp only [taskAssign]
  split
  next => rfl
  next t found => exact held_dequeue g found

theorem held_taskSubmit (t : Node) (chain : List Node) (now : ℤ) (s : Sys) :
    held g (taskSubmit t chain now s) =
      g t.serial t.kind (submittedLink t chain) + held g s := by
  obtain ⟨st, eq⟩ := taskSubmit_eq now s t chain
  have same : held g (taskSubmit t chain now s) =
      held g (submitMove t (submittedLink t chain) now s) := by rw [eq]; rfl
  rw [same, submitMove]
  split <;> simp only [held_readyPush, held_timerPush, weigh]

theorem load_markCancelled : load (weigh g) (markCancelled h l) = load (weigh g) l := by
  induction l with
  | nil => rfl
  | cons t rest ih =>
    simp only [markCancelled]
    split
    · simp
    · simp [ih]

variable {h : ℕ} {s : Sys} {t : Task}

theorem held_uncount : held g (uncount c t s) = held g s := by
  obtain ⟨st, eq⟩ := uncount_eq c t s
  rw [eq]
  rfl

theorem held_taskCancel_some (found : queued h s = some t) :
    weigh g t + held g (taskCancel h s).2 = held g s := by
  rcases taskCancel_cases h s with ⟨absent, -⟩ | ⟨u, place, ⟨mem, eq⟩ | ⟨mem, eq⟩⟩
  · cases absent.symm.trans found
  all_goals
    cases place.symm.trans found
    have moved := load_eraseP (weigh g) mem
    simp only [eq, held_uncount]
    simp only [held, moved]
    omega

theorem held_taskCancel_none (absent : queued h s = none) :
    held g (taskCancel h s).2 = held g s := by
  rcases taskCancel_cases h s with ⟨-, eq | eq⟩ | ⟨u, place, -⟩
  · rw [eq]
  · rw [eq]
    simp only [held, load_markCancelled]
  · cases absent.symm.trans place

@[simp] def promoted (g : Weight) : List Node → ℕ
  | [] => 0
  | child :: rest => g child.serial child.kind rest

theorem held_promoteLink : held g (promoteLink link s) = held g s + promoted g link := by
  cases link with
  | nil => rfl
  | cons child rest => simp [promoteLink, Nat.add_comm]

theorem held_finishSwitch (t : Task) (now : ℤ) (down : Bool) (s : Sys) :
    held g (finishSwitch t now down s) = held g s +
      (if retires t down then promoted g t.link
        else if t.state = .fatal then 0 else weigh g t) := by
  obtain ⟨st, ⟨retired, eq⟩ | ⟨kept, state, eq⟩ | ⟨kept, state, eq | ⟨_, _, eq⟩⟩⟩ :=
    finishSwitch_cases t now down s
  · rw [eq, if_pos retired, ← held_promoteLink]
    rfl
  · rw [eq, kept, if_pos state]
    rfl
  all_goals
    rw [eq, kept, if_neg state, Nat.add_comm]
    simp only [Bool.false_eq_true, if_false]
  · exact held_readyPush g t s
  · exact held_timerPush g s

theorem held_unlinkRunning
    (found : s.running.find? (·.serial = t.serial) = some t) :
    weigh g t + held g (unlinkRunning t.serial s) = held g s := by
  have moved := load_eraseP (weigh g) found
  simp only [held, unlinkRunning, moved]
  omega

theorem held_taskFinish (result : TaskState) (wake now : ℤ) (down : Bool)
    (found : s.running.find? (·.serial = t.serial) = some t) :
    weigh g t + held g (taskFinish t result wake now down s) = held g s +
      (if retires (returned t result wake) down then promoted g t.link
        else if result = .fatal then 0 else weigh g t) := by
  have unlinked := held_unlinkRunning g found
  have switch := held_finishSwitch g (returned t result wake) now down
    ((unlinkRunning t.serial s).dec .running)
  rw [held_dec] at switch
  rw [taskFinish, switch, ← unlinked, Nat.add_assoc]
  rfl

end Held

structure Frame (s t : Sys) : Prop where
  fresh : t.fresh = s.fresh
  created : t.created = s.created
  nextId : t.taskNextId = s.taskNextId
  spawning : t.spawning = s.spawning
  running : t.running = s.running

theorem Frame.rfl (s : Sys) : Frame s s := ⟨.refl _, .refl _, .refl _, .refl _, .refl _⟩

theorem Frame.trans {s t u : Sys} (first : Frame s t) (second : Frame t u) : Frame s u :=
  ⟨second.fresh.trans first.fresh, second.created.trans first.created,
    second.nextId.trans first.nextId, second.spawning.trans first.spawning, second.running.trans first.running⟩

theorem frame_timerPromote (now : ℤ) (s : Sys) : Frame s (timerPromote now s) :=
  timerPromote_keeps (P := Frame s)
    (fun _ _ _ _ same => same.trans ⟨rfl, rfl, rfl, rfl, rfl⟩) (.rfl s)

theorem frame_finishSwitch (t : Task) (now : ℤ) (down : Bool) (s : Sys) :
    Frame s (finishSwitch t now down s) := by
  obtain ⟨st, ⟨-, eq⟩ | ⟨-, -, eq⟩ | ⟨-, -, eq | ⟨_, _, eq⟩⟩⟩ := finishSwitch_cases t now down s
  · rw [eq]
    cases t.link with
    | nil | cons child rest => exact ⟨rfl, rfl, rfl, rfl, rfl⟩
  all_goals
    rw [eq]
    exact ⟨rfl, rfl, rfl, rfl, rfl⟩

theorem frame_taskSubmit (t : Node) (chain : List Node) (now : ℤ) (s : Sys) :
    Frame s (taskSubmit t chain now s) := by
  obtain ⟨st, eq⟩ := taskSubmit_eq now s t chain
  rw [eq, submitMove]
  split <;> exact ⟨rfl, rfl, rfl, rfl, rfl⟩

def ownedAt (k : ℕ) : Weight := fun serial _ link =>
  (if serial = k then 1 else 0) + link.countP (·.serial = k)

def owners (k : ℕ) (s : Sys) : ℕ := s.fresh.countP (·.serial = k) + held (ownedAt k) s

structure Owned (s : Sys) : Prop where
  unique : ∀ k, owners k s ≤ 1
  bounded : ∀ k, s.created ≤ k → owners k s = 0
  spawningNodup : s.spawning.Nodup
  spawning : ∀ k ∈ s.spawning, ∃ t ∈ s.running, t.serial = k ∧ t.kind = .persist ∧ t.link = []

theorem owned_taskInit : Owned taskInit where
  unique k := by simp [owners, held]
  bounded k _ := by simp [owners, held]
  spawningNodup := nodup_nil
  spawning k h := by simp at h

theorem one_le_ownedAt (t : Task) : 1 ≤ weigh (ownedAt t.serial) t := by
  simp [ownedAt]

theorem Owned.find_running (own : Owned s) (mem : t ∈ s.running) :
    s.running.find? (·.serial = t.serial) = some t := by
  refine find?_of_load_le_one (weigh (ownedAt t.serial)) ?_ ?_ mem (by simp)
  · have once := own.unique t.serial
    simp only [owners, held] at once
    omega
  · intro u _ same
    have eq : u.serial = t.serial := of_decide_eq_true same
    rw [← eq]
    exact one_le_ownedAt u

theorem held_taskCancel_le : held (ownedAt k) (taskCancel h s).2 ≤ held (ownedAt k) s := by
  cases found : queued h s with
  | none => exact (held_taskCancel_none _ found).le
  | some t =>
    have := held_taskCancel_some (ownedAt k) found
    omega

theorem promoted_ownedAt_le (k : ℕ) (t : Task) :
    promoted (ownedAt k) t.link ≤ weigh (ownedAt k) t := by
  simp only [weigh, ownedAt]
  cases t.link with
  | nil => simp
  | cons child rest =>
    simp only [promoted, ownedAt, countP_cons, decide_eq_true_eq]
    omega

theorem held_taskFinish_le (own : Owned s) (mem : t ∈ s.running)
    (result : TaskState) (wake now : ℤ) (down : Bool) (k : ℕ) :
    held (ownedAt k) (taskFinish t result wake now down s) ≤ held (ownedAt k) s := by
  have moved := held_taskFinish (ownedAt k) result wake now down (own.find_running mem)
  have := promoted_ownedAt_le k t
  split at moved
  · omega
  · split at moved <;> omega

theorem owners_promote : owners k (timerPromote now s) = owners k s := by
  simp only [owners, (frame_timerPromote now s).fresh, held_timerPromote]

theorem owners_taskCreate :
    owners k (taskCreate spec s) = owners k s + if s.created = k then 1 else 0 := by
  simp only [owners, taskCreate, taskAllocIdLocked, countP_cons, held, decide_eq_true_eq]
  omega

theorem owned_taskCreate (own : Owned s) : Owned (taskCreate spec s) := by
  refine ⟨fun k => ?_, fun k h => ?_, own.spawningNodup, own.spawning⟩
  · rw [owners_taskCreate]
    have := own.unique k
    have := own.bounded k
    split <;> omega
  · have bound : s.created + 1 ≤ k := h
    rw [owners_taskCreate, own.bounded k (by omega), if_neg (by omega)]

theorem countP_fresh_submit {t : Node} {fresh : List Node} (nodup : (t :: chain).Nodup)
    (mine : ∀ x ∈ t :: chain, x ∈ fresh) (p : Node → Bool) :
    (fresh.filter (· ∉ t :: chain)).countP p + (t :: chain).countP p ≤ fresh.countP p := by
  have taken : (t :: chain).countP p ≤ (fresh.filter (· ∈ t :: chain)).countP p := by
    apply List.Subperm.countP_le
    apply nodup.subperm
    intro x mem
    exact mem_filter.mpr ⟨mine x mem, by simpa using mem⟩
  have split := countP_eq_countP_filter_add fresh p (· ∈ t :: chain)
  simp only [decide_not] at split ⊢
  omega

theorem owners_submit_le {t : Node} (nodup : (t :: chain).Nodup)
    (mine : ∀ x ∈ t :: chain, x ∈ s.fresh) :
    owners k (taskSubmit t chain now { s with fresh := s.fresh.filter (· ∉ t :: chain) }) ≤
      owners k s := by
  have same := frame_taskSubmit t chain now { s with fresh := s.fresh.filter (· ∉ t :: chain) }
  have taken := countP_fresh_submit nodup mine (·.serial = k)
  have links : (submittedLink t chain).countP (·.serial = k) ≤ chain.countP (·.serial = k) := by
    simp only [submittedLink]
    split <;> simp
  simp only [owners, same.fresh, held_taskSubmit]
  simp only [countP_cons, decide_eq_true_eq] at taken
  simp only [ownedAt, held] at links taken ⊢
  omega

theorem owners_addPersist {t : Node} (mine : t ∈ s.fresh) :
    owners k (taskAddPersist t { s with fresh := s.fresh.erase t }) = owners k s := by
  have erased := (perm_cons_erase mine).countP_eq (·.serial = k)
  simp only [countP_cons, decide_eq_true_eq] at erased
  simp only [owners, taskAddPersist, held, load_cons, weigh, ownedAt, countP_nil, Sys.inc]
  omega

theorem mem_unlinkRunning (mem : t ∈ s.running) (other : t.serial ≠ k) :
    t ∈ (unlinkRunning k s).running :=
  (mem_eraseP_of_neg (by simpa using other)).mpr mem

theorem owners_spawnFailed_le (own : Owned s) (pending : k ∈ s.spawning) :
    owners j (taskAddPersistFailed k { s with spawning := s.spawning.erase k }) ≤
      owners j s := by
  obtain ⟨t, mem, rfl, _⟩ := own.spawning k pending
  have := held_unlinkRunning (ownedAt j) (own.find_running mem)
  simp only [owners, taskAddPersistFailed, unlinkRunning, held, Sys.dec] at this ⊢
  omega

variable (type : TaskType)

theorem taskAssign_running : s.running ⊆ (taskAssign type allow now s).2.running := by
  rw [← (frame_timerPromote now s).running, taskAssign]
  split
  · exact List.Subset.refl _
  · exact subset_cons_self _ _

theorem taskAssign_frame (allow : Bool) (now : ℤ) (s : Sys) :
    (taskAssign type allow now s).2.fresh = s.fresh ∧
      (taskAssign type allow now s).2.created = s.created ∧
      (taskAssign type allow now s).2.spawning = s.spawning ∧
      (taskAssign type allow now s).2.taskNextId = s.taskNextId := by
  have same := frame_timerPromote now s
  simp only [taskAssign]
  split <;> exact ⟨same.fresh, same.created, same.spawning, same.nextId⟩

theorem owners_assign : owners k (taskAssign type allow now s).2 = owners k s := by
  simp only [owners, (taskAssign_frame type allow now s).1, held_taskAssign]

theorem mem_markCancelled {l : List Task} (mem : t ∈ l) :
    ∃ u ∈ markCancelled h l, u.serial = t.serial ∧ u.kind = t.kind ∧ u.link = t.link := by
  induction l with
  | nil => simp at mem
  | cons first rest ih =>
    simp only [markCancelled]
    rcases mem_cons.mp mem with rfl | later
    · split
      · exact ⟨_, mem_cons_self, rfl, rfl, rfl⟩
      · exact ⟨t, mem_cons_self, rfl, rfl, rfl⟩
    · obtain ⟨u, memu, same⟩ := ih later
      split
      · exact ⟨t, .tail _ later, rfl, rfl, rfl⟩
      · exact ⟨u, .tail _ memu, same⟩

theorem frame_taskCancel (h : ℕ) (s : Sys) :
    Frame s (taskCancel h s).2 ∨
      (taskCancel h s).2 = { s with running := markCancelled h s.running } := by
  rcases taskCancel_cases h s with ⟨-, eq | eq⟩ | ⟨t, -, ⟨-, eq⟩ | ⟨-, eq⟩⟩
  · exact .inl (eq ▸ .rfl s)
  · exact .inr (congrArg Prod.snd eq)
  all_goals
    obtain ⟨st, counted⟩ := uncount_eq _ t _
    rw [eq, counted]
    exact .inl ⟨rfl, rfl, rfl, rfl, rfl⟩

theorem taskCancel_fresh : (taskCancel h s).2.fresh = s.fresh := by
  rcases frame_taskCancel h s with same | eq
  · exact same.fresh
  · rw [eq]

theorem owners_cancel_le : owners k (taskCancel h s).2 ≤ owners k s := by
  simp only [owners, taskCancel_fresh]
  exact Nat.add_le_add_left held_taskCancel_le _

theorem owners_finish_le (own : Owned s) (mem : t ∈ s.running) :
    owners k (taskFinish t result wake now down s) ≤ owners k s := by
  have fresh : (taskFinish t result wake now down s).fresh = s.fresh :=
    (frame_finishSwitch (returned t result wake) now down _).fresh
  have := held_taskFinish_le own mem result wake now down k
  simp only [owners, fresh]
  omega

theorem step_created (h : step s op = some u) :
    u.created = s.created ∧ u.taskNextId = s.taskNextId ∨ ∃ spec, u = taskCreate spec s := by
  cases op with
  | create spec => exact .inr ⟨spec, (Option.some.inj h).symm⟩
  | submit t chain now =>
    obtain ⟨_, rfl⟩ := fired h
    have same := frame_taskSubmit t chain now
      { s with fresh := s.fresh.filter (· ∉ t :: chain) }
    exact .inl ⟨same.created, same.nextId⟩
  | addPersist t | spawned j | spawnFailed j =>
    obtain ⟨_, rfl⟩ := fired h
    exact .inl ⟨rfl, rfl⟩
  | assign type allow now =>
    cases h
    obtain ⟨_, created, _, nextId⟩ := taskAssign_frame type allow now s
    exact .inl ⟨created, nextId⟩
  | promote now =>
    cases h
    have same := frame_timerPromote now s
    exact .inl ⟨same.created, same.nextId⟩
  | cancel handle =>
    cases h
    rcases frame_taskCancel handle s with same | eq
    · exact .inl ⟨same.created, same.nextId⟩
    · rw [eq]
      exact .inl ⟨rfl, rfl⟩
  | finish t result wake now down =>
    obtain ⟨_, rfl⟩ := fired h
    have same := frame_finishSwitch (returned t result wake) now down
      ((unlinkRunning t.serial s).dec .running)
    exact .inl ⟨same.created, same.nextId⟩

theorem created_le (h : step s op = some u) : s.created ≤ u.created := by
  rcases step_created h with ⟨created, _⟩ | ⟨spec, rfl⟩
  · exact created.ge
  · exact Nat.le_succ _

theorem owners_step_le (own : Owned s) (h : step s op = some u)
    (old : k < s.created ∨ u.created = s.created) : owners k u ≤ owners k s := by
  cases op with
  | create spec =>
    cases h
    have made : (taskCreate spec s).created = s.created + 1 := rfl
    rw [owners_taskCreate, if_neg (by omega), Nat.add_zero]
  | submit t chain now =>
    obtain ⟨⟨nodup, mine⟩, rfl⟩ := fired h
    exact owners_submit_le nodup mine
  | addPersist t =>
    obtain ⟨mine, rfl⟩ := fired h
    exact (owners_addPersist mine).le
  | spawned j =>
    obtain ⟨_, rfl⟩ := fired h
    exact le_refl _
  | spawnFailed j =>
    obtain ⟨pending, rfl⟩ := fired h
    exact owners_spawnFailed_le own pending
  | assign type allow now =>
    cases h
    exact (owners_assign type).le
  | promote now =>
    cases h
    exact owners_promote.le
  | cancel handle =>
    cases h
    exact owners_cancel_le
  | finish t result wake now down =>
    obtain ⟨⟨mem, _⟩, rfl⟩ := fired h
    exact owners_finish_le own mem

theorem spawning_step (own : Owned s) (h : step s op = some u) : u.spawning.Nodup ∧
    ∀ k ∈ u.spawning, ∃ t ∈ u.running, t.serial = k ∧ t.kind = .persist ∧ t.link = [] := by
  cases op with
  | create spec =>
    cases h
    exact ⟨own.spawningNodup, own.spawning⟩
  | submit t chain now =>
    obtain ⟨_, rfl⟩ := fired h
    have same := frame_taskSubmit t chain now { s with fresh := s.fresh.filter (· ∉ t :: chain) }
    rw [same.spawning, same.running]
    exact ⟨own.spawningNodup, own.spawning⟩
  | addPersist t =>
    obtain ⟨mine, rfl⟩ := fired h
    refine ⟨nodup_cons.mpr ⟨fun pending => ?_, own.spawningNodup⟩, fun k h => ?_⟩
    · -- a pending serial is on the running list, a created one is not
      obtain ⟨u, mem, serial, _⟩ := own.spawning t.serial pending
      have once := own.unique t.serial
      have created : 1 ≤ s.fresh.countP (·.serial = t.serial) :=
        countP_pos_iff.mpr ⟨t, mine, by simp⟩
      have listed := le_load (weigh (ownedAt t.serial)) mem
      have heavy := one_le_ownedAt u
      rw [serial] at heavy
      simp only [owners, held] at once
      omega
    · rcases mem_cons.mp h with rfl | old
      · exact ⟨_, mem_cons_self, rfl, rfl, rfl⟩
      · obtain ⟨u, mem, rest⟩ := own.spawning k old
        exact ⟨u, .tail _ mem, rest⟩
  | spawned k =>
    obtain ⟨_, rfl⟩ := fired h
    exact ⟨own.spawningNodup.erase k, fun j mem => own.spawning j (mem_of_mem_erase mem)⟩
  | spawnFailed k =>
    obtain ⟨_, rfl⟩ := fired h
    refine ⟨own.spawningNodup.erase k, fun j mem => ?_⟩
    have other : j ≠ k := (own.spawningNodup.mem_erase_iff.mp mem).1
    obtain ⟨u, memu, rfl, rest⟩ := own.spawning j (mem_of_mem_erase mem)
    exact ⟨u, mem_unlinkRunning memu other, rfl, rest⟩
  | assign type allow now =>
    cases h
    rw [(taskAssign_frame type allow now s).2.2.1]
    refine ⟨own.spawningNodup, fun k mem => ?_⟩
    obtain ⟨t, memt, rest⟩ := own.spawning k mem
    exact ⟨t, taskAssign_running type memt, rest⟩
  | promote now =>
    cases h
    have same := frame_timerPromote now s
    rw [same.spawning, same.running]
    exact ⟨own.spawningNodup, own.spawning⟩
  | cancel handle =>
    cases h
    rcases frame_taskCancel handle s with same | eq
    · rw [same.spawning, same.running]
      exact ⟨own.spawningNodup, own.spawning⟩
    · rw [eq]
      refine ⟨own.spawningNodup, fun k mem => ?_⟩
      obtain ⟨t, memt, rfl, kind, link⟩ := own.spawning k mem
      obtain ⟨v, memv, serial, kind', link'⟩ := mem_markCancelled memt
      exact ⟨v, memv, serial, kind'.trans kind, link'.trans link⟩
  | finish t result wake now down =>
    obtain ⟨⟨_, started⟩, rfl⟩ := fired h
    have same := frame_finishSwitch (returned t result wake) now down
      ((unlinkRunning t.serial s).dec .running)
    rw [taskFinish, same.spawning, same.running]
    refine ⟨own.spawningNodup, fun k mem => ?_⟩
    obtain ⟨u, memu, rfl, rest⟩ := own.spawning k mem
    exact ⟨u, mem_unlinkRunning memu fun eq => started (eq ▸ mem), rfl, rest⟩

theorem owned_step (own : Owned s) (h : step s op = some u) : Owned u := by
  rcases step_created h with ⟨created, -⟩ | ⟨spec, rfl⟩
  · have le (k : ℕ) : owners k u ≤ owners k s := owners_step_le own h (.inr created)
    obtain ⟨nodup, spawning⟩ := spawning_step own h
    exact ⟨fun k => (le k).trans (own.unique k), fun k late =>
      Nat.le_zero.mp ((le k).trans (own.bounded k (created ▸ late)).le), nodup, spawning⟩
  · exact owned_taskCreate own

def Freed (k : ℕ) (s : Sys) : Prop := Owned s ∧ owners k s = 0 ∧ k < s.created

theorem freed_step (freed : Freed k s) (h : step s op = some u) : Freed k u := by
  obtain ⟨own, none, old⟩ := freed
  have le := owners_step_le own h (.inl old)
  have := created_le h
  exact ⟨owned_step own h, by omega, by omega⟩

theorem freed_run {s : Sys} {labels : List Op} {ok : Sys → Op → Prop} (freed : Freed k s)
    (run : Run step ok s labels u) : Freed k u :=
  run.invariant (fun freed _ h => freed_step freed h) freed

theorem one_le_owners (mem : t ∈ s.ready ∨ t ∈ s.timer ∨ t ∈ s.running) :
    1 ≤ owners t.serial s := by
  have weight := one_le_ownedAt t
  simp only [owners, held]
  rcases mem with mem | mem | mem
  all_goals
    have := le_load (weigh (ownedAt t.serial)) mem
    omega

theorem Owned.timer_ne_running (own : Owned s) {t v : Task} (timer : t ∈ s.timer)
    (running : v ∈ s.running) : t.serial ≠ v.serial := by
  intro same
  have once := own.unique t.serial
  have left := le_load (weigh (ownedAt t.serial)) timer
  have right := le_load (weigh (ownedAt t.serial)) running
  have weight := one_le_ownedAt t
  have weight' := one_le_ownedAt v
  rw [← same] at weight'
  simp only [owners, held] at once
  omega

variable {type : TaskType} {allow : Bool}

theorem assigned_running {s : Sys} {now : ℤ}
    (h : (taskAssign type allow now s).1 = some t) : t ∈ (taskAssign type allow now s).2.running := by
  simp only [taskAssign] at h ⊢
  cases found : (timerPromote now s).ready.find? (eligible type allow) with
  | none => simp [found] at h
  | some v =>
    simp only [found, Option.some.injEq] at h ⊢
    simp [dequeue, h]

theorem Freed.not_assigned {s : Sys} (freed : Freed k s) {now : ℤ}
    (h : (taskAssign type allow now s).1 = some t) : t.serial ≠ k := by
  rintro rfl
  have owned := one_le_owners (.inr (.inr (assigned_running h)))
  rw [owners_assign, freed.2.1] at owned
  omega

theorem Owned.lt_created (own : Owned s) (owned : 1 ≤ owners k s) : k < s.created := by
  by_contra late
  have := own.bounded k (by omega)
  omega

theorem freed_cancel (own : Owned s) (found : queued h s = some t) :
    Freed t.serial (taskCancel h s).2 := by
  have moved := held_taskCancel_some (ownedAt t.serial) found
  have weight := one_le_ownedAt t
  have once := own.unique t.serial
  have old := own.lt_created (k := t.serial) (by simp only [owners]; omega)
  have step : step s (.cancel h) = some (taskCancel h s).2 := rfl
  refine ⟨owned_step own step, ?_, old.trans_le (created_le step)⟩
  simp only [owners, taskCancel_fresh] at once ⊢
  omega

theorem freed_finish (own : Owned s) (mem : t ∈ s.running)
    (started : t.serial ∉ s.spawning) {result : TaskState} (wake now : ℤ) {down : Bool}
    (ends : retires (returned t result wake) down = true ∨ result = .fatal) :
    Freed t.serial (taskFinish t result wake now down s) := by
  have moved := held_taskFinish (ownedAt t.serial) result wake now down (own.find_running mem)
  have once := own.unique t.serial
  have weight : weigh (ownedAt t.serial) t = 1 + t.link.countP (·.serial = t.serial) := by
    simp [ownedAt]
  have left : promoted (ownedAt t.serial) t.link ≤ t.link.countP (·.serial = t.serial) := by
    cases t.link with
    | nil => simp
    | cons child rest => simp [ownedAt, countP_cons, Nat.add_comm]
  have heavy := le_load (weigh (ownedAt t.serial)) mem
  have fresh : (taskFinish t result wake now down s).fresh = s.fresh :=
    (frame_finishSwitch (returned t result wake) now down _).fresh
  have step : step s (.finish t result wake now down) = some (taskFinish t result wake now down s) :=
    if_pos ⟨mem, started⟩
  have old := own.lt_created (one_le_owners (.inr (.inr mem)))
  refine ⟨owned_step own step, ?_, old.trans_le (created_le step)⟩
  simp only [owners, held] at once
  simp only [owners, fresh]
  rcases ends with retired | rfl
  · rw [if_pos retired] at moved
    simp only [held] at moved ⊢
    omega
  · have kept : retires (returned t .fatal wake) down = false := by simp [returned]
    simp only [kept, if_true, Bool.false_eq_true, if_false, held] at moved ⊢
    omega

theorem owned_reachable {s : Sys} (reached : Reachable step taskInit s) : Owned s :=
  reached.invariant owned_taskInit owned_step

end BotManager.TaskOwnership
