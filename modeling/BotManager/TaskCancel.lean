import BotManager.TaskOwnership

/-! Cancellation in core/task.c. A task that `task_cancel` takes off a queue is freed
and no worker ever receives it. A task it finds running keeps its `cancelled` flag
until a callback returns that ends it, and is then freed as well.

`Roles` states an invariant of the nodes by where they are: idle (with the caller, or
linked behind another task), queued, or running. -/

namespace BotManager.TaskCancel
open List StepRun StableInsert TaskModel TaskOwnership

structure Roles where
  idle : Node → Prop
  queued : Node → Prop
  running : Node → Prop

variable {s u : Sys} {t v : Task} {h k : ℕ} {op : Op}

variable {result : TaskState} {chain : List Node} {labels : List Op} {l : List Task}

namespace Roles

structure Hold (r : Roles) (s : Sys) : Prop where
  fresh : ∀ n ∈ s.fresh, r.idle n
  ready : ∀ t ∈ s.ready, r.queued t.toNode ∧ ∀ n ∈ t.link, r.idle n
  timer : ∀ t ∈ s.timer, r.queued t.toNode ∧ ∀ n ∈ t.link, r.idle n
  running : ∀ t ∈ s.running, r.running t.toNode ∧ ∀ n ∈ t.link, r.idle n

structure Closed (r : Roles) : Prop where
  queue : ∀ n state, r.idle n → r.queued { n with state }
  spawn : ∀ n, r.idle n →
    r.running { n with type := .thread, kind := .persist, state := .running, runCount := 1 }
  wake : ∀ n, r.queued n → r.queued { n with state := .waiting }
  dispatch : ∀ n runCount, r.queued n → r.running { n with state := .running, runCount }
  cancel : ∀ n, r.running n → r.running { n with cancelled := true }

def Allows (r : Roles) (s : Sys) : Op → Prop
  | .create _ => ∀ n : Node, n.serial = s.created → n.id = s.taskNextId → n.runCount = 0 →
      r.idle n
  | .finish t .. => ∀ state sleepUntil, r.queued { t.toNode with state, sleepUntil }
  | _ => True

variable {r : Roles}

theorem Hold.congr (hold : r.Hold s) (fresh : u.fresh = s.fresh) (ready : u.ready = s.ready)
    (timer : u.timer = s.timer) (running : u.running = s.running) : r.Hold u where
  fresh := by rw [fresh]; exact hold.fresh
  ready := by rw [ready]; exact hold.ready
  timer := by rw [timer]; exact hold.timer
  running := by rw [running]; exact hold.running

theorem of_mem_markCancelled (mem : v ∈ markCancelled h l) :
    v ∈ l ∨ ∃ t ∈ l, t.id = h ∧ v = { t with cancelled := true } := by
  induction l with
  | nil => cases mem
  | cons t rest ih =>
    simp only [markCancelled] at mem
    split at mem
    next hit =>
      rcases mem_cons.mp mem with rfl | old
      · exact .inr ⟨t, mem_cons_self, hit, rfl⟩
      · exact .inl (.tail _ old)
    next =>
      rcases mem_cons.mp mem with rfl | later
      · exact .inl mem_cons_self
      · rcases ih later with old | ⟨w, memw, hit, rfl⟩
        · exact .inl (.tail _ old)
        · exact .inr ⟨w, .tail _ memw, hit, rfl⟩

variable (hold : r.Hold s)
include hold

theorem Hold.readyPush (node : r.queued t.toNode) (link : ∀ n ∈ t.link, r.idle n) :
    r.Hold (s.readyPush t) where
  __ := hold
  ready v mem := by
    rcases (mem_insertBy _ _).mp mem with rfl | old
    · exact ⟨node, link⟩
    · exact hold.ready v old

theorem Hold.timerPush (node : r.queued t.toNode) (link : ∀ n ∈ t.link, r.idle n) :
    r.Hold (s.timerPush t) where
  __ := hold
  timer v mem := by
    rcases (mem_insertBy _ _).mp mem with rfl | old
    · exact ⟨node, link⟩
    · exact hold.timer v old

theorem Hold.unlinkRunning (k : ℕ) : r.Hold (unlinkRunning k s) :=
  { hold with running := fun v mem => hold.running v (mem_of_mem_eraseP mem) }

variable (closed : r.Closed)
include closed

theorem Hold.timerPromote (now : ℤ) : r.Hold (timerPromote now s) := by
  refine timerPromote_keeps (fun t rest s whole hold => ?_) hold
  have head := hold.timer t (by simp [whole])
  have popped : r.Hold { s with timer := rest } :=
    { hold with timer := fun v mem => hold.timer v (by simp [whole, mem]) }
  exact (popped.readyPush (t := { t with state := .waiting }) (closed.wake _ head.1) head.2).congr
    rfl rfl rfl rfl

theorem Hold.taskAssign (type : TaskType) (allow : Bool) (now : ℤ) :
    r.Hold (taskAssign type allow now s).2 := by
  have base := hold.timerPromote closed now
  simp only [TaskModel.taskAssign]
  split
  next => exact base
  next t found =>
    have chosen := base.ready t (mem_of_find?_eq_some found)
    refine ⟨base.fresh, fun v mem => base.ready v (mem_of_mem_eraseP mem), base.timer,
      fun v mem => ?_⟩
    rcases mem_cons.mp mem with rfl | old
    · exact ⟨closed.dispatch _ _ chosen.1, chosen.2⟩
    · exact base.running v old

theorem Hold.taskSubmit {t : Node} (mine : ∀ x ∈ t :: chain, x ∈ s.fresh)
    (now : ℤ) :
    r.Hold (taskSubmit t chain now { s with fresh := s.fresh.filter (· ∉ t :: chain) }) := by
  have taken : r.Hold { s with fresh := s.fresh.filter (· ∉ t :: chain) } :=
    { hold with fresh := fun n mem => hold.fresh n (mem_filter.mp mem).1 }
  have idle : ∀ n ∈ t :: chain, r.idle n := fun n mem => hold.fresh n (mine n mem)
  have link : ∀ n ∈ submittedLink t chain, r.idle n := by
    intro n mem
    simp only [submittedLink] at mem
    split at mem
    · cases mem
    · exact idle n (.tail _ mem)
  have node (state : TaskState) : r.queued { t with state } :=
    closed.queue t state (idle t mem_cons_self)
  obtain ⟨st, eq⟩ := taskSubmit_eq now { s with fresh := s.fresh.filter (· ∉ t :: chain) } t chain
  rw [eq, submitMove]
  split
  · exact (taken.timerPush (node _) link).congr rfl rfl rfl rfl
  · exact (taken.readyPush (node _) link).congr rfl rfl rfl rfl

theorem Hold.taskAddPersist {t : Node} (mine : t ∈ s.fresh) :
    r.Hold (taskAddPersist t { s with fresh := s.fresh.erase t }) := by
  refine ⟨fun n mem => hold.fresh n (mem_of_mem_erase mem), hold.ready, hold.timer,
    fun v mem => ?_⟩
  rcases mem_cons.mp mem with rfl | old
  · exact ⟨closed.spawn t (hold.fresh t mine), nofun⟩
  · exact hold.running v old

theorem Hold.taskCancel (h : ℕ) : r.Hold (taskCancel h s).2 := by
  rcases taskCancel_cases h s with ⟨-, eq | eq⟩ | ⟨t, -, ⟨-, eq⟩ | ⟨-, eq⟩⟩
  · rwa [eq]
  · rw [eq]
    refine { hold with running := fun v mem => ?_ }
    rcases of_mem_markCancelled mem with old | ⟨t, memt, _, rfl⟩
    · exact hold.running v old
    · exact ⟨closed.cancel _ (hold.running t memt).1, (hold.running t memt).2⟩
  · obtain ⟨st, counted⟩ := uncount_eq .waiting t { s with ready := s.ready.eraseP (·.id = h) }
    rw [eq, counted]
    exact { hold with ready := fun v mem => hold.ready v (mem_of_mem_eraseP mem) }
  · obtain ⟨st, counted⟩ := uncount_eq .sleeping t { s with timer := s.timer.eraseP (·.id = h) }
    rw [eq, counted]
    exact { hold with timer := fun v mem => hold.timer v (mem_of_mem_eraseP mem) }

theorem Hold.promoteLink (link : ∀ n ∈ chain, r.idle n) : r.Hold (promoteLink chain s) := by
  cases chain with
  | nil => exact hold
  | cons child rest =>
    have node : r.queued { child with state := .waiting } :=
      closed.queue child _ (link child mem_cons_self)
    exact hold.readyPush (t := ⟨_, rest, 0⟩) node fun n mem => link n (.tail _ mem)

theorem Hold.finishSwitch (again : ∀ state sleepUntil, r.queued { t.toNode with state, sleepUntil })
    (link : ∀ n ∈ t.link, r.idle n) (now : ℤ) (down : Bool) :
    r.Hold (finishSwitch t now down s) := by
  obtain ⟨st, ⟨-, eq⟩ | ⟨-, -, eq⟩ | ⟨-, -, eq | ⟨state, wake, eq⟩⟩⟩ :=
    finishSwitch_cases t now down s
  · rw [eq]
    exact (hold.promoteLink closed link).congr rfl rfl rfl rfl
  · rw [eq]
    exact hold.congr rfl rfl rfl rfl
  · rw [eq]
    exact (hold.readyPush (again _ _) link).congr rfl rfl rfl rfl
  · rw [eq]
    exact (hold.timerPush (t := { t with state, sleepUntil := wake }) (again _ _) link).congr
      rfl rfl rfl rfl

theorem Hold.step (allowed : r.Allows s op) (h : step s op = some u) : r.Hold u := by
  cases op with
  | create spec =>
    cases h
    refine { hold with fresh := fun n mem => ?_ }
    rcases mem_cons.mp mem with rfl | old
    · exact allowed _ rfl rfl rfl
    · exact hold.fresh n old
  | submit t chain now =>
    obtain ⟨⟨_, mine⟩, rfl⟩ := fired h
    exact hold.taskSubmit closed mine now
  | addPersist t =>
    obtain ⟨mine, rfl⟩ := fired h
    exact hold.taskAddPersist closed mine
  | spawned k =>
    obtain ⟨_, rfl⟩ := fired h
    exact hold.congr rfl rfl rfl rfl
  | spawnFailed k =>
    obtain ⟨_, rfl⟩ := fired h
    exact (hold.unlinkRunning k).congr rfl rfl rfl rfl
  | assign type allow now =>
    cases h
    exact hold.taskAssign closed type allow now
  | promote now =>
    cases h
    exact hold.timerPromote closed now
  | cancel handle =>
    cases h
    exact hold.taskCancel closed handle
  | finish t result wake now down =>
    obtain ⟨⟨mem, _⟩, rfl⟩ := fired h
    have link := (hold.running t mem).2
    have unlinked : r.Hold ((TaskModel.unlinkRunning t.serial s).dec .running) :=
      (hold.unlinkRunning t.serial).congr rfl rfl rfl rfl
    exact unlinked.finishSwitch closed (t := returned t result wake) allowed link now down

end Roles

def apart (t : Task) : Roles where
  idle n := n.serial ≠ t.serial
  queued n := n.serial ≠ t.serial
  running n := n.serial = t.serial → n = t.toNode

theorem one_le_weigh (here : v.serial = k ∨ ∃ n ∈ v.link, n.serial = k) :
    1 ≤ weigh (ownedAt k) v := by
  simp only [weigh, ownedAt]
  rcases here with rfl | ⟨n, mem, same⟩
  · simp
  · have : 0 < v.link.countP (·.serial = k) := countP_pos_iff.mpr ⟨n, mem, by simpa using same⟩
    omega

theorem eq_of_running (own : Owned s) (mem : t ∈ s.running) (memv : v ∈ s.running)
    (here : v.serial = t.serial ∨ ∃ n ∈ v.link, n.serial = t.serial) : v = t := by
  have single : load (weigh (ownedAt t.serial)) s.running ≤ 1 := by
    have once := own.unique t.serial
    simp only [owners, held] at once
    omega
  have find {w : Task} (memw : w ∈ s.running) (heavy : 1 ≤ weigh (ownedAt t.serial) w) :
      s.running.find? (fun w => 1 ≤ weigh (ownedAt t.serial) w) = some w :=
    find?_of_load_le_one _ single (fun y _ hit => of_decide_eq_true hit) memw
      (decide_eq_true heavy)
  have foundv := find memv (one_le_weigh here)
  rw [find mem (one_le_ownedAt t)] at foundv
  exact (Option.some.inj foundv).symm

theorem hold_apart (own : Owned s) (mem : t ∈ s.running) : (apart t).Hold s := by
  have once := own.unique t.serial
  have weight := one_le_ownedAt t
  have heavy := le_load (weigh (ownedAt t.serial)) mem
  have queued {l : List Task} (small : load (weigh (ownedAt t.serial)) l = 0) {v : Task}
      (memv : v ∈ l) : (apart t).queued v.toNode ∧ ∀ n ∈ v.link, (apart t).idle n := by
    have light := le_load (weigh (ownedAt t.serial)) memv
    refine ⟨fun same => ?_, fun n memn same => ?_⟩
    · have := one_le_weigh (.inl same)
      omega
    · have := one_le_weigh (.inr ⟨n, memn, same⟩)
      omega
  simp only [owners, held] at once
  refine ⟨fun n memn same => ?_, fun v memv => queued (by omega) memv,
    fun v memv => queued (by omega) memv, fun v memv => ⟨fun same => ?_, fun n memn same => ?_⟩⟩
  · have : 0 < s.fresh.countP (·.serial = t.serial) :=
      countP_pos_iff.mpr ⟨n, memn, by simpa using same⟩
    omega
  · rw [eq_of_running own mem memv (.inl same)]
  · -- a task linked behind its own object would own it twice
    obtain rfl := eq_of_running own mem memv (.inr ⟨n, memn, same⟩)
    have : 0 < v.link.countP (·.serial = v.serial) :=
      countP_pos_iff.mpr ⟨n, memn, by simpa using same⟩
    simp only [weigh, ownedAt, if_true] at heavy
    omega

def flagged (k : ℕ) : Roles where
  idle n := n.serial = k → n.cancelled = true
  queued n := n.serial = k → n.cancelled = true
  running n := n.serial = k → n.cancelled = true

theorem flagged_closed : (flagged k).Closed :=
  ⟨fun _ _ h => h, fun _ h => h, fun _ h => h, fun _ _ h => h, fun _ _ _ => rfl⟩

structure Flagged (k : ℕ) (s : Sys) : Prop where
  owned : Owned s
  old : k < s.created
  hold : (flagged k).Hold s

theorem flagged_step (flag : Flagged k s) (h : step s op = some u) : Flagged k u := by
  have old := flag.old
  refine ⟨owned_step flag.owned h, old.trans_le (created_le h), ?_⟩
  refine flag.hold.step flagged_closed ?_ h
  cases op with
  | create spec =>
    intro n serial _ _ same
    omega
  | finish t result wake now down =>
    obtain ⟨⟨mem, _⟩, _⟩ := fired h
    intro state sleepUntil
    exact (flag.hold.running t mem).1
  | submit | addPersist | spawned | spawnFailed | assign | promote | cancel => trivial

theorem flagged_run (flag : Flagged k s)
    (run : Run step Any s labels u) : Flagged k u :=
  run.invariant (fun flag _ h => flagged_step flag h) flag

theorem markCancelled_split (found : l.find? (·.id = h) = some t) :
    ∃ before after, l = before ++ t :: after ∧
      markCancelled h l = before ++ { t with cancelled := true } :: after := by
  induction l with
  | nil => cases found
  | cons v rest ih =>
    by_cases hit : v.id = h
    · obtain rfl : v = t := by simpa [find?_cons, hit] using found
      exact ⟨[], rest, rfl, by simp [markCancelled, hit]⟩
    · have later : rest.find? (·.id = h) = some t := by
        simpa [find?_cons, hit] using found
      obtain ⟨before, after, whole, marked⟩ := ih later
      exact ⟨v :: before, after, by rw [whole]; rfl, by simp [markCancelled, hit, marked]⟩

theorem flagged_cancel (own : Owned s) (handle : h ≠ 0) (absent : queued h s = none)
    (found : s.running.find? (·.id = h) = some t) : Flagged t.serial (taskCancel h s).2 := by
  have mem := mem_of_find?_eq_some found
  have others := hold_apart own mem
  have result : (taskCancel h s).2 = { s with running := markCancelled h s.running } := by
    simp only [queued, if_neg handle, Option.or_eq_none_iff] at absent
    simp only [taskCancel, if_neg handle, absent.1, absent.2]
  have own' : Owned (taskCancel h s).2 := owned_step own (show step s (.cancel h) = _ from rfl)
  have old := own.lt_created (one_le_owners (.inr (.inr mem)))
  rw [result] at own' ⊢
  obtain ⟨before, after, whole, marked⟩ := markCancelled_split found
  refine ⟨own', old, ⟨fun n memn same => absurd same (others.fresh n memn),
    fun v memv => ⟨fun same => absurd same (others.ready v memv).1,
      fun n memn same => absurd same ((others.ready v memv).2 n memn)⟩,
    fun v memv => ⟨fun same => absurd same (others.timer v memv).1,
      fun n memn same => absurd same ((others.timer v memv).2 n memn)⟩, fun v memv => ?_⟩⟩
  have link : ∀ w ∈ s.running, ∀ n ∈ w.link, (flagged t.serial).idle n :=
    fun w memw n memn same => absurd same ((others.running w memw).2 n memn)
  rw [marked] at memv
  by_cases here : v = { t with cancelled := true }
  · rw [here]
    exact ⟨fun _ => rfl, link t mem⟩
  · have rest : v ∈ before ++ after := by simpa [here] using memv
    have memv' : v ∈ s.running := by
      rw [whole]
      simp only [mem_append, mem_cons] at rest ⊢
      tauto
    refine ⟨fun same => ?_, link v memv'⟩
    -- a second running task with this serial would be a second owner
    have once := own.unique t.serial
    have split : load (weigh (ownedAt t.serial)) s.running =
        weigh (ownedAt t.serial) t + load (weigh (ownedAt t.serial)) (before ++ after) := by
      rw [whole, load_perm _ perm_middle, load_cons]
    have one := one_le_ownedAt t
    have two := one_le_weigh (v := v) (.inl same)
    have := le_load (weigh (ownedAt t.serial)) rest
    simp only [owners, held] at once
    omega

def unrun (k : ℕ) : Roles where
  idle n := n.runCount = 0
  queued n := n.serial = k → n.runCount = 0
  running _ := True

theorem unrun_closed : (unrun k).Closed :=
  ⟨fun _ _ h _ => h, fun _ _ => trivial, fun _ h => h, fun _ _ _ => trivial, fun _ _ => trivial⟩

def returns (k : ℕ) : Op → Prop
  | .finish t .. => t.serial = k
  | _ => False

theorem unrun_run (run : Run step Any taskInit labels s)
    (first : ∀ op ∈ labels, ¬ returns k op) : (unrun k).Hold s := by
  have start : (unrun k).Hold taskInit :=
    ⟨nofun, nofun, nofun,
      nofun⟩
  generalize taskInit = init at run start
  induction run with
  | nil _ => exact start
  | cons _ head _ ih =>
    refine ih (fun op mem => first op (.tail _ mem)) (start.step unrun_closed ?_ head)
    have now := first _ mem_cons_self
    revert now
    cases ‹Op› with
    | create spec => exact fun _ n _ _ zero => zero
    | finish t result wake now down => exact fun other _ _ same => absurd same other
    | submit | addPersist | spawned | spawnFailed | assign | promote | cancel =>
      exact fun _ => trivial

def numbered : Roles where
  idle n := n.id = n.serial + 1
  queued n := n.id = n.serial + 1
  running n := n.id = n.serial + 1

theorem numbered_closed : numbered.Closed :=
  ⟨fun _ _ h => h, fun _ h => h, fun _ h => h, fun _ _ h => h, fun _ h => h⟩

def Numbered (s : Sys) : Prop :=
  s.created < 2 ^ 64 → numbered.Hold s ∧ (s.created + 1 < 2 ^ 64 → s.taskNextId = s.created + 1)

theorem numbered_step (num : Numbered s) (h : step s op = some u) : Numbered u := by
  intro bound
  have le := created_le h
  obtain ⟨hold, next⟩ := num (by omega)
  refine ⟨hold.step numbered_closed ?_ h, fun room => ?_⟩
  · cases op with
    | create spec =>
      cases h
      have room : s.created + 1 < 2 ^ 64 := bound
      intro n serial id _
      simp only [numbered, id, serial, next room]
    | finish t result wake now down =>
      obtain ⟨⟨mem, _⟩, _⟩ := fired h
      intro state sleepUntil
      exact (hold.running t mem).1
    | submit | addPersist | spawned | spawnFailed | assign | promote | cancel => trivial
  · rcases step_created h with ⟨created, nextId⟩ | ⟨spec, rfl⟩
    · rw [nextId, created]
      exact next (by omega)
    · have room' : s.created + 1 + 1 < 2 ^ 64 := room
      simp only [taskCreate, taskAllocIdLocked, next (by omega), Nat.mod_eq_of_lt room']
      simp

theorem numbered_reachable (reached : Reachable step taskInit s) : Numbered s := by
  refine reached.invariant ?_ numbered_step
  intro _
  exact ⟨⟨nofun, nofun, nofun,
    nofun⟩, fun _ => rfl⟩

theorem handle_unique (reached : Reachable step taskInit s) (bound : s.created < 2 ^ 64)
    {w : Task} (memv : v ∈ s.ready ++ s.timer ++ s.running)
    (memw : w ∈ s.ready ++ s.timer ++ s.running) (same : v.id = w.id) : v.serial = w.serial := by
  have hold := (numbered_reachable reached bound).1
  have id {t : Task} (mem : t ∈ s.ready ++ s.timer ++ s.running) : t.id = t.serial + 1 := by
    simp only [mem_append] at mem
    rcases mem with (mem | mem) | mem
    · exact (hold.ready t mem).1
    · exact (hold.timer t mem).1
    · exact (hold.running t mem).1
  have := id memv
  have := id memw
  omega

/-- No worker receives the object `k` in any run from `s`. -/
def NeverAssigned (k : ℕ) (s : Sys) : Prop :=
  ∀ labels u, Run step Any s labels u → ∀ type allow now t,
    (taskAssign type allow now u).1 = some t → t.serial ≠ k

theorem neverAssigned_of_freed (freed : Freed k s) : NeverAssigned k s :=
  fun _ _ run _ _ _ _ h => (freed_run freed run).not_assigned h

theorem queued_of_cancelled (removed : (taskCancel h s).1 = true) :
    ∃ t, queued h s = some t ∧ (t ∈ s.ready ∨ t ∈ s.timer) ∧ t.id = h := by
  rcases taskCancel_cases h s with ⟨-, eq | eq⟩ | ⟨t, found, ⟨mem, -⟩ | ⟨mem, -⟩⟩
  · simp [eq] at removed
  · simp [eq] at removed
  · exact ⟨t, found, .inl (mem_of_find?_eq_some mem), by simpa using find?_some mem⟩
  · exact ⟨t, found, .inr (mem_of_find?_eq_some mem), by simpa using find?_some mem⟩

structure Removed (h : ℕ) (history : List Op) (s : Sys) (t : Task) : Prop where
  queued : t ∈ s.ready ∨ t ∈ s.timer
  handle : t.id = h
  notRunning : ∀ v ∈ s.running, v.serial ≠ t.serial
  runCount : (∀ op ∈ history, ¬ returns t.serial op) → t.runCount = 0
  /-- Where a callback has returned before, the task had been with a worker. -/
  ran : ∀ op ∈ history, returns t.serial op → ∃ before u v, before <+: history ∧
    Run step Any taskInit before u ∧ v ∈ u.running ∧ v.serial = t.serial
  final : NeverAssigned t.serial (taskCancel h s).2

theorem ran_of_returns {history : List Op} (run : Run step Any s history u)
    (mem : op ∈ history) (here : returns k op) : ∃ before u v, before <+: history ∧
      Run step Any s before u ∧ v ∈ u.running ∧ v.serial = k := by
  induction run with
  | nil _ => cases mem
  | @cons s u t first rest _ head _ ih =>
    rcases mem_cons.mp mem with rfl | later
    · cases op with
      | finish v result wake now down =>
        obtain ⟨⟨running, _⟩, _⟩ := fired head
        exact ⟨[], s, v, nil_prefix, .nil s, running, here⟩
      | _ => cases here
    · obtain ⟨before, m, v, whole, start, running⟩ := ih later
      exact ⟨first :: before, m, v, (prefix_cons_inj first).mpr whole, .cons trivial head start,
        running⟩

theorem removed_of_cancelled {history : List Op} (run : Run step Any taskInit history s)
    (cancelled : (taskCancel h s).1 = true) : ∃ t, Removed h history s t := by
  have own := owned_reachable ⟨history, run⟩
  obtain ⟨t, found, place, handle⟩ := queued_of_cancelled cancelled
  refine ⟨t, place, handle, fun v mem same => ?_, fun first => ?_,
    fun op mem here => ran_of_returns run mem here, neverAssigned_of_freed (freed_cancel own found)⟩
  · have others := hold_apart own mem
    rcases place with ready | timer
    · exact (others.ready t ready).1 same.symm
    · exact (others.timer t timer).1 same.symm
  · have hold := unrun_run run first
    rcases place with ready | timer
    · exact (hold.ready t ready).1 rfl
    · exact (hold.timer t timer).1 rfl

/-- The states in which the callback of a cancelled task ends it. Asked for another
turn, `task_finish` queues the task again, whatever its flag. -/
def Ends (result : TaskState) : Prop := result ≠ .waiting ∧ result ≠ .sleeping

theorem ends_cancelled (flag : t.cancelled = true) (ends : Ends result)
    (wake : ℤ) (down : Bool) : retires (returned t result wake) down = true ∨ result = .fatal := by
  cases result with
  | ended => exact .inl (by simp [returned, reschedules, flag])
  | running => exact .inl (by simp [returned])
  | fatal => exact .inr rfl
  | waiting => exact absurd rfl ends.1
  | sleeping => exact absurd rfl ends.2

section Again

theorem exists_late (l : List Task) : ∃ now, ∀ t ∈ l, t.sleepUntil ≤ now := by
  induction l with
  | nil => exact ⟨0, by simp⟩
  | cons t l ih =>
    obtain ⟨now, late⟩ := ih
    refine ⟨max t.sleepUntil now, forall_mem_cons.mpr ⟨le_max_left .., fun v mem => ?_⟩⟩
    exact (late v mem).trans (le_max_right ..)

theorem promoteLoop_all {now : ℤ} (late : ∀ t ∈ l, t.sleepUntil ≤ now) (whole : s.timer = l) :
    (timerPromoteLoop now l s).timer = [] ∧ ∀ v ∈ s.ready ++ l,
      ∃ w ∈ (timerPromoteLoop now l s).ready, w.serial = v.serial := by
  induction l generalizing s with
  | nil => exact ⟨whole, fun v mem => ⟨v, by simpa [timerPromoteLoop] using mem, rfl⟩⟩
  | cons t rest ih =>
    obtain ⟨expired, later⟩ := forall_mem_cons.mp late
    rw [timerPromoteLoop, if_pos expired]
    obtain ⟨empty, moved⟩ := ih later (s := promoteHead t rest s) rfl
    refine ⟨empty, fun v mem => ?_⟩
    have pushed (x : Task) (here : x ∈ (promoteHead t rest s).ready) := moved x (by simp [here])
    rcases mem_append.mp mem with ready | timer
    · exact pushed v ((mem_insertBy _ _).mpr (.inr ready))
    · rcases mem_cons.mp timer with same | behind
      · rw [same]
        exact pushed { t with state := .waiting, stamp := s.ticks }
          ((mem_insertBy _ _).mpr (.inl rfl))
      · exact moved v (by simp [behind])

theorem assigned_ready (empty : s.timer = []) (mem : t ∈ s.ready) :
    ¬ NeverAssigned t.serial s := by
  intro never
  induction whole : s.ready generalizing s with
  | nil => simp [whole] at mem
  | cons first rest ih =>
    have awake : timerPromote 0 s = s := by rw [timerPromote, empty]; rfl
    have hit : eligible .any true first = true := by simp [eligible, typeMatches]
    have taken : taskAssign .any true 0 s =
        (some (dispatched first), dequeue (eligible .any true) first s) := by
      simp [taskAssign, awake, whole, hit]
    have other := never [] s (.nil s) .any true 0 (dispatched first) (by rw [taken])
    have behind : t ∈ rest := by
      rw [whole] at mem
      exact (mem_cons.mp mem).resolve_left fun same => other (by rw [same]; rfl)
    have left : (dequeue (eligible .any true) first s).ready = rest := by
      simp [dequeue, whole, hit]
    have next : step s (.assign .any true 0) = some (dequeue (eligible .any true) first s) := by
      rw [step, taken]
    refine ih (s := dequeue (eligible .any true) first s) empty (left ▸ behind)
      (fun labels u run => ?_) left
    exact never (.assign .any true 0 :: labels) u (.cons trivial next run)

theorem assigned_again (place : t ∈ s.ready ++ s.timer) (same : t.serial = k) :
    ¬ NeverAssigned k s := by
  obtain ⟨now, late⟩ := exists_late s.timer
  obtain ⟨empty, moved⟩ := promoteLoop_all late rfl
  obtain ⟨w, mem, kept⟩ := moved t place
  intro never
  rw [← same, ← kept] at never
  refine assigned_ready empty mem fun labels u run => ?_
  exact never (.promote now :: labels) u (.cons trivial rfl run)

end Again

theorem final_of_flagged (flag : Flagged k s) (mem : t ∈ s.running)
    (same : t.serial = k) (ends : Ends result) {wake now : ℤ} {down : Bool}
    (h : step s (.finish t result wake now down) = some u) : NeverAssigned k u := by
  obtain ⟨⟨_, started⟩, rfl⟩ := fired h
  have cancelled := (flag.hold.running t mem).1 same
  have gone := freed_finish flag.owned mem started wake now (ends_cancelled cancelled ends wake down)
  rw [same] at gone
  exact neverAssigned_of_freed gone

theorem ends_of_final {wake now : ℤ} {down : Bool}
    (h : step s (.finish t result wake now down) = some u) (never : NeverAssigned t.serial u) :
    Ends result := by
  obtain ⟨-, rfl⟩ := fired h
  by_contra again
  have turns : retires (returned t result wake) down = false ∧ result ≠ .fatal := by
    cases result <;> simp_all [Ends, returned]
  rw [taskFinish] at never
  obtain ⟨st, ⟨retired, -⟩ | ⟨-, fatal, -⟩ | ⟨-, -, eq | ⟨state, sleepUntil, eq⟩⟩⟩ :=
    finishSwitch_cases (returned t result wake) now down ((unlinkRunning t.serial s).dec .running)
  · exact absurd (turns.1.symm.trans retired) (by decide)
  · exact turns.2 fatal
  · rw [eq] at never
    exact assigned_again (t := { returned t result wake with stamp := s.ticks })
      (mem_append_left _ ((mem_insertBy _ _).mpr (.inl rfl))) rfl never
  · rw [eq] at never
    exact assigned_again (t := { returned t result wake with state, sleepUntil, stamp := s.ticks })
      (mem_append_right _ ((mem_insertBy _ _).mpr (.inl rfl))) rfl never

/-- Cancellation is final: at once for a queued task, at the next return that ends it
for a running one. -/
theorem cancel_final {history : List Op} {s : Sys} (run : Run step Any taskInit history s) (h : ℕ) :
    ((taskCancel h s).1 = true → ∃ t, Removed h history s t) ∧
      (∀ t, (taskCancel h s).1 = false → h ≠ 0 → s.running.find? (·.id = h) = some t →
        ∀ later u, Run step Any (taskCancel h s).2 later u →
          ∀ v ∈ u.running, v.serial = t.serial → v.cancelled = true ∧
            ∀ result wake now down w, step u (.finish v result wake now down) = some w →
              (NeverAssigned t.serial w ↔ Ends result)) ∧
      (s.created < 2 ^ 64 → ∀ v ∈ s.ready ++ s.timer ++ s.running,
        ∀ w ∈ s.ready ++ s.timer ++ s.running, v.id = w.id → v.serial = w.serial) := by
  have own := owned_reachable ⟨history, run⟩
  refine ⟨removed_of_cancelled run, ?_, fun bound v memv w memw => ?_⟩
  · intro t refused handle found later u after v mem same
    have absent : queued h s = none := by
      rcases taskCancel_cases h s with ⟨absent, -⟩ | ⟨w, -, ⟨-, eq⟩ | ⟨-, eq⟩⟩
      · exact absent
      all_goals
        rw [eq] at refused
        cases refused
    have flag := flagged_run (flagged_cancel own handle absent found) after
    refine ⟨(flag.hold.running v mem).1 same, ?_⟩
    intro result wake now down w head
    refine ⟨fun never => ends_of_final head (same ▸ never), fun ends => ?_⟩
    exact final_of_flagged flag mem same ends head
  · exact handle_unique ⟨history, run⟩ bound memv memw

theorem cancel_final_sleeping : ∃ history s, Run step Any taskInit history s ∧
    (taskCancel 1 s).1 = true ∧ ∃ t, Removed 1 history s t := by
  have run : Run step Any taskInit
      [.create (sampleSpec .deferred), .submit (sampleNode 0 .deferred) [] 0] _ := run_of_exec rfl
  exact ⟨_, _, run, rfl, (cancel_final run 1).1 rfl⟩

/-- A periodic task that has run and sleeps is cancelled with `true`. A cancelled callback that
asks for another turn gets it: the flag is consulted on `ended` only. -/
theorem not_cancel_final :
    (¬ ∀ history s, Run step Any taskInit history s → ∀ h t, (taskCancel h s).1 = true →
      t ∈ s.timer → t.id = h → t.kind = .periodic → t.runCount = 0) ∧
    ¬ ∀ history s, Run step Any taskInit history s → ∀ h t,
      (taskCancel h s).1 = false → s.running.find? (·.id = h) = some t → t.kind = .periodic →
        ∀ result wake now down u,
          step (taskCancel h s).2 (.finish { t with cancelled := true } result wake now down) =
              some u → NeverAssigned t.serial u := by
  have run : Run step Any taskInit
      [.create (sampleSpec .periodic), .submit (sampleNode 0 .periodic) [] 0,
        .assign .any true 0] _ := run_of_exec rfl
  refine ⟨fun all => ?_, fun all => ?_⟩
  · let t : Task := ⟨{ sampleNode 0 .periodic with state := .running, runCount := 1 }, [], 0⟩
    have ran : Run step Any taskInit
        [.create (sampleSpec .periodic), .submit (sampleNode 0 .periodic) [] 0,
          .assign .any true 0, .finish t .ended 0 0 false] _ := run_of_exec rfl
    exact absurd (all _ _ ran 1 { t with state := .sleeping, sleepUntil := 0, stamp := 1 } rfl
      (by decide) rfl rfl) (by decide)
  · have never := all _ _ run 1 _ rfl rfl rfl .waiting 0 0 false _ rfl
    exact never [] _ (.nil _) .any true 0 _ rfl rfl

theorem finished_never_again {history : List Op} {t : Task} {result : TaskState}
    {wake now : ℤ} {down : Bool} (run : Run step Any taskInit history s)
    (finish : step s (.finish t result wake now down) = some u)
    (ends : retires (returned t result wake) down = true ∨ result = .fatal) :
    NeverAssigned t.serial u := by
  obtain ⟨⟨mem, started⟩, rfl⟩ := fired finish
  have own := owned_reachable ⟨history, run⟩
  exact neverAssigned_of_freed (freed_finish own mem started wake now ends)

def onceRunning : Task := ⟨{ sampleNode 0 .once with state := .running, runCount := 1 }, [], 0⟩

def onceFinished : List Op :=
  [.create (sampleSpec .once), .submit (sampleNode 0 .once) [] 0, .assign .any true 0,
    .finish onceRunning .ended 0 0 false]

theorem finished_once : ∃ u, exec step taskInit onceFinished = some u ∧ NeverAssigned 0 u :=
  have run : Run step Any taskInit [.create (sampleSpec .once),
    .submit (sampleNode 0 .once) [] 0, .assign .any true 0] _ := run_of_exec rfl
  have finish : step _ (.finish onceRunning .ended 0 0 false) = some _ := rfl
  ⟨_, rfl, finished_never_again run finish (.inl rfl)⟩

end BotManager.TaskCancel
