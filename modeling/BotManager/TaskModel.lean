import BotManager.StepRun
import BotManager.StableInsert

/-! The task subsystem of core/task.c: ready queue, timer queue, running list and
counters, all guarded by `task_lock`. Each lock-protected section is one function
on the state, and one label of `step`.

A `Node` is a `task_t` before it is queued. `serial` stands for the address of
the allocated object: it is compared where the source compares pointers. The
chain behind `->link` is the list of nodes it reaches. A queued `Task` also has
`stamp`, the ordinal of its last insertion into a queue, and `Stats` has
`underflow`; neither is in the source and neither is ever read by it. Names,
callbacks, log lines, `created` and `last_run` are left out. -/

namespace BotManager.TaskModel
open StableInsert

inductive TaskState
  | waiting | running | sleeping | ended | fatal
  deriving DecidableEq, Repr

inductive TaskType
  | parent | thread | any
  deriving DecidableEq, Repr

inductive TaskLane
  | background | interactive
  deriving DecidableEq, Repr

inductive TaskKind
  | once | persist | periodic | deferred
  deriving DecidableEq, Repr

structure Node where
  serial : ℕ
  id : ℕ
  type : TaskType
  kind : TaskKind
  lane : TaskLane
  priority : ℕ
  state : TaskState
  sleepUntil : ℤ
  intervalMs : ℕ
  cancelled : Bool
  runCount : ℕ
  deriving DecidableEq, Repr

structure Task extends Node where
  link : List Node
  stamp : ℕ
  deriving DecidableEq, Repr

inductive Counter
  | waiting | running | sleeping | linked | persist | periodic | total
  deriving DecidableEq, Repr

structure Stats where
  count : Counter → ℕ
  underflow : Bool

def wordSize : ℕ := 2 ^ 32

variable (c : Counter)

def Stats.inc (st : Stats) : Stats :=
  { st with count := Function.update st.count c ((st.count c + 1) % wordSize) }

/-- `stats.c--` on a 32-bit counter. A decrement of zero wraps and is recorded. -/
def Stats.dec (st : Stats) : Stats :=
  { count := Function.update st.count c ((st.count c + (wordSize - 1)) % wordSize)
    underflow := st.underflow || decide (st.count c = 0) }

structure Sys where
  ready : List Task
  timer : List Task
  running : List Task
  stats : Stats
  taskNextId : ℕ
  /-- Objects allocated so far; the next one gets this serial. -/
  created : ℕ
  /-- Created and still owned by the caller of `task_create`. -/
  fresh : List Node
  /-- Persist tasks whose thread is not known to have started. -/
  spawning : List ℕ
  ticks : ℕ

@[simp] def taskInit : Sys where
  ready := []
  timer := []
  running := []
  stats := ⟨fun _ => 0, false⟩
  taskNextId := 1
  created := 0
  fresh := []
  spawning := []
  ticks := 0

@[simps ready timer running fresh] def Sys.inc (s : Sys) : Sys :=
  { s with stats := s.stats.inc c }

@[simps ready timer running fresh] def Sys.dec (s : Sys) : Sys :=
  { s with stats := s.stats.dec c }

def readyInsert (t : Task) (l : List Task) : List Task := insertBy (·.priority) t l
def timerInsert (t : Task) (l : List Task) : List Task := insertBy (·.sleepUntil) t l

@[simps timer running] def Sys.readyPush (t : Task) (s : Sys) : Sys :=
  { s with ready := readyInsert { t with stamp := s.ticks } s.ready, ticks := s.ticks + 1 }

@[simps ready running] def Sys.timerPush (t : Task) (s : Sys) : Sys :=
  { s with timer := timerInsert { t with stamp := s.ticks } s.timer, ticks := s.ticks + 1 }

/-- One turn of the loop in `timer_promote`, for the expired head `t`. -/
def promoteHead (t : Task) (rest : List Task) (s : Sys) : Sys :=
  let s := { s with timer := rest }
  let s := s.readyPush { t with state := .waiting }
  (s.dec .sleeping).inc .waiting

def timerPromoteLoop (now : ℤ) : List Task → Sys → Sys
  | [], s => s
  | t :: rest, s =>
    if t.sleepUntil ≤ now then timerPromoteLoop now rest (promoteHead t rest s) else s

def timerPromote (now : ℤ) (s : Sys) : Sys := timerPromoteLoop now s.timer s

def releaseKind (t : Task) (s : Sys) : Sys :=
  let s := if t.kind = .periodic then s.dec .periodic else s
  if t.kind = .persist then s.dec .persist else s

def taskRetireLocked (t : Task) (s : Sys) : Sys :=
  let s := releaseKind t s
  let s := match t.link with
    | [] => s
    | child :: rest =>
      let s := s.readyPush ⟨{ child with state := .waiting }, rest, 0⟩
      (s.dec .linked).inc .waiting
  s.dec .total

def typeMatches (taskType requestType : TaskType) : Bool :=
  taskType = requestType || taskType = .any || requestType = .any

/-- Zero is reserved, so the successor of the last id is one. -/
def taskAllocIdLocked (s : Sys) : ℕ × Sys :=
  let next := (s.taskNextId + 1) % 2 ^ 64
  (s.taskNextId, { s with taskNextId := if next = 0 then 1 else next })

structure Spec where
  type : TaskType
  kind : TaskKind
  lane : TaskLane
  priority : ℕ
  sleepUntil : ℤ
  intervalMs : ℕ

def taskCreate (spec : Spec) (s : Sys) : Sys :=
  let (id, s) := taskAllocIdLocked s
  let t : Node :=
    { serial := s.created, id, type := spec.type, kind := spec.kind, lane := spec.lane
      priority := spec.priority, state := .waiting, sleepUntil := spec.sleepUntil
      intervalMs := spec.intervalMs, cancelled := false, runCount := 0 }
  { s with created := s.created + 1, fresh := t :: s.fresh }

/-- A periodic task cannot have linked children; its link is ignored. -/
def submittedLink (t : Node) (chain : List Node) : List Node :=
  if t.kind = .periodic then [] else chain

def sleepsFirst (t : Node) (now : ℤ) : Prop := t.kind = .deferred ∧ now < t.sleepUntil

instance (t : Node) (now : ℤ) : Decidable (sleepsFirst t now) :=
  inferInstanceAs (Decidable (_ ∧ _))

def submitQueued (t : Node) (link : List Node) (now : ℤ) (s : Sys) : Sys :=
  if sleepsFirst t now then
    ((s.timerPush ⟨{ t with state := .sleeping }, link, 0⟩).inc .total).inc .sleeping
  else
    ((s.readyPush ⟨{ t with state := .waiting }, link, 0⟩).inc .total).inc .waiting

def taskSubmit (t : Node) (chain : List Node) (now : ℤ) (s : Sys) : Sys :=
  let link := submittedLink t chain
  let s := submitQueued t link now s
  let s := if t.kind = .periodic then s.inc .periodic else s
  link.foldl (fun s _ => (s.inc .total).inc .linked) s

/-- The first section of `task_add_persist`, before the thread is spawned. -/
def taskAddPersist (t : Node) (s : Sys) : Sys :=
  let s := ((s.inc .total).inc .persist).inc .running
  let t : Task := ⟨{ t with type := .thread, kind := .persist, state := .running, runCount := 1 }, [], 0⟩
  { s with running := t :: s.running, spawning := t.serial :: s.spawning }

def unlinkRunning (serial : ℕ) (s : Sys) : Sys :=
  { s with running := s.running.eraseP (·.serial = serial) }

/-- The second section, entered only when `pool_spawn_persist` failed. -/
def taskAddPersistFailed (serial : ℕ) (s : Sys) : Sys :=
  unlinkRunning serial (((s.dec .total).dec .persist).dec .running)

def markCancelled (h : ℕ) : List Task → List Task
  | [] => []
  | t :: rest => if t.id = h then { t with cancelled := true } :: rest else t :: markCancelled h rest

/-- The stores both queue branches of `task_cancel` make after unlinking `t`. -/
def uncount (t : Task) (s : Sys) : Sys :=
  let s := (s.dec c).dec .total
  if t.kind = .periodic then s.dec .periodic else s

def taskCancel (h : ℕ) (s : Sys) : Bool × Sys :=
  if h = 0 then (false, s)
  else match s.ready.find? (·.id = h) with
    | some t => (true, uncount .waiting t { s with ready := s.ready.eraseP (·.id = h) })
    | none =>
      match s.timer.find? (·.id = h) with
      | some t => (true, uncount .sleeping t { s with timer := s.timer.eraseP (·.id = h) })
      | none => (false, { s with running := markCancelled h s.running })

/-- The test each ready task is put to: its type matches the worker's, and a
worker without a background slot takes interactive work only. -/
def eligible (type : TaskType) (allowBackground : Bool) (t : Task) : Bool :=
  typeMatches t.type type && (allowBackground || t.lane = .interactive)

def dispatched (t : Task) : Task :=
  { t with state := .running, runCount := (t.runCount + 1) % wordSize }

/-- Dequeue `t`, the first ready task that passes the test, and track it as running. -/
def dequeue (test : Task → Bool) (t : Task) (s : Sys) : Sys :=
  let s := { s with ready := s.ready.eraseP test }
  let s := (s.dec .waiting).inc .running
  { s with running := dispatched t :: s.running }

def taskAssign (type : TaskType) (allowBackground : Bool) (now : ℤ) (s : Sys) :
    Option Task × Sys :=
  let s := timerPromote now s
  match s.ready.find? (eligible type allowBackground) with
  | none => (none, s)
  | some t => (some (dispatched t), dequeue (eligible type allowBackground) t s)

def nextWake (intervalMs : ℕ) (now : ℤ) : ℤ :=
  if 0 < intervalMs ∧ intervalMs < 1000 then now + 1 else now + (intervalMs / 1000 : ℕ)

/-- A callback that returns `ended` reschedules a periodic task, unless the pool is
shutting down or the task was cancelled. -/
def reschedules (t : Node) (shuttingDown : Bool) : Bool :=
  t.kind = .periodic && !shuttingDown && !t.cancelled

/-- The switch of `task_finish` on the state the callback left, with the task already
off the running list. A task that is not put back on a queue is freed. -/
def finishSwitch (t : Task) (now : ℤ) (shuttingDown : Bool) (s : Sys) : Sys :=
  match t.state with
  | .ended =>
    if reschedules t.toNode shuttingDown then
      let t := { t with state := .sleeping, sleepUntil := nextWake t.intervalMs now }
      (s.timerPush t).inc .sleeping
    else taskRetireLocked t s
  | .fatal => (releaseKind t s).dec .total
  | .waiting => (s.readyPush t).inc .waiting
  | .sleeping => (s.timerPush t).inc .sleeping
  | .running => taskRetireLocked t s

/-- What the callback may write into its own task before it returns. -/
def returned (t : Task) (result : TaskState) (wake : ℤ) : Task :=
  { t with state := result, sleepUntil := wake }

def taskFinish (t : Task) (result : TaskState) (wake : ℤ) (now : ℤ) (shuttingDown : Bool)
    (s : Sys) : Sys :=
  finishSwitch (returned t result wake) now shuttingDown ((unlinkRunning t.serial s).dec .running)

inductive Op
  | create (spec : Spec)
  | submit (t : Node) (chain : List Node) (now : ℤ)
  | addPersist (t : Node)
  | spawned (serial : ℕ)
  | spawnFailed (serial : ℕ)
  | assign (type : TaskType) (allowBackground : Bool) (now : ℤ)
  | promote (now : ℤ)
  | cancel (h : ℕ)
  | finish (t : Task) (result : TaskState) (wake now : ℤ) (shuttingDown : Bool)

/-- One lock-protected section. A task is submitted once, by the caller that created
it; a running task is finished once, by the worker or the thread that runs it. -/
def step (s : Sys) : Op → Option Sys
  | .create spec => some (taskCreate spec s)
  | .submit t chain now =>
    if (t :: chain).Nodup ∧ ∀ x ∈ t :: chain, x ∈ s.fresh then
      some (taskSubmit t chain now { s with fresh := s.fresh.filter (· ∉ t :: chain) })
    else none
  | .addPersist t =>
    if t ∈ s.fresh then some (taskAddPersist t { s with fresh := s.fresh.erase t }) else none
  | .spawned serial =>
    if serial ∈ s.spawning then some { s with spawning := s.spawning.erase serial } else none
  | .spawnFailed serial =>
    if serial ∈ s.spawning then
      some (taskAddPersistFailed serial { s with spawning := s.spawning.erase serial })
    else none
  | .assign type allowBackground now => some (taskAssign type allowBackground now s).2
  | .promote now => some (timerPromote now s)
  | .cancel h => some (taskCancel h s).2
  | .finish t result wake now shuttingDown =>
    if t ∈ s.running ∧ t.serial ∉ s.spawning then
      some (taskFinish t result wake now shuttingDown s)
    else none

def sampleSpec (kind : TaskKind) : Spec := ⟨.any, kind, .background, 5, 10, 0⟩

def sampleNode (serial : ℕ) (kind : TaskKind) : Node :=
  ⟨serial, serial + 1, .any, kind, .background, 5, .waiting, 10, 0, false, 0⟩

end BotManager.TaskModel
