import BotManager.FramePool

/-! The slots of the worker pool: elastic workers and dedicated persistent threads. A slot names
the thread that was last created in it; whoever joins that thread gives the slot back. Every
section under `pool_mutex` is one turn, and a join, which runs with the mutex released, is a
turn that waits for the thread to have exited. -/

namespace BotManager.PoolModel
open FramePool

section Pool

def poolMaxPersist : ℕ := 16

inductive Key
  | elastic (i : ℕ)
  | persist (i : ℕ)
  deriving DecidableEq

inductive WState
  | unused
  | running
  | retiring
  | joining
  deriving DecidableEq

structure Slot where
  wstate : WState
  thread : Option ℕ
  task : Option ℕ
  deriving DecidableEq

/-- A thread is `leaving` from its last section under the mutex until it has exited. -/
inductive Phase
  | running
  | leaving
  | exited
  deriving DecidableEq

/-- Threads are numbered as they are created; `home` is the slot a thread was created in, and
`joined` counts the joins of it that returned. -/
structure Pool where
  slot : Key → Slot
  poolSize : ℕ
  home : ℕ → Key
  phase : ℕ → Phase
  joined : ℕ → ℕ
  next : ℕ

def initial : Pool where
  slot := fun _ => ⟨.unused, none, none⟩
  poolSize := 0
  home := fun _ => .elastic 0
  phase := fun _ => .exited
  joined := fun _ => 0
  next := 0

variable (p : Pool)

def put (k : Key) (sl : Slot) : Pool :=
  { p with slot := Function.update p.slot k sl }

@[simp] theorem put_self (k : Key) : (put p k sl).slot k = sl :=
  Function.update_self ..

@[simp] theorem put_of_ne {j k : Key} (other : j ≠ k) (p : Pool) : (put p k sl).slot j = p.slot j :=
  Function.update_of_ne other ..

def setState (k : Key) (w : WState) : Pool := put p k { p.slot k with wstate := w }

/-- A persist slot that is given back also forgets its task. -/
def vacate (k : Key) : Pool := put p k { p.slot k with wstate := .unused, task := none }

def join (t : ℕ) : Pool :=
  { p with joined := Function.update p.joined t (p.joined t + 1) }

def setPhase (t : ℕ) (ph : Phase) : Pool :=
  { p with phase := Function.update p.phase t ph }

def create (k : Key) (task : Option ℕ) : Pool :=
  { p with
    slot := Function.update p.slot k ⟨.running, some p.next, task⟩
    home := Function.update p.home p.next k
    phase := Function.update p.phase p.next .running
    next := p.next + 1 }

def firstSlot (array : ℕ → Key) (w : WState) (indices : List ℕ) : Option ℕ :=
  indices.find? fun i => decide ((p.slot (array i)).wstate = w)

/-- The elastic slots from `lo` on; slot 0 is the parent's, which is no pool thread. -/
def elasticFrom (max lo : ℕ) : List ℕ := List.range' lo (max + 1 - lo)

def persistFrom (lo : ℕ) : List ℕ := List.range' lo (poolMaxPersist - lo)

def slotOfTask (id : ℕ) : Option ℕ :=
  (persistFrom 0).find? fun i =>
    decide ((p.slot (.persist i)).task = some id ∧
      ((p.slot (.persist i)).wstate = .running ∨ (p.slot (.persist i)).wstate = .retiring))

def slotOfThread (t : ℕ) : Option ℕ :=
  (persistFrom 0).find? fun i =>
    decide ((p.slot (.persist i)).wstate = .running ∧ (p.slot (.persist i)).thread = some t)

def retireSelf (t : ℕ) : Pool :=
  match slotOfThread p t with
  | some i => setPhase (setState p (.persist i) .retiring) t .leaving
  | none => setPhase p t .leaving

def workerExit (t : ℕ) : Pool :=
  setPhase { setState p (p.home t) .retiring with poolSize := p.poolSize - 1 } t .leaving

end Pool

section Frames

/-- What an operation still has to run. A reap reads the thread of the slot once it has let go of
the mutex, waits for it, and takes the mutex again. -/
inductive Frame
  | checkSpare
  | spawnWorker
  | join (i : ℕ)
  | wait (i t : ℕ)
  | reaped (i : ℕ)
  | spawnPersist (task : ℕ)
  | joinRetired (i task : ℕ)
  | waitRetired (i t task : ℕ)
  | reapedPersist (i task : ℕ)
  | joinPersist (task : ℕ)
  | timedJoin (i t : ℕ) (prev : WState)
  | timedOut (i t : ℕ) (prev : WState)
  | joinedPersist (i : ℕ)
  deriving DecidableEq

structure Choice where
  wanted : Bool
  created : Bool
  expired : Bool
  deriving DecidableEq

def calm : Choice := ⟨true, true, false⟩

/-- The rest of `spawn_worker_locked` once the reap has come to slot `lo`. -/
def spawnFrom (p : Pool) (c : Choice) (max lo : ℕ) : Pool × List Frame :=
  match firstSlot p .elastic .retiring (elasticFrom max lo) with
  | some i => (p, [.join i])
  | none =>
    match firstSlot p .elastic .unused (elasticFrom max 1) with
    | none => (p, [])
    | some i =>
      if c.created then ({ create p (.elastic i) none with poolSize := p.poolSize + 1 }, [])
      else (p, [])

/-- The same for `pool_spawn_persist`, whose reap claims the slot before it lets go of the
mutex. -/
def spawnPersistFrom (p : Pool) (c : Choice) (task lo : ℕ) : Pool × List Frame :=
  match firstSlot p .persist .retiring (persistFrom lo) with
  | some i => (setState p (.persist i) .joining, [.joinRetired i task])
  | none =>
    match firstSlot p .persist .unused (persistFrom 0) with
    | none => (p, [])
    | some i => if c.created then (create p (.persist i) (some task), []) else (p, [])

def joinThread (p : Pool) (t : ℕ) (next : Frame) : Option (Pool × List Frame) :=
  if p.phase t = .exited then some (join p t, [next]) else none

def act (max : ℕ) (p : Pool) (c : Choice) : Frame → Option (Pool × List Frame)
  | .checkSpare =>
    some (if c.wanted = true ∧ p.poolSize < max then spawnFrom p c max 1 else (p, []))
  | .spawnWorker => some (spawnFrom p c max 1)
  | .join i => (p.slot (.elastic i)).thread.map fun t => (p, [.wait i t])
  | .wait i t => joinThread p t (.reaped i)
  | .reaped i => some (spawnFrom (setState p (.elastic i) .unused) c max (i + 1))
  | .spawnPersist task => some (spawnPersistFrom p c task 0)
  | .joinRetired i task => (p.slot (.persist i)).thread.map fun t => (p, [.waitRetired i t task])
  | .waitRetired i t task => joinThread p t (.reapedPersist i task)
  | .reapedPersist i task => some (spawnPersistFrom (vacate p (.persist i)) c task (i + 1))
  | .joinPersist task =>
    match slotOfTask p task with
    | none => some (p, [])
    | some i =>
      (p.slot (.persist i)).thread.map fun t =>
        (setState p (.persist i) .joining, [.timedJoin i t (p.slot (.persist i)).wstate])
  | .timedJoin i t prev =>
    if c.expired then some (p, [.timedOut i t prev]) else joinThread p t (.joinedPersist i)
  -- pthread_tryjoin_np takes a thread that has exited after all
  | .timedOut i t prev =>
    some (if p.phase t = .exited then (vacate (join p t) (.persist i), [])
      else (setState p (.persist i) prev, []))
  | .joinedPersist i => some (vacate p (.persist i), [])

end Frames

section System

structure Sys extends Pool where
  max : ℕ
  ops : List (List Frame)

def start (max : ℕ) : Sys := { initial with max := max, ops := [] }

inductive Op
  | checkSpare
  | spawnWorker
  | spawnPersist (task : ℕ)
  | joinPersist (task : ℕ)
  | workerExit (t : ℕ)
  | retireSelf (t : ℕ)
  | exited (t : ℕ)
  | turn (i : ℕ) (c : Choice)
  deriving DecidableEq

def Key.isElastic : Key → Bool
  | .elastic _ => true
  | .persist _ => false

def begin (s : Sys) (f : Frame) : Sys := { s with ops := s.ops ++ [[f]] }

def step (s : Sys) : Op → Option Sys
  | .checkSpare => some (begin s .checkSpare)
  | .spawnWorker => some (begin s .spawnWorker)
  | .spawnPersist task => some (begin s (.spawnPersist task))
  | .joinPersist task => some (begin s (.joinPersist task))
  | .workerExit t =>
    if t < s.next ∧ s.phase t = .running ∧ (s.home t).isElastic = true then
      some { workerExit s.toPool t with max := s.max, ops := s.ops }
    else none
  | .retireSelf t =>
    if t < s.next ∧ s.phase t = .running ∧ (s.home t).isElastic = false then
      some { retireSelf s.toPool t with max := s.max, ops := s.ops }
    else none
  | .exited t =>
    if t < s.next ∧ s.phase t = .leaving then
      some { setPhase s.toPool t .exited with max := s.max, ops := s.ops }
    else none
  | .turn i c =>
    match top s.ops i with
    | none => none
    | some (f, rest) =>
      (act s.max s.toPool c f).map fun r =>
        { r.1 with max := s.max, ops := s.ops.set i (r.2 ++ rest) }

end System

end BotManager.PoolModel
