import BotManager.KeyedPart

/-! The warm chains of whenmoon (warm_chain.c): deferred tasks that arm themselves again, and the
drain that ends them. One step is one section under `wm_warm_lock`, one release, or one dispatch
of a deferred task. A dispatch that falls into a section of another chain can be moved to the edge
of that section, since its body waits for the lock at `enter`. -/

namespace BotManager.WarmModel
open KeyedPart

section State

structure Hop where
  name : String
  delayMs : ℕ
  cb : ℕ
  deriving DecidableEq

/-- A deferred task. A handle names one submitted task, so a handle is that task; the serial
number keeps two submits of one hop apart. -/
structure Task where
  serial : ℕ
  chain : ℕ
  hop : Hop
  deriving DecidableEq

structure Chain where
  id : ℕ
  handle : Option Task
  hop : Hop
  running : Bool
  parked : Bool
  deriving DecidableEq

/-- Where a thread stands: an opener or a body `inside` a chain, a body that was dispatched and
has yet to enter, one that was refused at `enter` or `arm` by a drain, one whose submit failed,
and one that has unlinked its chain and has yet to release it. -/
inductive Thread
  | inside (chain : ℕ)
  | fired (chain : ℕ)
  | turnedAway (chain : ℕ)
  | failed (chain : ℕ)
  | releasing (chain : ℕ)
  deriving DecidableEq

def Thread.chain : Thread → ℕ
  | .inside c => c
  | .fired c => c
  | .turnedAway c => c
  | .failed c => c
  | .releasing c => c

variable (c : ℕ)

@[simp] theorem Thread.chain_inside : (Thread.inside c).chain = c := rfl
@[simp] theorem Thread.chain_fired : (Thread.fired c).chain = c := rfl
@[simp] theorem Thread.chain_turnedAway : (Thread.turnedAway c).chain = c := rfl
@[simp] theorem Thread.chain_failed : (Thread.failed c).chain = c := rfl
@[simp] theorem Thread.chain_releasing : (Thread.releasing c).chain = c := rfl

def Thread.holds : Thread → Bool
  | .releasing _ => false
  | _ => true

def Thread.closes : Thread → Bool
  | .fired _ => false
  | .releasing _ => false
  | _ => true

/-- A drain waits for the busy chains, among them those listed when it began, or it reaps the
list it has detached. -/
inductive Drain
  | waiting (live : List ℕ)
  | reaping (dead : List ℕ)
  deriving DecidableEq

def Drain.dead : Drain → List ℕ
  | .waiting _ => []
  | .reaping dead => dead

/-- `opened` counts the chains opened so far. `released` are the chains whose release ran,
`ownEnd` those a thread closed that no drain had refused, `turned` those a drain has refused;
`stopped` says that a drain has returned true since the last reset. -/
structure Sys where
  chains : List Chain
  draining : Bool
  queue : List Task
  threads : List Thread
  drains : List Drain
  opened : ℕ
  serial : ℕ
  released : List ℕ
  ownEnd : List ℕ
  turned : List ℕ
  stopped : Bool
  deriving DecidableEq

def init : Sys := ⟨[], false, [], [], [], 0, 0, [], [], [], false⟩

def ids (s : Sys) : List ℕ := s.chains.map Chain.id

def busy (s : Sys) : Option Chain := s.chains.find? Chain.running

end State

section Calls

variable (s : Sys)

/-- `wm_warm_chain_open`, which returns no chain during a drain. -/
def openChain : Sys :=
  if s.draining then s
  else
    { s with
      chains := ⟨s.opened, none, ⟨"", 0, 0⟩, true, false⟩ :: s.chains
      threads := .inside s.opened :: s.threads
      opened := s.opened + 1 }

/-- The thread inside is refused because a drain is going on. -/
def armRefused (c : ℕ) : Sys :=
  { s with
    threads := .turnedAway c :: s.threads.erase (.inside c)
    turned := c :: s.turned }

def armSubmitted (c : ℕ) (hop : Hop) : Sys :=
  let task : Task := ⟨s.serial, c, hop⟩
  { s with
    chains := modifyKey Chain.id c
      (fun k => { k with hop := hop, handle := some task, parked := false, running := false })
      s.chains
    queue := task :: s.queue
    threads := s.threads.erase (.inside c)
    serial := s.serial + 1 }

def armFailed (c : ℕ) (hop : Hop) : Sys :=
  { s with
    chains := modifyKey Chain.id c (fun k => { k with hop := hop }) s.chains
    threads := .failed c :: s.threads.erase (.inside c) }

/-- `wm_warm_chain_arm`; `submitted` is what `task_add_deferred` comes to. -/
def arm (c : ℕ) (hop : Hop) (submitted : Bool) : Sys :=
  if s.draining then armRefused s c
  else if submitted then armSubmitted s c hop
  else armFailed s c hop

def fire (task : Task) : Sys :=
  { s with
    queue := s.queue.erase task
    threads := .fired task.chain :: s.threads }

def enter (c : ℕ) : Sys :=
  { s with
    chains := modifyKey Chain.id c (fun k => { k with handle := none, running := true }) s.chains
    threads := (if s.draining then .turnedAway c else .inside c) :: s.threads.erase (.fired c)
    turned := if s.draining then c :: s.turned else s.turned }

def close (x : Thread) : Sys :=
  { s with
    chains := removeKey Chain.id x.chain s.chains
    threads := .releasing x.chain :: s.threads.erase x
    ownEnd := if x = .turnedAway x.chain then s.ownEnd else x.chain :: s.ownEnd }

def release (c : ℕ) : Sys :=
  { s with
    threads := s.threads.erase (.releasing c)
    released := c :: s.released }

end Calls

section Drain

/-- The loop that takes the armed chains off the timer queue. `task_cancel` is true while the
task is queued. -/
def cancelAll : List Chain → List Task → List Chain × List Task
  | [], queue => ([], queue)
  | k :: rest, queue =>
    match k.handle with
    | none =>
      let r := cancelAll rest queue
      (k :: r.1, r.2)
    | some h =>
      if h ∈ queue then
        let r := cancelAll rest (queue.erase h)
        ({ k with handle := none, parked := true } :: r.1, r.2)
      else
        let r := cancelAll rest queue
        ({ k with handle := none, running := true } :: r.1, r.2)

/-- One chain in the loop of a refused drain, with the task it submits. `failed` are the chains
whose `task_add_deferred` returns no handle. -/
def resubmit (failed : List ℕ) (k : Chain) (serial : ℕ) : Chain × List Task :=
  if k.parked then
    if k.id ∈ failed then ({ k with handle := none, parked := false }, [])
    else
      let task : Task := ⟨serial, k.id, k.hop⟩
      ({ k with handle := some task, parked := false }, [task])
  else (k, [])

def rearm (failed : List ℕ) : List Chain → List Task → ℕ → List Chain × List Task × ℕ
  | [], queue, serial => ([], queue, serial)
  | k :: rest, queue, serial =>
    let one := resubmit failed k serial
    let r := rearm failed rest (one.2 ++ queue) (serial + one.2.length)
    (one.1 :: r.1, r.2)

def drain (s : Sys) : Sys :=
  let r := cancelAll s.chains s.queue
  { s with
    draining := true
    chains := r.1
    queue := r.2
    drains := .waiting (ids s) :: s.drains }

def detach (s : Sys) (live : List ℕ) : Sys :=
  { s with
    chains := []
    drains := .reaping (ids s) :: s.drains.erase (.waiting live) }

def refuse (s : Sys) (live failed : List ℕ) : Sys :=
  let r := rearm failed s.chains s.queue s.serial
  { s with
    draining := false
    chains := r.1
    queue := r.2.1
    serial := r.2.2
    drains := s.drains.erase (.waiting live) }

def reap (s : Sys) (c : ℕ) (rest : List ℕ) : Sys :=
  { s with
    released := c :: s.released
    drains := .reaping rest :: s.drains.erase (.reaping (c :: rest)) }

def leave (s : Sys) : Sys :=
  { s with
    drains := s.drains.erase (.reaping [])
    stopped := true }

def reset (s : Sys) : Sys := { s with draining := false, stopped := false }

end Drain

section Steps

inductive Op
  | openChain
  | arm (c : ℕ) (hop : Hop) (submitted : Bool)
  | fire (task : Task)
  | enter (c : ℕ)
  | close (x : Thread)
  | release (c : ℕ)
  | drain
  | detach (live : List ℕ)
  | refuse (live failed : List ℕ)
  | reap (c : ℕ) (rest : List ℕ)
  | leave
  | reset

def step (s : Sys) : Op → Option Sys
  | .openChain => some (openChain s)
  | .arm c hop submitted =>
    if .inside c ∈ s.threads then some (arm s c hop submitted) else none
  | .fire task => if task ∈ s.queue then some (fire s task) else none
  | .enter c => if .fired c ∈ s.threads then some (enter s c) else none
  | .close x => if x ∈ s.threads ∧ x.closes = true then some (close s x) else none
  | .release c => if .releasing c ∈ s.threads then some (release s c) else none
  | .drain => some (drain s)
  | .detach live =>
    if .waiting live ∈ s.drains ∧ busy s = none then some (detach s live) else none
  | .refuse live failed =>
    if .waiting live ∈ s.drains ∧ busy s ≠ none then some (refuse s live failed) else none
  | .reap c rest => if .reaping (c :: rest) ∈ s.drains then some (reap s c rest) else none
  | .leave => if .reaping [] ∈ s.drains then some (leave s) else none
  | .reset => some (reset s)

end Steps

end BotManager.WarmModel
