import BotManager.FramePool

/-! The HTTP requests of core/curl.c: the submit queues by priority, the in-flight list, and the
multi loop, which drains the queues, completes transfers, sweeps cancelled requests, runs the
shutdown drain and exits. Every section under `curl_submit_mutex` or `curl_active_mutex` is one
turn, and so is every completion callback and every release. -/

namespace BotManager.CurlMulti
open List FramePool

section Queues

inductive Prio
  | transactional
  | normal
  | bulk
  deriving DecidableEq

structure Req where
  id : ℕ
  prio : Prio
  cancelRequested : Bool
  deriving DecidableEq

structure SubQ where
  reqs : List Req
  count : ℕ
  counted : count = reqs.length

def SubQ.empty : SubQ := ⟨[], 0, rfl⟩

variable (q : SubQ)

def SubQ.push (r : Req) : SubQ :=
  ⟨q.reqs ++ [r], q.count + 1, by simp [q.counted]⟩

def SubQ.pop : Option (Req × SubQ) :=
  match h : q.reqs with
  | [] => none
  | r :: rest => some (r, ⟨rest, q.count - 1, by simp [q.counted, h]⟩)

def flagCancel (id : ℕ) : List Req → List Req
  | [] => []
  | r :: rest =>
    if r.id = id then { r with cancelRequested := true } :: rest else r :: flagCancel id rest

theorem flagCancel_ids (id : ℕ) : (flagCancel id l).map Req.id = l.map Req.id := by
  induction l with
  | nil => rfl
  | cons r rest ih =>
    rw [flagCancel]
    split_ifs
    · rfl
    · rw [map_cons, map_cons, ih]

theorem flagCancel_length (id : ℕ) : (flagCancel id l).length = l.length := by
  simpa only [length_map] using congrArg length (flagCancel_ids id)

def SubQ.flag (id : ℕ) : SubQ :=
  ⟨flagCancel id q.reqs, q.count, by rw [flagCancel_length]; exact q.counted⟩

def SubQ.sweep : SubQ where
  reqs := q.reqs.filter fun r => !r.cancelRequested
  count := q.count - (q.reqs.filter Req.cancelRequested).length
  counted := by
    have parts := q.reqs.length_eq_length_filter_add Req.cancelRequested
    have counted := q.counted
    omega

/-- What the shutdown drain leaves of a sub-queue: it looks at the priority of the head. -/
def SubQ.spare : SubQ :=
  match q.reqs with
  | [] => q
  | r :: _ => if r.prio = .transactional then q else .empty

def SubQ.spliced : List Req :=
  match q.reqs with
  | [] => []
  | r :: rest => if r.prio = .transactional then [] else r :: rest

structure Queues where
  transactional : SubQ
  normal : SubQ
  bulk : SubQ

def Queues.empty : Queues := ⟨.empty, .empty, .empty⟩

variable (q : Queues)

def Queues.reqs : List Req :=
  q.transactional.reqs ++ q.normal.reqs ++ q.bulk.reqs

def Queues.push (r : Req) : Queues :=
  match r.prio with
  | .transactional => { q with transactional := q.transactional.push r }
  | .normal => { q with normal := q.normal.push r }
  | .bulk => { q with bulk := q.bulk.push r }

def Queues.popHighest : Option (Req × Queues) :=
  match q.transactional.pop with
  | some (r, sub) => some (r, { q with transactional := sub })
  | none =>
    match q.normal.pop with
    | some (r, sub) => some (r, { q with normal := sub })
    | none =>
      match q.bulk.pop with
      | some (r, sub) => some (r, { q with bulk := sub })
      | none => none

/-- Only the first sub-queue that has the id is touched. -/
def Queues.flag (id : ℕ) : Queues :=
  if q.transactional.reqs.any fun r => r.id = id then
    { q with transactional := q.transactional.flag id }
  else if q.normal.reqs.any fun r => r.id = id then { q with normal := q.normal.flag id }
  else { q with bulk := q.bulk.flag id }

def Queues.sweep : Queues := ⟨q.transactional.sweep, q.normal.sweep, q.bulk.sweep⟩

def Queues.flagged : List Req := (q.reqs.filter Req.cancelRequested).reverse

def Queues.spare : Queues := ⟨q.transactional.spare, q.normal.spare, q.bulk.spare⟩

/-- The chain of the shutdown drain: each sub-queue goes before those already taken. -/
def Queues.spliced : List Req :=
  q.bulk.spliced ++ (q.normal.spliced ++ q.transactional.spliced)

theorem SubQ.pop_reqs {q sub : SubQ} {r : Req} (popped : q.pop = some (r, sub)) :
    q.reqs = r :: sub.reqs := by
  unfold SubQ.pop at popped
  split at popped
  next => cases popped
  next reqs =>
    cases popped
    exact reqs

theorem SubQ.pop_none {q : SubQ} (popped : q.pop = none) : q.reqs = [] := by
  unfold SubQ.pop at popped
  split at popped
  next reqs => exact reqs
  next => cases popped

theorem Queues.popHighest_reqs {q rest : Queues} {r : Req}
    (popped : q.popHighest = some (r, rest)) : q.reqs = r :: rest.reqs := by
  unfold Queues.popHighest at popped
  split at popped
  next sub first =>
    cases popped
    simp only [Queues.reqs, SubQ.pop_reqs first, cons_append]
  next first =>
    split at popped
    next sub second =>
      cases popped
      simp only [Queues.reqs, SubQ.pop_none first, SubQ.pop_reqs second, nil_append,
        cons_append]
    next second =>
      split at popped
      next sub third =>
        cases popped
        simp only [Queues.reqs, SubQ.pop_none first, SubQ.pop_none second, SubQ.pop_reqs third,
          nil_append]
      next => cases popped

variable (q : Queues)

theorem Queues.push_reqs (r : Req) : (q.push r).reqs.Perm (r :: q.reqs) := by
  unfold Queues.push
  split
  · simp only [Queues.reqs, SubQ.push, append_assoc, singleton_append]
    exact perm_middle
  · simp only [Queues.reqs, SubQ.push, append_assoc, singleton_append]
    rw [← append_assoc, ← append_assoc]
    exact perm_middle
  · simp only [Queues.reqs, SubQ.push]
    rw [← append_assoc]
    exact perm_append_singleton _ _

theorem Queues.flag_ids (id : ℕ) :
    (q.flag id).reqs.map Req.id = q.reqs.map Req.id := by
  unfold Queues.flag
  split_ifs <;> simp only [Queues.reqs, SubQ.flag, map_append, flagCancel_ids]

theorem filter_parts {α : Type*} (p : α → Bool) (l : List α) :
    (l.filter (fun x => !p x) ++ l.filter p).Perm l := by
  have parts := filter_append_perm p l
  exact perm_append_comm.trans parts

theorem Queues.sweep_reqs : (q.sweep.reqs ++ q.flagged).Perm q.reqs := by
  have left : q.sweep.reqs = q.reqs.filter fun r => !r.cancelRequested := by
    simp only [Queues.sweep, Queues.reqs, SubQ.sweep, filter_append]
  rw [left, Queues.flagged]
  exact ((reverse_perm _).append_left _).trans (filter_parts _ _)

theorem SubQ.spare_reqs (q : SubQ) : q.reqs = q.spare.reqs ++ q.spliced := by
  unfold SubQ.spare SubQ.spliced
  cases reqs : q.reqs with
  | nil => simp [reqs]
  | cons r rest =>
    dsimp only
    split_ifs
    · rw [reqs, append_nil]
    · rfl

theorem Queues.spare_reqs : (q.spare.reqs ++ q.spliced).Perm q.reqs := by
  have first := q.transactional.spare_reqs
  have second := q.normal.spare_reqs
  have third := q.bulk.spare_reqs
  apply perm_iff_count.mpr
  intro r
  have counts : q.reqs.count r = (q.transactional.spare.reqs ++ q.transactional.spliced).count r +
      (q.normal.spare.reqs ++ q.normal.spliced).count r +
      (q.bulk.spare.reqs ++ q.bulk.spliced).count r := by
    rw [← first, ← second, ← third, Queues.reqs, count_append, count_append]
  rw [counts]
  simp only [Queues.spare, Queues.reqs, Queues.spliced, count_append]
  omega

end Queues

section Frames

/-- What a turn is answered: the configured limits, whether `curl_easy_init` and
`curl_multi_add_handle` succeed, which transfer `curl_multi_info_read` reports, whether the pool
shuts down, and whether a deadline has passed. -/
structure Choice where
  maxQueued : ℕ
  maxActive : ℕ
  easy : Bool
  added : Bool
  done : Option ℕ
  stop : Bool
  expired : Bool
  deriving DecidableEq

def calm : Choice := ⟨256, 32, true, true, none, false, false⟩

/-- The subsystem. `curl_active_qs` counts the in-flight list by priority and is read off it.
`accepted` and `refused` have the requests whose submit returned SUCCESS and FAIL, `called` those
whose completion callback was invoked, `released` those that were released. -/
structure Shared where
  ready : Bool
  shuttingDown : Bool
  drainInitiated : Bool
  drainComplete : Bool
  queues : Queues
  total : ℕ
  active : List Req
  reqNextId : ℕ
  accepted : List ℕ
  refused : List ℕ
  called : List ℕ
  released : List ℕ

inductive Client
  | submit (r : Req)
  | enqueue (r : Req)
  | submitWait (r : Req) (waited : Bool)
  | refuse (r : Req)
  | cancel (id : ℕ)
  | cancelActive (id : ℕ)
  | beginShutdown
  deriving DecidableEq

/-- What the multi loop still has to run. `unlink` stands for a request whose callback has run
and that is still on the in-flight list. -/
inductive Loop
  | iterate
  | shutdown
  | splice
  | cancelActive (ids : List ℕ)
  | pump
  | force
  | forceAll
  | drainDone
  | sweep
  | sweepActive (ids : List ℕ)
  | drainQueue
  | setup (r : Req)
  | activate (r : Req)
  | completions
  | finishCancelled (r : Req)
  | unlink (id : ℕ)
  | release (id : ℕ)
  | exitSplice
  deriving DecidableEq

def push (s : Shared) (r : Req) : Shared :=
  { s with
    queues := s.queues.push r, total := s.total + 1, accepted := r.id :: s.accepted }

def clientAct (s : Shared) (c : Choice) : Client → Shared × List Client
  | .submit r => (s, if s.ready = false ∨ s.shuttingDown = true then [.refuse r] else [.enqueue r])
  | .enqueue r => if c.maxQueued ≤ s.total then (s, [.refuse r]) else (push s r, [])
  -- one pass of the waiting loop; a wake-up that finds no slot waits again
  | .submitWait r waited =>
    if (waited ∧ c.expired) ∨ s.ready = false ∨ s.shuttingDown = true then (s, [.refuse r])
    else if c.maxQueued ≤ s.total then (s, [.submitWait r true])
    else (push s r, [])
  | .refuse r => ({ s with refused := r.id :: s.refused, released := r.id :: s.released }, [])
  | .cancel id =>
    if s.queues.reqs.any fun r => r.id = id then ({ s with queues := s.queues.flag id }, [])
    else (s, [.cancelActive id])
  | .cancelActive id => ({ s with active := flagCancel id s.active }, [])
  | .beginShutdown =>
    if s.ready = false then (s, [])
    else ({ s with shuttingDown := true, drainInitiated := true }, [])

def finish (s : Shared) (id : ℕ) : Shared := { s with called := id :: s.called }

def transactional (s : Shared) : ℕ := s.active.countP fun r => r.prio = .transactional

def loopAct (s : Shared) (c : Choice) : Loop → Shared × List Loop
  | .iterate =>
    (s, if c.stop then [.completions, .exitSplice]
      else [.shutdown, .sweep, .drainQueue, .completions, .iterate])
  -- curl_run_shutdown_drain
  | .shutdown =>
    (s, if s.drainInitiated = true ∧ s.drainComplete = false then
        [.splice, .cancelActive (s.active.map Req.id), .pump, .force, .drainDone]
      else [])
  | .splice =>
    ({ s with queues := s.queues.spare, total := s.total - s.queues.spliced.length },
      s.queues.spliced.map .finishCancelled)
  | .cancelActive [] => (s, [])
  | .cancelActive (id :: ids) =>
    if s.active.any fun r => r.id = id ∧ r.prio ≠ .transactional then
      (finish s id, [.unlink id, .cancelActive ids])
    else (s, [.cancelActive ids])
  | .pump => (s, if transactional s = 0 ∨ c.expired then [] else [.completions, .pump])
  | .force => (s, if transactional s = 0 then [] else [.forceAll])
  | .forceAll =>
    match s.active with
    | [] => (s, [])
    | r :: _ => (finish s r.id, [.unlink r.id, .forceAll])
  | .drainDone => ({ s with drainComplete := true }, [])
  -- curl_sweep_cancelled
  | .sweep =>
    ({ s with queues := s.queues.sweep, total := s.total - s.queues.flagged.length },
      s.queues.flagged.map .finishCancelled ++ [.sweepActive (s.active.map Req.id)])
  | .sweepActive [] => (s, [])
  | .sweepActive (id :: ids) =>
    if s.active.any fun r => r.id = id ∧ r.cancelRequested then
      (finish s id, [.unlink id, .sweepActive ids])
    else (s, [.sweepActive ids])
  -- curl_drain_queue: a request that cannot be set up is released
  | .drainQueue =>
    if c.maxActive ≤ s.active.length then (s, [])
    else
      match s.queues.popHighest with
      | none => (s, [])
      | some (r, queues) => ({ s with queues, total := s.total - 1 }, [.setup r, .drainQueue])
  | .setup r => (s, if c.easy ∧ c.added then [.activate r] else [.release r.id])
  | .activate r => ({ s with active := r :: s.active }, [])
  -- the completed transfers, one message after the other
  | .completions =>
    match c.done with
    | none => (s, [])
    | some id =>
      if s.active.any fun r => r.id = id then (finish s id, [.unlink id, .completions])
      else (s, [])
  | .finishCancelled r => ({ s with called := r.id :: s.called }, [.release r.id])
  | .unlink id => ({ s with active := s.active.eraseP fun r => r.id = id }, [.release id])
  | .release id => ({ s with released := id :: s.released }, [])
  -- the end of the loop: what is still queued is released
  | .exitSplice =>
    ({ s with queues := .empty, total := 0 },
      (s.queues.bulk.reqs ++ (s.queues.normal.reqs ++ s.queues.transactional.reqs)).map
        fun r => .release r.id)

end Frames

section System

structure Sys extends Shared where
  loop : List Loop
  threads : List (List Client)

def start (ready : Bool) : Sys where
  ready := ready
  shuttingDown := false
  drainInitiated := false
  drainComplete := false
  queues := .empty
  total := 0
  active := []
  reqNextId := 0
  accepted := []
  refused := []
  called := []
  released := []
  loop := [.iterate]
  threads := []

inductive Op
  | submit (prio : Prio)
  | submitWait (prio : Prio)
  | cancel (id : ℕ)
  | beginShutdown
  | turn (i : ℕ) (c : Choice)
  | loopTurn (c : Choice)
  deriving DecidableEq

def submitting (s : Sys) (prio : Prio) (frame : Req → Client) : Sys :=
  { s with
    reqNextId := s.reqNextId + 1
    threads := s.threads ++ [[frame ⟨s.reqNextId + 1, prio, false⟩]] }

def step (s : Sys) : Op → Option Sys
  | .submit prio => some (submitting s prio .submit)
  | .submitWait prio => some (submitting s prio fun r => .submitWait r false)
  | .cancel id =>
    if id = 0 then none else some { s with threads := s.threads ++ [[.cancel id]] }
  | .beginShutdown => some { s with threads := s.threads ++ [[.beginShutdown]] }
  | .turn i c =>
    match top s.threads i with
    | none => none
    | some (f, rest) =>
      let r := clientAct s.toShared c f
      some { r.1 with loop := s.loop, threads := s.threads.set i (r.2 ++ rest) }
  | .loopTurn c =>
    match s.loop with
    | [] => none
    | f :: rest =>
      let r := loopAct s.toShared c f
      some { r.1 with loop := r.2 ++ rest, threads := s.threads }

end System

end BotManager.CurlMulti
