import Mathlib.Algebra.Order.Field.Rat
import BotManager.FramePool
import BotManager.StableInsert
import BotManager.StepRun

/-! The request path of one exchange: the queue by priority, the token bucket with reserved
slots, the circuit breaker, the retries and the stall pump. Tokens are exact rationals and clock
readings are nanoseconds. Every section under the lock of the exchange is one turn of a thread,
and so is every call to the driver and to a user callback between two sections. -/

namespace BotManager.ExchangeModel
open FramePool StableInsert

section Limiter

def rpsHeadroom : ℕ := 2

/-- `EXCHANGE_TIER_TXN`, `_BACK` and `_USER`, as the indices of the reservations. -/
def prioTier (prio : ℕ) : ℕ := if prio ≤ 0 then 0 else if prio ≤ 50 then 1 else 2

structure Limiter where
  tokens : ℚ
  tokensCap : ℚ
  tokensPerSec : ℚ
  lastRefill : ℕ
  deficit : ℚ
  reserved : List ℕ
  inFlight : ℕ
  deriving DecidableEq

def limiterInit (advertisedRps advertisedBurst now : ℕ) : Limiter :=
  let effectiveRps : ℕ := if advertisedRps > rpsHeadroom then advertisedRps - rpsHeadroom else 1
  let burst : ℚ := if 0 < advertisedBurst then advertisedBurst else effectiveRps * (3 / 2)
  { tokens := burst, tokensCap := burst, tokensPerSec := effectiveRps, lastRefill := now,
    deficit := 0, reserved := [1, 0, 0], inFlight := 0 }

variable (lim : Limiter)

/-- A clock that has not moved on leaves the bucket alone; otherwise the deficit is paid first. -/
def refill (now : ℕ) : Limiter :=
  if now ≤ lim.lastRefill then lim
  else
    let gained : ℚ := ((now - lim.lastRefill : ℕ) : ℚ) / 1000000000 * lim.tokensPerSec
    let left : ℚ := if 0 < lim.deficit then
      (if lim.deficit ≤ gained then gained - lim.deficit else 0) else gained
    let owed : ℚ := if 0 < lim.deficit then
      (if lim.deficit ≤ gained then 0 else lim.deficit - gained) else lim.deficit
    { lim with
      tokens := if lim.tokensCap < lim.tokens + left then lim.tokensCap else lim.tokens + left
      deficit := owed, lastRefill := now }

def reservedAbove (prio : ℕ) : ℕ := (lim.reserved.take (prioTier prio)).sum

def take (now prio : ℕ) : Limiter × Bool :=
  let filled := refill lim now
  if 1 + (reservedAbove filled prio : ℚ) ≤ filled.tokens then
    ({ filled with tokens := filled.tokens - 1 }, true)
  else (filled, false)

def refund : Limiter :=
  { lim with tokens := if lim.tokensCap < lim.tokens + 1 then lim.tokensCap else lim.tokens + 1 }

def penalty (extra : ℚ) : Limiter :=
  if extra ≤ 0 then lim
  else if extra ≤ lim.tokens then { lim with tokens := lim.tokens - extra }
  else
    let owed := lim.deficit + (extra - lim.tokens)
    { lim with tokens := 0, deficit := if lim.tokensCap < owed then lim.tokensCap else owed }

/-- The slot of a request that is out: `in_flight` is not counted below zero. -/
def leave : Limiter := { lim with inFlight := lim.inFlight - 1 }

end Limiter

section Exchange

def retryMaxAttempts : ℕ := 5

def breakerThreshold : ℕ := 10

def breakerCooldownMs : ℕ := 30000

def nowMs (now : ℕ) : ℕ := now / 1000000

inductive Outcome
  | ok
  | retry
  | fail
  deriving DecidableEq

/-- The callers of `exchange_classify_status` pass status 0 as a transport error. -/
def classifyStatus (status : ℤ) : Outcome :=
  if status < 0 then .fail
  else if status = 0 then .retry
  else if 200 ≤ status ∧ status < 300 then .ok
  else if status = 429 then .retry
  else if 500 ≤ status ∧ status < 600 then .retry
  else .fail

/-- What the request path reads of a driver's table: which entries it has, and its limits. -/
structure Vtable where
  buildRequest : Bool
  submit : Bool
  advertisedRps : ℕ
  advertisedBurst : ℕ
  deriving DecidableEq

/-- `handed` counts the calls of the driver's submit with the request. -/
structure Req where
  id : ℕ
  prio : ℕ
  attempts : ℕ
  handed : ℕ
  deriving DecidableEq

inductive Delivery
  | success (status : ℤ)
  | status (status : ℤ)
  | unregistered
  | unregisteredDuringRetry
  | attemptsExhausted
  | retryNotScheduled
  | vtableInvalid
  | buildFailed
  | submitFailed
  deriving DecidableEq

structure Exch where
  vt : Option Vtable
  limiter : Limiter
  queue : List Req
  dead : Bool
  pumpHandle : Option ℕ
  breakerConsecFails : ℕ
  breakerTrippedUntilMs : ℕ
  deriving DecidableEq

def fresh (vt : Vtable) (now : ℕ) : Exch :=
  { vt := some vt, limiter := limiterInit vt.advertisedRps vt.advertisedBurst now, queue := [],
    dead := false, pumpHandle := none, breakerConsecFails := 0, breakerTrippedUntilMs := 0 }

variable (e : Exch)

/-- `exchange_registry_add` on a tombstone. -/
def revive (vt : Vtable) (now : ℕ) : Exch :=
  { e with
    vt := some vt, dead := false, breakerConsecFails := 0, breakerTrippedUntilMs := 0
    limiter := limiterInit vt.advertisedRps vt.advertisedBurst now }

@[simps vt queue pumpHandle dead] def push (r : Req) : Exch := { e with queue := insertBy Req.prio r e.queue }

/-- The walk of a pop: every token test reads the clock anew. -/
def popWalk (lim : Limiter) (clock : ℕ → ℕ) : List Req → Limiter × Option (Req × List Req)
  | [] => (lim, none)
  | r :: rest =>
    match take lim (clock 0) r.prio with
    | (lim, true) => ({ lim with inFlight := lim.inFlight + 1 }, some (r, rest))
    | (lim, false) =>
      match popWalk lim (fun n => clock (n + 1)) rest with
      | (lim, none) => (lim, none)
      | (lim, some (x, others)) => (lim, some (x, r :: others))

def popEligible (clock : ℕ → ℕ) : Exch × Option Req :=
  if 0 < e.breakerTrippedUntilMs ∧ nowMs (clock 0) < e.breakerTrippedUntilMs then (e, none)
  else
    match popWalk e.limiter (fun n => clock (n + 1)) e.queue with
    | (lim, none) => ({ e with limiter := lim }, none)
    | (lim, some (r, rest)) => ({ e with limiter := lim, queue := rest }, some r)

/-- `handle` is what `task_add_deferred` would return. -/
def armPump (handle : Option ℕ) : Exch :=
  if e.dead = true ∨ e.pumpHandle ≠ none then e else { e with pumpHandle := handle }

/-- The locked section of a response: the slot, the penalty of a 429 and the breaker. -/
def account (status : ℤ) (now : ℕ) : Exch :=
  let left := leave e.limiter
  let limiter := if status = 429 then penalty left 2 else left
  if classifyStatus status = .ok then
    { e with limiter, breakerConsecFails := 0, breakerTrippedUntilMs := 0 }
  else if breakerThreshold ≤ e.breakerConsecFails + 1 then
    { e with
      limiter, breakerConsecFails := e.breakerConsecFails + 1
      breakerTrippedUntilMs := nowMs now + breakerCooldownMs }
  else { e with limiter, breakerConsecFails := e.breakerConsecFails + 1 }

def tombstone : Exch :=
  { e with vt := none, dead := true, queue := [], pumpHandle := none }

section Fields
variable (e : Exch) (h : Option ℕ) (status : ℤ) (now : ℕ)

@[simp] theorem armPump_vt : (armPump e h).vt = e.vt := by
  unfold armPump
  split_ifs <;> rfl

@[simp] theorem armPump_dead : (armPump e h).dead = e.dead := by
  unfold armPump
  split_ifs <;> rfl

@[simp] theorem armPump_queue : (armPump e h).queue = e.queue := by
  unfold armPump
  split_ifs <;> rfl

@[simp] theorem armPump_none : (armPump e none).pumpHandle = e.pumpHandle := by
  unfold armPump
  split_ifs with kept
  · rfl
  · rw [not_or, not_not] at kept
    exact kept.2.symm

@[simp] theorem account_vt : (account e status now).vt = e.vt := by
  unfold account
  dsimp only
  split_ifs <;> rfl

@[simp] theorem account_dead : (account e status now).dead = e.dead := by
  unfold account
  dsimp only
  split_ifs <;> rfl

@[simp] theorem account_queue : (account e status now).queue = e.queue := by
  unfold account
  dsimp only
  split_ifs <;> rfl

@[simp] theorem account_pumpHandle : (account e status now).pumpHandle = e.pumpHandle := by
  unfold account
  dsimp only
  split_ifs <;> rfl

end Fields

theorem popWalk_perm {lim lim' : Limiter} {clock : ℕ → ℕ} {queue rest : List Req} {r : Req}
    (found : popWalk lim clock queue = (lim', some (r, rest))) : queue.Perm (r :: rest) := by
  induction queue generalizing lim lim' clock rest with
  | nil => cases found
  | cons x xs ih =>
    rw [popWalk] at found
    split at found
    next =>
      obtain ⟨-, found⟩ := Prod.mk.inj found
      cases found
      exact .refl _
    next =>
      split at found
      next => cases found
      next y others below =>
        obtain ⟨-, found⟩ := Prod.mk.inj found
        obtain ⟨rfl, rfl⟩ := Prod.mk.inj (Option.some.inj found)
        exact ((ih below).cons x).trans (.swap y x others)

theorem popEligible_cases (e : Exch) (clock : ℕ → ℕ) :
    (∃ lim r rest, e.queue.Perm (r :: rest) ∧
      popEligible e clock = ({ e with limiter := lim, queue := rest }, some r)) ∨
    (∃ lim, popEligible e clock = ({ e with limiter := lim }, none)) := by
  unfold popEligible
  by_cases gated : 0 < e.breakerTrippedUntilMs ∧ nowMs (clock 0) < e.breakerTrippedUntilMs
  · rw [if_pos gated]
    exact .inr ⟨e.limiter, rfl⟩
  · rw [if_neg gated]
    rcases walk : popWalk e.limiter (fun n => clock (n + 1)) e.queue with ⟨lim, _ | ⟨r, rest⟩⟩
    · exact .inr ⟨lim, rfl⟩
    · exact .inl ⟨lim, r, rest, popWalk_perm walk, rfl⟩

end Exchange

section Steps

inductive Frame
  | request (r : Req)
  | dispatch
  | submit (r : Req) (vt : Vtable)
  | refund
  | respond (r : Req) (status : ℤ)
  | settle (r : Req) (status : ℤ)
  | retry (r : Req)
  | pump (handle : ℕ)
  | drain (rs : List Req)
  | register (vt : Vtable)
  | revive (vt : Vtable)
  deriving DecidableEq

/-- What the outside answers in a turn: the driver's build and submit, whether a deferred task
could be added, and the clock readings in the order they are taken. -/
structure Choice where
  built : Bool
  submitted : Bool
  deferred : Bool
  clock : ℕ → ℕ

def granted (now : ℕ) : Choice := ⟨true, true, true, fun _ => now⟩

/-- `driver` has the accepted requests whose callback is still to come, `retries` and `pumps` are
the timers that have not fired, and `fired` records every call of a user callback. `accepted` and
`refused` are the requests whose `exchange_request` succeeds or fails. -/
structure Shared where
  exch : Exch
  driver : List Req
  retries : List Req
  pumps : List ℕ
  nextHandle : ℕ
  fired : List (Req × Delivery)
  accepted : List ℕ
  refused : List ℕ
  deriving DecidableEq

structure Sys extends Shared where
  nextId : ℕ
  threads : List (List Frame)
  deriving DecidableEq

def start (vt : Vtable) (now : ℕ) : Sys :=
  ⟨⟨fresh vt now, [], [], [], 0, [], [], []⟩, 0, []⟩

variable (sh : Shared)

@[simps] def deliver (r : Req) (d : Delivery) : Shared :=
  { sh with fired := sh.fired ++ [(r, d)] }

def dispatch (vt : Vtable) (c : Choice) : Shared × List Frame :=
  match popEligible sh.exch c.clock with
  | (e, some r) => ({ sh with exch := e }, [.submit r vt])
  | (e, none) =>
    if e.queue = [] then ({ sh with exch := e }, [])
    else if e.dead = true ∨ e.pumpHandle ≠ none ∨ c.deferred = false then
      ({ sh with exch := armPump e none }, [])
    else
      ({ sh with
        exch := armPump e (some sh.nextHandle), pumps := sh.pumps ++ [sh.nextHandle]
        nextHandle := sh.nextHandle + 1 }, [])

def armRetry (r : Req) (c : Choice) : Shared :=
  let tried := { r with attempts := r.attempts + 1 }
  if retryMaxAttempts ≤ tried.attempts then deliver sh tried .attemptsExhausted
  else if c.deferred = false then deliver sh tried .retryNotScheduled
  else { sh with retries := sh.retries ++ [tried] }

theorem armRetry_cases (r : Req) (c : Choice) :
    (∃ d, armRetry sh r c = deliver sh { r with attempts := r.attempts + 1 } d) ∨
    (r.attempts + 1 < retryMaxAttempts ∧ armRetry sh r c =
      { sh with retries := sh.retries ++ [{ r with attempts := r.attempts + 1 }] }) := by
  unfold armRetry
  dsimp only
  split_ifs with exhausted unscheduled
  · exact .inl ⟨_, rfl⟩
  · exact .inl ⟨_, rfl⟩
  · exact .inr ⟨by omega, rfl⟩

def act (c : Choice) : Frame → Shared × List Frame
  | .request r =>
    match sh.exch.vt with
    | none => ({ sh with refused := r.id :: sh.refused }, [])
    | some _ => ({ sh with exch := push sh.exch r, accepted := r.id :: sh.accepted }, [.dispatch])
  | .dispatch =>
    match sh.exch.vt with
    | none => (sh, [])
    | some vt => dispatch sh vt c
  | .submit r vt =>
    if vt.buildRequest = false ∨ vt.submit = false then (deliver sh r .vtableInvalid, [.refund])
    else if c.built = false then (deliver sh r .buildFailed, [.refund])
    else if c.submitted = false then
      (deliver sh { r with handed := r.handed + 1 } .submitFailed, [.refund, .dispatch])
    else ({ sh with driver := sh.driver ++ [{ r with handed := r.handed + 1 }] }, [.dispatch])
  | .refund =>
    ({ sh with exch := { sh.exch with limiter := refund (leave sh.exch.limiter) } }, [])
  | .respond r status =>
    ({ sh with exch := account sh.exch status (c.clock 0) }, [.settle r status])
  | .settle r status =>
    match classifyStatus status with
    | .ok => (deliver sh r (.success status), [.dispatch])
    | .retry => (armRetry sh r c, [.dispatch])
    | .fail => (deliver sh r (.status status), [.dispatch])
  | .retry r =>
    match sh.exch.vt with
    | none => (deliver sh r .unregisteredDuringRetry, [])
    | some _ => ({ sh with exch := push sh.exch r }, [.dispatch])
  | .pump _ => ({ sh with exch := { sh.exch with pumpHandle := none } }, [.dispatch])
  | .drain [] => (sh, [])
  | .drain (r :: rest) => (deliver sh r .unregistered, [.drain rest])
  | .register vt => (sh, if sh.exch.dead then [.revive vt] else [])
  | .revive vt => ({ sh with exch := revive sh.exch vt (c.clock 0) }, [])

/-- `complete` is the driver's callback for one of the requests it has accepted. `cancelled` says
whether the pump's task could still be cancelled. -/
inductive Op
  | request (cb : Bool) (path : String) (prio : ℕ)
  | dispatch
  | complete (i : ℕ) (status : ℤ)
  | fireRetry (i : ℕ)
  | firePump (i : ℕ)
  | unregister (cancelled : Bool)
  | register (vt : Vtable)
  | turn (i : ℕ) (c : Choice)

def turns (i n now : ℕ) : List Op := .replicate n (.turn i (granted now))

def spawn (s : Sys) (frames : List Frame) : Sys := { s with threads := s.threads ++ [frames] }

def step (s : Sys) : Op → Option Sys
  | .request cb path prio =>
    if cb = false ∨ path = "" then
      some { s with refused := s.nextId :: s.refused, nextId := s.nextId + 1 }
    else some { spawn s [.request ⟨s.nextId, prio, 0, 0⟩] with nextId := s.nextId + 1 }
  | .dispatch => some (spawn s [.dispatch])
  | .complete i status =>
    match s.driver[i]? with
    | none => none
    | some r => some { spawn s [.respond r status] with driver := s.driver.eraseIdx i }
  | .fireRetry i =>
    match s.retries[i]? with
    | none => none
    | some r => some { spawn s [.retry r] with retries := s.retries.eraseIdx i }
  | .firePump i =>
    match s.pumps[i]? with
    | none => none
    | some h => some { spawn s [.pump h] with pumps := s.pumps.eraseIdx i }
  | .unregister cancelled =>
    some { spawn s [.drain s.exch.queue] with
      exch := tombstone s.exch
      pumps := if cancelled = true then s.pumps.filter (fun h => some h ≠ s.exch.pumpHandle)
        else s.pumps }
  | .register vt => some (spawn s [.register vt])
  | .turn i c =>
    match top s.threads i with
    | none => none
    | some (f, rest) =>
      let r := act s.toShared c f
      some { s with toShared := r.1, threads := s.threads.set i (r.2 ++ rest) }

end Steps

end BotManager.ExchangeModel
