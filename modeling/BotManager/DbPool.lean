import Mathlib.Data.List.Basic

/-! The connection pool of the database facade over the PostgreSQL driver: slots with their
mutexes, the two passes of `conn_acquire`, redialling, transactions that pin a slot, and the
reaper. Every user of the pool is a small machine that is at one slot at a time; a turn of it
tries the mutex, or calls the driver once, or gives the slot back. What the server and libpq
answer is given with the turn. -/

namespace BotManager.DbPool

section Server

/-- What libpq knows of a connection: its transaction status, a COPY in progress outside or
inside a transaction, or that it is bad. -/
inductive Link
  | idle
  | inTrans
  | inError
  | copy
  | copyTrans
  | bad
  deriving DecidableEq

/-- `PQexec` first ends a COPY in progress, which fails it. -/
@[simp] def Link.settled : Link → Link
  | .copy => .idle
  | .copyTrans => .inError
  | l => l

inductive Text
  | plain
  | control
  | copy
  deriving DecidableEq

inductive TxnOp
  | begin
  | commit
  | rollback
  deriving DecidableEq

/-- An answer as the environment chooses it; `serve` and `serveTxn` fit it to what PostgreSQL can
answer. -/
structure Reply where
  ok : Bool
  after : Link
  deriving DecidableEq

/-- In an aborted transaction every statement fails. One that fails aborts the transaction,
unless libpq failed it before the server saw it. -/
def servePlain (r : Reply) : Link → Bool × Link
  | .inTrans => (r.ok, if r.ok = true ∨ r.after = .inTrans then .inTrans else .inError)
  | .inError => (false, .inError)
  | l => (r.ok, l)

/-- Transaction control that ends well leaves no aborted transaction. -/
def serveControl (r : Reply) : Bool × Link :=
  if r.ok then (true, if r.after = .inTrans then .inTrans else .idle)
  else (false, r.after.settled)

/-- `PQexec` of a statement text; a COPY in progress counts as a failure of the statement. -/
def serve (l : Link) (text : Text) (r : Reply) : Bool × Link :=
  if l = .bad ∨ r.after = .bad then (false, .bad)
  else
    match text with
    | .plain => servePlain r l.settled
    | .control => serveControl r
    | .copy => if r.after = .copy ∨ r.after = .copyTrans then (false, r.after) else serveControl r

/-- COMMIT of an aborted transaction rolls back and reports success; ROLLBACK does not fail on a
connection that is up. -/
def serveTxn (l : Link) (op : TxnOp) (r : Reply) : Bool × Link :=
  if l = .bad ∨ r.after = .bad then (false, .bad)
  else
    match op with
    | .begin =>
      if l.settled = .inError then (false, .inError)
      else if r.ok then (true, .inTrans) else (false, l.settled)
    | .commit => (if l.settled = .inTrans then r.ok else true, .idle)
    | .rollback => (true, .idle)

end Server

section Driver

structure Handle where
  link : Link
  inTxn : Bool
  deriving DecidableEq

/-- `pg_connect`, and what `pg_reset` leaves. -/
def dialled : Handle := ⟨.idle, false⟩

def pgDrainTxn (h : Handle) (r : Reply) : Handle :=
  if h.inTxn = false ∧ (h.link = .inError ∨ h.link = .inTrans) then
    { h with link := (serveTxn h.link .rollback r).2 }
  else h

/-- The three statement entry points of the driver; `r` answers the statement, `d` the ROLLBACK
of the drain. -/
def pgQuery (h : Handle) (text : Text) (r d : Reply) : Bool × Handle :=
  let answer := serve h.link text r
  (answer.1, pgDrainTxn { h with link := answer.2 } d)

def pgTxn (h : Handle) (op : TxnOp) (r d : Reply) : Bool × Handle :=
  let answer := serveTxn h.link op r
  if op = .begin ∧ answer.1 = true then (true, ⟨answer.2, true⟩)
  else (answer.1, pgDrainTxn ⟨answer.2, false⟩ d)

end Driver

section Slots

structure Slot where
  locked : Bool
  active : Bool
  handle : Option Handle
  deriving DecidableEq

def connClose (sl : Slot) : Slot := { sl with handle := none, active := false }

def unlock (sl : Slot) : Slot := { sl with locked := false }

def connRelease (sl : Slot) : Slot := unlock { sl with active := false }

def setHandle (sl : Slot) (h : Handle) : Slot := { sl with handle := some h }

end Slots

section Users

inductive User
  | query (text : Text)
  | stream (text : Text)
  | escape
  | begin
  deriving DecidableEq

/-- Where a user of the pool is. `again` marks the one retry of a statement on a redialled
connection; `ret` is what `db_txn_commit` is going to return. -/
inductive Frame
  | pass1 (u : User) (i : ℕ)
  | look1 (u : User) (i : ℕ)
  | pass2 (u : User) (i : ℕ)
  | look2 (u : User) (i : ℕ)
  | query (u : User) (i : ℕ) (again : Bool)
  | recover (u : User) (i : ℕ)
  | escape (i : ℕ)
  | begin (i : ℕ)
  | txn (i : ℕ) (failed : Bool)
  | commit (i : ℕ)
  | rollback (i : ℕ) (ret : Option Bool)
  | settle (i : ℕ) (ret : Option Bool)
  | release (i : ℕ) (ret : Option Bool)
  | reap (i : ℕ)
  | reapLook (i : ℕ)
  | done
  deriving DecidableEq

def Frame.index : Frame → ℕ
  | .pass1 _ i => i
  | .look1 _ i => i
  | .pass2 _ i => i
  | .look2 _ i => i
  | .query _ i _ => i
  | .recover _ i => i
  | .escape i => i
  | .begin i => i
  | .txn i _ => i
  | .commit i => i
  | .rollback i _ => i
  | .settle i _ => i
  | .release i _ => i
  | .reap i => i
  | .reapLook i => i
  | .done => 0

def User.text : User → Text
  | .query text => text
  | .stream text => text
  | _ => .plain

def User.work (u : User) (i : ℕ) : Frame :=
  match u with
  | .escape => .escape i
  | .begin => .begin i
  | u => .query u i false

/-- What happens to a slot. A COMMIT is remembered with the status it found. -/
inductive Act
  | locked
  | dialled
  | redialled
  | closed
  | query
  | begin (ok : Bool)
  | statement
  | commit (l : Link) (ok : Bool)
  | rollback
  | released (ret : Option Bool)
  deriving DecidableEq

structure Choice where
  reply : Reply
  drain : Reply
  dial : Bool
  expired : Bool
  untouched : Bool
  deriving DecidableEq

def calm : Choice := ⟨⟨true, .idle⟩, ⟨true, .idle⟩, true, false, true⟩

/-- A stream that has delivered rows is not run again. -/
def User.reruns (c : Choice) : User → Bool
  | .stream _ => c.untouched
  | _ => true

abbrev Moved := Slot × List Act × Frame

def passOn (sl : Slot) (next : Frame) : Moved := (unlock sl, [.released none], next)

def tryLock (sl : Slot) (look next : Frame) : Moved :=
  if sl.locked then (sl, [], next) else ({ sl with locked := true }, [.locked], look)

def act (max : ℕ) (sl : Slot) (c : Choice) : Frame → Option Moved
  | .pass1 u i =>
    some (if max ≤ i then (sl, [], .pass2 u 0) else tryLock sl (.look1 u i) (.pass1 u (i + 1)))
  | .look1 u i =>
    some (match sl.handle with
      | none => passOn sl (.pass1 u (i + 1))
      | some h =>
        if sl.active then passOn sl (.pass1 u (i + 1))
        else if h.link = .bad then
          (unlock (connClose sl), [.closed, .released none], .pass1 u (i + 1))
        else ({ sl with active := true }, [], u.work i))
  | .pass2 u i =>
    some (if max ≤ i then (sl, [], .done) else tryLock sl (.look2 u i) (.pass2 u (i + 1)))
  | .look2 u i =>
    some (match sl.handle with
      | some _ => passOn sl (.pass2 u (i + 1))
      | none =>
        if c.dial then ({ setHandle sl dialled with active := true }, [.dialled], u.work i)
        else passOn sl .done)
  | .query u i again =>
    sl.handle.map fun h =>
      let r := pgQuery h u.text c.reply c.drain
      (setHandle sl r.2, [.query],
        if r.1 = true ∨ again = true then .release i none else .recover u i)
  | .recover u i =>
    sl.handle.map fun h =>
      if h.link ≠ .bad then (sl, [], .release i none)
      else if c.dial then
        ({ setHandle sl dialled with active := true }, [.redialled],
          if u.reruns c then .query u i true else .release i none)
      else (connClose sl, [.closed], .release i none)
  | .escape i => some (sl, [], .release i none)
  | .begin i =>
    sl.handle.map fun h =>
      let r := pgTxn h .begin c.reply c.drain
      (setHandle sl r.2, [.begin r.1], if r.1 then .txn i false else .settle i none)
  | .commit i =>
    sl.handle.map fun h =>
      let r := pgTxn h .commit c.reply c.drain
      (setHandle sl r.2, [.commit h.link r.1],
        if r.1 then .settle i (some true) else .rollback i (some false))
  | .rollback i ret =>
    sl.handle.map fun h =>
      (setHandle sl (pgTxn h .rollback c.reply c.drain).2, [.rollback], .settle i ret)
  | .settle i ret =>
    sl.handle.map fun h =>
      if h.link = .bad then (connClose sl, [.closed], .release i ret)
      else (sl, [], .release i ret)
  | .release _ ret => some (connRelease sl, [.released ret], .done)
  | .reap i =>
    some (if max ≤ i then (sl, [], .done) else tryLock sl (.reapLook i) (.reap (i + 1)))
  | .reapLook i =>
    some (if sl.handle ≠ none ∧ sl.active = false ∧ c.expired = true then
        (unlock (connClose sl), [.closed, .released none], .reap (i + 1))
      else passOn sl (.reap (i + 1)))
  | .txn _ _ => none
  | .done => none

end Users

section Transactions

def dbParamsMax : ℕ := 32

/-- A call of `db_txn_query` or `db_txn_query_params`: whether there is a text, how many values
the array is said to have if there is one, and what the text holds. -/
structure Call where
  sql : Bool
  params : Option ℕ
  text : Text
  deriving DecidableEq

/-- What the wrapper does not hand to the driver; `bound` says that the driver has
`query_params`. -/
def Refused (bound : Bool) (call : Call) : Prop :=
  call.sql = false ∨ ∃ n ∈ call.params, bound = false ∨ dbParamsMax < n

instance (bound : Bool) (call : Call) : Decidable (Refused bound call) :=
  inferInstanceAs (Decidable (_ ∨ _))

/-- `txn_run` on the pinned slot: the slot, what happened, the latch, and what the call returns. -/
def txnRun (bound : Bool) (sl : Slot) (failed : Bool) (call : Call) (r d : Reply) :
    Option (Slot × List Act × Bool × Bool) :=
  if Refused bound call ∨ failed = true then some (sl, [], failed, false)
  else
    sl.handle.map fun h =>
      let answer := pgQuery h call.text r d
      (setHandle sl answer.2, [.statement], !answer.1, answer.1)

/-- What is remembered of a transaction: the slot that `db_txn_begin` pinned, the statement calls
with what they returned, the COMMIT with the status it found and its result, and what
`db_txn_commit` returned. -/
structure Txn where
  conn : Option ℕ
  calls : List (Call × Bool)
  commit : Option (Link × Bool)
  returned : Option Bool
  deriving DecidableEq

def Txn.fresh : Txn := ⟨none, [], none, none⟩

def Txn.note (i : ℕ) (t : Txn) : Act → Txn
  | .begin true => { t with conn := some i }
  | .commit l ok => { t with commit := some (l, ok) }
  | .released (some ret) => { t with returned := some ret }
  | _ => t

end Transactions

section System

/-- `log i` is what happened to slot `i`, with the user that did it. -/
structure Sys where
  max : ℕ
  bound : Bool
  slots : ℕ → Slot
  ops : ℕ → Frame
  next : ℕ
  log : ℕ → List (ℕ × Act)
  txns : ℕ → Txn

def start (max : ℕ) (bound : Bool) : Sys where
  max := max
  bound := bound
  slots := fun _ => ⟨false, false, none⟩
  ops := fun _ => .done
  next := 0
  log := fun _ => []
  txns := fun _ => .fresh

def place (s : Sys) (o i : ℕ) (m : Moved) (t : Txn) : Sys :=
  { s with
    slots := Function.update s.slots i m.1
    ops := Function.update s.ops o m.2.2
    log := Function.update s.log i (s.log i ++ m.2.1.map fun a => (o, a))
    txns := Function.update s.txns o t }

def advance (s : Sys) (o i : ℕ) (m : Moved) : Sys :=
  place s o i m (m.2.1.foldl (Txn.note i) (s.txns o))

def enter (s : Sys) (f : Frame) : Sys :=
  { s with ops := Function.update s.ops s.next f, next := s.next + 1 }

inductive Op
  | use (u : User)
  | reap
  | turn (o : ℕ) (c : Choice)
  | statement (o : ℕ) (call : Call) (r d : Reply)
  | commit (o : ℕ)
  | rollback (o : ℕ)
  deriving DecidableEq

def turns (o n : ℕ) : List Op := .replicate n (.turn o calm)

def step (s : Sys) : Op → Option Sys
  | .use u => some (enter s (.pass1 u 0))
  | .reap => some (enter s (.reap 0))
  | .turn o c =>
    (act s.max (s.slots (s.ops o).index) c (s.ops o)).map (advance s o (s.ops o).index)
  | .statement o call r d =>
    match s.ops o with
    | .txn i failed =>
      (txnRun s.bound (s.slots i) failed call r d).map fun m =>
        place s o i (m.1, m.2.1, .txn i m.2.2.1)
          { s.txns o with calls := (s.txns o).calls ++ [(call, m.2.2.2)] }
    | _ => none
  | .commit o =>
    match s.ops o with
    | .txn i failed =>
      some (advance s o i (s.slots i, [], if failed then .rollback i (some false) else .commit i))
    | _ => none
  | .rollback o =>
    match s.ops o with
    | .txn i _ => some (advance s o i (s.slots i, [], .rollback i none))
    | _ => none

end System

end BotManager.DbPool
