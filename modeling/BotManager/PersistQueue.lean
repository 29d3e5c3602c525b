import BotManager.CText
import BotManager.StepRun
import BotManager.CoalescingQueue

/-! The queue of market upserts in whenmoon/market_persist.c. `wm_mp_enqueue_owned` coalesces
by market and instance under the lock, and both `wm_mp_flush_task` and
`wm_market_persist_flush_all` detach the list under the lock and run it without. `V` is what
an upsert was built from. -/

namespace BotManager.PersistQueue
open CText StepRun CoalescingQueue

variable {V : Type*}

def instanceLabelSz : ℕ := 24

/-- The key of a row; the label is kept in a buffer of `WM_INSTANCE_LABEL_SZ` bytes. -/
structure Key where
  marketId : ℤ
  label : Bytes
  fits : label.length < instanceLabelSz
  deriving DecidableEq

inductive Stmt (V : Type*)
  | upsert (built : V)
  | disable
  deriving DecidableEq

structure Row (V : Type*) where
  snapshot : V
  enabled : Bool
  deriving DecidableEq

/-- A disable keeps the row and changes nothing where there is none. -/
def apply : Stmt V → Option (Row V) → Option (Row V)
  | .upsert built, _ => some ⟨built, true⟩
  | .disable, row => row.map fun row => { row with enabled := false }

abbrev Sys (V : Type*) := CoalescingQueue.State Key (Stmt V) (Option (Row V))

/-- A market without an id is not queued. -/
def enqueueOwned (s : Sys V) (key : Key) (stmt : Stmt V) : Sys V :=
  if key.marketId < 0 then s else enqueue s key stmt

inductive Event (V : Type*)
  | persistLocked (key : Key) (built : V)
  | persistDisable (key : Key)
  | flushTask
  | flushAll
  | runDrained (drainer : ℕ)

def step (s : Sys V) : Event V → Option (Sys V)
  | .persistLocked key built => some (enqueueOwned s key (.upsert built))
  | .persistDisable key => some (enqueueOwned s key .disable)
  | .flushTask => some (drain s)
  | .flushAll => some (drain s)
  | .runDrained drainer => runHead apply s drainer

/-- A flush waits for the drainers that have an older statement of what it takes. -/
def Keeps (s : Sys V) : Event V → Prop
  | .flushTask => Apart s
  | .flushAll => Apart s
  | _ => True

instance (s : Sys V) (e : Event V) : Decidable (Keeps s e) := by
  unfold Keeps
  split <;> infer_instance

def Reflects (row : Option (Row V)) : Stmt V → Prop
  | .upsert built => row = some ⟨built, true⟩
  | .disable => ∀ r, row = some r → r.enabled = false

theorem reflects_apply : Reflects (apply stmt row) stmt := by
  cases stmt with
  | upsert built => rfl
  | disable =>
    intro r found
    obtain ⟨old, -, rfl⟩ := Option.map_eq_some_iff.mp found
    rfl

structure LastWins (s : Sys V) : Prop where
  ran : ∀ key e, s.last key = some e →
    s.ran.find? (fun x => decide (x.key = key)) = some e
  reflects : ∀ key e, s.last key = some e → Reflects (s.rows key) e.stmt

theorem inv_enqueueOwned {s : Sys V} (inv : Inv apply s) : Inv apply (enqueueOwned s key stmt) := by
  unfold enqueueOwned
  split
  · exact inv
  · exact inv.enqueue key stmt

theorem inv_step {s t : Sys V} {e : Event V} (inv : Inv apply s) (keeps : Keeps s e)
    (moved : step s e = some t) : Inv apply t := by
  cases e with
  | persistLocked key built | persistDisable key =>
    cases moved
    exact inv_enqueueOwned inv
  | flushTask | flushAll =>
    cases moved
    exact inv.drain keeps
  | runDrained drainer => exact inv.run moved

theorem last_enqueued_wins {rows : Key → Option (Row V)} {events : List (Event V)} {s : Sys V}
    (run : Run step Keeps (start rows) events s) (idle : Idle s) : LastWins s := by
  have inv := run.invariant inv_step (inv_start rows)
  constructor
  · intro key e found
    obtain ⟨newest, -⟩ := inv.settled idle found
    rw [inv.named key e found] at newest
    exact newest
  · intro key e found
    obtain ⟨-, row, left⟩ := inv.settled idle found
    rw [inv.named key e found] at left
    rw [left]
    exact reflects_apply

def btc : Key := ⟨1, [], by decide⟩

def eth : Key := ⟨2, [], by decide⟩

def inTurn : List (Event ℕ) :=
  [.persistLocked btc 1, .persistLocked eth 5, .persistLocked btc 2, .flushTask, .runDrained 0,
    .persistLocked eth 6, .runDrained 0, .persistDisable btc, .flushAll, .runDrained 1,
    .runDrained 1]

theorem last_enqueued_wins_sample : ∃ s : Sys ℕ, Run step Keeps (start fun _ => none) inTurn s ∧
    Idle s ∧ s.rows eth = some ⟨6, true⟩ ∧ s.rows btc = some ⟨2, false⟩ ∧ LastWins s := by
  have run : Run step Keeps (start fun _ => none) inTurn _ := runWhen_get (by decide +kernel)
  refine ⟨_, run, ?_, ?_, ?_, last_enqueued_wins run (by decide +kernel)⟩
  all_goals decide +kernel

def overtaken : List (Event ℕ) :=
  [.persistLocked btc 1, .flushTask, .persistLocked btc 2, .flushAll, .runDrained 1,
    .runDrained 0]

theorem not_last_enqueued_wins : ∃ s : Sys ℕ,
    exec step (start fun _ => none) overtaken = some s ∧ Idle s ∧
      (s.last btc).map Entry.stmt = some (.upsert 2) ∧ s.rows btc = some ⟨1, true⟩ :=
  ⟨_, (Option.some_get (by decide +kernel)).symm, by decide +kernel⟩

end BotManager.PersistQueue
