import BotManager.DossierModel
import BotManager.FramePool
import BotManager.StepRun
import Mathlib.Data.List.Sort

/-!
Deferred work of the chat bots: the table `chat_deferred`, the two ways to claim a row, and its
delivery.

A thread is the list of what it still has to do, and one turn of it is one statement or one
answer of the environment. The due sweep locks its rows one by one, with a fresh look at each
(FOR UPDATE SKIP LOCKED), and updates them when it has them all; a statement that updates or
deletes one row waits while the row is locked. `NOW()` is the time a statement's transaction began
with: nothing orders it against the times of other statements. Times are in microseconds.

What the environment answers in a turn is a Boolean: whether the method still exists, whether the
governor lets an unsolicited or asked for cue through, whether a scheduled command may still run.
-/

namespace BotManager.DeferredModel
open CText DossierModel FramePool StepRun

inductive Source
  | remind
  | inCommand
  | occasion
  | followup
  | pricewatch
  deriving DecidableEq

def choreOfSource : Source → Option Chore
  | .occasion => some .occasions
  | .followup => some .followups
  | .pricewatch => some .pricewatch
  | .remind | .inCommand => none

inductive SoulClass
  | timed
  | asked
  | unsolicited
  deriving DecidableEq

def sourceClass : Source → SoulClass
  | .remind | .inCommand => .timed
  | .pricewatch => .asked
  | .occasion | .followup => .unsolicited

inductive Kind
  | say
  | run
  deriving DecidableEq

/-- A row of `chat_deferred`, with its row lock. `subject` is the dossier the row was written
about, which the column `dossier_id` may lose. -/
structure Row where
  ns : ℕ
  bot : ℕ
  dossier : Option ℕ
  subject : ℕ
  source : Source
  kind : Kind
  repeatSecs : ℕ
  repeatDays : ℕ
  repeatMinute : ℕ
  tz : Bytes
  onPresence : Bool
  due : ℕ
  expires : Option ℕ
  delivered : Option ℕ
  locked : Bool
  deriving DecidableEq

/-- DEFERRED_REPEAT_MIN. -/
def repeatMin : ℕ := 300

/-- DEFERRED_CLAIM_MAX. -/
def claimMax : ℕ := 5

/-- DEFERRED_REPEATING_SQL, and the test of `deferred_row_rule`. -/
def Row.repeating (row : Row) : Bool := row.repeatDays ≠ 0 || repeatMin ≤ row.repeatSecs

def Row.expired (row : Row) (now : ℕ) : Bool := row.expires.any (· < now)

def Row.period (row : Row) : ℕ := row.repeatSecs * 1000000

/-- `chat_deferred_next` for the window of a week: an instant after now. Without one the
statement would fail on the column's NOT NULL. -/
structure Calendar where
  next : Bytes → ℕ → ℕ → ℕ → ℕ
  later : ∀ tz minute days now, now < next tz minute days now

variable (cal : Calendar)

/-- The `due_at` that the due sweep writes. -/
def Row.advance (row : Row) (now : ℕ) : ℕ :=
  if row.repeating = false ∨ row.expired now = true then row.due
  else if row.repeatDays ≠ 0 then cal.next row.tz row.repeatMinute row.repeatDays now
  else row.due + ((now - row.due) / row.period + 1) * row.period

/-- The due sweep's UPDATE of one row; with its end the lock is gone. -/
def Row.claimDue (now : ℕ) (row : Row) : Row :=
  { row with
    delivered := if row.repeating && !row.expired now then none else some now
    due := row.advance cal now
    locked := false }

/-- The WHERE of the due sweep's inner SELECT. -/
def Row.dueFor (ns bot now : ℕ) (row : Row) : Bool :=
  row.ns = ns && row.bot = bot && row.delivered = none && !row.onPresence && row.due ≤ now

/-- The WHERE of the presence scan's expiry sweep. -/
def Row.lapsedFor (ns bot now : ℕ) (row : Row) : Bool :=
  row.ns = ns && row.bot = bot && row.delivered = none && row.onPresence && row.expired now

/-- The WHERE of the claim of a presence row, beside its id. -/
def Row.presentFor (ns bot : ℕ) (row : Row) : Bool :=
  row.ns = ns && row.bot = bot && row.delivered = none && row.onPresence

/-- What a claim returns to its delivery. `speaker` is the bot that claims, `owner` the bot the
row names, `due` the occurrence that was claimed. -/
structure Claimed where
  id : ℕ
  speaker : ℕ
  owner : ℕ
  dossier : ℕ
  subject : ℕ
  source : Source
  kind : Kind
  repeating : Bool
  due : ℕ
  expired : Bool
  deriving DecidableEq

def Row.claimed (row : Row) (id speaker now : ℕ) : Claimed where
  id := id
  speaker := speaker
  owner := row.bot
  dossier := row.dossier.getD 0
  subject := row.subject
  source := row.source
  kind := row.kind
  repeating := row.repeating
  due := row.due
  expired := row.expired now

/-- How a claim ended, other than by being returned. A spoken one keeps whether the person it is
about was opted out of its chore at that time. -/
inductive Fate
  | spoken (refusing : Bool)
  | expired
  | optedOut
  deriving DecidableEq

structure Entry where
  claim : Claimed
  fate : Fate
  deriving DecidableEq

/-- `heir` is the dossier that now stands for the one given, after the merges so far. -/
structure Desk where
  store : Store
  heir : ℕ → ℕ
  rows : ℕ → Option Row
  nextRow : ℕ
  log : List Entry

variable (m : Desk)

def Desk.setRow (id : ℕ) (row : Option Row) : Desk :=
  { m with rows := Function.update m.rows id row }

def Desk.insert (row : Row) : Desk :=
  { m.setRow m.nextRow (some row) with nextRow := m.nextRow + 1 }

def Desk.record (claim : Claimed) (fate : Fate) : Desk :=
  { m with log := m.log ++ [⟨claim, fate⟩] }

/-- The person a claim is about is opted out of its chore, under the dossier they have now. -/
def Desk.refusing (claim : Claimed) : Bool :=
  (choreOfSource claim.source).any fun chore =>
    chatbotOptoutHas m.store (m.heir claim.subject) chore

/-- An UPDATE of one row by its id: the row it changed, or `none` while it has to wait. -/
def Desk.update (id : ℕ) (meets : Row → Bool) (change : Row → Row) :
    Option (Desk × Option Row) :=
  match m.rows id with
  | none => some (m, none)
  | some row =>
    if meets row then
      if row.locked then none else some (m.setRow id (some (change row)), some row)
    else some (m, none)

def Desk.remove (id : ℕ) (meets : Row → Bool) : Option Desk :=
  match m.rows id with
  | none => some m
  | some row =>
    if meets row then if row.locked then none else some (m.setRow id none) else some m

inductive Frame
  -- chatbot_deferred_run_due
  | sweep (ns bot now : ℕ) (waiting taken : List ℕ)
  -- chatbot_deferred_presence_scan
  | expire (ns bot now : ℕ) (waiting : List ℕ)
  -- chatbot_deferred_deliver_presence
  | claimPresence (ns bot now id : ℕ)
  -- deferred_deliver_row
  | deliver (claim : Claimed)
  | find (claim : Claimed)
  | govern (claim : Claimed)
  | voice (claim : Claimed)
  | stopSeries (id : ℕ)
  | say (claim : Claimed)
  | unclaim (claim : Claimed)
  deriving DecidableEq

def Desk.claimAll (m : Desk) (now : ℕ) (taken : List ℕ) : Desk :=
  { m with rows := fun i =>
      if i ∈ taken then (m.rows i).map (Row.claimDue cal now) else m.rows i }

def Desk.deliveries (bot now : ℕ) (taken : List ℕ) : List Frame :=
  (taken.insertionSort (· ≤ ·)).filterMap fun i =>
    (m.rows i).map fun row => .deliver (row.claimed i bot now)

/-- One candidate of the sweep: skipped if it is locked, or if it no longer meets the WHERE. -/
def Desk.tryLock (ns bot now id : ℕ) (waiting taken : List ℕ) : Desk × List Frame :=
  match m.rows id with
  | none => (m, [.sweep ns bot now waiting taken])
  | some row =>
    if !row.locked && row.dueFor ns bot now then
      (m.setRow id (some { row with locked := true }), [.sweep ns bot now waiting (taken ++ [id])])
    else (m, [.sweep ns bot now waiting taken])

/-- One turn of a frame: the state after it and what is called in the frame's place, or `none`
while its statement has to wait for a lock. -/
def act (m : Desk) (yes : Bool) : Frame → Option (Desk × List Frame)
  | .sweep ns bot now waiting taken =>
    match waiting with
    | [] => some (m.claimAll cal now taken, m.deliveries bot now taken)
    | id :: waiting =>
      if taken.length < claimMax then some (m.tryLock ns bot now id waiting taken)
      else some (m.claimAll cal now taken, m.deliveries bot now taken)
  | .expire ns bot now waiting =>
    match waiting with
    | [] => some (m, [])
    | id :: waiting =>
      (m.update id (Row.lapsedFor ns bot now) fun row => { row with delivered := some now }).map
        fun
        | (m, none) => (m, [.expire ns bot now waiting])
        | (m, some row) =>
          (m.record (row.claimed id bot now) .expired, [.expire ns bot now waiting])
  | .claimPresence ns bot now id =>
    (m.update id (Row.presentFor ns bot) fun row => { row with delivered := some now }).map fun
      | (m, none) => (m, [])
      | (m, some row) => (m, [.deliver (row.claimed id bot now)])
  | .deliver claim =>
    if claim.expired then some (m.record claim .expired, [])
    else if (choreOfSource claim.source).any (chatbotOptoutHas m.store claim.dossier) then
      some (m.record claim .optedOut, [])
    else some (m, [.find claim])
  | .find claim => some (m, [if yes then .govern claim else .unclaim claim])
  | .govern claim =>
    some (m, [if sourceClass claim.source = .timed || yes then .voice claim else .unclaim claim])
  | .voice claim =>
    some (m,
      (if claim.kind = .run && !yes && claim.repeating then [.stopSeries claim.id] else []) ++
        [.say claim])
  | .stopSeries id => (m.remove id fun _ => true).map fun m => (m, [])
  | .say claim => some (m.record claim (.spoken (m.refusing claim)), [])
  | .unclaim claim =>
    if claim.repeating then some (m, [])
    else (m.update claim.id (fun _ => true) fun row => { row with delivered := none }).map
      fun (m, _) => (m, [])

structure Sys where
  desk : Desk
  threads : List (List Frame)

structure Order where
  ns : ℕ
  bot : ℕ
  dossier : ℕ
  source : Source
  kind : Kind
  repeatSecs : ℕ
  repeatDays : ℕ
  repeatMinute : ℕ
  tz : Bytes
  onPresence : Bool
  due : ℕ
  expires : Option ℕ
  deriving DecidableEq

def Order.row (o : Order) : Row where
  ns := o.ns
  bot := o.bot
  dossier := if 0 < o.dossier then some o.dossier else none
  subject := o.dossier
  source := o.source
  kind := o.kind
  repeatSecs := o.repeatSecs
  repeatDays := o.repeatDays
  repeatMinute := o.repeatMinute
  tz := o.tz
  onPresence := o.onPresence
  due := o.due
  expires := o.expires
  delivered := none
  locked := false

def Order.Accepted (store : Store) (o : Order) : Prop :=
  (o.dossier = 0 ∨ (dossierGet store o.dossier).isSome) ∧ o.repeatDays ≤ 127 ∧ o.repeatMinute ≤ 1439

instance (store : Store) (o : Order) : Decidable (o.Accepted store) :=
  inferInstanceAs (Decidable (_ ∧ _))

def Desk.select (meets : Row → Bool) : List ℕ :=
  (List.range m.nextRow).filter fun id => (m.rows id).any meets

def Desk.dueAt (id : ℕ) : ℕ := (m.rows id).elim 0 Row.due

/-- Any bot may tick at any time, and a tick may overlap another one of the same bot. -/
inductive Op
  | turn (i : ℕ) (yes : Bool)
  | sweep (ns bot now : ℕ) (order : List ℕ)
  | presenceScan (ns bot now : ℕ) (order : List ℕ)
  | sighting (ns bot now id : ℕ)
  | insert (o : Order)
  | cancel (id : ℕ)
  | meet (ns : ℕ) (sig : Signature) (label : Bytes)
  | optout (id : ℕ) (out : Bool) (req : Mask)
  | merge (survivor : ℕ) (absorbed : List ℕ)
  deriving DecidableEq

def Sys.spawn (s : Sys) (frame : Frame) : Sys := { s with threads := s.threads ++ [[frame]] }

/-- ON DELETE SET NULL, for the dossiers a merge deletes. -/
def Row.detach (absorbed : List ℕ) (row : Row) : Row :=
  { row with dossier := row.dossier.filter (· ∉ absorbed) }

/-- A merge, with what its deletions do to the rows here. -/
def Desk.merged (survivor : ℕ) (absorbed : List ℕ) (store : Store) : Desk :=
  { m with
    store := store
    heir := fun d => if m.heir d ∈ absorbed then survivor else m.heir d
    rows := fun i => (m.rows i).map (Row.detach absorbed) }

/-- The merge would have to change a row that a sweep has locked. -/
def Desk.blocked (absorbed : List ℕ) : Bool :=
  (List.range m.nextRow).any fun i =>
    (m.rows i).any fun row => row.locked && row.dossier.any (· ∈ absorbed)

def step (s : Sys) : Op → Option Sys
  | .turn i yes => (top s.threads i).bind fun (f, rest) =>
    (act cal s.desk yes f).map fun (m, calls) => ⟨m, s.threads.set i (calls ++ rest)⟩
  | .sweep ns bot now order =>
    if order.Perm (s.desk.select (Row.dueFor ns bot now)) ∧
        order.Pairwise (fun a b => s.desk.dueAt a ≤ s.desk.dueAt b) then
      some (s.spawn (.sweep ns bot now order []))
    else none
  | .presenceScan ns bot now order =>
    if order.Perm (s.desk.select (Row.lapsedFor ns bot now)) then
      some (s.spawn (.expire ns bot now order))
    else none
  | .sighting ns bot now id => some (s.spawn (.claimPresence ns bot now id))
  | .insert o =>
    if o.Accepted s.desk.store then
      some { s with desk := s.desk.insert o.row }
    else none
  | .cancel id => (s.desk.remove id fun row => row.delivered = none).map fun m => { s with desk := m }
  | .meet ns sig label =>
    some { s with desk := { s.desk with store := (dossierCreate s.desk.store ns sig label).1 } }
  | .optout id out req =>
    if (dossierGet s.desk.store id).isSome then
      some { s with desk := { s.desk with store := optoutApply s.desk.store id out req } }
    else none
  | .merge survivor absorbed =>
    if s.desk.blocked absorbed then none
    else (dossierMerge s.desk.store survivor absorbed).map fun store =>
      { s with desk := s.desk.merged survivor absorbed store }

def created : Sys where
  desk := ⟨Store.empty, id, fun _ => none, 0, []⟩
  threads := []

/-! What a frame carries. -/

def Frame.claim : Frame → Option Claimed
  | .deliver c | .find c | .govern c | .voice c | .say c | .unclaim c => some c
  | .sweep .. | .expire .. | .claimPresence .. | .stopSeries _ => none

def Frame.checked : Frame → Option Claimed
  | .find c | .govern c | .voice c | .say c => some c
  | _ => none

def Frame.taken : Frame → List ℕ
  | .sweep _ _ _ _ taken => taken
  | _ => []

def Frame.wants : Frame → Row → Bool
  | .sweep ns bot now _ _ => Row.dueFor ns bot now
  | _ => fun _ => false

def Frame.idle : Frame → Bool
  | .expire .. | .claimPresence .. | .stopSeries _ => true
  | _ => false

/-- The occurrence of its row that a claim took; a one-shot has a single one. -/
def Claimed.occurrence (claim : Claimed) : Option ℕ :=
  if claim.repeating then some claim.due else none

def Row.occurrence (row : Row) : Option ℕ := if row.repeating then some row.due else none

variable {m m' : Desk} {f g : Frame} {calls : List Frame} {claim : Claimed} {row : Row}
    {cal : Calendar} {ns bot now id : ℕ} {waiting taken : List ℕ} {yes : Bool} {meets : Row → Bool}

theorem checked_claim (passed : f.checked = some claim) : f.claim = some claim := by
  cases f <;> first | exact passed | cases passed

theorem claim_taken (has : f.claim = some claim) : f.taken = [] := by
  cases f <;> first | rfl | cases has

theorem idle_taken (idle : f.idle = true) : f.taken = [] := by
  cases f <;> first | rfl | cases idle

theorem idle_claim (idle : f.idle = true) : f.claim = none := by
  cases f <;> first | rfl | cases idle

/-! ## What the statements do -/

theorem dueFor_iff : row.dueFor ns bot now = true ↔
    row.bot = bot ∧ row.delivered = none ∧ row.due ≤ now ∧ row.ns = ns ∧ row.onPresence = false := by
  simp only [Row.dueFor, Bool.and_eq_true, decide_eq_true_eq, Bool.not_eq_true']
  tauto

theorem lapsedFor_iff : row.lapsedFor ns bot now = true ↔
    row.bot = bot ∧ row.delivered = none ∧ row.expired now = true ∧ row.ns = ns ∧
      row.onPresence = true := by
  simp only [Row.lapsedFor, Bool.and_eq_true, decide_eq_true_eq]
  tauto

theorem presentFor_iff : row.presentFor ns bot = true ↔
    row.bot = bot ∧ row.delivered = none ∧ row.ns = ns ∧ row.onPresence = true := by
  simp only [Row.presentFor, Bool.and_eq_true, decide_eq_true_eq]
  tauto

@[simp] theorem setRow_self (m : Desk) (id : ℕ) (row : Option Row) :
    (m.setRow id row).rows id = row := by
  change Function.update m.rows id row id = row
  rw [Function.update_self]

theorem setRow_of_ne {i : ℕ} (other : i ≠ id) (row : Option Row) :
    (m.setRow id row).rows i = m.rows i := by
  change Function.update m.rows id row i = m.rows i
  rw [Function.update_of_ne other]

theorem setRow_rel {R : ℕ → Option Row → Option Row → Prop} (refl : ∀ i row, R i row row)
    {after : Option Row} (here : R id (m.rows id) after) (i : ℕ) :
    R i (m.rows i) ((m.setRow id after).rows i) := by
  by_cases same : i = id
  · subst same
    rwa [setRow_self]
  · rw [setRow_of_ne same]
    exact refl i _

theorem update_cases {change : Row → Row} {found : Option Row}
    (ran : m.update id meets change = some (m', found)) :
    (m' = m ∧ found = none ∧ ∀ row, m.rows id = some row → meets row = false) ∨
    ∃ row, m.rows id = some row ∧ meets row = true ∧ row.locked = false ∧
      m' = m.setRow id (some (change row)) ∧ found = some row := by
  unfold Desk.update at ran
  cases there : m.rows id with
  | none =>
    rw [there] at ran
    cases ran
    exact .inl ⟨rfl, rfl, by simp⟩
  | some row =>
    rw [there] at ran
    dsimp only at ran
    split at ran
    next fits =>
      split at ran
      next => cases ran
      next free =>
        cases ran
        exact .inr ⟨row, rfl, fits, Bool.eq_false_iff.mpr free, rfl, rfl⟩
    next fails =>
      cases ran
      refine .inl ⟨rfl, rfl, fun other same => ?_⟩
      cases same
      exact Bool.eq_false_iff.mpr fails

theorem remove_cases (ran : m.remove id meets = some m') :
    m' = m ∨ ∃ row, m.rows id = some row ∧ row.locked = false ∧ m' = m.setRow id none := by
  revert ran
  fun_cases Desk.remove m id meets with
  | case2 => nofun
  | case3 row there _ free =>
    exact fun ran => .inr ⟨row, there, Bool.eq_false_iff.mpr free, (Option.some.inj ran).symm⟩
  | _ => exact fun ran => .inl (Option.some.inj ran).symm

inductive Turn (cal : Calendar) (m : Desk) : Frame → Desk → List Frame → Prop
  | commit {ns bot now : ℕ} {waiting taken : List ℕ} :
      Turn cal m (.sweep ns bot now waiting taken) (m.claimAll cal now taken)
        (m.deliveries bot now taken)
  | skip {ns bot now : ℕ} {waiting taken : List ℕ} (waiting' : List ℕ) :
      Turn cal m (.sweep ns bot now waiting taken) m [.sweep ns bot now waiting' taken]
  | lock {ns bot now id : ℕ} {waiting taken : List ℕ} {row : Row} (waiting' : List ℕ)
      (there : m.rows id = some row) (free : row.locked = false)
      (due : row.dueFor ns bot now = true) :
      Turn cal m (.sweep ns bot now waiting taken) (m.setRow id (some { row with locked := true }))
        [.sweep ns bot now waiting' (taken ++ [id])]
  -- a statement that finds no row
  | miss {f : Frame} {calls : List Frame} (idle : f.idle = true)
      (rest : ∀ g ∈ calls, g.idle = true) : Turn cal m f m calls
  | lapse {ns bot now id : ℕ} {waiting : List ℕ} {row : Row} (waiting' : List ℕ)
      (there : m.rows id = some row) (free : row.locked = false)
      (lapsed : row.lapsedFor ns bot now = true) :
      Turn cal m (.expire ns bot now waiting)
        ((m.setRow id (some { row with delivered := some now })).record
          (row.claimed id bot now) .expired) [.expire ns bot now waiting']
  | present {ns bot now id : ℕ} {row : Row} (there : m.rows id = some row)
      (free : row.locked = false) (present : row.presentFor ns bot = true) :
      Turn cal m (.claimPresence ns bot now id)
        (m.setRow id (some { row with delivered := some now })) [.deliver (row.claimed id bot now)]
  | stop {id : ℕ} {row : Row} (there : m.rows id = some row) (free : row.locked = false) :
      Turn cal m (.stopSeries id) (m.setRow id none) []
  -- a claim is given back: an occurrence of a repeat is skipped, a one-shot is pending again
  | drop {claim : Claimed} (skipped : claim.repeating = true ∨ m.rows claim.id = none) :
      Turn cal m (.unclaim claim) m []
  | putBack {claim : Claimed} {row : Row} (once : claim.repeating = false)
      (there : m.rows claim.id = some row) (free : row.locked = false) :
      Turn cal m (.unclaim claim) (m.setRow claim.id (some { row with delivered := none })) []
  | pass {f g : Frame} {claim : Claimed} (stops : List Frame) (before : f.claim = some claim)
      (after : g.claim = some claim) (idle : ∀ g ∈ stops, g.idle = true)
      (timely : f = .deliver claim → claim.expired = false)
      (checked : g.checked = some claim → f.checked = some claim ∨
        (choreOfSource claim.source).any (chatbotOptoutHas m.store claim.dossier) = false) :
      Turn cal m f m (stops ++ [g])
  | settle {f : Frame} {claim : Claimed} {fate : Fate} (before : f.claim = some claim)
      (said : ∀ refusing, fate = .spoken refusing → f = .say claim ∧ refusing = m.refusing claim) :
      Turn cal m f (m.record claim fate) []

theorem tryLock_turn : Turn cal m (.sweep ns bot now (id :: waiting) taken)
    (m.tryLock ns bot now id waiting taken).1 (m.tryLock ns bot now id waiting taken).2 := by
  unfold Desk.tryLock
  cases there : m.rows id with
  | none => exact .skip waiting
  | some row =>
    dsimp only
    split
    next fits =>
      obtain ⟨free, due⟩ := Bool.and_eq_true_iff.mp fits
      exact .lock waiting there ((Bool.not_eq_true' _).mp free) due
    next => exact .skip waiting

theorem deliver_turn (ran : act cal m yes (.deliver claim) = some (m', calls)) :
    Turn cal m (.deliver claim) m' calls := by
  rw [act] at ran
  split at ran
  next =>
    cases ran
    exact .settle rfl nofun
  next timely =>
    split at ran
    next =>
      cases ran
      exact .settle rfl nofun
    next clear =>
      cases ran
      exact .pass [] rfl rfl (by simp) (fun _ => Bool.eq_false_iff.mpr timely)
        fun _ => .inr (Bool.eq_false_iff.mpr clear)

theorem unclaim_turn (ran : act cal m yes (.unclaim claim) = some (m', calls)) :
    Turn cal m (.unclaim claim) m' calls := by
  rw [act] at ran
  split at ran
  next again =>
    cases ran
    exact .drop (.inl again)
  next once =>
    obtain ⟨⟨n, found⟩, updated, same⟩ := Option.map_eq_some_iff.mp ran
    cases same
    rcases update_cases updated with ⟨rfl, -, missing⟩ | ⟨row, there, -, free, rfl, -⟩
    · refine .drop (.inr (Option.eq_none_iff_forall_ne_some.mpr fun row there => ?_))
      exact absurd (missing row there) (by simp)
    · exact .putBack (Bool.eq_false_iff.mpr once) there free

theorem act_turn (ran : act cal m yes f = some (m', calls)) : Turn cal m f m' calls := by
  cases f with
  | sweep ns bot now waiting taken =>
    cases waiting with
    | nil =>
      cases ran
      exact .commit
    | cons id waiting =>
      rw [act] at ran
      split at ran
      next =>
        have same := Option.some.inj ran
        have turn : Turn cal m _ (m.tryLock ns bot now id waiting taken).1 _ := tryLock_turn
        rwa [same] at turn
      next =>
        cases ran
        exact .commit
  | expire ns bot now waiting =>
    cases waiting with
    | nil =>
      cases ran
      exact .miss rfl (by simp)
    | cons id waiting =>
      obtain ⟨⟨n, found⟩, updated, same⟩ := Option.map_eq_some_iff.mp ran
      rcases update_cases updated with ⟨rfl, rfl, -⟩ | ⟨row, there, lapsed, free, rfl, rfl⟩
      · cases same
        exact .miss rfl (by simp [Frame.idle])
      · cases same
        exact .lapse waiting there free lapsed
  | claimPresence ns bot now id =>
    obtain ⟨⟨n, found⟩, updated, same⟩ := Option.map_eq_some_iff.mp ran
    rcases update_cases updated with ⟨rfl, rfl, -⟩ | ⟨row, there, present, free, rfl, rfl⟩
    · cases same
      exact .miss rfl (by simp)
    · cases same
      exact .present there free present
  | stopSeries id =>
    obtain ⟨n, removed, same⟩ := Option.map_eq_some_iff.mp ran
    cases same
    rcases remove_cases removed with rfl | ⟨row, there, free, rfl⟩
    · exact .miss rfl (by simp)
    · exact .stop there free
  | deliver claim => exact deliver_turn ran
  | unclaim claim => exact unclaim_turn ran
  | find claim | govern claim =>
    cases ran
    refine .pass [] rfl ?_ (by simp) nofun fun _ => .inl rfl
    split <;> rfl
  | voice claim =>
    cases ran
    refine .pass _ rfl rfl (fun g mem => ?_) nofun fun _ => .inl rfl
    split at mem
    · rw [List.mem_singleton.mp mem]
      rfl
    · cases mem
  | say claim =>
    cases ran
    exact .settle rfl fun refusing same => ⟨rfl, (Fate.spoken.inj same).symm⟩

end BotManager.DeferredModel
