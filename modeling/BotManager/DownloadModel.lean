import Mathlib.Data.Int.Notation
import Mathlib.Data.List.Basic

/-! The download jobs of whenmoon (dl_jobtable.c, dl_candles.c). Timestamps are seconds, with 0
for the empty text, which is what `wm_dl_tstz_to_s` reads from it. -/

namespace BotManager.DownloadModel

section Job

inductive JobState
  | queued
  | running
  | paused
  | done
  | failed
  deriving DecidableEq

structure Job where
  id : ℕ
  marketId : ℕ
  oldestTs : ℤ
  newestTs : ℤ
  state : JobState
  cursorAfter : ℤ
  cursorEndTs : ℤ
  pagesFetched : ℕ
  rowsWritten : ℕ
  consecutiveErrors : ℕ
  lastErr : String
  consecutiveEmpties : ℕ
  inFlight : Bool
  candleTableEnsured : Bool
  deriving DecidableEq

def jobsMax : ℕ := 4096
def pageRetryMax : ℕ := 5
def windowBuckets : ℤ := 300
def emptyRunMax : ℕ := 12
def gran1m : ℤ := 60

def newJob (id marketId : ℕ) (oldestTs newestTs : ℤ) : Job :=
  { id := id
    marketId := marketId
    oldestTs := oldestTs
    newestTs := newestTs
    state := .queued
    cursorAfter := 0
    cursorEndTs := newestTs
    pagesFetched := 0
    rowsWritten := 0
    consecutiveErrors := 0
    lastErr := ""
    consecutiveEmpties := 0
    inFlight := false
    candleTableEnsured := false }

end Job

section Page

structure Window where
  startS : ℤ
  endS : ℤ
  deriving DecidableEq

def alignDown (v step : ℤ) : ℤ := if step ≤ 0 then v else v.tdiv step * step

/-- The window `wm_dl_candles_dispatch_one` asks for at the wall clock `now`. -/
def window (now : ℤ) (j : Job) : Window :=
  let endS := if j.cursorEndTs ≤ 0 then now else j.cursorEndTs
  let endS := alignDown endS gran1m
  let startS := endS - windowBuckets * gran1m
  ⟨if startS < 0 then 0 else startS, endS⟩

inductive PageResult
  | error (msg : String)
  | page (count inserted : ℕ)
  deriving DecidableEq

/-- The failure accounting that a page error and a failed dispatch share. -/
def failOnce (msg : String) (j : Job) : Job :=
  { j with
    consecutiveErrors := j.consecutiveErrors + 1
    lastErr := msg
    state := if pageRetryMax ≤ j.consecutiveErrors + 1 then .failed else j.state }

/-- The update of a running job in `wm_dl_candles_on_page`. -/
def onPage (w : Window) (j : Job) : PageResult → Job
  | .error msg => failOnce msg j
  | .page count inserted =>
    let empties := if count = 0 then j.consecutiveEmpties + 1 else 0
    { j with
      pagesFetched := j.pagesFetched + 1
      rowsWritten := j.rowsWritten + inserted
      consecutiveErrors := 0
      lastErr := ""
      cursorEndTs := w.startS
      consecutiveEmpties := empties
      state :=
        if 0 < j.oldestTs ∧ w.startS ≤ j.oldestTs then .done
        else if w.startS ≤ 0 then .done
        else if emptyRunMax ≤ empties then .done
        else j.state }

end Page

section Table

structure Table where
  jobs : List Job
  inFlightCount : ℕ
  maxConcurrent : ℕ
  deriving DecidableEq

variable (t : Table)

def find (id : ℕ) : Option Job := t.jobs.find? fun j => decide (j.id = id)

def update (id : ℕ) (f : Job → Job) : Table :=
  { t with jobs := t.jobs.map fun j => if j.id = id then f j else j }

/-- The job `wm_dl_jobtable_pick_next` returns; a queued one is promoted. -/
def pickNext : Option ℕ :=
  let running := t.jobs.countP fun j => decide (j.state = .running ∧ j.inFlight = true)
  if t.maxConcurrent ≤ running then none
  else
    match t.jobs.find? fun j => decide (j.state = .running ∧ j.inFlight = false) with
    | some j => some j.id
    | none => (t.jobs.find? fun j => decide (j.state = .queued)).map fun j => j.id

/-- The locked section of `wm_dl_kick` for the job it picked. -/
def takeSlot (id : ℕ) : Table :=
  { update t id fun j => { j with state := .running, inFlight := true } with
    inFlightCount := t.inFlightCount + 1 }

def clearInFlight (j : Job) : Table :=
  if j.inFlight then
    { update t j.id fun j => { j with inFlight := false } with
      inFlightCount := t.inFlightCount - 1 }
  else t

def Completed (j : Job) : Prop := (j.state = .done ∨ j.state = .failed) ∧ j.inFlight = false

instance (j : Job) : Decidable (Completed j) := inferInstanceAs (Decidable (_ ∧ _))

def removeCompleted : Table :=
  { t with jobs := t.jobs.filter fun j => decide (¬ Completed j) }

end Table

end BotManager.DownloadModel
