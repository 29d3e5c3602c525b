import Mathlib.Data.List.Sort
import BotManager.DownloadModel

/-! An orderly restart of the downloader: the teardown writes the jobs it finds unfinished, the
next start resets the orphans and loads what it selects. The teardown writes them as paused, and
neither the reset nor the load looks at paused rows. -/

namespace BotManager.DownloadRestart
open List DownloadModel

section Database

def stateStr : JobState → String
  | .queued => "queued"
  | .running => "running"
  | .paused => "paused"
  | .done => "done"
  | .failed => "failed"

def stateFromStr (s : String) : JobState :=
  if s = "running" then .running
  else if s = "paused" then .paused
  else if s = "done" then .done
  else if s = "failed" then .failed
  else .queued

structure Row where
  id : ℕ
  marketId : ℕ
  kind : String
  oldestTs : Option ℤ
  newestTs : Option ℤ
  state : String
  cursorAfter : Option ℤ
  cursorEndTs : Option ℤ
  pagesFetched : ℕ
  rowsWritten : ℕ
  lastErr : Option String
  deriving DecidableEq

def written (j : Job) (row : Row) : Row :=
  { row with
    state := stateStr j.state
    cursorAfter := some j.cursorAfter
    pagesFetched := j.pagesFetched
    rowsWritten := j.rowsWritten
    lastErr := if j.lastErr = "" then none else some j.lastErr }

def persist (db : List Row) (j : Job) : List Row :=
  db.map fun row => if row.id = j.id then written j row else row

def resetOrphanJobs (db : List Row) : List Row :=
  db.map fun row =>
    if row.state = "running" then { row with state := "queued", lastErr := none } else row

def loadJob (row : Row) : Job :=
  let state := stateFromStr row.state
  { id := row.id
    marketId := row.marketId
    oldestTs := row.oldestTs.getD 0
    newestTs := row.newestTs.getD 0
    state := if state = .running then .queued else state
    cursorAfter := row.cursorAfter.getD 0
    cursorEndTs := row.cursorEndTs.getD 0
    pagesFetched := row.pagesFetched
    rowsWritten := row.rowsWritten
    consecutiveErrors := 0
    lastErr := row.lastErr.getD ""
    consecutiveEmpties := 0
    inFlight := false
    candleTableEnsured := false }

def selected (row : Row) : Bool :=
  (row.state = "queued" || row.state = "running") && row.kind = "candles"

def loadJobs (db : List Row) : List Job :=
  (((db.filter selected).insertionSort fun a b => a.id ≤ b.id).take jobsMax).map loadJob

end Database

section Restart

def Unfinished (j : Job) : Prop := j.state = .queued ∨ j.state = .running

instance (j : Job) : Decidable (Unfinished j) := inferInstanceAs (Decidable (_ ∨ _))

def pause (j : Job) : Job := if Unfinished j then { j with state := .paused } else j

variable (jobs : List Job) (db : List Row)

def destroy : List Row :=
  ((jobs.map pause).filter fun j => j.state = .paused).foldl persist db

def restart : List Job :=
  loadJobs (resetOrphanJobs (destroy jobs db))

/-- Every unfinished job is loaded once, runnable, with its floor and its cursor. -/
def Survives : Prop :=
  ∀ j ∈ jobs, Unfinished j → ∃ k, (restart jobs db).filter (fun k => k.id = j.id) = [k] ∧
    Unfinished k ∧ k.oldestTs = j.oldestTs ∧ k.cursorEndTs = j.cursorEndTs

def AllPaused (id : ℕ) : Prop := ∀ row ∈ db, row.id = id → row.state = "paused"

theorem persist_paused {db : List Row} {j : Job} (paused : j.state = .paused) (id : ℕ)
    (before : AllPaused db id ∨ j.id = id) : AllPaused (persist db j) id := by
  intro row mem same
  obtain ⟨old, member, rfl⟩ := mem_map.mp mem
  by_cases own : old.id = j.id
  · rw [if_pos own]
    show stateStr j.state = "paused"
    rw [paused]
    rfl
  · rw [if_neg own] at same ⊢
    rcases before with all | equal
    · exact all old member same
    · exact absurd (same.trans equal.symm) own

theorem foldl_paused {paused : List Job} {id : ℕ} (all : ∀ k ∈ paused, k.state = .paused)
    (db : List Row) (before : AllPaused db id ∨ ∃ k ∈ paused, k.id = id) :
    AllPaused (paused.foldl persist db) id := by
  induction paused generalizing db with
  | nil =>
    rcases before with done | ⟨k, never, -⟩
    · exact done
    · exact absurd never not_mem_nil
  | cons k rest ih =>
    have here := all k mem_cons_self
    refine ih (fun k mem => all k (mem_cons_of_mem _ mem)) _ ?_
    rcases before with done | ⟨l, member, own⟩
    · exact .inl (persist_paused here id (.inl done))
    · rcases mem_cons.mp member with rfl | behind
      · exact .inl (persist_paused here id (.inr own))
      · exact .inr ⟨l, behind, own⟩

theorem destroy_paused {j : Job} (mem : j ∈ jobs)
    (unfinished : Unfinished j) : AllPaused (destroy jobs db) j.id := by
  have paused : pause j = { j with state := .paused } := if_pos unfinished
  have listed : pause j ∈ (jobs.map pause).filter fun j => j.state = .paused := by
    refine mem_filter.mpr ⟨mem_map_of_mem mem, ?_⟩
    rw [paused]
    rfl
  refine foldl_paused (fun k mem => ?_) db (.inr ⟨pause j, listed, ?_⟩)
  · exact of_decide_eq_true (mem_filter.mp mem).2
  · rw [paused]

theorem mem_loadJobs {db : List Row} {k : Job} (mem : k ∈ loadJobs (resetOrphanJobs db)) :
    ∃ row ∈ db, row.id = k.id ∧ row.state ≠ "paused" := by
  obtain ⟨row, taken, rfl⟩ := mem_map.mp mem
  have listed := (mem_insertionSort _).mp (mem_of_mem_take taken)
  obtain ⟨member, chosen⟩ := mem_filter.mp listed
  obtain ⟨old, found, rfl⟩ := mem_map.mp member
  refine ⟨old, found, ?_, fun paused => ?_⟩
  · show old.id = (if _ then _ else _ : Row).id
    split_ifs <;> rfl
  · rw [if_neg (by rw [paused]; decide)] at chosen
    simp [selected, paused] at chosen

/-- The unfinished jobs survive a restart only where there are none. -/
theorem restart_survives_iff :
    Survives jobs db ↔ ∀ j ∈ jobs, ¬ Unfinished j := by
  constructor
  · intro survives j mem unfinished
    obtain ⟨k, once, -⟩ := survives j mem unfinished
    have loaded : k ∈ (restart jobs db).filter fun k => k.id = j.id := by
      rw [once]
      exact mem_singleton_self k
    obtain ⟨member, same⟩ := mem_filter.mp loaded
    obtain ⟨row, found, own, state⟩ := mem_loadJobs member
    have same : k.id = j.id := of_decide_eq_true same
    exact state (destroy_paused jobs db mem unfinished row found (own.trans same))
  · intro none j mem unfinished
    exact absurd unfinished (none j mem)

def sampleJob : Job := { newJob 7 1 0 36000 with state := .running, cursorEndTs := 18000 }

def sampleRow : Row := ⟨7, 1, "candles", none, some 36000, "queued", some 0, none, 0, 0, none⟩

/-- A running job with one page behind it is not loaded again: its row stays paused, without a
cursor. -/
theorem not_restart_survives :
    Unfinished sampleJob ∧ restart [sampleJob] [sampleRow] = [] ∧
      (destroy [sampleJob] [sampleRow]).map (fun row => (row.state, row.cursorEndTs)) =
        [("paused", none)] ∧ ¬ Survives [sampleJob] [sampleRow] := by
  refine ⟨by decide, by decide +kernel, by decide +kernel, fun survives => ?_⟩
  obtain ⟨k, once, -⟩ := survives sampleJob mem_cons_self (by decide)
  have none : restart [sampleJob] [sampleRow] = [] := by decide +kernel
  rw [none] at once
  cases once

end Restart

end BotManager.DownloadRestart
