import Mathlib.Data.Int.Order.Lemmas
import Mathlib.Data.List.Dedup
import BotManager.DownloadModel
import BotManager.StepRun

/-! The pages of one download job. The windows it has advanced over tile the time down from its
newest timestamp; they hold what the exchange returned as long as no insert of new candles
fails, since a failed insert is counted as no rows and the job goes on. -/

namespace BotManager.DownloadTiles
open List DownloadModel StepRun

section Steps

inductive Outcome
  | error (msg : String)
  | candles (ts : List ℤ) (insertOk : Bool)
  deriving DecidableEq

/-- `stored` is the candle table, `coverage` the windows recorded as covered, `advanced` the
windows the cursor went over, the latest page first, and `returned` the candles the exchange
gave inside a window that was advanced or recorded. -/
structure Sys where
  job : Job
  stored : List ℤ
  coverage : List Window
  advanced : List Window
  returned : List ℤ
  deriving DecidableEq

/-- A page at the wall clock `now`; `cancelled` if the job is cancelled while its candles are
being stored. -/
inductive Op
  | page (now : ℤ) (out : Outcome)
  | cancelled (now : ℤ) (out : Outcome)
  deriving DecidableEq

def insertPage (stored : List ℤ) (ts : List ℤ) (ok : Bool) : List ℤ × ℕ :=
  if ts = [] then (stored, 0)
  else if ok then
    let new := (ts.filter fun c => c ∉ stored).dedup
    (stored ++ new, new.length)
  else (stored, 0)

def inside (w : Window) (ts : List ℤ) : List ℤ :=
  ts.filter fun c => decide (w.startS ≤ c ∧ c < w.endS)

def store (s : Sys) (w : Window) : Outcome → Sys × PageResult
  | .error msg => (s, .error msg)
  | .candles ts ok =>
    let rows := insertPage s.stored ts ok
    ({ s with
      stored := rows.1
      coverage := w :: s.coverage
      returned := s.returned ++ inside w ts }, .page ts.length rows.2)

def advance (advanced : List Window) (w : Window) : PageResult → List Window
  | .error _ => advanced
  | .page _ _ => w :: advanced

def step (s : Sys) : Op → Option Sys
  | .page now out =>
    if s.job.state = .running then
      let w := window now s.job
      let r := store s w out
      some { r.1 with
        job := onPage w s.job r.2
        advanced := advance s.advanced w r.2 }
    else none
  | .cancelled now out =>
    if s.job.state = .running then
      some { (store s (window now s.job) out).1 with
        job := { s.job with state := .failed, lastErr := "cancelled by admin" } }
    else none

def start (id marketId : ℕ) (oldestTs newestTs : ℤ) (stored : List ℤ) : Sys :=
  ⟨{ newJob id marketId oldestTs newestTs with state := .running }, stored, [], [], []⟩

end Steps

section Tiles

inductive Tiles (top : ℤ) : List Window → ℤ → Prop
  | nil : Tiles top [] top
  | cons {w : Window} {older : List Window} (above : Tiles top older w.endS)
      (proper : w.startS ≤ w.endS) : Tiles top (w :: older) w.startS

variable {bottom top now : ℤ} {s : Sys}

theorem Tiles.bottom_of_nil (tiles : Tiles top [] bottom) : bottom = top := by
  cases tiles
  rfl

theorem Tiles.above {w : Window} {older : List Window} (tiles : Tiles top (w :: older) bottom) :
    Tiles top older w.endS := by
  cases tiles
  assumption

theorem Tiles.covers {ws : List Window} (tiles : Tiles top ws bottom) {x : ℤ} (low : bottom ≤ x)
    (high : x < top) : ∃ w ∈ ws, w.startS ≤ x ∧ x < w.endS := by
  induction tiles with
  | nil => omega
  | @cons w older above proper ih =>
    by_cases inside : x < w.endS
    · exact ⟨w, mem_cons_self, low, inside⟩
    · obtain ⟨v, mem, here⟩ := ih (by omega)
      exact ⟨v, mem_cons_of_mem _ mem, here⟩

def newestMinute (s : Sys) : ℤ := alignDown s.job.newestTs gran1m

structure NeverSkips (s : Sys) : Prop where
  tiles : ∃ bottom, Tiles (newestMinute s) s.advanced bottom
  stored : ∀ c ∈ s.returned, c ∈ s.stored
  floor : s.job.state = .done → 0 < s.job.oldestTs → s.job.cursorEndTs ≤ s.job.oldestTs →
    ∀ x, s.job.oldestTs ≤ x → x < newestMinute s → ∃ w ∈ s.advanced, w.startS ≤ x ∧ x < w.endS

/-- The wall clock has left the first minute of the epoch. -/
def Dated (_ : Sys) : Op → Prop
  | .page now _ => gran1m ≤ now
  | .cancelled now _ => gran1m ≤ now

/-- An insert that fails had nothing new to store. -/
def Stores (s : Sys) (now : ℤ) : Outcome → Prop
  | .candles ts false => ∀ c ∈ inside (window now s.job) ts, c ∈ s.stored
  | _ => True

/-- The window of a page that is no error ends at the cursor and not at the clock. -/
def Anchored (s : Sys) : Outcome → Prop
  | .candles _ _ => 0 < s.job.cursorEndTs
  | .error _ => True

def Keeps (s : Sys) : Op → Prop
  | .page now out => Anchored s out ∧ Stores s now out
  | .cancelled now out => Stores s now out

instance (s : Sys) (now : ℤ) (out : Outcome) : Decidable (Stores s now out) := by
  unfold Stores
  split <;> infer_instance

instance (s : Sys) (out : Outcome) : Decidable (Anchored s out) := by
  unfold Anchored
  split <;> infer_instance

instance (s : Sys) (op : Op) : Decidable (Dated s op) := by
  unfold Dated
  split <;> infer_instance

instance (s : Sys) (op : Op) : Decidable (Keeps s op) := by
  unfold Keeps
  split <;> infer_instance

end Tiles

section Pages

theorem alignDown_eq {v : ℤ} (nonneg : 0 ≤ v) : alignDown v gran1m = v / 60 * 60 := by
  unfold alignDown gran1m
  rw [if_neg (by omega), Int.tdiv_eq_ediv_of_nonneg nonneg]

theorem window_spec (now : ℤ) {j : Job} (pos : 0 < j.cursorEndTs) :
    (window now j).endS = alignDown j.cursorEndTs gran1m ∧
      (window now j).startS ≤ (window now j).endS ∧ 0 ≤ (window now j).startS ∧
      alignDown (window now j).startS gran1m = (window now j).startS := by
  have endS : (window now j).endS = alignDown j.cursorEndTs gran1m := by
    unfold window
    dsimp only
    rw [if_neg (by omega)]
  have minute := alignDown_eq pos.le
  have startS : (window now j).startS =
      if (window now j).endS - 18000 < 0 then 0 else (window now j).endS - 18000 := rfl
  have nonneg : 0 ≤ (window now j).startS := by
    rw [startS]
    split_ifs <;> omega
  refine ⟨endS, ?_, nonneg, ?_⟩
  · rw [startS]
    split_ifs <;> omega
  · rw [alignDown_eq nonneg, startS]
    split_ifs
    · rfl
    · omega

structure Inv (s : Sys) (bottom : ℤ) : Prop where
  tiles : Tiles (newestMinute s) s.advanced bottom
  cursor : alignDown s.job.cursorEndTs gran1m = bottom
  running : s.job.state = .running → s.advanced ≠ [] → 0 < s.job.cursorEndTs
  done : s.job.state = .done → s.job.cursorEndTs = bottom
  stored : ∀ c ∈ s.returned, c ∈ s.stored

theorem Inv.neverSkips (inv : Inv s bottom) : NeverSkips s where
  tiles := ⟨bottom, inv.tiles⟩
  stored := inv.stored
  floor := fun done _ floor x low high => by
    have cursor := inv.done done
    exact inv.tiles.covers (by omega) high

theorem insertPage_failed : insertPage stored ts false = (stored, 0) := by
  unfold insertPage
  rw [if_neg Bool.false_ne_true, ite_self]

theorem store_stored {out : Outcome} (keeps : Stores s now out)
    (stored : ∀ c ∈ s.returned, c ∈ s.stored) :
    ∀ c ∈ (store s (window now s.job) out).1.returned,
      c ∈ (store s (window now s.job) out).1.stored := by
  cases out with
  | error msg => exact stored
  | candles ts ok =>
    have kept : ∀ c ∈ s.stored, c ∈ (insertPage s.stored ts ok).1 := by
      intro c mem
      unfold insertPage
      split_ifs
      · exact mem
      · exact mem_append_left _ mem
      · exact mem
    intro c mem
    rcases mem_append.mp mem with old | new
    · exact kept c (stored c old)
    · have given : c ∈ ts := (mem_filter.mp new).1
      cases ok with
      | false => exact kept c (keeps c new)
      | true =>
        by_cases known : c ∈ s.stored
        · exact kept c known
        · show c ∈ (insertPage s.stored ts true).1
          unfold insertPage
          rw [if_neg (ne_nil_of_mem given), if_pos rfl]
          refine mem_append_right _ (mem_dedup.mpr (mem_filter.mpr ?_))
          exact ⟨given, decide_eq_true known⟩

theorem onPage_error (w : Window) (msg : String) (running : j.state = .running) :
    onPage w j (.error msg) = failOnce msg j ∧ (failOnce msg j).state ≠ .done := by
  refine ⟨rfl, ?_⟩
  unfold failOnce
  dsimp only
  split_ifs
  · decide
  · rw [running]
    decide

theorem onPage_page (j : Job) (count inserted : ℕ) :
    (onPage w j (.page count inserted)).cursorEndTs = w.startS ∧
      ((onPage w j (.page count inserted)).state = .running → 0 < w.startS) := by
  refine ⟨rfl, fun running => ?_⟩
  by_contra low
  have done : (onPage w j (.page count inserted)).state = .done := by
    unfold onPage
    dsimp only
    by_cases floor : 0 < j.oldestTs ∧ w.startS ≤ j.oldestTs
    · rw [if_pos floor]
    · rw [if_neg floor, if_pos (by omega)]
  rw [done] at running
  cases running

end Pages

variable {t s : Sys} {op : Op}

section Runs

theorem inv_error (inv : Inv s bottom) (running : s.job.state = .running) :
    Inv { s with job := onPage w s.job (.error msg) } bottom := by
  have notDone := (onPage_error w msg running).2
  exact { inv with
    running := fun _ => inv.running running
    done := fun done => absurd done notDone }

theorem inv_page (inv : Inv s bottom) {ts : List ℤ} {ok : Bool} (anchored : 0 < s.job.cursorEndTs)
    (keeps : Stores s now (.candles ts ok))
    (head : step s (.page now (.candles ts ok)) = some t) : Inv t (window now s.job).startS := by
  obtain ⟨-, rfl⟩ := fired head
  obtain ⟨endS, proper, nonneg, minute⟩ := window_spec now anchored
  have above : Tiles (newestMinute s) s.advanced (window now s.job).endS := by
    rw [endS, inv.cursor]
    exact inv.tiles
  exact {
    tiles := .cons above proper
    cursor := minute
    running := fun goesOn _ => (onPage_page _ _ _).2 goesOn
    done := fun _ => rfl
    stored := store_stored keeps inv.stored }

theorem inv_step (inv : ∃ bottom, Inv s bottom)
    (keeps : Keeps s op) (head : step s op = some t) : ∃ bottom, Inv t bottom := by
  obtain ⟨bottom, inv⟩ := inv
  cases op with
  | page now out =>
    have running := (fired head).1
    cases out with
    | error msg =>
      obtain ⟨-, rfl⟩ := fired head
      exact ⟨bottom, inv_error inv running⟩
    | candles ts ok => exact ⟨_, inv_page inv keeps.1 keeps.2 head⟩
  | cancelled now out =>
    obtain ⟨-, rfl⟩ := fired head
    have frame : (store s (window now s.job) out).1.advanced = s.advanced := by
      cases out <;> rfl
    refine ⟨bottom, ?_, inv.cursor, nofun, nofun, store_stored keeps inv.stored⟩
    show Tiles (newestMinute s) (store s (window now s.job) out).1.advanced bottom
    rw [frame]
    exact inv.tiles

theorem anchored_of_tiles (inv : Inv s bottom) (running : s.job.state = .running)
    (dated : gran1m ≤ now) {lower : ℤ}
    (tiles : Tiles (newestMinute s) (window now s.job :: s.advanced) lower) :
    0 < s.job.cursorEndTs := by
  by_contra unset
  have fresh : s.advanced = [] := by
    by_contra some
    exact unset (inv.running running some)
  have top : bottom = newestMinute s := (fresh ▸ inv.tiles).bottom_of_nil
  have first : (window now s.job).endS = newestMinute s := (fresh ▸ tiles).above.bottom_of_nil
  have clock : (window now s.job).endS = alignDown now gran1m := by
    unfold window
    dsimp only
    rw [if_pos (by omega)]
  have late : 60 ≤ alignDown now gran1m := by
    unfold gran1m at dated
    rw [alignDown_eq (by omega)]
    omega
  have low : alignDown s.job.cursorEndTs gran1m ≤ 0 := by
    unfold alignDown gran1m
    rw [if_neg (by omega)]
    have := Int.tdiv_nonneg (a := -s.job.cursorEndTs) (b := 60) (by omega) (by omega)
    rw [Int.neg_tdiv] at this
    omega
  have cursor := inv.cursor
  omega

theorem keeps_of_neverSkips (inv : ∃ bottom, Inv s bottom)
    (dated : Dated s op) (head : step s op = some t) (holds : NeverSkips t) : Keeps s op := by
  obtain ⟨bottom, inv⟩ := inv
  -- a failed insert leaves the table as it was, with the page among what was returned
  have stores : ∀ now out, (store s (window now s.job) out).1.returned = t.returned →
      (store s (window now s.job) out).1.stored = t.stored → Stores s now out := by
    intro now out returned stored
    match out with
    | .error _ | .candles _ true => exact trivial
    | .candles ts false =>
      intro c mem
      have there := holds.stored c (returned ▸ mem_append_right _ mem)
      rw [← stored] at there
      change c ∈ (insertPage s.stored ts false).1 at there
      rwa [insertPage_failed] at there
  cases op with
  | page now out =>
    obtain ⟨running, rfl⟩ := fired head
    refine ⟨?_, stores now out rfl rfl⟩
    cases out with
    | error msg => exact trivial
    | candles ts ok =>
      obtain ⟨lower, tiles⟩ := holds.tiles
      exact anchored_of_tiles inv running dated tiles
  | cancelled now out =>
    obtain ⟨running, rfl⟩ := fired head
    exact stores now out rfl rfl

theorem inv_start (id marketId : ℕ) (oldestTs newestTs : ℤ) (stored : List ℤ) :
    ∃ bottom, Inv (start id marketId oldestTs newestTs stored) bottom := by
  refine ⟨_, .nil, rfl, fun _ some => absurd rfl some, nofun, ?_⟩
  intro c mem
  cases mem

theorem never_skips_iff (id marketId : ℕ) (oldestTs newestTs : ℤ) (stored : List ℤ)
    {ops : List Op} {t : Sys}
    (run : Run step Dated (start id marketId oldestTs newestTs stored) ops t) :
    Along step NeverSkips (start id marketId oldestTs newestTs stored) ops ↔
      Run step (fun s op => Dated s op ∧ Keeps s op)
        (start id marketId oldestTs newestTs stored) ops t := by
  apply run.along_iff _ _ keeps_of_neverSkips
  · exact inv_start id marketId oldestTs newestTs stored
  · rintro s ⟨bottom, inv⟩
    exact inv.neverSkips
  · intro s op u inv _ keeps head
    exact inv_step inv keeps head

def twoPages : List Op :=
  [.page 90000 (.error "timeout"), .page 90000 (.candles [71940, 54000] true),
    .page 90000 (.candles [53940] true)]

theorem never_skips_two_pages :
    ∃ t, Run step Dated (start 1 1 36000 72030 []) twoPages t ∧ t.job.state = .done ∧
      t.advanced = [⟨36000, 54000⟩, ⟨54000, 72000⟩] ∧
      Along step NeverSkips (start 1 1 36000 72030 []) twoPages := by
  have kept : Run step (fun s op => Dated s op ∧ Keeps s op) (start 1 1 36000 72030 []) twoPages _ :=
    runWhen_get (by decide +kernel)
  have run := kept.mono fun _ _ both => both.1
  exact ⟨_, run, by decide +kernel, by decide +kernel, (never_skips_iff 1 1 36000 72030 [] run).mpr kept⟩

/-- One page whose insert fails: its candle is lost, the window counts as covered and the job
is done. -/
theorem not_never_skips :
    ¬ ∀ (id marketId : ℕ) (oldestTs newestTs : ℤ) (stored : List ℤ) (ops : List Op) (t : Sys),
      Run step Dated (start id marketId oldestTs newestTs stored) ops t → NeverSkips t := by
  intro always
  have run : Run step Dated (start 1 1 54000 72000 []) [.page 90000 (.candles [71940] false)] _ :=
    runWhen_get (by decide +kernel)
  have holds := always _ _ _ _ _ _ _ run
  exact absurd (holds.stored 71940 (by decide +kernel)) (by decide +kernel)

end Runs

end BotManager.DownloadTiles
