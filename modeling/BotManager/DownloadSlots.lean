import Mathlib.Data.List.Nodup
import BotManager.DownloadModel
import BotManager.FramePool
import BotManager.StepRun

/-! The slots of the download jobs: one page request at a time for a job. Every locked section
of the dispatcher and of the page callback is one turn of a thread. A submit that fails runs
the callback on the thread of the dispatch, above the frames that are still to come. -/

namespace BotManager.DownloadSlots
open List DownloadModel FramePool StepRun

section Steps

/-- What a thread still has to run. `kickClear` is the clear of `wm_dl_kick` behind a dispatch
whose failure has already ended the request; `clear` is the one that ends it. -/
inductive Frame
  | append (j : Job)
  | kick
  | dispatch (id : ℕ)
  | recordError (id : ℕ)
  | page1 (id : ℕ) (w : Window) (res : PageResult)
  | page4 (id : ℕ) (w : Window) (res : PageResult)
  | persist (id : ℕ)
  | clear (id : ℕ)
  | kickClear (id : ℕ)
  | reap
  | drop (id : ℕ)
  deriving DecidableEq

inductive Choice
  | ensureFails
  | airborne (now : ℤ)
  | submitFails (now : ℤ) (msg : String)
  deriving DecidableEq

/-- `airborne` are the requests at the exchange; `freed` is set by the first use of a job that
has left the list. -/
structure Shared where
  table : Table
  airborne : List (ℕ × Window)
  freed : Bool
  deriving DecidableEq

structure Sys extends Shared where
  nextId : ℕ
  threads : List (List Frame)
  deriving DecidableEq

def start (maxConcurrent : ℕ) : Sys := ⟨⟨⟨[], 0, maxConcurrent⟩, [], false⟩, 0, []⟩

def deref (sh : Shared) (id : ℕ) (f : Job → Shared × List Frame) : Shared × List Frame :=
  match find sh.table id with
  | none => ({ sh with freed := true }, [])
  | some j => f j

def dispatchOne (sh : Shared) (j : Job) (choice : Choice) : Option (Shared × List Frame) :=
  let ensured := { sh with
    table := update sh.table j.id fun j => { j with candleTableEnsured := true } }
  match choice with
  | .ensureFails => if j.candleTableEnsured then none else some (sh, [.recordError j.id])
  | .airborne now =>
    some ({ ensured with airborne := sh.airborne ++ [(j.id, window now j)] }, [.kick])
  | .submitFails now msg =>
    some (ensured, [.page1 j.id (window now j) (.error msg), .kickClear j.id, .reap])

def act (sh : Shared) (choice : Choice) : Frame → Option (Shared × List Frame)
  | .append j => some ({ sh with table := { sh.table with jobs := sh.table.jobs ++ [j] } }, [])
  | .kick =>
    match pickNext sh.table with
    | none => some (sh, [])
    | some id => some ({ sh with table := takeSlot sh.table id }, [.dispatch id])
  | .dispatch id =>
    match find sh.table id with
    | none => some ({ sh with freed := true }, [])
    | some j => dispatchOne sh j choice
  | .recordError id => some (deref sh id fun j =>
    ({ sh with table := update sh.table id (failOnce "candle table_ensure failed") },
      if pageRetryMax ≤ j.consecutiveErrors + 1 then [.clear id, .reap, .kickClear id, .reap]
      else [.clear id, .reap]))
  | .page1 id w res =>
    match find sh.table id with
    | none => some (sh, [.drop id, .kick])
    | some j => some (sh, if j.state = .running then [.page4 id w res]
        else [.clear id, .reap, .kick])
  | .page4 id w res =>
    match find sh.table id with
    | none => some ({ sh with table :=
        { sh.table with inFlightCount := sh.table.inFlightCount - 1 } }, [.kick])
    | some j =>
      if j.state = .running then
        some ({ sh with table := update sh.table id fun j => onPage w j res }, [.persist id])
      else some ({ sh with table := clearInFlight sh.table j }, [.kick])
  | .persist id => some (deref sh id fun _ => (sh, [.clear id, .reap, .kick]))
  | .clear id => some (deref sh id fun j => ({ sh with table := clearInFlight sh.table j }, []))
  | .kickClear id => some (deref sh id fun j => ({ sh with table := clearInFlight sh.table j }, []))
  | .reap => some ({ sh with table := removeCompleted sh.table }, [])
  | .drop _ => some ({ sh with table :=
      { sh.table with inFlightCount := sh.table.inFlightCount - 1 } }, [])

inductive Op
  | enqueue (marketId : ℕ) (oldestTs newestTs : ℤ)
  | cancel (id : ℕ)
  | kick
  | deliver (i : ℕ) (res : PageResult)
  | turn (i : ℕ) (choice : Choice)
  deriving DecidableEq

def spawn (s : Sys) (frames : List Frame) : Sys := { s with threads := s.threads ++ [frames] }

def step (s : Sys) : Op → Option Sys
  | .enqueue marketId oldestTs newestTs =>
    if jobsMax ≤ s.table.jobs.length then some s
    else some { spawn s [.append (newJob s.nextId marketId oldestTs newestTs), .kick] with
      nextId := s.nextId + 1 }
  | .cancel id =>
    match find s.table id with
    | none => some s
    | some _ => some { spawn s [.reap, .kick] with
        table := update s.table id fun j =>
          { j with state := .failed, lastErr := "cancelled by admin" } }
  | .kick => some (spawn s [.kick])
  | .deliver i res =>
    match s.airborne[i]? with
    | none => none
    | some (id, w) =>
      some { spawn s [.page1 id w res] with airborne := s.airborne.eraseIdx i }
  | .turn i choice =>
    match top s.threads i with
    | none => none
    | some (f, rest) => (act s.toShared choice f).map fun r =>
      { s with toShared := r.1, threads := s.threads.set i (r.2 ++ rest) }

end Steps

section Slots

/-- A frame that is on the way from the dispatch of a page request of the job to the end of
its completion. -/
@[simp] def serves (id : ℕ) : Frame → Bool
  | .dispatch i => i == id
  | .recordError i => i == id
  | .page1 i _ _ => i == id
  | .page4 i _ _ => i == id
  | .persist i => i == id
  | .clear i => i == id
  | .drop i => i == id
  | _ => false

def requests (s : Sys) (id : ℕ) : ℕ :=
  s.airborne.countP (fun r => r.1 == id) + s.threads.flatten.countP (serves id)

structure OneOutstanding (s : Sys) : Prop where
  flag : ∀ j ∈ s.table.jobs, j.inFlight = true ↔ requests s j.id = 1
  single : ∀ id, requests s id ≤ 1
  counted : s.table.inFlightCount = s.table.jobs.countP fun j => j.inFlight
  bounded : s.airborne.length ≤ s.table.maxConcurrent
  unfreed : s.freed = false

/-- A job is picked only while fewer than the limit are in flight, cancelled ones included, and
the clear behind a failed dispatch finds its job in the list and not dispatched again. -/
def Fits (t : Table) : Frame → Prop
  | .kick => pickNext t = none ∨ t.jobs.countP (fun j => j.inFlight) < t.maxConcurrent
  | .kickClear id => (find t id).any (fun j => !j.inFlight) = true
  | _ => True

def Keeps (s : Sys) : Op → Prop
  | .turn i _ => ∀ r ∈ top s.threads i, Fits s.table r.1
  | _ => True

instance (t : Table) (f : Frame) : Decidable (Fits t f) := by
  unfold Fits
  split <;> infer_instance

instance (s : Sys) (op : Op) : Decidable (Keeps s op) := by
  unfold Keeps
  split <;> infer_instance

end Slots

variable {t : Table} {id : ℕ} {j : Job} {f : Job → Job} {s : Sys}

section Table

theorem find_split (distinct : (t.jobs.map Job.id).Nodup)
    (found : find t id = some j) :
    j.id = id ∧ ∃ pre post, t.jobs = pre ++ j :: post ∧
      ∀ f, (update t id f).jobs = pre ++ f j :: post := by
  obtain ⟨here, pre, post, split, before⟩ := find?_eq_some_iff_append.mp found
  have same : j.id = id := of_decide_eq_true here
  refine ⟨same, pre, post, split, fun f => ?_⟩
  rw [split, map_append, map_cons, nodup_middle, nodup_cons] at distinct
  have skip : ∀ l : List Job, (∀ x ∈ l, x.id ≠ id) →
      l.map (fun j => if j.id = id then f j else j) = l := by
    intro l other
    rw [map_congr_left fun x mem => if_neg (other x mem)]
    exact map_id _
  have others : ∀ x ∈ pre ++ post, x.id ≠ id := by
    intro x mem equal
    apply distinct.1
    rw [same, ← equal, ← map_append]
    exact mem_map_of_mem mem
  unfold update
  dsimp only
  rw [split, map_append, map_cons, if_pos same,
    skip pre fun x mem => others x (mem_append_left _ mem),
    skip post fun x mem => others x (mem_append_right _ mem)]

structure Inv (t : Table) (nextId : ℕ) (req : ℕ → ℕ) (pend : List Job) : Prop where
  distinct : ((t.jobs ++ pend).map Job.id).Nodup
  below : ∀ j ∈ t.jobs ++ pend, j.id < nextId
  requested : ∀ id, req id = t.jobs.countP fun j => j.id == id && j.inFlight
  counted : t.inFlightCount = t.jobs.countP fun j => j.inFlight
  bounded : t.inFlightCount ≤ t.maxConcurrent
  queued : ∀ j ∈ t.jobs ++ pend, j.state = .queued → j.inFlight = false
  waiting : ∀ j ∈ pend, j.inFlight = false

variable {t : Table} {nextId id : ℕ} {req req' : ℕ → ℕ} {pend : List Job} {j : Job}

theorem forall_replace {P : Job → Prop} {pre post rest : List Job} {k : Job}
    (all : ∀ x ∈ pre ++ j :: post ++ rest, P x) (new : P k) :
    ∀ x ∈ pre ++ k :: post ++ rest, P x := by
  intro x mem
  simp only [mem_append, mem_cons] at all mem
  rcases mem with (old | rfl | old) | old
  · exact all x (.inl (.inl old))
  · exact new
  · exact all x (.inl (.inr (.inr old)))
  · exact all x (.inr old)

theorem Inv.append {before after : List Job} (inv : Inv t nextId req (before ++ j :: after)) :
    Inv { t with jobs := t.jobs ++ [j] } nextId req (before ++ after) := by
  have perm : (t.jobs ++ [j] ++ (before ++ after)).Perm (t.jobs ++ (before ++ j :: after)) := by
    rw [append_assoc, singleton_append]
    exact List.Perm.append_left _ perm_middle.symm
  have idle := inv.waiting j (by simp)
  constructor
  case distinct => exact ((perm.map Job.id).nodup_iff).mpr inv.distinct
  case below => exact fun k mem => inv.below k (perm.mem_iff.mp mem)
  case requested =>
    intro i
    rw [inv.requested i, countP_append]
    simp [idle]
  case counted =>
    show t.inFlightCount = (t.jobs ++ [j]).countP _
    rw [inv.counted, countP_append]
    simp [idle]
  case bounded => exact inv.bounded
  case queued => exact fun k mem => inv.queued k (perm.mem_iff.mp mem)
  case waiting =>
    obtain ⟨old, new⟩ := forall_mem_append.mp inv.waiting
    exact forall_mem_append.mpr ⟨old, (forall_mem_cons.mp new).2⟩

theorem find_mem (distinct : (t.jobs.map Job.id).Nodup) (mem : j ∈ t.jobs) :
    find t j.id = some j := by
  cases found : find t j.id with
  | none => exact absurd (decide_eq_true rfl) (find?_eq_none.mp found j mem)
  | some k =>
    have same := (find_split distinct found).1
    rw [inj_on_of_nodup_map distinct (mem_of_find?_eq_some found) mem same]

variable (inv : Inv t nextId req pend)
include inv

theorem Inv.nodup : (t.jobs.map Job.id).Nodup := by
  have distinct := inv.distinct
  rw [map_append] at distinct
  exact distinct.of_append_left

theorem Inv.listed (out : 0 < req id) : ∃ j, find t id = some j ∧ j.inFlight = true := by
  rw [inv.requested, countP_pos_iff] at out
  obtain ⟨j, mem, here⟩ := out
  rw [Bool.and_eq_true, beq_iff_eq] at here
  cases found : find t id with
  | none =>
    have none := find?_eq_none.mp found j mem
    exact absurd (decide_eq_true here.1) none
  | some k =>
    obtain ⟨same, pre, post, split, -⟩ := find_split inv.nodup found
    have equal : j = k := inj_on_of_nodup_map inv.nodup mem
      (mem_of_find?_eq_some found) (here.1.trans same.symm)
    exact ⟨k, rfl, equal ▸ here.2⟩

variable (found : find t id = some j)
include found

theorem Inv.replace {t' : Table}
    (jobs : t'.jobs = (update t id f).jobs) (limit : t'.maxConcurrent = t.maxConcurrent)
    (sameId : (f j).id = j.id)
    (moved : ∀ i, req' i + (if id = i ∧ j.inFlight = true then 1 else 0) = req i + if id = i ∧ (f j).inFlight = true then 1 else 0)
    (count : t'.inFlightCount + (if j.inFlight = true then 1 else 0) = t.inFlightCount + if (f j).inFlight = true then 1 else 0)
    (bounded : t'.inFlightCount ≤ t.maxConcurrent)
    (queued : (f j).state = .queued → (f j).inFlight = false) : Inv t' nextId req' pend := by
  obtain ⟨own, pre, post, split, updated⟩ := find_split inv.nodup found
  rw [updated f] at jobs
  obtain ⟨distinct, below, requested, counted, -, calm, waiting⟩ := inv
  rw [split] at distinct below requested counted calm
  constructor
  case distinct =>
    rw [jobs]
    simpa [sameId] using distinct
  case below =>
    rw [jobs]
    have here := below j (by simp)
    exact forall_replace below (by omega)
  case requested =>
    intro i
    have moved := moved i
    have requested := requested i
    rw [countP_append, countP_cons] at requested
    rw [jobs, countP_append, countP_cons]
    simp only [sameId, own, Bool.and_eq_true, beq_iff_eq] at requested ⊢
    omega
  case counted =>
    rw [countP_append, countP_cons] at counted
    rw [jobs, countP_append, countP_cons]
    omega
  case bounded => rwa [limit]
  case queued =>
    rw [jobs]
    exact forall_replace calm queued
  case waiting => exact waiting

theorem Inv.change (sameId : (f j).id = j.id)
    (flag : (f j).inFlight = j.inFlight) (queued : (f j).state = .queued → (f j).inFlight = false) :
    Inv (update t id f) nextId req pend :=
  inv.replace found rfl rfl sameId (fun i => by rw [flag]) (by rw [flag]; rfl) inv.bounded queued

theorem Inv.take (idle : j.inFlight = false)
    (room : t.inFlightCount < t.maxConcurrent)
    (moved : ∀ i, req' i = req i + if id = i then 1 else 0) :
    Inv (takeSlot t id) nextId req' pend := by
  refine inv.replace found rfl rfl rfl (fun i => ?_) ?_ room nofun
  · simpa [idle] using moved i
  · simp [idle, takeSlot]

theorem Inv.release
    (moved : ∀ i, req i = req' i + if id = i then 1 else 0) :
    Inv (clearInFlight t j) nextId req' pend := by
  have busy : 0 < req id := by
    rw [moved id, if_pos rfl]
    exact Nat.succ_pos _
  obtain ⟨k, here, flag⟩ := inv.listed busy
  cases found.symm.trans here
  have own := (find_split inv.nodup found).1
  have cleared : clearInFlight t j = { update t id fun j => { j with inFlight := false } with
      inFlightCount := t.inFlightCount - 1 } := by
    unfold clearInFlight
    rw [if_pos flag, own]
  have some : 0 < t.inFlightCount := by
    rw [inv.counted, countP_pos_iff]
    exact ⟨j, mem_of_find?_eq_some found, flag⟩
  have bounded := inv.bounded
  rw [cleared]
  refine inv.replace found rfl rfl rfl (fun i => ?_) ?_ ?_ fun _ => rfl
  · simpa [flag] using (moved i).symm
  · simp [flag]
    omega
  · show t.inFlightCount - 1 ≤ t.maxConcurrent
    omega

omit found

theorem Inv.reap : Inv (removeCompleted t) nextId req pend := by
  have kept : ((removeCompleted t).jobs ++ pend).Sublist (t.jobs ++ pend) :=
    List.Sublist.append_right filter_sublist _
  have flights : ∀ p : Job → Bool, (∀ j, p j = true → j.inFlight = true) →
      (removeCompleted t).jobs.countP p = t.jobs.countP p := by
    intro p flag
    unfold removeCompleted
    dsimp only
    rw [countP_filter]
    refine countP_congr fun j _ => ?_
    constructor
    · exact fun h => (Bool.and_eq_true _ _ ▸ h).1
    · intro h
      have busy : ¬ Completed j := fun done => by
        have idle := done.2
        rw [flag j h] at idle
        cases idle
      simp [h, busy]
  exact
    { inv with
      distinct := inv.distinct.sublist (kept.map _)
      below := fun j mem => inv.below j (kept.subset mem)
      requested := by
        intro i
        rw [inv.requested i, flights]
        intro j here
        exact (Bool.and_eq_true _ _ ▸ here).2
      counted := by
        rw [flights _ fun j h => h]
        exact inv.counted
      queued := fun j mem => inv.queued j (kept.subset mem) }

theorem Inv.enqueue (marketId : ℕ) (oldestTs newestTs : ℤ) :
    Inv t (nextId + 1) req (pend ++ [newJob nextId marketId oldestTs newestTs]) := by
  have all : ∀ k ∈ t.jobs ++ (pend ++ [newJob nextId marketId oldestTs newestTs]),
      k ∈ t.jobs ++ pend ∨ k = newJob nextId marketId oldestTs newestTs := by
    simp
    tauto
  constructor
  case distinct =>
    rw [← append_assoc, map_append, nodup_append]
    refine ⟨inv.distinct, by simp, fun a old b new => ?_⟩
    obtain ⟨k, mem, rfl⟩ := mem_map.mp old
    have below := inv.below k mem
    have here : b = nextId := mem_singleton.mp new
    omega
  case below =>
    intro k mem
    rcases all k mem with old | rfl
    · have := inv.below k old
      omega
    · exact Nat.lt_succ_self _
  case requested => exact inv.requested
  case counted => exact inv.counted
  case bounded => exact inv.bounded
  case queued => exact fun k mem => (all k mem).elim (inv.queued k) (by rintro rfl _; rfl)
  case waiting => exact forall_mem_append.mpr ⟨inv.waiting, forall_mem_singleton.mpr rfl⟩

theorem Inv.congr (same : ∀ id, req' id = req id) : Inv t nextId req' pend := by
  obtain rfl : req' = req := funext same
  exact inv

theorem Inv.picked (picked : pickNext t = some id) :
    ∃ j, find t id = some j ∧ j.inFlight = false := by
  unfold pickNext at picked
  dsimp only at picked
  split_ifs at picked
  split at picked
  next j ready =>
    cases picked
    have idle := find?_some ready
    rw [decide_eq_true_iff] at idle
    exact ⟨j, find_mem inv.nodup (mem_of_find?_eq_some ready), idle.2⟩
  next =>
    obtain ⟨j, waiting, rfl⟩ := Option.map_eq_some_iff.mp picked
    have queued := find?_some waiting
    rw [decide_eq_true_iff] at queued
    have mem := mem_of_find?_eq_some waiting
    exact ⟨j, find_mem inv.nodup mem, inv.queued j (mem_append_left _ mem) queued⟩

end Table

section Turns

@[simp] def appended : Frame → Option Job
  | .append j => some j
  | _ => none

@[simp] def isDrop : Frame → Bool
  | .drop _ => true
  | _ => false

@[simp] def out (sh : Shared) (rest : ℕ → ℕ) (frames : List Frame) (id : ℕ) : ℕ :=
  sh.airborne.countP (fun r => r.1 == id) + rest id + frames.countP (serves id)

variable {sh sh' : Shared} {nextId : ℕ} {rest : ℕ → ℕ} {first last : List Job} {f : Frame}
  {calls : List Frame} {choice : Choice}

theorem found_of_serves (inv : Inv sh.table nextId (out sh rest [f]) (first ++ last))
    (here : serves id f = true) : ∃ j, find sh.table id = some j ∧ j.inFlight = true := by
  refine inv.listed ?_
  unfold out
  rw [countP_singleton, if_pos here]
  omega

structure Turned (sh sh' : Shared) (nextId : ℕ) (rest : ℕ → ℕ) (calls : List Frame)
    (pend : List Job) : Prop where
  inv : Inv sh'.table nextId (out sh' rest calls) pend
  plain : ∀ c ∈ calls, appended c = none ∧ isDrop c = false
  freed : sh'.freed = sh.freed

theorem dispatchOne_inv (found : find sh.table id = some j)
    (inv : Inv sh.table nextId (out sh rest [.dispatch id]) (first ++ last))
    (acted : dispatchOne sh j choice = some (sh', calls)) :
    Turned sh sh' nextId rest calls (first ++ last) := by
  have own := (find_split inv.nodup found).1
  subst own
  have ensured : Inv (update sh.table j.id fun j => { j with candleTableEnsured := true }) nextId
      (out sh rest [.dispatch j.id]) (first ++ last) := by
    refine inv.change found rfl rfl fun queued => ?_
    exact inv.queued j (mem_append_left _ (mem_of_find?_eq_some found)) queued
  cases choice with
  | ensureFails =>
    have acted : (if j.candleTableEnsured then none
      else some (sh, [Frame.recordError j.id])) = some (sh', calls) := acted
    split_ifs at acted
    cases acted
    exact ⟨inv.congr fun i => rfl, by simp, rfl⟩
  | airborne now =>
    cases acted
    refine ⟨ensured.congr fun i => ?_, by simp, rfl⟩
    by_cases same : j.id = i
    · simp [same]
      omega
    · simp [same]
  | submitFails now msg =>
    cases acted
    exact ⟨ensured.congr fun i => by simp [countP_cons],
      by simp, rfl⟩

theorem failOnce_queued {msg : String} (queued : (failOnce msg j).state = .queued) :
    j.state = .queued := by
  unfold failOnce at queued
  dsimp only at queued
  split_ifs at queued
  exact queued

theorem onPage_spec (w : Window) (running : j.state = .running) (res : PageResult) :
    (onPage w j res).id = j.id ∧ (onPage w j res).inFlight = j.inFlight ∧
      (onPage w j res).state ≠ .queued := by
  cases res with
  | error msg =>
    refine ⟨rfl, rfl, fun queued => ?_⟩
    have := failOnce_queued queued
    rw [running] at this
    cases this
  | page count inserted =>
    refine ⟨rfl, rfl, ?_⟩
    show (if _ then JobState.done else if _ then .done else if _ then .done else j.state) ≠ _
    rw [running]
    split_ifs <;> simp

theorem act_inv
    (inv : Inv sh.table nextId (out sh rest [f]) (first ++ ((appended f).toList ++ last)))
    (sane : isDrop f = false) (fits : Fits sh.table f)
    (acted : act sh choice f = some (sh', calls)) :
    Turned sh sh' nextId rest calls (first ++ last) := by
  cases f with
  | append j =>
    cases acted
    exact ⟨inv.append, by simp, rfl⟩
  | kick =>
    cases picked : pickNext sh.table with
    | none =>
      rw [act, picked] at acted
      cases acted
      exact ⟨inv, by simp, rfl⟩
    | some id =>
      rw [act, picked] at acted
      cases acted
      obtain ⟨j, found, idle⟩ := inv.picked picked
      have room : sh.table.inFlightCount < sh.table.maxConcurrent := by
        rw [inv.counted]
        rcases fits with none | room
        · rw [picked] at none
          cases none
        · exact room
      refine ⟨inv.take found idle room fun i => ?_, by simp, rfl⟩
      by_cases same : id = i <;> simp [same]
  | dispatch id =>
    obtain ⟨j, found, -⟩ := found_of_serves inv (beq_self_eq_true id)
    rw [act, found] at acted
    exact dispatchOne_inv found inv acted
  | recordError id =>
    obtain ⟨j, found, -⟩ := found_of_serves inv (beq_self_eq_true id)
    rw [act, deref, found] at acted
    cases acted
    have changed : Inv (update sh.table id (failOnce "candle table_ensure failed")) nextId
        (out sh rest [.recordError id]) (first ++ last) :=
      inv.change found rfl rfl fun queued =>
        inv.queued j (mem_append_left _ (mem_of_find?_eq_some found))
          (failOnce_queued queued)
    refine ⟨changed.congr fun i => ?_, ?_, rfl⟩
    · split_ifs <;> simp [countP_cons]
    · split_ifs <;> simp
  | page1 id w res =>
    obtain ⟨j, found, -⟩ := found_of_serves inv (beq_self_eq_true id)
    rw [act, found] at acted
    cases acted
    refine ⟨inv.congr fun i => ?_, ?_, rfl⟩
    · split_ifs <;> simp [countP_cons]
    · split_ifs <;> simp
  | page4 id w res =>
    obtain ⟨j, found, -⟩ := found_of_serves inv (beq_self_eq_true id)
    rw [act, found] at acted
    dsimp only at acted
    by_cases running : j.state = .running
    · rw [if_pos running] at acted
      cases acted
      obtain ⟨sameId, flag, notQueued⟩ := onPage_spec w running res
      refine ⟨?_, by simp, rfl⟩
      have calm (queued : (onPage w j res).state = .queued) :
          (onPage w j res).inFlight = false := absurd queued notQueued
      exact (inv.change found sameId flag calm).congr fun i => rfl
    · -- cancelled since the first look: the slot is given back here
      rw [if_neg running] at acted
      cases acted
      refine ⟨inv.release found fun i => ?_, by simp, rfl⟩
      by_cases same : id = i <;> simp [same]
  | persist id =>
    obtain ⟨j, found, -⟩ := found_of_serves inv (beq_self_eq_true id)
    rw [act, deref, found] at acted
    cases acted
    exact ⟨inv.congr fun i => by simp [countP_cons],
      by simp, rfl⟩
  | clear id =>
    obtain ⟨j, found, -⟩ := found_of_serves inv (beq_self_eq_true id)
    rw [act, deref, found] at acted
    cases acted
    refine ⟨inv.release found fun i => ?_, by simp, rfl⟩
    by_cases same : id = i <;> simp [same]
  | kickClear id =>
    obtain ⟨j, found, idle⟩ := (Option.any_eq_true _ _).mp fits
    rw [act, deref, found] at acted
    cases acted
    have same : clearInFlight sh.table j = sh.table := if_neg (by simpa using idle)
    refine ⟨?_, by simp, rfl⟩
    rw [same]
    exact inv
  | reap =>
    cases acted
    exact ⟨inv.reap, by simp, rfl⟩
  | drop id => cases sane

end Turns

section Runs

structure Good (sh : Shared) (nextId : ℕ) (frames : List Frame) : Prop where
  inv : Inv sh.table nextId (out sh (fun _ => 0) frames) (frames.filterMap appended)
  sane : ∀ f ∈ frames, isDrop f = false
  unfreed : sh.freed = false

variable {sh : Shared} {nextId : ℕ} {frames : List Frame}

theorem Good.act {before after calls : List Frame} {f : Frame} {sh' : Shared} {choice : Choice}
    (good : Good sh nextId (before ++ f :: after)) (fits : Fits sh.table f)
    (acted : act sh choice f = some (sh', calls)) :
    Good sh' nextId (before ++ (calls ++ after)) := by
  have pend : (before ++ f :: after).filterMap appended =
      before.filterMap appended ++ ((appended f).toList ++ after.filterMap appended) := by
    rw [filterMap_append, filterMap_cons]
    cases appended f <;> rfl
  have inv := good.inv
  rw [pend] at inv
  have start : Inv sh.table nextId
      (out sh (fun id => before.countP (serves id) + after.countP (serves id)) [f])
      (before.filterMap appended ++ ((appended f).toList ++ after.filterMap appended)) := by
    refine inv.congr fun id => ?_
    simp only [out, countP_append, countP_cons, countP_nil]
    omega
  have next := act_inv start (good.sane f (by simp)) fits acted
  have none : calls.filterMap appended = [] :=
    filterMap_eq_nil_iff.mpr fun c mem => (next.plain c mem).1
  refine ⟨?_, ?_, next.freed.trans good.unfreed⟩
  · rw [filterMap_append, filterMap_append, none, nil_append]
    refine next.inv.congr fun id => ?_
    simp only [out, countP_append]
    omega
  · obtain ⟨left, right⟩ := forall_mem_append.mp good.sane
    exact forall_mem_append.mpr ⟨left, forall_mem_append.mpr
      ⟨fun g mem => (next.plain g mem).2, (forall_mem_cons.mp right).2⟩⟩

variable (good : Good sh nextId frames)
include good

theorem Good.spawn (new : List Frame)
    (inv : Inv t nextId (out sh (fun _ => 0) frames) (frames.filterMap appended))
    (plain : ∀ f ∈ new, appended f = none ∧ isDrop f = false ∧ ∀ id, serves id f = false) :
    Good { sh with table := t } nextId (frames ++ new) := by
  have pend : new.filterMap appended = [] :=
    filterMap_eq_nil_iff.mpr fun f mem => (plain f mem).1
  refine ⟨?_, forall_mem_append.mpr ⟨good.sane, fun f mem => (plain f mem).2.1⟩, good.unfreed⟩
  rw [filterMap_append, pend, append_nil]
  refine inv.congr fun id => ?_
  have none : new.countP (serves id) = 0 :=
    countP_eq_zero.mpr fun f mem => ne_true_of_eq_false ((plain f mem).2.2 id)
  simp only [out, countP_append, none]
  rfl

theorem Good.deliver {i : ℕ} {w : Window} (res : PageResult)
    (found : sh.airborne[i]? = some (id, w)) :
    Good { sh with airborne := sh.airborne.eraseIdx i } nextId (frames ++ [.page1 id w res]) := by
  obtain ⟨bound, here⟩ := List.getElem?_eq_some_iff.mp found
  have perm := getElem_cons_eraseIdx_perm bound
  rw [here] at perm
  refine ⟨?_, forall_mem_append.mpr ⟨good.sane, forall_mem_singleton.mpr rfl⟩, good.unfreed⟩
  have pend : [Frame.page1 id w res].filterMap appended = [] := rfl
  rw [filterMap_append, pend, append_nil]
  refine good.inv.congr fun k => ?_
  have count := perm.countP_eq fun r : ℕ × Window => r.1 == k
  rw [countP_cons] at count
  by_cases same : id = k
  · simp [same] at count
    simp [same]
    omega
  · simp [same] at count
    simp [same, count]

theorem Good.enqueue (marketId : ℕ) (oldestTs newestTs : ℤ) :
    Good sh (nextId + 1)
      (frames ++ [.append (newJob nextId marketId oldestTs newestTs), .kick]) := by
  refine ⟨?_, forall_mem_append.mpr ⟨good.sane, by simp⟩, good.unfreed⟩
  rw [filterMap_append]
  refine (good.inv.enqueue marketId oldestTs newestTs).congr fun k => ?_
  simp [countP_append]

omit good

theorem step_good {t : Sys} {op : Op} (good : Good s.toShared s.nextId s.threads.flatten)
    (keeps : Keeps s op) (moved : step s op = some t) :
    Good t.toShared t.nextId t.threads.flatten := by
  have flat : ∀ frames, (spawn s frames).threads.flatten = s.threads.flatten ++ frames :=
    fun frames => flatten_spawn s.threads frames
  cases op with
  | enqueue marketId oldestTs newestTs =>
    rw [step] at moved
    split_ifs at moved
    · cases moved
      exact good
    · cases moved
      have next := good.enqueue marketId oldestTs newestTs
      rw [← flat] at next
      exact next
  | cancel id =>
    rw [step] at moved
    split at moved
    next =>
      cases moved
      exact good
    next j found =>
      cases moved
      have next := good.spawn [.reap, .kick]
        (good.inv.change found (f := fun j =>
          { j with state := .failed, lastErr := "cancelled by admin" }) rfl rfl
          nofun)
        (by simp)
      rw [← flat] at next
      exact next
  | kick =>
    cases moved
    have next := good.spawn [.kick] good.inv (by simp)
    rw [← flat] at next
    exact next
  | deliver i res =>
    rw [step] at moved
    split at moved
    next => cases moved
    next id w found =>
      cases moved
      have next := good.deliver res found
      rw [← flat] at next
      exact next
  | turn i choice =>
    rw [step] at moved
    split at moved
    next => cases moved
    next f rest found =>
      obtain ⟨r, acted, rfl⟩ := Option.map_eq_some_iff.mp moved
      obtain ⟨before, after, split, turned⟩ := flatten_turn found
      rw [split] at good
      have next := good.act (keeps _ found) acted
      rw [← turned] at next
      exact next

theorem good_start : Good (start maxConcurrent).toShared 0 (start maxConcurrent).threads.flatten :=
  ⟨⟨.nil, by simp [start], fun _ => rfl, rfl, Nat.zero_le _, by simp [start],
    by simp [start]⟩, by simp [start], rfl⟩

theorem airborne_le {req : ℕ → ℕ} {pend : List Job} (inv : Inv t nextId req pend)
    {airborne : List (ℕ × Window)} (out : ∀ id, airborne.countP (fun r => r.1 == id) ≤ req id) :
    airborne.length ≤ t.jobs.countP fun j => j.inFlight := by
  have sub : (airborne.map Prod.fst).Subperm ((t.jobs.filter fun j => j.inFlight).map Job.id) := by
    rw [subperm_ext_iff]
    intro id _
    have le := out id
    rw [inv.requested id] at le
    rw [count_eq_countP, count_eq_countP, countP_map, countP_map,
      countP_filter]
    exact le
  have length := sub.length_le
  rwa [length_map, length_map, ← countP_eq_length_filter] at length

theorem Good.oneOutstanding (good : Good s.toShared s.nextId s.threads.flatten) :
    OneOutstanding s := by
  have inv : Inv s.table s.nextId (requests s) (s.threads.flatten.filterMap appended) :=
    good.inv.congr fun id => by simp [requests]
  have one : ∀ id, requests s id ≤ 1 := by
    intro id
    rw [inv.requested]
    have ids := nodup_iff_count_le_one.mp inv.nodup id
    rw [count_eq_countP, countP_map] at ids
    refine Nat.le_trans (countP_mono_left fun j _ here => ?_) ids
    exact (Bool.and_eq_true _ _ ▸ here).1
  constructor
  case flag =>
    intro j mem
    constructor
    · intro flag
      have some : 0 < requests s j.id := by
        rw [inv.requested, countP_pos_iff]
        exact ⟨j, mem, by simp [flag]⟩
      have := one j.id
      omega
    · intro busy
      obtain ⟨k, found, flag⟩ := inv.listed (busy ▸ Nat.one_pos)
      obtain rfl := Option.some.inj ((find_mem inv.nodup mem).symm.trans found)
      exact flag
  case single => exact one
  case counted => exact inv.counted
  case bounded =>
    have few := airborne_le inv fun id => Nat.le_add_right _ _
    rw [← inv.counted] at few
    exact Nat.le_trans few inv.bounded
  case unfreed => exact good.unfreed

theorem one_page_outstanding (maxConcurrent : ℕ) {ops : List Op} {t : Sys}
    (run : Run step Keeps (start maxConcurrent) ops t) :
    Along step OneOutstanding (start maxConcurrent) ops :=
  run.along Good.oneOutstanding step_good good_start

def turns (n : ℕ) (i : ℕ) (choice : Choice) : List Op := replicate n (.turn i choice)

def calmOps : List Op :=
  [.enqueue 1 0 36000] ++ turns 4 0 (.airborne 0) ++ [.enqueue 2 0 36000] ++
    turns 4 1 (.airborne 0) ++ [.deliver 0 (.page 300 300)] ++ turns 7 2 (.airborne 0) ++
    [.cancel 1, .deliver 0 (.error "timeout")] ++ turns 4 4 (.airborne 0)

theorem one_page_outstanding_sample :
    (∃ t, Run step Keeps (start 2) calmOps t ∧
      t.table.jobs.map (fun j => (j.id, j.cursorEndTs, j.inFlight)) = [(0, 18000, true)] ∧
      t.airborne = [(0, ⟨0, 18000⟩)]) ∧
      Along step OneOutstanding (start 2) calmOps := by
  have run : Run step Keeps (start 2) calmOps _ := runWhen_get (by decide +kernel)
  exact ⟨⟨_, run, by decide +kernel⟩, one_page_outstanding 2 run⟩

def resubmitted : List Op :=
  [.enqueue 1 0 36000] ++ turns 2 0 (.airborne 0) ++ [.turn 0 (.submitFails 0 "refused")] ++
    turns 9 0 (.airborne 0) ++ [.kick] ++ turns 2 1 (.airborne 0)

def cancelledOut : List Op :=
  [.enqueue 1 0 36000] ++ turns 3 0 (.airborne 0) ++ [.cancel 0, .enqueue 2 0 36000] ++
    turns 3 2 (.airborne 0)

def reaped : List Op :=
  [.enqueue 1 0 36000] ++ turns 6 0 .ensureFails ++ [.kick] ++ turns 5 1 .ensureFails ++ [.kick] ++
    turns 5 2 .ensureFails ++ [.kick] ++ turns 5 3 .ensureFails ++ [.kick] ++ turns 6 4 .ensureFails

theorem not_one_page_outstanding :
    (∃ t, Run step Any (start 1) resubmitted t ∧ requests t 0 = 2 ∧ t.airborne.length = 2 ∧
      t.table.inFlightCount = 1) ∧
    (∃ t, Run step Any (start 1) cancelledOut t ∧ t.airborne.length = 2) ∧
    ∃ t, Run step Any (start 1) reaped t ∧ t.table.jobs = [] ∧ t.freed = true :=
  ⟨⟨_, run_get (by decide +kernel), by decide +kernel⟩, ⟨_, run_get (by decide +kernel), by decide +kernel⟩, _,
    run_get (by decide +kernel), by decide +kernel⟩

end Runs

end BotManager.DownloadSlots
