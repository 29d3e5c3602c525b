import Mathlib.Data.List.Nodup
import BotManager.TaskOwnership

/-! The counters of core/task.c against the lists they describe. `tally` is what each
counter should read. A section keeps the counters exact as long as it does not meet
one of the branches `Accountable` excludes: a chain freed by a cancellation or left
behind by FATAL, a kind that is given back without having been counted, and a
counter at the end of its 32 bits. -/

namespace BotManager.TaskAccounting
open List StepRun StableInsert TaskModel TaskOwnership

structure Counts (st : Stats) (f : Counter → ℕ) : Prop where
  count : st.count = f
  noUnderflow : st.underflow = false
  word : ∀ c, f c < wordSize

variable {f : Counter → ℕ} {st : Stats} {s : Sys} {t : Task} {h : ℕ}

theorem Counts.congr {g : Counter → ℕ} (h : Counts st f) (eq : ∀ c, f c = g c) : Counts st g := by
  have same : f = g := funext eq
  exact same ▸ h

theorem Counts.inc (h : Counts st f) (c : Counter) (room : f c + 1 < wordSize) :
    Counts (st.inc c) (Function.update f c (f c + 1)) where
  count := by simp only [Stats.inc, h.count, Nat.mod_eq_of_lt room]
  noUnderflow := h.noUnderflow
  word d := by
    by_cases same : d = c
    · simpa [same] using room
    · simpa [same] using h.word d

theorem Counts.dec (h : Counts st f) (c : Counter) (pos : 0 < f c) :
    Counts (st.dec c) (Function.update f c (f c - 1)) where
  count := by
    have bound := h.word c
    have wrap : f c + (wordSize - 1) = f c - 1 + wordSize := by omega
    have small : f c - 1 < wordSize := by omega
    simp only [Stats.dec, h.count, wrap, Nat.add_mod_right, Nat.mod_eq_of_lt small]
  noUnderflow := by
    have nonzero : f c ≠ 0 := by omega
    simp [Stats.dec, h.noUnderflow, h.count, nonzero]
  word d := by
    have bound := h.word c
    by_cases same : d = c
    · simp only [same, Function.update_self]
      omega
    · simpa [same] using h.word d

@[simp] def links : Weight := fun _ _ link => link.length
@[simp] def kindIs (k : TaskKind) : Weight := fun _ kind _ => if kind = k then 1 else 0

@[simp] def tally (s : Sys) : Counter → ℕ
  | .waiting => s.ready.length
  | .sleeping => s.timer.length
  | .running => s.running.length
  | .linked => held links s
  | .persist => held (kindIs .persist) s
  | .periodic => held (kindIs .periodic) s
  | .total => s.ready.length + s.timer.length + s.running.length + held links s

@[simp] theorem tally_dec : tally (s.dec c) = tally s := rfl

abbrev Balanced (s : Sys) : Prop := Counts s.stats (tally s)

theorem held_kindIs_le (k : TaskKind) (s : Sys) :
    held (kindIs k) s ≤ s.ready.length + s.timer.length + s.running.length := by
  have small (t : Task) : weigh (kindIs k) t ≤ 1 := by
    simp only [weigh, kindIs]
    split <;> omega
  have a := load_le_length _ small s.ready
  have b := load_le_length _ small s.timer
  have c := load_le_length _ small s.running
  simp only [held]
  omega

theorem tally_le_total (s : Sys) (c : Counter) : tally s c ≤ tally s .total := by
  have a := held_kindIs_le .persist s
  have b := held_kindIs_le .periodic s
  cases c <;> simp only [tally] <;> omega

theorem balanced_taskInit : Balanced taskInit where
  count := by funext c; cases c <;> rfl
  noUnderflow := rfl
  word c := by cases c <;> decide

@[simp] theorem readyPush_length :
    (s.readyPush t).ready.length = s.ready.length + 1 := by simp [Sys.readyPush, readyInsert]

@[simp] theorem timerPush_length :
    (s.timerPush t).timer.length = s.timer.length + 1 := by simp [Sys.timerPush, timerInsert]

variable (bal : Balanced s)
include bal

theorem balanced_promoteHead {rest : List Task} (h : s.timer = t :: rest) :
    Balanced (promoteHead t rest s) := by
  have same (g : Weight) : held g (promoteHead t rest s) = held g s := held_promoteHead g h
  have word := bal.word .total
  have slept : tally s .sleeping = rest.length + 1 := by simp [h]
  have lower := bal.dec .sleeping (by omega)
  have upper := lower.inc .waiting (by
    simp only [tally, h, length_cons] at word
    simp
    omega)
  refine upper.congr fun c => ?_
  cases c <;> simp [same, h]
  case waiting => simp [promoteHead]
  case sleeping => rfl
  case running => rfl
  case total =>
    simp [promoteHead]
    omega

theorem balanced_timerPromote (now : ℤ) : Balanced (timerPromote now s) :=
  timerPromote_keeps (fun _ _ _ h bal => balanced_promoteHead bal h) bal

theorem balanced_dequeue {test : Task → Bool}
    (found : s.ready.find? test = some t) : Balanced (dequeue test t s) := by
  have same (g : Weight) : held g (dequeue test t s) = held g s := held_dequeue g found
  have one := length_eraseP found
  have word := bal.word .total
  have lower := bal.dec .waiting (by simp only [tally]; omega)
  have upper := lower.inc .running (by
    simp only [tally] at word
    simp
    omega)
  refine upper.congr fun c => ?_
  cases c <;> simp [same]
  case waiting =>
    simp [dequeue]
    omega
  case sleeping => rfl
  case running => rfl
  case total =>
    simp [dequeue]
    omega

theorem balanced_taskAssign : Balanced (taskAssign type allow now s).2 := by
  have base := balanced_timerPromote bal now
  simp only [taskAssign]
  split
  next => exact base
  next t found => exact balanced_dequeue base found

omit bal

theorem counts_links {l : List Node} (h : Counts s.stats f) (room : ∀ c, f c + l.length < wordSize) :
    Counts (l.foldl (fun s _ => (s.inc .total).inc .linked) s).stats
      (fun c => if c = .total ∨ c = .linked then f c + l.length else f c) := by
  induction l generalizing s f with
  | nil => exact h.congr fun c => by simp
  | cons x rest ih =>
    have more (c : Counter) : f c + rest.length + 1 < wordSize := room c
    have once := (h.inc .total (by have := more .total; omega)).inc .linked (by
      have := more .linked
      simp
      omega)
    have ended := ih (s := (s.inc .total).inc .linked) once fun c => by
      have := more c
      cases c <;> simp <;> omega
    refine ended.congr fun c => ?_
    cases c <;> simp <;> omega

theorem counts_submitQueued (h : Counts s.stats f) (t : Node) (link : List Node) (now : ℤ)
    (room : ∀ c, f c + 1 < wordSize) :
    Counts (submitQueued t link now s).stats (fun c => f c + match c with
      | .total => 1
      | .waiting => if sleepsFirst t now then 0 else 1
      | .sleeping => if sleepsFirst t now then 1 else 0
      | _ => 0) := by
  have queued := h.inc .total (room .total)
  simp only [submitQueued]
  split
  · have counted := queued.inc .sleeping (by simpa using room .sleeping)
    exact counted.congr fun c => by cases c <;> simp
  · have counted := queued.inc .waiting (by simpa using room .waiting)
    exact counted.congr fun c => by cases c <;> simp

theorem counts_taskSubmit (h : Counts s.stats f) (t : Node) (chain : List Node) (now : ℤ)
    (room : ∀ c, f c + 1 + (submittedLink t chain).length < wordSize) :
    Counts (taskSubmit t chain now s).stats (fun c => f c + match c with
      | .total => 1 + (submittedLink t chain).length
      | .linked => (submittedLink t chain).length
      | .waiting => if sleepsFirst t now then 0 else 1
      | .sleeping => if sleepsFirst t now then 1 else 0
      | .periodic => if t.kind = .periodic then 1 else 0
      | _ => 0) := by
  have queued := counts_submitQueued h t (submittedLink t chain) now fun c => by
    have := room c
    omega
  simp only [taskSubmit]
  by_cases periodic : t.kind = .periodic
  · -- a periodic task has lost its link, so only the task itself is left to count
    have noLink : submittedLink t chain = [] := by simp [submittedLink, periodic]
    have kind := queued.inc .periodic (by
      have := room .periodic
      simp
      omega)
    simp only [noLink, periodic, if_true, foldl_nil] at kind ⊢
    refine kind.congr fun c => ?_
    cases c <;> simp
  · simp only [periodic, if_false]
    have chained := counts_links (l := submittedLink t chain) queued fun c => by
      have := room c
      by_cases sleeps : sleepsFirst t now
      all_goals cases c <;> simp [sleeps] <;> omega
    refine chained.congr fun c => ?_
    cases c <;> simp
    omega

variable (bal : Balanced s)
include bal

theorem balanced_taskSubmit (t : Node) (chain : List Node)
    (kind : t.kind ≠ .persist)
    (room : s.stats.count .total + 1 + (submittedLink t chain).length < wordSize) :
    Balanced (taskSubmit t chain now s) := by
  have grown (g : Weight) := held_taskSubmit g t chain now s
  have same := frame_taskSubmit t chain now s
  obtain ⟨st, eq⟩ := taskSubmit_eq now s t chain
  have ready : (taskSubmit t chain now s).ready = _ := congrArg Sys.ready eq
  have timer : (taskSubmit t chain now s).timer = _ := congrArg Sys.timer eq
  rw [bal.count] at room
  have counted := counts_taskSubmit bal t chain now fun c => by
    have := tally_le_total s c
    omega
  refine counted.congr fun c => ?_
  cases c <;> simp only [tally, grown, same.running, ready, timer, submitMove]
  case waiting => split <;> simp
  case sleeping => split <;> simp
  case linked => simp [Nat.add_comm]
  case persist => simp [kind]
  case periodic => simp [Nat.add_comm]
  case total =>
    simp only [links]
    split <;> simp <;> omega
  case running => rfl

theorem balanced_addPersist (t : Node)
    (room : s.stats.count .total + 1 < wordSize) :
    Balanced (taskAddPersist t { s with fresh }) := by
  rw [bal.count] at room
  have small (c : Counter) : tally s c + 1 < wordSize := by
    have := tally_le_total s c
    omega
  have counted := ((bal.inc .total (small .total)).inc .persist (by simpa using small .persist)).inc
    .running (by simpa using small .running)
  refine counted.congr fun c => ?_
  cases c <;> simp [taskAddPersist, held] <;> omega

theorem balanced_spawnFailed (own : Owned s) {k : ℕ} (pending : k ∈ s.spawning) :
    Balanced (taskAddPersistFailed k { s with spawning }) := by
  obtain ⟨t, mem, rfl, kind, link⟩ := own.spawning k pending
  have found := own.find_running mem
  have one := length_eraseP found
  have gone (g : Weight) := held_unlinkRunning g found
  have persist := gone (kindIs .persist)
  have periodic := gone (kindIs .periodic)
  have linked := gone links
  simp only [weigh, kindIs, links, kind, link, if_true, reduceCtorEq, if_false,
    length_nil, held, unlinkRunning] at persist periodic linked
  have counted := ((bal.dec .total (by simp only [tally]; omega)).dec .persist
    (by simp [held]; omega)).dec .running (by simp; omega)
  refine counted.congr fun c => ?_
  cases c <;> simp [taskAddPersistFailed, unlinkRunning, held]
  all_goals omega

@[simp] def share (t : Task) : Counter → ℕ
  | .total => 1 + t.link.length
  | .linked => t.link.length
  | .persist => if t.kind = .persist then 1 else 0
  | .periodic => if t.kind = .periodic then 1 else 0
  | _ => 0

abbrev Owing (s : Sys) (t : Task) : Prop := Counts s.stats fun c => tally s c + share t c

theorem owing_ready (found : s.ready.find? (·.id = h) = some t) :
    Owing (Sys.dec .waiting { s with ready := s.ready.eraseP (·.id = h) }) t := by
  have one := length_eraseP found
  have moved (g : Weight) := load_eraseP (weigh g) found
  have lower := bal.dec .waiting (by simp only [tally]; omega)
  refine lower.congr fun c => ?_
  cases c <;> simp [held, moved]
  all_goals omega

theorem owing_timer (found : s.timer.find? (·.id = h) = some t) :
    Owing (Sys.dec .sleeping { s with timer := s.timer.eraseP (·.id = h) }) t := by
  have one := length_eraseP found
  have moved (g : Weight) := load_eraseP (weigh g) found
  have lower := bal.dec .sleeping (by simp only [tally]; omega)
  refine lower.congr fun c => ?_
  cases c <;> simp [held, moved]
  all_goals omega

theorem owing_running (found : s.running.find? (·.serial = t.serial) = some t) :
    Owing ((unlinkRunning t.serial s).dec .running) t := by
  have one := length_eraseP found
  have moved (g : Weight) := load_eraseP (weigh g) found
  have lower := bal.dec .running (by simp only [tally]; omega)
  refine lower.congr fun c => ?_
  cases c <;> simp [held, unlinkRunning, moved]
  all_goals omega

omit bal

theorem balanced_uncount {c : Counter} (owing : Owing (s.dec c) t) (link : t.link = [])
    (kind : t.kind ≠ .persist) : Balanced (uncount c t s) := by
  have total := owing.dec .total (by simp)
  by_cases periodic : t.kind = .periodic
  · have lower := total.dec .periodic (by simp [periodic])
    simp only [Balanced, uncount, periodic, if_true]
    refine lower.congr fun d => ?_
    cases d <;> simp [link, periodic]
  · simp only [Balanced, uncount, periodic, if_false]
    refine total.congr fun d => ?_
    cases d <;> simp [link, kind, periodic]

theorem balanced_cancel (bal : Balanced s)
    (sound : ∀ t, queued h s = some t → t.link = [] ∧ t.kind ≠ .persist) :
    Balanced (taskCancel h s).2 := by
  rcases taskCancel_cases h s with ⟨absent, eq | eq⟩ | ⟨t, found, ⟨mem, eq⟩ | ⟨mem, eq⟩⟩
  · rw [eq]
    exact bal
  · have same (g : Weight) := held_taskCancel_none g absent
    rw [eq] at same ⊢
    have length (l : List Task) : (markCancelled h l).length = l.length := by
      induction l with
      | nil => rfl
      | cons t rest ih => simp only [markCancelled]; split <;> simp [ih]
    refine bal.congr fun c => ?_
    cases c <;> simp only [tally, same, length]
  · rw [eq]
    exact balanced_uncount (owing_ready bal mem) (sound t found).1 (sound t found).2
  · rw [eq]
    exact balanced_uncount (owing_timer bal mem) (sound t found).1 (sound t found).2

theorem counts_releaseKind (owing : Owing s t) :
    Counts (releaseKind t s).stats fun c => tally s c + match c with
      | .total => 1 + t.link.length
      | .linked => t.link.length
      | _ => 0 := by
  simp only [releaseKind]
  by_cases periodic : t.kind = .periodic
  · have lower := owing.dec .periodic (by simp [periodic])
    simp only [periodic, if_true, reduceCtorEq, if_false]
    refine lower.congr fun c => ?_
    cases c <;> simp [periodic]
  · by_cases persist : t.kind = .persist
    · have lower := owing.dec .persist (by simp [persist])
      simp only [persist, if_true, reduceCtorEq, if_false]
      refine lower.congr fun c => ?_
      cases c <;> simp [persist]
    · simp only [periodic, persist, if_false]
      refine owing.congr fun c => ?_
      cases c <;> simp [periodic, persist]

theorem tally_releaseKind : tally (releaseKind t s) = tally s := by
  simp only [releaseKind]
  split <;> split <;> rfl

theorem balanced_taskRetireLocked (owing : Owing s t)
    (child : ∀ n ∈ t.link.head?, n.kind ≠ .periodic ∧ n.kind ≠ .persist) :
    Balanced (taskRetireLocked t s) := by
  have released := counts_releaseKind owing
  rw [← tally_releaseKind] at released
  simp only [taskRetireLocked]
  generalize releaseKind t s = u at released
  cases link : t.link with
  | nil =>
    rw [link] at released
    have lower := released.dec .total (by simp)
    refine lower.congr fun c => ?_
    cases c <;> simp
  | cons n rest =>
    rw [link] at released child
    obtain ⟨notPeriodic, notPersist⟩ := child n rfl
    have grown (g : Weight) := held_readyPush g ⟨{ n with state := .waiting }, rest, 0⟩ u
    have word := released.word .total
    have counted := ((released.dec .linked (by simp)).inc .waiting (by
      simp only [tally, length_cons] at word
      simp
      omega)).dec .total (by simp)
    refine counted.congr fun c => ?_
    cases c <;> simp [grown, notPeriodic, notPersist]
    all_goals omega

theorem balanced_finishSwitch (owing : Owing s t)
    (fatal : t.state = .fatal → t.link = [])
    (child : retires t down → ∀ n ∈ t.link.head?, n.kind ≠ .periodic ∧ n.kind ≠ .persist) :
    Balanced (finishSwitch t now down s) := by
  have word := owing.word .total
  have room : tally s .total + 1 < wordSize := by
    simp only [share] at word
    omega
  have one (c : Counter) : tally s c + 1 < wordSize := by
    have := tally_le_total s c
    omega
  have asleep (v : Task) (same : v.link = t.link ∧ v.kind = t.kind) :
      Balanced ((s.inc .sleeping).timerPush v) := by
    have upper := owing.inc .sleeping (by simpa using one .sleeping)
    refine upper.congr fun c => ?_
    cases c <;> simp [same]
    all_goals omega
  cases state : t.state with
  | ended =>
    by_cases again : reschedules t.toNode down = true
    · simp only [finishSwitch, state, again, if_true]
      exact asleep _ ⟨rfl, rfl⟩
    · simp only [finishSwitch, state, again]
      exact balanced_taskRetireLocked owing (child (by simp [state, again]))
  | running =>
    simp only [finishSwitch, state]
    exact balanced_taskRetireLocked owing (child (by simp [state]))
  | fatal =>
    have released := counts_releaseKind owing
    rw [fatal state] at released
    simp only [finishSwitch, state]
    have lower := released.dec .total (by simp)
    refine lower.congr fun c => ?_
    have same : tally ((releaseKind t s).dec .total) = tally s := tally_releaseKind
    rw [same]
    cases c <;> simp
  | waiting =>
    simp only [finishSwitch, state]
    have upper := owing.inc .waiting (by simpa using one .waiting)
    refine upper.congr fun c => ?_
    cases c <;> simp
    all_goals omega
  | sleeping =>
    simp only [finishSwitch, state]
    exact asleep _ ⟨rfl, rfl⟩

def Accountable (s : Sys) : Op → Prop
  | .submit t chain _ => t.kind ≠ .persist ∧
      s.stats.count .total + 1 + (submittedLink t chain).length < wordSize
  | .addPersist _ => s.stats.count .total + 1 < wordSize
  | .cancel h => ∀ t, queued h s = some t → t.link = [] ∧ t.kind ≠ .persist
  | .finish t result wake _ down => (result = .fatal → t.link = []) ∧
      (retires (returned t result wake) down →
        ∀ child ∈ t.link.head?, child.kind ≠ .periodic ∧ child.kind ≠ .persist)
  | _ => True

theorem balanced_step {u : Sys} {op : Op} (own : Owned s) (bal : Balanced s)
    (sound : Accountable s op) (h : step s op = some u) : Balanced u := by
  cases op with
  | create spec =>
    cases h
    exact bal
  | submit t chain now =>
    obtain ⟨_, rfl⟩ := fired h
    have taken : Balanced { s with fresh := s.fresh.filter (· ∉ t :: chain) } := bal
    exact balanced_taskSubmit taken t chain sound.1 sound.2
  | addPersist t =>
    obtain ⟨_, rfl⟩ := fired h
    exact balanced_addPersist bal t sound
  | spawned k =>
    obtain ⟨_, rfl⟩ := fired h
    exact bal
  | spawnFailed k =>
    obtain ⟨pending, rfl⟩ := fired h
    exact balanced_spawnFailed bal own pending
  | assign type allow now =>
    cases h
    exact balanced_taskAssign bal
  | promote now =>
    cases h
    exact balanced_timerPromote bal now
  | cancel handle =>
    cases h
    exact balanced_cancel bal sound
  | finish t result wake now down =>
    obtain ⟨⟨mem, _⟩, rfl⟩ := fired h
    have owing : Owing ((unlinkRunning t.serial s).dec .running) (returned t result wake) :=
      owing_running bal (own.find_running mem)
    exact balanced_finishSwitch owing sound.1 sound.2

def listed (s : Sys) : List Task := s.ready ++ s.timer ++ s.running

structure Accounted (s : Sys) : Prop where
  readyNodup : (s.ready.map (·.serial)).Nodup
  timerNodup : (s.timer.map (·.serial)).Nodup
  runningNodup : (s.running.map (·.serial)).Nodup
  readyTimer : (s.ready.map (·.serial)).Disjoint (s.timer.map (·.serial))
  readyRunning : (s.ready.map (·.serial)).Disjoint (s.running.map (·.serial))
  timerRunning : (s.timer.map (·.serial)).Disjoint (s.running.map (·.serial))
  waiting : s.stats.count .waiting = s.ready.length
  sleeping : s.stats.count .sleeping = s.timer.length
  running : s.stats.count .running = s.running.length
  linked : s.stats.count .linked = ((listed s).map (·.link.length)).sum
  total : s.stats.count .total = s.stats.count .waiting + s.stats.count .sleeping +
    s.stats.count .running + s.stats.count .linked
  periodic : s.stats.count .periodic = (listed s).countP (·.kind = .periodic)
  persist : s.stats.count .persist = (listed s).countP (·.kind = .persist)
  noUnderflow : s.stats.underflow = false

theorem held_eq_listed (s : Sys) : held g s = ((listed s).map (weigh g)).sum := by
  simp [held, listed, load, Nat.add_assoc]

theorem countP_eq_load (l : List Task) :
    l.countP (·.kind = k) = (l.map (weigh (kindIs k))).sum := by
  induction l with
  | nil => rfl
  | cons t rest ih => simp [countP_cons, ih, Nat.add_comm]

theorem count_serial_le (k : ℕ) (l : List Task) :
    (l.map (·.serial)).count k ≤ load (weigh (ownedAt k)) l := by
  induction l with
  | nil => simp
  | cons t rest ih =>
    simp only [map_cons, count_cons, load_cons, weigh, ownedAt, beq_iff_eq] at ih ⊢
    omega

theorem nodup_listed (own : Owned s) : ((listed s).map (·.serial)).Nodup := by
  rw [nodup_iff_count_le_one]
  intro k
  have once := own.unique k
  have a := count_serial_le k s.ready
  have b := count_serial_le k s.timer
  have c := count_serial_le k s.running
  simp only [listed, map_append, count_append]
  simp only [owners, held] at once
  omega

theorem accounted_of_balanced (own : Owned s) (bal : Balanced s) : Accounted s := by
  have nodup := nodup_listed own
  simp only [listed, map_append, nodup_append'] at nodup
  obtain ⟨⟨ready, timer, readyTimer⟩, running, queuedRunning⟩ := nodup
  obtain ⟨readyRunning, timerRunning⟩ := disjoint_append_left.mp queuedRunning
  exact
    { readyNodup := ready, timerNodup := timer, runningNodup := running
      readyTimer, readyRunning, timerRunning
      waiting := by rw [bal.count, tally]
      sleeping := by rw [bal.count, tally]
      running := by rw [bal.count, tally]
      linked := by
        rw [bal.count, tally, held_eq_listed]
        rfl
      total := by simp only [bal.count, tally]
      periodic := by rw [bal.count, tally, held_eq_listed, countP_eq_load]
      persist := by rw [bal.count, tally, held_eq_listed, countP_eq_load]
      noUnderflow := bal.noUnderflow }

theorem accounted_of_run {labels : List Op} {s : Sys}
    (run : Run step Accountable taskInit labels s) : Accounted s := by
  have kept := run.invariant (I := fun s => Owned s ∧ Balanced s)
    (fun inv sound h => ⟨owned_step inv.1 h, balanced_step inv.1 inv.2 sound h⟩)
    ⟨owned_taskInit, balanced_taskInit⟩
  exact accounted_of_balanced kept.1 kept.2

theorem accounted_chain_run : ∃ labels s, Run step Accountable taskInit labels s ∧
    Accounted s ∧ s.ready.length = 1 := by
  have run : Run step Accountable taskInit
      [.create (sampleSpec .once), .create (sampleSpec .once),
        .submit (sampleNode 0 .once) [sampleNode 1 .once] 0, .assign .any true 0,
        .finish ⟨{ sampleNode 0 .once with state := .running, runCount := 1 },
          [sampleNode 1 .once], 0⟩ .ended 10 0 false] _ :=
    .cons trivial rfl (.cons trivial rfl (.cons ⟨by decide, by decide⟩ rfl
      (.cons trivial rfl (.cons ⟨by decide, by decide⟩ rfl (.nil _)))))
  exact ⟨_, _, run, accounted_of_run run, rfl⟩

/-- Cancelling a queued task frees its chain and leaves the chain in `linked` and `total`. -/
theorem not_accounted_cancelled_chain : ¬ ∀ s, Reachable step taskInit s → Accounted s := by
  intro all
  have reached : Reachable step taskInit _ :=
    ⟨[.create (sampleSpec .deferred), .create (sampleSpec .once),
      .submit (sampleNode 0 .deferred) [sampleNode 1 .once] 0, .cancel 1], run_of_exec rfl⟩
  have linked := (all _ reached).linked
  revert linked
  decide

end BotManager.TaskAccounting
