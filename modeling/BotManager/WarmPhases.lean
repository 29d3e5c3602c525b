import BotManager.WarmModel

/-! The phases of a warm chain. Every chain is in one phase, which its own part of the lists shows:
held by a thread, armed, parked by a drain, unlinked with its release to come, or released. The
calls on a chain move that chain alone. -/

namespace BotManager.WarmPhases
open List KeyedPart WarmModel

section Releases

def pendingReleases (s : Sys) (c : ℕ) : ℕ :=
  s.threads.count (.releasing c) + (s.drains.flatMap Drain.dead).count c

structure Sound (s : Sys) : Prop where
  once : ∀ c, s.released.count c ≤ 1
  ended : ∀ c < s.opened, c ∉ ids s → pendingReleases s c + s.released.count c = 1
  held : ∀ x ∈ s.threads, x.holds = true →
    x.chain ∈ ids s ∧ pendingReleases s x.chain + s.released.count x.chain = 0
  queued : ∀ task ∈ s.queue,
    task.chain ∈ ids s ∧ pendingReleases s task.chain + s.released.count task.chain = 0

structure Quiet (s : Sys) : Prop where
  threads : s.threads = []
  queue : s.queue = []
  chains : s.chains = []
  released : ∀ c < s.opened, s.released.count c = 1

/-- The chain is held by a thread that no drain has refused, or armed, or has ended by itself. -/
def Survives (s : Sys) (c : ℕ) : Prop :=
  (∃ x ∈ s.threads, x.chain = c ∧ x.holds = true ∧ x ≠ .turnedAway c) ∨
    (∃ k ∈ s.chains, ∃ task ∈ s.queue,
      k.id = c ∧ task.chain = c ∧ k.handle = some task ∧ task.hop = k.hop) ∨
    c ∈ s.ownEnd

instance (s : Sys) (c : ℕ) : Decidable (Survives s c) := inferInstanceAs (Decidable (_ ∨ _ ∨ _))

end Releases

section Phases

structure View where
  records : List Chain
  threads : List Thread
  tasks : List Task
  dead : ℕ
  released : ℕ

@[simp] def view (s : Sys) (c : ℕ) : View where
  records := part Chain.id c s.chains
  threads := part Thread.chain c s.threads
  tasks := part Task.chain c s.queue
  dead := (s.drains.flatMap Drain.dead).count c
  released := s.released.count c

inductive Phase
  | fresh
  | held
  | fired
  | armed
  | parked
  | closing
  | dead
  | released
  deriving DecidableEq

inductive Lives (c : ℕ) : View → Phase → Prop
  | fresh : Lives c ⟨[], [], [], 0, 0⟩ .fresh
  | held {k : Chain} {x : Thread} (running : k.running = true) (spent : k.handle = none)
      (unparked : k.parked = false) (holds : x.holds = true) :
      Lives c ⟨[k], [x], [], 0, 0⟩ .held
  | fired {k : Chain} {task : Task} (handle : k.handle = some task) (own : task.chain = c)
      (unparked : k.parked = false) : Lives c ⟨[k], [.fired c], [], 0, 0⟩ .fired
  | armed {k : Chain} {task : Task} (handle : k.handle = some task) (own : task.chain = c)
      (unparked : k.parked = false) (hop : task.hop = k.hop) :
      Lives c ⟨[k], [], [task], 0, 0⟩ .armed
  | parked {k : Chain} (spent : k.handle = none) (parked : k.parked = true) :
      Lives c ⟨[k], [], [], 0, 0⟩ .parked
  | closing : Lives c ⟨[], [.releasing c], [], 0, 0⟩ .closing
  | dead : Lives c ⟨[], [], [], 1, 0⟩ .dead
  | released : Lives c ⟨[], [], [], 0, 1⟩ .released

inductive Mode
  | idle
  | waiting
  | reaping
  | stopped

def Allowed : Mode → Phase → Bool
  | .idle, p => decide (p ≠ .parked ∧ p ≠ .dead)
  | .waiting, p => decide (p ≠ .fired ∧ p ≠ .armed ∧ p ≠ .dead)
  | .reaping, p => decide (p = .fresh ∨ p = .closing ∨ p = .dead ∨ p = .released)
  | .stopped, p => decide (p = .fresh ∨ p = .released)

def InMode (s : Sys) : Mode → Prop
  | .idle => s.draining = false ∧ s.stopped = false ∧ s.drains = []
  | .waiting => s.draining = true ∧ s.stopped = false ∧ ∃ live, s.drains = [.waiting live]
  | .reaping => s.draining = true ∧ s.stopped = false ∧ ∃ dead, s.drains = [.reaping dead]
  | .stopped => s.draining = true ∧ s.stopped = true ∧
      ∀ d ∈ s.drains, d = .waiting [] ∨ d = .reaping []

def Placed (m : Mode) (opened c : ℕ) (v : View) : Prop :=
  ∃ p, Lives c v p ∧ Allowed m p = true ∧ (p = .fresh ↔ opened ≤ c)

structure Inv (m : Mode) (s : Sys) : Prop where
  mode : InMode s m
  placed : ∀ c, Placed m s.opened c (view s c)
  turned : ∀ c, .turnedAway c ∈ s.threads → c ∈ s.turned
  tracked : ∀ live, .waiting live ∈ s.drains → ∀ c ∈ live,
    c ∈ ids s ∨ c ∈ s.ownEnd ∨ c ∈ s.turned

end Phases

variable {v : View} {p : Phase} {task : Task}

section Reading

variable {m : Mode} {s : Sys} {c : ℕ}

theorem mem_ids {s : Sys} : c ∈ ids s ↔ (view s c).records ≠ [] := by
  constructor
  · intro mem empty
    obtain ⟨k, there, own⟩ := mem_map.mp mem
    have here : k ∈ (view s c).records := mem_part.mpr ⟨there, own⟩
    rw [empty] at here
    cases here
  · intro some
    obtain ⟨k, here⟩ := exists_mem_of_ne_nil _ some
    obtain ⟨there, own⟩ := mem_part.mp here
    exact mem_map.mpr ⟨k, there, own⟩

theorem count_releasing :
    (view s c).threads.count (.releasing c) = s.threads.count (.releasing c) := by
  apply count_filter
  exact decide_eq_true rfl

theorem Lives.releases (lives : Lives c v p) :
    v.released ≤ 1 ∧
      (v.records ≠ [] → v.threads.count (.releasing c) + v.dead + v.released = 0) ∧
      (v.records = [] → p ≠ .fresh →
        v.threads.count (.releasing c) + v.dead + v.released = 1) := by
  cases lives with
  | held _ _ _ holds =>
    refine ⟨Nat.zero_le _, fun _ => ?_, fun empty => absurd empty (cons_ne_nil _ _)⟩
    simp only [count_singleton, Nat.add_zero, ite_eq_right_iff]
    intro same
    rw [beq_iff_eq] at same
    rw [same] at holds
    cases holds
  | _ => simp

theorem Lives.records_of_thread (lives : Lives c v p) {x : Thread}
    (mem : x ∈ v.threads) (holds : x.holds = true) : v.records ≠ [] := by
  cases lives with
  | closing =>
    obtain rfl := mem_singleton.mp mem
    cases holds
  | held _ _ _ _ | fired _ _ _ => exact cons_ne_nil _ _
  | _ => cases mem

theorem Lives.records_of_task (lives : Lives c v p)
    (mem : task ∈ v.tasks) : v.records ≠ [] := by
  cases lives with
  | armed _ _ _ _ => exact cons_ne_nil _ _
  | _ => cases mem

theorem Inv.sound (inv : Inv m s) : Sound s := by
  have listed : ∀ c, (view s c).records ≠ [] →
      c ∈ ids s ∧ pendingReleases s c + s.released.count c = 0 := by
    intro c some
    obtain ⟨p, lives, -, -⟩ := inv.placed c
    have none := lives.releases.2.1 some
    rw [count_releasing] at none
    exact ⟨mem_ids.mpr some, none⟩
  constructor
  · intro c
    obtain ⟨p, lives, -, -⟩ := inv.placed c
    exact lives.releases.1
  · intro c opened unlisted
    obtain ⟨p, lives, -, fresh⟩ := inv.placed c
    have gone : (view s c).records = [] := by
      by_contra some
      exact unlisted (mem_ids.mpr some)
    have one := lives.releases.2.2 gone fun isFresh => absurd (fresh.mp isFresh) (by omega)
    rwa [count_releasing] at one
  · intro x mem holds
    obtain ⟨p, lives, -, -⟩ := inv.placed x.chain
    exact listed _ (lives.records_of_thread (mem_part.mpr ⟨mem, rfl⟩) holds)
  · intro task mem
    obtain ⟨p, lives, -, -⟩ := inv.placed task.chain
    exact listed _ (lives.records_of_task (mem_part.mpr ⟨mem, rfl⟩))

theorem Inv.quiet (inv : Inv .stopped s) : Quiet s := by
  have gone : ∀ c, (view s c).records = [] ∧ (view s c).threads = [] ∧ (view s c).tasks = [] ∧
      (c < s.opened → (view s c).released = 1) := by
    intro c
    obtain ⟨p, lives, allowed, fresh⟩ := inv.placed c
    generalize view s c = v at lives
    cases lives with
    | fresh => exact ⟨rfl, rfl, rfl, fun opened => absurd (fresh.mp rfl) (by omega)⟩
    | released => exact ⟨rfl, rfl, rfl, fun _ => rfl⟩
    | _ => cases allowed
  exact {
    threads := eq_nil_of_parts fun c => (gone c).2.1
    queue := eq_nil_of_parts fun c => (gone c).2.2.1
    chains := eq_nil_of_parts fun c => (gone c).1
    released := fun c => (gone c).2.2.2 }

theorem Inv.quiet_of_stopped (inv : Inv m s) (stopped : s.stopped = true) : Quiet s := by
  have mode := inv.mode
  cases m with
  | stopped => exact inv.quiet
  | _ => exact absurd (mode.2.1.symm.trans stopped) (by decide)

theorem Inv.survives (inv : Inv .idle s) (listed : c ∈ ids s) (welcome : c ∉ s.turned) :
    Survives s c := by
  have some := mem_ids.mp listed
  obtain ⟨p, lives, allowed, -⟩ := inv.placed c
  have threads : ∀ x ∈ (view s c).threads, x ∈ s.threads ∧ x.chain = c := fun x => mem_part.mp
  have records : ∀ k ∈ (view s c).records, k ∈ s.chains ∧ k.id = c := fun k => mem_part.mp
  have tasks : ∀ t ∈ (view s c).tasks, t ∈ s.queue ∧ t.chain = c := fun t => mem_part.mp
  generalize view s c = v at lives some threads records tasks
  cases lives with
  | @held k x _ _ _ holds =>
    obtain ⟨mem, own⟩ := threads x mem_cons_self
    refine .inl ⟨x, mem, own, holds, ?_⟩
    rintro rfl
    exact welcome (inv.turned c mem)
  | @fired k task _ _ _ =>
    obtain ⟨mem, own⟩ := threads _ mem_cons_self
    exact .inl ⟨_, mem, own, rfl, by simp⟩
  | @armed k task handle _ _ hop =>
    obtain ⟨mem, own⟩ := records k mem_cons_self
    obtain ⟨queued, ofChain⟩ := tasks task mem_cons_self
    exact .inr (.inl ⟨k, mem, task, queued, own, ofChain, handle, hop⟩)
  | parked _ _ => cases allowed
  | _ => exact absurd rfl some

def Own (ks : List Chain) : Prop := ∀ k ∈ ks, ∀ task, k.handle = some task → task.chain = k.id

theorem Inv.own (inv : Inv m s) : Own s.chains := by
  intro k mem task handle
  obtain ⟨p, lives, -, -⟩ := inv.placed k.id
  have here : k ∈ (view s k.id).records := mem_part.mpr ⟨mem, rfl⟩
  generalize view s k.id = v at lives here
  cases lives with
  | held _ spent _ _ | parked spent _ =>
    rw [mem_singleton.mp here, spent] at handle
    cases handle
  | fired shown own _ | armed shown own _ _ =>
    rw [mem_singleton.mp here, shown] at handle
    cases handle
    exact own
  | _ => cases here

theorem Inv.of_waiting (inv : Inv m s) {live : List ℕ} (waits : .waiting live ∈ s.drains) :
    m = .waiting ∧ s.drains = [.waiting live] ∨ m = .stopped := by
  have mode := inv.mode
  cases m with
  | idle =>
    rw [mode.2.2] at waits
    cases waits
  | waiting =>
    obtain ⟨-, -, live', drains⟩ := mode
    rw [drains] at waits
    cases mem_singleton.mp waits
    exact .inl ⟨rfl, drains⟩
  | reaping =>
    obtain ⟨-, -, dead, drains⟩ := mode
    rw [drains] at waits
    cases mem_singleton.mp waits
  | stopped => exact .inr rfl

theorem Inv.of_reaping (inv : Inv m s) {dead : List ℕ} (reaps : .reaping dead ∈ s.drains) :
    m = .reaping ∧ s.drains = [.reaping dead] ∨ m = .stopped ∧ dead = [] := by
  have mode := inv.mode
  cases m with
  | idle =>
    rw [mode.2.2] at reaps
    cases reaps
  | waiting =>
    obtain ⟨-, -, live, drains⟩ := mode
    rw [drains] at reaps
    cases mem_singleton.mp reaps
  | reaping =>
    obtain ⟨-, -, dead', drains⟩ := mode
    rw [drains] at reaps
    cases mem_singleton.mp reaps
    exact .inl ⟨rfl, drains⟩
  | stopped =>
    rcases mode.2.2 _ reaps with waiting | empty
    · cases waiting
    · cases empty
      exact .inr ⟨rfl, rfl⟩

theorem Inv.stays (inv : Inv .stopped s) {t : Sys} (draining : t.draining = true)
    (stopped : t.stopped = true) (drains : ∀ d ∈ t.drains, d = .waiting [] ∨ d = .reaping [])
    (chains : t.chains = []) (threads : t.threads = s.threads) (queue : t.queue = s.queue)
    (opened : t.opened = s.opened) (released : t.released = s.released)
    (turned : t.turned = s.turned) : Inv .stopped t where
  mode := ⟨draining, stopped, drains⟩
  placed := fun c => by
    have empty : ∀ ds : List Drain, (∀ d ∈ ds, d = .waiting [] ∨ d = .reaping []) →
        ds.flatMap Drain.dead = [] := by
      intro ds all
      apply flatMap_eq_nil_iff.mpr
      intro d mem
      rcases all d mem with rfl | rfl <;> rfl
    have same : view t c = view s c := by
      unfold view
      rw [chains, inv.quiet.chains, threads, queue, released, empty _ drains,
        empty _ inv.mode.2.2]
    rw [same, opened]
    exact inv.placed c
  turned := fun c away => turned ▸ inv.turned c (threads ▸ away)
  tracked := fun live waits c mem => by
    rcases drains _ waits with none | reaps
    · cases none
      cases mem
    · cases reaps

theorem Inv.ids_eq_nil (inv : Inv .stopped s) : ids s = [] := by
  rw [ids, inv.quiet.chains]
  rfl

end Reading

section Calls

variable {m : Mode} {s t : Sys}

theorem Inv.at (inv : Inv m s) (c : ℕ)
    (mode : t.draining = s.draining ∧ t.stopped = s.stopped ∧ t.drains = s.drains)
    (opened : t.opened = s.opened) (frame : ∀ d, d ≠ c → view t d = view s d)
    (here : Placed m s.opened c (view t c))
    (turned : ∀ d, .turnedAway d ∈ t.threads → d ∈ t.turned)
    (kept : ∀ d, d ∈ ids s ∨ d ∈ s.ownEnd ∨ d ∈ s.turned →
      d ∈ ids t ∨ d ∈ t.ownEnd ∨ d ∈ t.turned) : Inv m t where
  mode := by
    have before := inv.mode
    unfold InMode at before ⊢
    rwa [mode.1, mode.2.1, mode.2.2]
  placed := fun d => by
    rw [opened]
    by_cases same : d = c
    · rw [same]
      exact here
    · rw [frame d same]
      exact inv.placed d
  turned := turned
  tracked := fun live waits d mem => kept d (inv.tracked live (mode.2.2 ▸ waits) d mem)

structure Alone (s : Sys) (c : ℕ) (k : Chain) (x : Thread) : Prop where
  records : part Chain.id c s.chains = [k]
  threads : part Thread.chain c s.threads = [x]
  tasks : part Task.chain c s.queue = []
  dead : (s.drains.flatMap Drain.dead).count c = 0
  released : s.released.count c = 0

variable {c opened : ℕ} {x : Thread} {p : Phase}

theorem alone_of_view {k : Chain} (eq : view s c = ⟨[k], [x], [], 0, 0⟩) : Alone s c k x where
  records := congrArg View.records eq
  threads := congrArg View.threads eq
  tasks := congrArg View.tasks eq
  dead := congrArg View.dead eq
  released := congrArg View.released eq

theorem opened_of_used (fresh : p = .fresh ↔ opened ≤ c) (used : decide (p = .fresh) = false) :
    c < opened := by
  by_contra late
  exact of_decide_eq_false used (fresh.mpr (by omega))

theorem placed_next {p' : Phase} (fresh : p = .fresh ↔ opened ≤ c) (lives : Lives c v p')
    (same : decide (p' = .fresh) = decide (p = .fresh)) (allowed : Allowed m p' = true) :
    Placed m opened c v :=
  ⟨p', lives, allowed, (decide_eq_decide.mp same).trans fresh⟩

theorem placed_used (old : c < opened) (lives : Lives c v p)
    (used : decide (p = .fresh) = false) (allowed : Allowed m p = true) : Placed m opened c v :=
  ⟨p, lives, allowed, iff_of_false (of_decide_eq_false used) (by omega)⟩

variable (inv : Inv m s)
include inv

theorem Inv.alone_of_closes (mem : x ∈ s.threads) (closes : x.closes = true) :
    ∃ k, Alone s x.chain k x ∧
      k.running = true ∧ k.handle = none ∧ k.parked = false ∧ Allowed m .held = true ∧
      x.chain < s.opened := by
  obtain ⟨p, lives, allowed, fresh⟩ := inv.placed x.chain
  have here : x ∈ (view s x.chain).threads := mem_part.mpr ⟨mem, rfl⟩
  generalize eq : view s x.chain = v at lives here
  cases lives with
  | @held k y running spent unparked _ =>
    obtain rfl := mem_singleton.mp here
    exact ⟨k, alone_of_view eq, running, spent, unparked, allowed, opened_of_used fresh rfl⟩
  | fired _ _ _ | closing =>
    rw [mem_singleton.mp here] at closes
    cases closes
  | _ => cases here

theorem Inv.alone_of_fired (mem : .fired c ∈ s.threads) :
    ∃ k, Alone s c k (.fired c) ∧ k.parked = false ∧ Allowed m .held = true ∧
      c < s.opened := by
  obtain ⟨p, lives, allowed, fresh⟩ := inv.placed c
  have here : .fired c ∈ (view s c).threads := mem_part.mpr ⟨mem, rfl⟩
  generalize eq : view s c = v at lives here
  cases lives with
  | @held k y _ _ unparked _ =>
    obtain rfl := mem_singleton.mp here
    exact ⟨k, alone_of_view eq, unparked, allowed, opened_of_used fresh rfl⟩
  | @fired k task _ _ unparked =>
    refine ⟨k, alone_of_view eq, unparked, ?_, opened_of_used fresh rfl⟩
    cases m with
    | idle => rfl
    | _ => cases allowed
  | closing => cases mem_singleton.mp here
  | _ => cases here

theorem Inv.idle (off : s.draining ≠ true) : m = .idle := by
  have mode := inv.mode
  cases m with
  | idle => rfl
  | _ => exact absurd mode.1 off

theorem inv_openChain : Inv m (openChain s) := by
  unfold openChain
  by_cases draining : s.draining = true
  · rw [if_pos draining]
    exact inv
  · rw [if_neg draining]
    obtain rfl := inv.idle draining
    obtain ⟨p, lives, -, fresh⟩ := inv.placed s.opened
    obtain rfl := fresh.mpr (Nat.le_refl _)
    generalize before : view s s.opened = v at lives
    cases lives
    simp only [view, View.mk.injEq] at before
    obtain ⟨records, threads, tasks, dead, released⟩ := before
    refine ⟨inv.mode, fun c => ?_, ?_, ?_⟩
    · by_cases same : c = s.opened
      · subst same
        simp only [view, part_cons, Thread.chain_inside, if_true, records, threads, tasks, dead,
          released]
        exact placed_used (Nat.lt_succ_self _) (.held rfl rfl rfl rfl) rfl rfl
      · obtain ⟨p, lives, allowed, fresh⟩ := inv.placed c
        have other : s.opened ≠ c := fun eq => same eq.symm
        refine ⟨p, ?_, allowed, ?_⟩
        · simpa [other] using lives
        · rw [fresh]
          show s.opened ≤ c ↔ s.opened + 1 ≤ c
          omega
    · intro c mem
      exact inv.turned c ((mem_cons.mp mem).resolve_left (by simp))
    · intro live waits c mem
      exact (inv.tracked live waits c mem).imp_left (mem_cons_of_mem _)

theorem inv_armRefused (mem : .inside c ∈ s.threads) : Inv m (armRefused s c) := by
  obtain ⟨k, alone, running, spent, unparked, allowed, old⟩ := inv.alone_of_closes mem rfl
  simp only [Thread.chain_inside] at alone old
  refine inv.at c ⟨rfl, rfl, rfl⟩ rfl ?_ ?_ ?_ ?_
  · intro d other
    simp [armRefused, part_erase, other.symm]
  · have here : view (armRefused s c) c = ⟨[k], [.turnedAway c], [], 0, 0⟩ := by
      simp [armRefused, part_erase, alone.records, alone.threads, alone.tasks, alone.dead, alone.released]
    rw [here]
    exact placed_used old (.held running spent unparked rfl) rfl allowed
  · intro d away
    rcases mem_cons.mp away with same | before
    · cases same
      exact mem_cons_self
    · exact mem_cons_of_mem _ (inv.turned d (mem_of_mem_erase before))
  · intro d kept
    exact kept.imp_right (Or.imp_right (mem_cons_of_mem _))

omit inv

theorem inv_armSubmitted (inv : Inv .idle s) (mem : .inside c ∈ s.threads) :
    Inv .idle (armSubmitted s c hop) := by
  obtain ⟨k, alone, -, -, -, -, old⟩ := inv.alone_of_closes mem rfl
  simp only [Thread.chain_inside] at alone old
  refine inv.at c ⟨rfl, rfl, rfl⟩ rfl ?_ ?_ ?_ ?_
  · intro d other
    simp [armSubmitted, part_modify, part_erase, other, other.symm]
  · have here : view (armSubmitted s c hop) c = ⟨[{ k with
        hop := hop, handle := some ⟨s.serial, c, hop⟩, parked := false, running := false }], [],
        [⟨s.serial, c, hop⟩], 0, 0⟩ := by
      simp [armSubmitted, part_modify, part_erase, alone.records, alone.threads, alone.tasks, alone.dead, alone.released]
    rw [here]
    exact placed_used old (.armed rfl rfl rfl rfl) rfl rfl
  · intro d away
    exact inv.turned d (mem_of_mem_erase away)
  · intro d kept
    unfold ids armSubmitted
    rw [map_modify]
    · exact kept
    · exact fun _ => rfl

variable (inv : Inv m s)
include inv

theorem inv_armFailed (mem : .inside c ∈ s.threads) : Inv m (armFailed s c hop) := by
  obtain ⟨k, alone, running, spent, unparked, allowed, old⟩ := inv.alone_of_closes mem rfl
  simp only [Thread.chain_inside] at alone old
  refine inv.at c ⟨rfl, rfl, rfl⟩ rfl ?_ ?_ ?_ ?_
  · intro d other
    simp [armFailed, part_modify, part_erase, other, other.symm]
  · have here : view (armFailed s c hop) c =
        ⟨[{ k with hop := hop }], [.failed c], [], 0, 0⟩ := by
      simp [armFailed, part_modify, part_erase, alone.records, alone.threads, alone.tasks, alone.dead, alone.released]
    rw [here]
    exact placed_used old (.held running spent unparked rfl) rfl allowed
  · intro d away
    have before := (mem_cons.mp away).resolve_left (by simp)
    exact inv.turned d (mem_of_mem_erase before)
  · intro d kept
    unfold ids armFailed
    rw [map_modify]
    · exact kept
    · exact fun _ => rfl

theorem inv_arm (mem : .inside c ∈ s.threads) (hop : Hop) (submitted : Bool) :
    Inv m (arm s c hop submitted) := by
  unfold arm
  by_cases draining : s.draining = true
  · rw [if_pos draining]
    exact inv_armRefused inv mem
  · rw [if_neg draining]
    obtain rfl := inv.idle draining
    cases submitted with
    | true => exact inv_armSubmitted inv mem
    | false => exact inv_armFailed inv mem

theorem inv_fire (mem : task ∈ s.queue) : Inv m (fire s task) := by
  obtain ⟨p, lives, allowed, fresh⟩ := inv.placed task.chain
  have there : task ∈ (view s task.chain).tasks := mem_part.mpr ⟨mem, rfl⟩
  generalize before : view s task.chain = v at lives there
  cases lives with
  | @armed k armed handle own unparked _ =>
    obtain rfl := mem_singleton.mp there
    simp only [view, View.mk.injEq] at before
    obtain ⟨records, threads, tasks, dead, released⟩ := before
    refine inv.at task.chain ⟨rfl, rfl, rfl⟩ rfl ?_ ?_ ?_ ?_
    · intro d other
      simp [fire, part_erase, other.symm]
    · have here : view (fire s task) task.chain = ⟨[k], [.fired task.chain], [], 0, 0⟩ := by
        simp [fire, part_erase, records, threads, tasks, dead, released]
      rw [here]
      apply placed_next fresh (.fired handle rfl unparked) rfl
      cases m with
      | idle => rfl
      | _ => cases allowed
    · intro d away
      exact inv.turned d ((mem_cons.mp away).resolve_left (by simp))
    · intro d kept
      exact kept
  | _ => cases there

theorem inv_enter (mem : .fired c ∈ s.threads) : Inv m (enter s c) := by
  obtain ⟨k, alone, unparked, allowed, old⟩ := inv.alone_of_fired mem
  refine inv.at c ⟨rfl, rfl, rfl⟩ rfl ?_ ?_ ?_ ?_
  · intro d other
    by_cases draining : s.draining = true <;>
      simp [enter, part_modify, part_erase, draining, other, other.symm]
  · have here : view (enter s c) c = ⟨[{ k with handle := none, running := true }],
        [if s.draining then .turnedAway c else .inside c], [], 0, 0⟩ := by
      by_cases draining : s.draining = true <;>
        simp [enter, part_modify, part_erase, draining, alone.records, alone.threads, alone.tasks, alone.dead, alone.released]
    rw [here]
    refine placed_used old (.held rfl rfl unparked ?_) rfl allowed
    split_ifs <;> rfl
  · intro d away
    by_cases draining : s.draining = true
    · simp only [enter, draining, if_true] at away ⊢
      rcases mem_cons.mp away with same | before
      · cases same
        exact mem_cons_self
      · exact mem_cons_of_mem _ (inv.turned d (mem_of_mem_erase before))
    · simp only [enter, draining] at away ⊢
      have before := (mem_cons.mp away).resolve_left (by simp)
      exact inv.turned d (mem_of_mem_erase before)
  · intro d kept
    unfold ids enter
    rw [map_modify]
    · refine kept.imp_right (Or.imp_right fun turned => ?_)
      dsimp only
      split_ifs
      · exact mem_cons_of_mem _ turned
      · exact turned
    · exact fun _ => rfl

theorem inv_close (mem : x ∈ s.threads) (closes : x.closes = true) :
    Inv m (close s x) := by
  obtain ⟨k, alone, -, -, -, allowed, old⟩ := inv.alone_of_closes mem closes
  refine inv.at x.chain ⟨rfl, rfl, rfl⟩ rfl ?_ ?_ ?_ ?_
  · intro d other
    simp [close, part_remove, part_erase, other, other.symm]
  · have here : view (close s x) x.chain = ⟨[], [.releasing x.chain], [], 0, 0⟩ := by
      simp [close, part_remove, part_erase, alone.threads, alone.tasks, alone.dead, alone.released]
    rw [here]
    apply placed_used old .closing rfl
    cases m with
    | idle | waiting => rfl
    | _ => cases allowed
  · intro d away
    have before := (mem_cons.mp away).resolve_left (by simp)
    exact inv.turned d (mem_of_mem_erase before)
  · intro d kept
    by_cases same : d = x.chain
    · by_cases away : x = .turnedAway x.chain
      · exact .inr (.inr (same ▸ inv.turned _ (away ▸ mem)))
      · have ended : d ∈ (close s x).ownEnd := by simp [close, away, same]
        exact .inr (.inl ended)
    · rcases kept with listed | ended | turned
      · left
        obtain ⟨k, there, rfl⟩ := mem_map.mp listed
        exact mem_map.mpr ⟨k, mem_filter.mpr ⟨there, decide_eq_true same⟩, rfl⟩
      · right; left
        unfold close
        dsimp only
        split_ifs
        · exact ended
        · exact mem_cons_of_mem _ ended
      · exact .inr (.inr turned)

theorem inv_release (mem : .releasing c ∈ s.threads) : Inv m (release s c) := by
  obtain ⟨p, lives, allowed, fresh⟩ := inv.placed c
  have there : .releasing c ∈ (view s c).threads := mem_part.mpr ⟨mem, rfl⟩
  generalize before : view s c = v at lives there
  cases lives with
  | closing =>
    simp only [view, View.mk.injEq] at before
    obtain ⟨records, threads, tasks, dead, released⟩ := before
    refine inv.at c ⟨rfl, rfl, rfl⟩ rfl ?_ ?_ ?_ ?_
    · intro d other
      simp [release, part_erase, other.symm]
    · have here : view (release s c) c = ⟨[], [], [], 0, 1⟩ := by
        simp [release, part_erase, records, threads, tasks, dead, released]
      rw [here]
      apply placed_next fresh .released rfl
      cases m <;> rfl
    · intro d away
      exact inv.turned d (mem_of_mem_erase away)
    · intro d kept
      exact kept
  | held _ _ _ holds =>
    obtain rfl := mem_singleton.mp there
    cases holds
  | fired _ _ _ => cases mem_singleton.mp there
  | _ => cases there

end Calls

end BotManager.WarmPhases
