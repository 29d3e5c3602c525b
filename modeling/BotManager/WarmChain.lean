import BotManager.StepRun
import BotManager.WarmPhases

/-! The lifetime of the warm chains. A drain that refuses has turned bodies away while it waited,
and a close wakes a drain before it releases. Without these, and with one drain at a time, each
chain is released once, a drain that returns true leaves nothing behind, and one that returns
false ends no chain. -/

namespace BotManager.WarmChain
open List KeyedPart StepRun WarmModel WarmPhases

section Drains

variable {m : Mode} {s : Sys} {ks : List Chain} {live failed : List ℕ} {c : ℕ}

theorem cancelAll_part (c : ℕ) (own : Own ks) (queue : List Task) :
    (part Chain.id c (cancelAll ks queue).1, part Task.chain c (cancelAll ks queue).2) =
      cancelAll (part Chain.id c ks) (part Task.chain c queue) := by
  induction ks generalizing queue with
  | nil => rfl
  | cons k rest ih =>
    have ih := fun queue => ih (fun k mem => own k (mem_cons_of_mem _ mem)) queue
    have ownTask := own k mem_cons_self
    cases handle : k.handle with
    | none =>
      have ih := Prod.mk.inj (ih queue)
      by_cases same : k.id = c <;> simp [cancelAll, handle, same, ih.1, ih.2]
    | some task =>
      have chain := ownTask task handle
      by_cases queued : task ∈ queue
      · have ih := Prod.mk.inj (ih (queue.erase task))
        by_cases same : k.id = c <;>
          simp [cancelAll, handle, queued, same, chain, ih.1, ih.2, part_erase]
      · have ih := Prod.mk.inj (ih queue)
        by_cases same : k.id = c <;> simp [cancelAll, handle, queued, same, ih.1, ih.2]

theorem cancelAll_ids : (cancelAll ks queue).1.map Chain.id = ks.map Chain.id := by
  induction ks generalizing queue with
  | nil => rfl
  | cons k rest ih =>
    unfold cancelAll
    cases k.handle with
    | none => simp [ih]
    | some task => by_cases queued : task ∈ queue <;> simp [queued, ih]

theorem placed_drain (inv : Inv .idle s) (c : ℕ) :
    Placed .waiting s.opened c (view (drain s) c) := by
  have drains : s.drains = [] := inv.mode.2.2
  have parts := Prod.mk.inj (cancelAll_part c inv.own s.queue)
  obtain ⟨p, lives, allowed, fresh⟩ := inv.placed c
  generalize before : view s c = v at lives
  have after : view (drain s) c = ⟨(cancelAll v.records v.tasks).1, v.threads,
      (cancelAll v.records v.tasks).2, v.dead, v.released⟩ := by
    rw [← before]
    simp [drain, parts.1, parts.2, drains, Drain.dead]
  rw [after]
  cases lives with
  | fresh => exact placed_next fresh .fresh rfl rfl
  | @held k x running spent unparked holds =>
    simp only [cancelAll, spent]
    exact placed_next fresh (.held running spent unparked holds) rfl rfl
  | @fired k task handle _ unparked =>
    simp only [cancelAll, handle, not_mem_nil, if_false]
    exact placed_next fresh (.held rfl rfl unparked rfl) rfl rfl
  | @armed k task handle _ _ _ =>
    simp only [cancelAll, handle, mem_singleton, if_true, erase_cons_head]
    exact placed_next fresh (.parked rfl rfl) rfl rfl
  | closing => exact placed_next fresh .closing rfl rfl
  | released => exact placed_next fresh .released rfl rfl
  | _ => cases allowed

theorem placed_detach (inv : Inv .waiting s) (free : busy s = none)
    (drains : s.drains = [.waiting live]) (c : ℕ) :
    Placed .reaping s.opened c (view (detach s live) c) := by
  obtain ⟨p, lives, allowed, fresh⟩ := inv.placed c
  have idle : ∀ k ∈ (view s c).records, k.running = false := fun k mem =>
    eq_false_of_ne_true (find?_eq_none.mp free k (mem_part.mp mem).1)
  generalize before : view s c = v at lives idle
  have dead : v.dead = 0 := by
    rw [← before]
    simp [drains, Drain.dead]
  have after : view (detach s live) c =
      ⟨[], v.threads, v.tasks, v.records.length, v.released⟩ := by
    rw [← before]
    simp [detach, drains, Drain.dead, ids, count_map_key]
  rw [after]
  cases lives with
  | fresh => exact placed_next fresh .fresh rfl rfl
  | held running _ _ _ => exact absurd (idle _ mem_cons_self) (by simp [running])
  | parked _ _ => exact placed_next fresh .dead rfl rfl
  | closing => exact placed_next fresh .closing rfl rfl
  | released => exact placed_next fresh .released rfl rfl
  | _ => cases allowed

@[simp] theorem resubmit_id : (resubmit failed k serial).1.id = k.id := by
  unfold resubmit
  split_ifs <;> rfl

theorem resubmit_part :
    part Task.chain c (resubmit failed k serial).2 =
      if k.id = c then (resubmit failed k serial).2 else [] := by
  unfold resubmit
  by_cases same : k.id = c <;> split_ifs <;> simp [same]

theorem rearm_ids : (rearm failed ks queue serial).1.map Chain.id = ks.map Chain.id := by
  induction ks generalizing queue serial with
  | nil => rfl
  | cons k rest ih => simp [rearm, ih]

theorem rearm_part_nil (failed : List ℕ) (none : part Chain.id c ks = []) (queue : List Task)
    (serial : ℕ) :
    part Chain.id c (rearm failed ks queue serial).1 = [] ∧
      part Task.chain c (rearm failed ks queue serial).2.1 = part Task.chain c queue := by
  induction ks generalizing queue serial with
  | nil => exact ⟨rfl, rfl⟩
  | cons k rest ih =>
    have other : k.id ≠ c := by
      intro same
      simp [same] at none
    simp only [part_cons, other, if_false] at none
    simp [rearm, resubmit_part, other, ih none]

theorem rearm_part_one (failed : List ℕ) {k : Chain} (one : part Chain.id c ks = [k])
    (queue : List Task) (serial : ℕ) : ∃ n,
      part Chain.id c (rearm failed ks queue serial).1 = [(resubmit failed k n).1] ∧
      part Task.chain c (rearm failed ks queue serial).2.1 =
        (resubmit failed k n).2 ++ part Task.chain c queue := by
  induction ks generalizing queue serial with
  | nil => cases one
  | cons first rest ih =>
    by_cases same : first.id = c
    · simp only [part_cons, same, if_true, cons.injEq] at one
      obtain ⟨rfl, none⟩ := one
      refine ⟨serial, ?_⟩
      simp [rearm, resubmit_part, same, rearm_part_nil failed none]
    · simp only [part_cons, same, if_false] at one
      obtain ⟨n, records, tasks⟩ := ih one ((resubmit failed first serial).2 ++ queue)
        (serial + (resubmit failed first serial).2.length)
      refine ⟨n, ?_⟩
      simp [rearm, resubmit_part, same, records, tasks]

theorem placed_refuse (inv : Inv .waiting s) (drains : s.drains = [.waiting live])
    (submits : ∀ k ∈ s.chains, k.parked = true → k.id ∉ failed) (c : ℕ) :
    Placed .idle s.opened c (view (refuse s live failed) c) := by
  obtain ⟨p, lives, allowed, fresh⟩ := inv.placed c
  have parked : ∀ k ∈ (view s c).records, k.parked = true → k.id ∉ failed ∧ k.id = c :=
    fun k mem isParked => ⟨submits k (mem_part.mp mem).1 isParked, (mem_part.mp mem).2⟩
  generalize before : view s c = v at lives parked
  -- the parts of the new lists that the phase of the chain depends on
  have after : ∀ records tasks,
      part Chain.id c (rearm failed s.chains s.queue s.serial).1 = records →
      part Task.chain c (rearm failed s.chains s.queue s.serial).2.1 = tasks →
      view (refuse s live failed) c = ⟨records, v.threads, tasks, v.dead, v.released⟩ := by
    rintro records tasks rfl rfl
    rw [← before]
    simp [refuse, drains, Drain.dead]
  have queue : part Task.chain c s.queue = v.tasks := congrArg View.tasks before
  have listed : part Chain.id c s.chains = v.records := congrArg View.records before
  have unlisted (none : v.records = []) : view (refuse s live failed) c = v := by
    obtain ⟨records, tasks⟩ :=
      rearm_part_nil failed (listed.trans none) s.queue s.serial
    rw [after _ _ records (tasks.trans queue), ← none]
  cases lives with
  | @held k x running spent unparked holds =>
    obtain ⟨n, records, tasks⟩ := rearm_part_one failed listed s.queue s.serial
    rw [queue] at tasks
    rw [after _ _ records tasks]
    simp only [resubmit, unparked, Bool.false_eq_true, if_false, append_nil]
    exact placed_next fresh (.held running spent unparked holds) rfl rfl
  | @parked k spent isParked =>
    obtain ⟨n, records, tasks⟩ := rearm_part_one failed listed s.queue s.serial
    obtain ⟨submitted, own⟩ := parked k mem_cons_self isParked
    rw [queue] at tasks
    rw [after _ _ records tasks]
    simp only [resubmit, isParked, if_true, submitted, if_false, append_nil]
    exact placed_next fresh (.armed rfl own rfl rfl) rfl rfl
  | fresh =>
    rw [unlisted rfl]
    exact placed_next fresh .fresh rfl rfl
  | closing =>
    rw [unlisted rfl]
    exact placed_next fresh .closing rfl rfl
  | released =>
    rw [unlisted rfl]
    exact placed_next fresh .released rfl rfl
  | _ => cases allowed

theorem placed_reap (inv : Inv .reaping s) {rest : List ℕ}
    (drains : s.drains = [.reaping (c :: rest)]) (d : ℕ) :
    Placed .reaping s.opened d (view (reap s c rest) d) := by
  have after : (reap s c rest).drains = [.reaping rest] := by simp [reap, drains]
  obtain ⟨p, lives, allowed, fresh⟩ := inv.placed d
  by_cases same : d = c
  · subst same
    have count : (view s d).dead = rest.count d + 1 := by simp [drains, Drain.dead]
    generalize before : view s d = v at lives count
    cases lives with
    | dead =>
      have last : rest.count d = 0 := Nat.succ.inj count.symm
      simp only [view, View.mk.injEq] at before
      obtain ⟨records, threads, tasks, -, released⟩ := before
      have here : view (reap s d rest) d = ⟨[], [], [], 0, 1⟩ := by
        simp only [view, after]
        simp [reap, Drain.dead, records, threads, tasks, released, last]
      rw [here]
      exact placed_next fresh .released rfl rfl
    | _ => cases count
  · have frame : view (reap s c rest) d = view s d := by
      have other : c ≠ d := fun eq => same eq.symm
      simp only [view, after, drains]
      simp [reap, Drain.dead, other]
    rw [frame]
    exact ⟨p, lives, allowed, fresh⟩

theorem placed_leave (inv : Inv .reaping s) (drains : s.drains = [.reaping []])
    (ended : ∀ x ∈ s.threads, x.holds = true) (c : ℕ) :
    Placed .stopped s.opened c (view (leave s) c) := by
  have same : view (leave s) c = view s c := by simp [leave, drains, Drain.dead]
  have none : (view s c).dead = 0 := by simp [drains, Drain.dead]
  have holds : ∀ x ∈ (view s c).threads, x.holds = true :=
    fun x mem => ended x (mem_part.mp mem).1
  obtain ⟨p, lives, allowed, fresh⟩ := inv.placed c
  rw [same]
  generalize view s c = v at lives none holds
  cases lives with
  | fresh => exact placed_next fresh .fresh rfl rfl
  | released => exact placed_next fresh .released rfl rfl
  | closing => cases holds _ mem_cons_self
  | dead => cases none
  | _ => cases allowed

variable (inv : Inv m s)
include inv

theorem inv_drain (alone : s.drains = []) : ∃ m', Inv m' (drain s) := by
  have drains : (drain s).drains = [.waiting (ids s)] := by rw [drain, alone]
  have mode := inv.mode
  cases m with
  | idle =>
    refine ⟨.waiting, ⟨rfl, mode.2.1, _, drains⟩, placed_drain inv, inv.turned, ?_⟩
    intro live waits c mem
    rw [drains] at waits
    cases mem_singleton.mp waits
    left
    unfold ids drain
    rw [cancelAll_ids]
    exact mem
  | stopped =>
    have quiet := inv.quiet
    refine ⟨.stopped, inv.stays rfl mode.2.1 ?_ ?_ rfl ?_ rfl rfl rfl⟩
    · intro d mem
      rw [drains, inv.ids_eq_nil] at mem
      exact .inl (mem_singleton.mp mem)
    · simp [drain, quiet.chains, cancelAll]
    · simp [drain, quiet.chains, cancelAll]
  | waiting =>
    obtain ⟨-, -, live, some⟩ := mode
    cases alone.symm.trans some
  | reaping =>
    obtain ⟨-, -, dead, some⟩ := mode
    cases alone.symm.trans some

variable (waits : .waiting live ∈ s.drains)
include waits

theorem inv_detach (free : busy s = none) :
    ∃ m', Inv m' (detach s live) := by
  have mode := inv.mode
  rcases inv.of_waiting waits with ⟨rfl, drains⟩ | rfl
  · have after : (detach s live).drains = [.reaping (ids s)] := by simp [detach, drains]
    refine ⟨.reaping, ⟨mode.1, mode.2.1, _, after⟩, placed_detach inv free drains,
      inv.turned, ?_⟩
    intro other there
    rw [after] at there
    cases mem_singleton.mp there
  · refine ⟨.stopped, inv.stays mode.1 mode.2.1 ?_ rfl rfl rfl rfl rfl rfl⟩
    intro d mem
    rw [detach, inv.ids_eq_nil] at mem
    rcases mem_cons.mp mem with rfl | old
    · exact .inr rfl
    · exact mode.2.2 d (mem_of_mem_erase old)

theorem inv_refuse (offender : busy s ≠ none)
    (submits : ∀ k ∈ s.chains, k.parked = true → k.id ∉ failed) :
    Inv .idle (refuse s live failed) := by
  rcases inv.of_waiting waits with ⟨rfl, drains⟩ | rfl
  · have after : (refuse s live failed).drains = [] := by simp [refuse, drains]
    refine ⟨⟨rfl, inv.mode.2.1, after⟩, placed_refuse inv drains submits, inv.turned, ?_⟩
    intro other there
    rw [after] at there
    cases there
  · rw [busy, inv.quiet.chains] at offender
    exact absurd rfl offender

theorem survives_refuse (offender : busy s ≠ none)
    (welcome : ∀ c ∈ live, c ∉ s.turned) (submits : ∀ k ∈ s.chains, k.parked = true → k.id ∉ failed) :
    ∀ c ∈ live, Survives (refuse s live failed) c := by
  intro c mem
  have after := inv_refuse inv waits offender submits
  rcases inv.tracked live waits c mem with listed | ended | turned
  · apply after.survives _ (welcome c mem)
    unfold ids refuse
    rw [rearm_ids]
    exact listed
  · exact .inr (.inr ended)
  · exact absurd turned (welcome c mem)

omit waits

theorem inv_reap {rest : List ℕ} (reaps : .reaping (c :: rest) ∈ s.drains) :
    Inv m (reap s c rest) := by
  have mode := inv.mode
  rcases inv.of_reaping reaps with ⟨rfl, drains⟩ | ⟨-, none⟩
  · have after : (reap s c rest).drains = [.reaping rest] := by simp [reap, drains]
    refine ⟨⟨mode.1, mode.2.1, rest, after⟩, placed_reap inv drains, inv.turned, ?_⟩
    intro live there
    rw [after] at there
    cases mem_singleton.mp there
  · cases none

theorem inv_leave (reaps : .reaping [] ∈ s.drains) (ended : ∀ x ∈ s.threads, x.holds = true) :
    Inv .stopped (leave s) := by
  have mode := inv.mode
  rcases inv.of_reaping reaps with ⟨rfl, drains⟩ | ⟨rfl, -⟩
  · have after : (leave s).drains = [] := by simp [leave, drains]
    refine ⟨⟨mode.1, rfl, ?_⟩, placed_leave inv drains ended, inv.turned, ?_⟩
    · intro d mem
      rw [after] at mem
      cases mem
    · intro live there
      rw [after] at there
      cases there
  · exact inv.stays mode.1 rfl (fun d mem => mode.2.2 d (mem_of_mem_erase mem))
      inv.quiet.chains rfl rfl rfl rfl rfl

theorem inv_reset (alone : s.drains = []) : Inv .idle (reset s) := by
  have mode := inv.mode
  refine ⟨⟨rfl, rfl, alone⟩, fun c => ?_, inv.turned, inv.tracked⟩
  obtain ⟨p, lives, allowed, fresh⟩ := inv.placed c
  refine ⟨p, lives, ?_, fresh⟩
  cases m with
  | idle => exact allowed
  | stopped => cases p <;> first | rfl | cases allowed
  | waiting =>
    obtain ⟨-, -, live, some⟩ := mode
    cases alone.symm.trans some
  | reaping =>
    obtain ⟨-, -, dead, some⟩ := mode
    cases alone.symm.trans some

end Drains

section Runs

/-- One drain at a time. It returns true when no thread is between the unlink and the release of
a close, and false when it has refused none of its chains and every submit of a parked chain
succeeds. -/
def Keeps (s : Sys) : Op → Prop
  | .drain => s.drains = []
  | .refuse live failed =>
    (∀ c ∈ live, c ∉ s.turned) ∧ ∀ k ∈ s.chains, k.parked = true → k.id ∉ failed
  | .leave => ∀ x ∈ s.threads, x.holds = true
  | .reset => s.drains = []
  | _ => True

instance (s : Sys) (op : Op) : Decidable (Keeps s op) := by
  unfold Keeps
  split <;> infer_instance

theorem inv_init : Inv .idle init := by
  refine ⟨⟨rfl, rfl, rfl⟩, fun c => ?_, ?_, ?_⟩
  · exact ⟨.fresh, .fresh, rfl, fun _ => Nat.zero_le c, fun _ => rfl⟩
  · intro c mem
    cases mem
  · intro live waits
    cases waits

theorem inv_step {s : Sys} {op : Op} {t : Sys} (inv : ∃ m, Inv m s) (keeps : Keeps s op)
    (head : step s op = some t) : ∃ m, Inv m t := by
  obtain ⟨m, inv⟩ := inv
  cases op with
  | openChain =>
    cases head
    exact ⟨m, inv_openChain inv⟩
  | arm c hop submitted =>
    obtain ⟨mem, rfl⟩ := fired head
    exact ⟨m, inv_arm inv mem hop submitted⟩
  | fire task =>
    obtain ⟨mem, rfl⟩ := fired head
    exact ⟨m, inv_fire inv mem⟩
  | enter c =>
    obtain ⟨mem, rfl⟩ := fired head
    exact ⟨m, inv_enter inv mem⟩
  | close x =>
    obtain ⟨⟨mem, closes⟩, rfl⟩ := fired head
    exact ⟨m, inv_close inv mem closes⟩
  | release c =>
    obtain ⟨mem, rfl⟩ := fired head
    exact ⟨m, inv_release inv mem⟩
  | drain =>
    cases head
    exact inv_drain inv keeps
  | detach live =>
    obtain ⟨⟨waits, free⟩, rfl⟩ := fired head
    exact inv_detach inv waits free
  | refuse live failed =>
    obtain ⟨⟨waits, offender⟩, rfl⟩ := fired head
    exact ⟨.idle, inv_refuse inv waits offender keeps.2⟩
  | reap c rest =>
    obtain ⟨reaps, rfl⟩ := fired head
    exact ⟨m, inv_reap inv reaps⟩
  | leave =>
    obtain ⟨reaps, rfl⟩ := fired head
    exact ⟨.stopped, inv_leave inv reaps keeps⟩
  | reset =>
    cases head
    exact ⟨.idle, inv_reset inv keeps⟩

structure Lifetime (ok : Sys → Op → Prop) (s : Sys) : Prop where
  sound : Sound s
  quiet : s.stopped = true → Quiet s
  refused : ∀ live failed t, ok s (.refuse live failed) →
    step s (.refuse live failed) = some t → ∀ c ∈ live, Survives t c

theorem warm_chain_lifetime {ops : List Op} {s : Sys} (run : Run step Keeps init ops s) :
    Lifetime Keeps s := by
  obtain ⟨m, inv⟩ := run.invariant inv_step ⟨.idle, inv_init⟩
  constructor
  · exact inv.sound
  · exact inv.quiet_of_stopped
  · intro live failed t keeps head
    obtain ⟨⟨waits, offender⟩, rfl⟩ := fired head
    exact survives_refuse inv waits offender keeps.1 keeps.2

def warmup : Hop := ⟨"wm_warmup", 50, 0⟩

def twoDrains : List Op :=
  [.openChain, .arm 0 warmup true, .openChain, .drain, .refuse [1, 0] [], .arm 1 warmup true,
    .fire ⟨1, 0, warmup⟩, .drain, .enter 0, .close (.turnedAway 0), .release 0, .detach [1, 0],
    .reap 1 [], .leave]

theorem warm_chain_lifetime_two_drains :
    ∃ s, Run step Keeps init twoDrains s ∧ s.stopped = true ∧ s.released = [1, 0] ∧
      Lifetime Keeps s := by
  have run : Run step Keeps init twoDrains _ := runWhen_get (by decide +kernel)
  exact ⟨_, run, by decide +kernel, by decide +kernel, warm_chain_lifetime run⟩

/-- Two drains at once reap armed chains, a drain returns true before the release of a close, and
a drain that returns false has ended a chain: one whose body it turned away, or one it could not
submit again. -/
theorem not_warm_chain_lifetime :
    (¬ ∀ ops s, Run step Any init ops s → Sound s) ∧
    (¬ ∀ ops s, Run step Any init ops s → s.stopped = true → Quiet s) ∧
    (¬ ∀ ops s live t, Run step Any init ops s → step s (.refuse live []) = some t →
      ∀ c ∈ live, Survives t c) ∧
    ¬ ∀ ops s live failed t, Run step Any init ops s → (∀ c ∈ live, c ∉ s.turned) →
      step s (.refuse live failed) = some t → ∀ c ∈ live, Survives t c := by
  refine ⟨?_, ?_, ?_, ?_⟩
  · intro sound
    have run : Run step Any init [.openChain, .openChain, .drain, .drain, .refuse [1, 0] [],
        .arm 0 warmup true, .arm 1 warmup true, .detach [1, 0], .fire ⟨0, 0, warmup⟩] _ :=
      run_get (by decide +kernel)
    exact absurd ((sound _ _ run).held (.fired 0) (by decide +kernel) rfl).1 (by decide +kernel)
  · intro quiet
    have run : Run step Any init [.openChain, .drain, .close (.inside 0), .detach [0], .leave] _ :=
      run_get (by decide +kernel)
    exact absurd (quiet _ _ run (by decide +kernel)).threads (by decide +kernel)
  · intro survives
    have run : Run step Any init [.openChain, .openChain, .drain, .arm 0 warmup true,
        .close (.turnedAway 0), .release 0] _ :=
      run_get (by decide +kernel)
    have ended := survives _ _ [1, 0] _ run (Option.some_get (by decide +kernel)).symm 0 (by decide)
    exact absurd ended (by decide +kernel)
  · intro survives
    have run : Run step Any init [.openChain, .arm 0 warmup true, .openChain, .drain] _ :=
      run_get (by decide +kernel)
    have lost := survives _ _ [1, 0] [0] _ run (by decide +kernel) (Option.some_get (by decide +kernel)).symm 0 (by decide)
    exact absurd lost (by decide +kernel)

end Runs

end BotManager.WarmChain
