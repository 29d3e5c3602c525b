import BotManager.SockModel
import BotManager.StepRun

/-! A queued send is not stranded: while the session is CONNECTED and its queue holds data, epoll
watches it for EPOLLOUT or a wake of its worker is pending. The runs are those of `sock_send`
with the EPOLLOUT handling and the wake handling of the worker, and `epoll_ctl` succeeds. -/

namespace BotManager.SockWake
open List FramePool SockModel StepRun

section Statement

def NotStranded (s : Sys) : Prop :=
  s.threads.flatten = [] → s.state = .connected → s.queue ≠ [] → s.interest = true ∨ s.wake = true

structure Settled (s : Sys) : Prop where
  idle : s.threads.head? = some []
  quiet : s.threads.flatten = []
  armed : s.epolloutArmed = true → s.interest = true
  held : s.state = .connected → s.fd ≠ none
  woken : NotStranded s

/-- The sends, the EPOLLOUT handling of a connected session and the wake handling. -/
def Sends (s : Sys) : Op → Prop
  | .send _ => True
  | .event err out inp => err = false ∧ out = true ∧ inp = false ∧ s.state = .connected
  | .wakeEvent => True
  | .turn _ c => c.ctl = none
  | _ => False

def disarming : Frame → Bool
  | .rearm false => true
  | .setArmed false => true
  | _ => false

def queues : Frame → Bool
  | .enqueue _ => true
  | _ => false

/-- A send that finds the flag set is queued only while no disarm is due or under way. -/
def Fits (s : Shared) (f : Frame) (others : List Frame) : Prop :=
  queues f = true → s.epolloutArmed = true → others.countP disarming = 0

def Unhurried (s : Sys) : Op → Prop
  | .turn i _ => ∀ r ∈ top s.threads i, Fits s.toShared r.1 (s.threads.set i r.2).flatten
  | _ => True

def Keeps (s : Sys) (op : Op) : Prop := Sends s op ∧ Unhurried s op

instance (s : Sys) (op : Op) : Decidable (Sends s op) := by
  unfold Sends
  split <;> infer_instance

instance (s : Shared) (f : Frame) (others : List Frame) : Decidable (Fits s f others) :=
  inferInstanceAs (Decidable (_ → _ → _))

instance (s : Sys) (op : Op) : Decidable (Unhurried s op) := by
  unfold Unhurried
  split <;> infer_instance

instance (s : Sys) (op : Op) : Decidable (Keeps s op) :=
  inferInstanceAs (Decidable (_ ∧ _))

end Statement

section Invariant

inductive Task (s : Shared) : List Frame → Prop
  | idle : Task s []
  | event (connected : s.state = .connected) : Task s [.epollEvent false true false]
  | eventOut (connected : s.state = .connected) : Task s [.eventOut]
  | drain (connected : s.state = .connected) : Task s [.drain]
  | rearm (connected : s.state = .connected) (out : Bool) : Task s [.rearm out]
  | setArmed (out : Bool) (set : out = true → s.interest = true) : Task s [.setArmed out]
  | drainWake : Task s [.drainWake]
  | scan : Task s [.scan]
  | hasData (connected : s.state = .connected) : Task s [.hasData]

def sending : Frame → Bool
  | .send _ => true
  | .enqueue _ => true
  | .wakeWorker => true
  | _ => false

@[simp] def Roused (s : Shared) (worker others : List Frame) : Prop :=
  s.wake = true ∨ .wakeWorker ∈ others ∨
    worker ∈ [[.drainWake], [.scan], [.hasData], [.rearm true]] ∨
    s.interest = true ∧ worker ≠ [.rearm false]

structure Inv (s : Shared) (worker others : List Frame) : Prop where
  task : Task s worker
  senders : ∀ f ∈ others, sending f = true
  armed : s.epolloutArmed = true → s.interest = true ∨ worker = [.setArmed false]
  held : s.state = .connected → s.fd ≠ none
  roused : s.state = .connected → s.queue ≠ [] → Roused s worker others

variable {s : Shared} {c : Choice} {f : Frame} {worker others others' : List Frame}

theorem Task.congr {t : Shared} (task : Task s worker) (state : t.state = s.state)
    (interest : t.interest = s.interest) : Task t worker := by
  cases task with
  | idle => exact .idle
  | event connected => exact .event (state.trans connected)
  | eventOut connected => exact .eventOut (state.trans connected)
  | drain connected => exact .drain (state.trans connected)
  | rearm connected out => exact .rearm (state.trans connected) out
  | setArmed out set => exact .setArmed out fun on => interest.trans (set on)
  | drainWake => exact .drainWake
  | scan => exact .scan
  | hasData connected => exact .hasData (state.trans connected)

theorem Inv.tail (inv : Inv s worker (f :: others)) (silent : f ≠ .wakeWorker) :
    Inv s worker others where
  __ := inv
  senders := fun g mem => inv.senders g (.tail _ mem)
  roused := by
    intro connected queued
    rcases inv.roused connected queued with wake | sender | rest
    · exact .inl wake
    · exact .inr (.inl ((mem_cons.mp sender).resolve_left silent.symm))
    · exact .inr (.inr rest)

variable (inv : Inv s worker others)
include inv

theorem Inv.perm (same : others.Perm others') :
    Inv s worker others' where
  __ := inv
  senders := fun f mem => inv.senders f (same.mem_iff.mpr mem)
  roused := by
    intro connected queued
    rw [Roused, ← same.mem_iff]
    exact inv.roused connected queued

theorem Inv.cons (sends : sending f = true) :
    Inv s worker (f :: others) where
  __ := inv
  senders := by
    intro g mem
    rcases mem_cons.mp mem with rfl | old
    · exact sends
    · exact inv.senders g old
  roused := by
    intro connected queued
    rcases inv.roused connected queued with wake | sender | rest
    · exact .inl wake
    · exact .inr (.inl (.tail _ sender))
    · exact .inr (.inr rest)

theorem Inv.enqueue (buf : { l : List UInt8 // 0 < l.length })
    (fits : s.epolloutArmed = true → worker.countP disarming = 0) :
    Inv (enqueue s buf) worker ((if s.epolloutArmed then [] else [.wakeWorker]) ++ others) := by
  have task : Task (SockModel.enqueue s buf) worker := inv.task.congr rfl rfl
  cases armed : s.epolloutArmed with
  | false =>
    refine ⟨task, ?_, inv.armed, inv.held, fun _ _ => .inr (.inl (.head _))⟩
    exact (inv.cons rfl).senders
  | true =>
    refine ⟨task, inv.senders, inv.armed, inv.held, fun _ _ => ?_⟩
    have none := fits armed
    rcases inv.armed armed with set | rfl
    · refine .inr (.inr (.inr ⟨set, ?_⟩))
      rintro rfl
      cases none
    · cases none

theorem Inv.interest (elsewhere : worker ≠ [.setArmed false])
    (set : s.epolloutArmed = true) : s.interest = true :=
  (inv.armed set).resolve_right elsewhere

theorem Inv.still (elsewhere : worker ≠ [.setArmed false])
    (set : s.epolloutArmed = true) : s.interest = true ∨ others' = [.setArmed false] :=
  .inl (inv.interest elsewhere set)

omit inv

theorem Inv.send (inv : Inv s worker (f :: others))
    (fits : queues f = true → s.epolloutArmed = true → worker.countP disarming = 0) :
    Inv (act s c f).1 worker ((act s c f).2 ++ others) := by
  have sends := inv.senders f (.head _)
  cases f with
  | send buf =>
    rw [act]
    dsimp only
    split_ifs
    · exact (inv.tail (by simp)).cons rfl
    · exact inv.tail (by simp)
  | enqueue buf =>
    have others := inv.tail (by simp)
    rw [act]
    by_cases room : full s c.sendQueueMax buf.1.length
    · rw [if_pos room]
      exact others
    · rw [if_neg room]
      exact others.enqueue buf (fits rfl)
  | wakeWorker =>
    exact ⟨inv.task.congr rfl rfl, fun g mem => inv.senders g (.tail _ mem), inv.armed, inv.held,
      fun _ _ => .inl rfl⟩
  | _ => cases sends

theorem drain_frame (s : Shared) (writes : List (Option ℕ)) :
    (drain s writes).state = s.state ∧ (drain s writes).fd = s.fd ∧
    (drain s writes).interest = s.interest ∧ (drain s writes).wake = s.wake ∧
    (drain s writes).epolloutArmed = s.epolloutArmed ∧
    (s.queue = [] → (drain s writes).queue = []) := by
  cases held : s.fd with
  | none => simp [drain, held]
  | some d =>
    simp only [drain, held, true_and]
    intro empty
    rw [empty]
    rfl

theorem Inv.work (inv : Inv s [f] others) (ctl : c.ctl = none) :
    Inv (act s c f).1 (act s c f).2 others := by
  have task := inv.task
  cases task with
  | event connected =>
    have open_ : ¬ (s.state = .closed ∨ s.fd = none) := by
      rintro (closed | bare)
      · rw [connected] at closed
        cases closed
      · exact inv.held connected bare
    rw [act, if_neg open_]
    refine ⟨.eventOut connected, inv.senders, inv.still (by simp), inv.held, fun live queued => ?_⟩
    have roused := inv.roused live queued
    simpa using roused
  | eventOut connected =>
    rw [act, connected]
    refine ⟨.drain connected, inv.senders, inv.still (by simp), inv.held, fun live queued => ?_⟩
    have roused := inv.roused live queued
    simpa [writable] using roused
  | drain connected =>
    obtain ⟨state, fd, interest, wake, flag, empty⟩ := drain_frame s c.writes
    rw [act]
    dsimp only
    split_ifs with drained
    · refine ⟨.rearm (state.trans connected) false, inv.senders, fun set => ?_, ?_, ?_⟩
      · rw [flag] at set
        rw [interest]
        exact inv.still (by simp) set
      · rw [state, fd]
        exact inv.held
      · exact fun _ queued => absurd drained queued
    · refine ⟨.idle, inv.senders, fun set => ?_, ?_, fun _ _ => ?_⟩
      · rw [flag] at set
        rw [interest]
        exact inv.still (by simp) set
      · rw [state, fd]
        exact inv.held
      · have roused := inv.roused connected fun none => drained (empty none)
        rw [Roused, wake, interest]
        simpa using roused
  | rearm connected out =>
    rw [act, if_neg (inv.held connected), ctl]
    dsimp only
    refine ⟨.setArmed out fun on => on, inv.senders, fun set => ?_, inv.held,
      fun live queued => ?_⟩
    · cases out with
      | true => exact .inl rfl
      | false => exact .inr rfl
    · cases out with
      | true => exact .inr (.inr (.inr ⟨rfl, by simp⟩))
      | false =>
        have roused := inv.roused live queued
        simpa using roused
  | setArmed out set =>
    refine ⟨.idle, inv.senders, fun on => .inl (set on), inv.held, fun live queued => ?_⟩
    have roused := inv.roused live queued
    simpa [act] using roused
  | drainWake =>
    rw [act]
    refine ⟨.scan, inv.senders, inv.still (by simp), inv.held, fun _ _ => ?_⟩
    exact .inr (.inr (.inl (by simp)))
  | scan =>
    rw [act]
    dsimp only
    split_ifs with passes
    · refine ⟨.hasData passes.1, inv.senders, inv.still (by simp), inv.held, fun _ _ => ?_⟩
      exact .inr (.inr (.inl (by simp)))
    · refine ⟨.idle, inv.senders, inv.still (by simp), inv.held, fun live queued => ?_⟩
      -- a connected session is passed over only when its flag is set, and then EPOLLOUT is
      have set : s.epolloutArmed = true := by
        by_contra clear
        exact passes ⟨live, inv.held live, by simpa using clear⟩
      exact .inr (.inr (.inr ⟨inv.interest (by simp) set, by simp⟩))
  | hasData connected =>
    rw [act]
    dsimp only
    split_ifs with empty
    · exact ⟨.idle, inv.senders, inv.still (by simp), inv.held, fun _ queued => absurd empty queued⟩
    · refine ⟨.rearm connected true, inv.senders, inv.still (by simp), inv.held, fun _ _ => ?_⟩
      exact .inr (.inr (.inl (by simp)))

end Invariant

variable {s t : Sys}

section System

def Sound (s : Sys) : Prop :=
  ∃ worker senders, s.threads = worker :: senders ∧ Inv s.toShared worker senders.flatten

theorem Settled.sound (settled : Settled s) : Sound s := by
  have idle := settled.idle
  have quiet := settled.quiet
  cases threads : s.threads with
  | nil =>
    rw [threads] at idle
    cases idle
  | cons worker senders =>
    rw [threads] at idle quiet
    cases idle
    refine ⟨[], senders, threads, .idle, fun f mem => ?_, fun set => .inl (settled.armed set),
      settled.held, fun connected queued => ?_⟩
    · rw [flatten_cons, nil_append] at quiet
      rw [quiet] at mem
      cases mem
    · rcases settled.woken settled.quiet connected queued with interest | wake
      · exact .inr (.inr (.inr ⟨interest, by simp⟩))
      · exact .inl wake

theorem Sound.worked {f : Frame} (sound : Sound s) (task : Task s.toShared [f])
    (idle : f ≠ .rearm false) (moved : work s f = some t) : Sound t := by
  obtain ⟨worker, senders, threads, inv⟩ := sound
  obtain ⟨free, rfl⟩ := fired moved
  rw [threads] at free
  cases free
  refine ⟨[f], senders, by rw [threads]; rfl, task, inv.senders, inv.still (by simp), inv.held,
    fun connected queued => ?_⟩
  rcases inv.roused connected queued with wake | sender | looks | ⟨interest, -⟩
  · exact .inl wake
  · exact .inr (.inl sender)
  · simp at looks
  · exact .inr (.inr (.inr ⟨interest, by simpa using idle⟩))

theorem Sound.step {op : Op} (sound : Sound s) (keeps : Keeps s op)
    (moved : step s op = some t) : Sound t := by
  obtain ⟨sends, unhurried⟩ := keeps
  cases op with
  | send buf =>
    cases moved
    obtain ⟨worker, senders, threads, inv⟩ := sound
    refine ⟨worker, senders ++ [[.send buf]], by rw [spawn, threads]; rfl, ?_⟩
    rw [flatten_spawn]
    exact (inv.cons rfl).perm (perm_append_singleton _ _).symm
  | event err out inp =>
    obtain ⟨rfl, rfl, rfl, connected⟩ := sends
    exact sound.worked (.event connected) (by simp) moved
  | wakeEvent =>
    obtain ⟨-, moved⟩ := Option.ite_none_right_eq_some.mp moved
    exact sound.worked .drainWake (by simp) moved
  | turn i c =>
    cases found : top s.threads i with
    | none =>
      rw [SockModel.step, found] at moved
      cases moved
    | some r =>
      have fits := unhurried r found
      rw [SockModel.step, found] at moved
      cases moved
      obtain ⟨worker, senders, threads, inv⟩ := sound
      rw [threads] at found fits
      cases i with
      | zero =>
        -- the worker runs, and what it was at was all it had
        obtain ⟨f, rfl⟩ : ∃ f, worker = [f] := by
          cases inv.task with
          | idle => cases found
          | _ => exact ⟨_, rfl⟩
        cases found
        refine ⟨(act s.toShared c f).2, senders, ?_, inv.work sends⟩
        rw [threads]
        exact congrArg (· :: senders) (append_nil _)
      | succ i =>
        obtain ⟨before, after⟩ := turn_perm (show top senders i = some r from found)
        refine ⟨worker, senders.set i ((act s.toShared c r.1).2 ++ r.2), ?_, ?_⟩
        · rw [threads]
          rfl
        refine ((inv.perm before).send fun queues set => ?_).perm (after _).symm
        have none := fits queues set
        rw [set_cons_succ, flatten_cons, countP_append] at none
        omega
  | connect target | close | leg | ownSweep | sweep => exact sends.elim

theorem Sound.notStranded (sound : Sound s) : NotStranded s := by
  intro quiet connected queued
  obtain ⟨worker, senders, threads, inv⟩ := sound
  rw [threads, flatten_cons, append_eq_nil_iff] at quiet
  obtain ⟨rfl, none⟩ := quiet
  rcases inv.roused connected queued with wake | sender | looks | ⟨interest, -⟩
  · exact .inr wake
  · rw [none] at sender
    cases sender
  · simp at looks
  · exact .inl interest

theorem queued_send_woken {s t : Sys} {labels : List Op} (settled : Settled s)
    (run : Run step Keeps s labels t) : NotStranded t :=
  (run.invariant (I := Sound) Sound.step
    settled.sound).notStranded

def connected : Sys :=
  { created .tcp false with
    state := .connected, fd := some 1, conns := 1, attempt := 1, threads := [[]] }

theorem connected_settled : Settled connected where
  idle := rfl
  quiet := rfl
  armed := nofun
  held := nofun
  woken := fun _ _ queued => absurd rfl queued

theorem queued_send_woken_again :
    ∃ t, t.threads.flatten = [] ∧ t.queue ≠ [] ∧ t.interest = false ∧ t.wake = true ∧
      NotStranded t := by
  have run : Run step Keeps connected
      (.send [1] :: turns 1 3 ++ .wakeEvent :: turns 0 5 ++ .send [2] :: turns 2 2 ++
        .event false true false :: turns 0 2 ++ .turn 0 { calm with writes := [some 1, some 1] } ::
        .send [3] :: turns 3 1 ++ turns 0 2 ++ turns 3 2) _ :=
    runWhen_get (by decide +kernel)
  refine ⟨_, ?_, ?_, ?_, ?_, queued_send_woken connected_settled run⟩
  all_goals decide +kernel

/-- A send falls between the drain that emptied the queue and the disarm: it finds the flag still
set and wakes nobody. -/
theorem queued_send_stranded :
    ∃ s labels t, Settled s ∧ Run step Sends s labels t ∧ ¬ NotStranded t := by
  refine ⟨connected, (.send [1] :: turns 1 3 ++ .wakeEvent :: turns 0 5 ++ .event false true false :: turns 0 2 ++
        .turn 0 { calm with writes := [some 1] } :: .send [2] :: turns 2 2 ++
        turns 0 2), _,
    connected_settled, runWhen_get (by decide +kernel), fun fine => ?_⟩
  rcases fine (by decide +kernel) (by decide +kernel) (by decide +kernel) with armed | pending
  · exact absurd armed (by decide +kernel)
  · exact absurd pending (by decide +kernel)

end System

end BotManager.SockWake
