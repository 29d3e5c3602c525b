import BotManager.FramePool
import BotManager.StepRun

/-!
The IRC driver's reconnect backoff and the references to its state.

Every section under `sess_lock`, every call of the task and socket services and every change of
the reference count is one turn of a thread. A thread is the list of what it still has to do. The
Boolean of a turn is what the environment answers there: whether the scheduler takes a task,
whether the pool is shutting down, whether the configuration loads, a socket is made, or a
connection starts.
-/

namespace BotManager.IrcModel
open FramePool StepRun

/-- `irc_state_t` as far as the backoff goes, with the tasks the scheduler has queued, the
sessions that hold a reference, and how often the state was freed. -/
structure Irc where
  refs : ℕ
  dead : Bool
  shutdown : Bool
  arming : Bool
  task : Option ℕ
  session : Option ℕ
  queued : List ℕ
  live : List ℕ
  registered : Bool
  nextTask : ℕ
  nextSession : ℕ
  freed : ℕ
  deriving DecidableEq

inductive Frame
  -- irc_arm_reconnect
  | arm
  | submit
  | store (h : Option ℕ)
  | unwanted (h : ℕ)
  -- irc_reconnect_task
  | clear (h : ℕ)
  | look
  | take
  | taskEnd
  -- irc_attempt_connect
  | attempt
  | loadConfig
  | openSession
  | install
  | dial
  -- irc_disconnect
  | disconnect
  | silence
  -- irc_cancel_reconnect
  | cancel
  | cancelTask (h : Option ℕ)
  -- irc_destroy
  | retire
  | detach
  | sockDestroy (session : ℕ)
  | release
  deriving DecidableEq

@[simp] def Irc.hold (m : Irc) : Irc := { m with refs := m.refs + 1 }

def Irc.release (m : Irc) : Irc :=
  if m.refs - 1 ≠ 0 then { m with refs := m.refs - 1 }
  else { m with refs := 0, freed := m.freed + 1 }

/-- What irc_arm_reconnect asks before it reserves the slot. -/
def Irc.Free (m : Irc) : Prop := m.dead = false ∧ m.arming = false ∧ m.task = none

instance (m : Irc) : Decidable m.Free := inferInstanceAs (Decidable (_ ∧ _))

/-- `task_cancel`: true when the task was dequeued before it ever ran. -/
def Irc.taskCancel (m : Irc) (h : Option ℕ) : Irc × Bool :=
  match h with
  | none => (m, false)
  | some h => if h ∈ m.queued then ({ m with queued := m.queued.erase h }, true) else (m, false)

def giveBack (cancelled : Irc × Bool) : Irc × List Frame :=
  (cancelled.1, if cancelled.2 then [.release] else [])

def act (m : Irc) (yes : Bool) : Frame → Irc × List Frame
  | .arm => if m.Free then ({ m with arming := true }.hold, [.submit]) else (m, [])
  | .submit =>
    if yes then
      ({ m with queued := m.queued ++ [m.nextTask], nextTask := m.nextTask + 1 },
        [.store (some m.nextTask)])
    else (m, [.store none])
  | .store h =>
    ({ m with arming := false, task := if m.arming then h else m.task },
      match h with
      | none => [.release]
      | some h => if m.arming then [] else [.unwanted h])
  | .unwanted h => giveBack (m.taskCancel (some h))
  | .clear _ => ({ m with task := none, arming := false }, [])
  | .look => (m, if m.dead || m.shutdown || yes then [] else [.take])
  | .take => ({ m with session := none }, (m.session.toList.map .sockDestroy) ++ [.attempt])
  | .taskEnd => (m.release, [])
  | .attempt => (m, if m.dead || m.shutdown || yes then [] else [.loadConfig])
  | .loadConfig => (m, if yes then [.openSession] else [.arm])
  | .openSession =>
    (m, if m.session.isSome then [.dial] else if m.dead || !yes then [.arm] else [.install])
  | .install =>
    if m.session = none ∧ m.dead = false then
      ({ m with
          session := some m.nextSession
          live := m.nextSession :: m.live
          nextSession := m.nextSession + 1 }.hold, [.dial])
    else (m, if m.session.isSome then [.dial] else [.arm])
  | .dial => (m, if yes then [] else [.arm])
  | .disconnect => ({ m with shutdown := true }, [.silence])
  | .silence => ({ m with dead := true }, [.cancel])
  | .cancel => ({ m with task := none, arming := false }, [.cancelTask m.task])
  | .cancelTask h => giveBack (m.taskCancel h)
  | .retire => ({ m with dead := true }, [.detach])
  | .detach =>
    ({ m with session := none },
      [.cancel] ++ (m.session.toList.map .sockDestroy) ++ [.release])
  | .sockDestroy _ => (m, [])
  | .release => (m.release, [])

structure Sys where
  irc : Irc
  threads : List (List Frame)
  deriving DecidableEq

/-- A socket callback or a connect may arm at any time and on any thread; the scheduler fires a
queued task; the socket service reports a session done once it was destroyed; the instance is
unregistered once, with a disconnect before the destroy if it had been connected. -/
inductive Op
  | turn (i : ℕ) (yes : Bool)
  | arm
  | connect
  | fire (h : ℕ)
  | sessionDone (session : ℕ)
  | unregister (connected : Bool)
  deriving DecidableEq

def Sys.spawn (s : Sys) (m : Irc) (frames : List Frame) : Sys := ⟨m, s.threads ++ [frames]⟩

def step (s : Sys) : Op → Option Sys
  | .turn i yes => (top s.threads i).map fun (f, rest) =>
    ⟨(act s.irc yes f).1, s.threads.set i ((act s.irc yes f).2 ++ rest)⟩
  | .arm => some (s.spawn s.irc [.arm])
  | .connect => some (s.spawn s.irc [.attempt])
  | .fire h =>
    if h ∈ s.irc.queued then
      some (s.spawn { s.irc with queued := s.irc.queued.erase h } [.clear h, .look, .taskEnd])
    else none
  | .sessionDone session =>
    if session ∈ s.irc.live ∧ s.irc.session ≠ some session ∧
        Frame.sockDestroy session ∉ s.threads.flatten then
      some (s.spawn { s.irc with live := s.irc.live.erase session } [.release])
    else none
  | .unregister connected =>
    if s.irc.registered then
      some (s.spawn { s.irc with registered := false }
        ((if connected then [.disconnect] else []) ++ [.retire]))
    else none

def created : Sys where
  irc :=
    { refs := 1, dead := false, shutdown := false, arming := false, task := none, session := none
      queued := [], live := [], registered := true, nextTask := 0, nextSession := 0, freed := 0 }
  threads := []

/-! What a frame carries, for counting over all threads. -/

/-- The frame stands for a reference to the state that it or what it calls gives back. -/
@[simp] def carries : Frame → ℕ
  | .submit | .store none | .release | .retire | .detach | .taskEnd => 1
  | _ => 0

@[simp] def flying : Frame → ℕ
  | .submit | .store _ => 1
  | _ => 0

/-- A task about to be queued, or one that fired and has not cleared the slot yet. -/
@[simp] def ahead : Frame → ℕ
  | .submit | .clear _ => 1
  | _ => 0

@[simp] def owns (h : ℕ) : Frame → ℕ
  | .store (some h') | .unwanted h' | .cancelTask (some h') => if h' = h then 1 else 0
  | _ => 0

end BotManager.IrcModel
