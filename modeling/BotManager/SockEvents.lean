import BotManager.KeyedPart
import BotManager.SockModel
import BotManager.StepRun

/-! What the consumer of a session is told: between two calls of `sock_connect` at most one
terminal event, and nothing after it. A thread is committed from the test of the session that
lets it go on up to the store or the delivery that this leads to. -/

namespace BotManager.SockEvents
open List FramePool KeyedPart SockModel StepRun

section Statement

/-- In each attempt no event was delivered after a terminal one. -/
def OneTerminal (s : Shared) : Prop :=
  ∀ k, ∀ ev ∈ (valuesAt k s.log).tail, ev.terminal = false

/-- The frames that store a state, adopt a descriptor or deliver without another test. -/
def committed : Frame → Bool
  | .closing => true
  | .flush => true
  | .closeFd _ => true
  | .deliver _ => true
  | .report _ => true
  | .storeClosed => true
  | .startConnect => true
  | .submit => true
  | .adoptFd _ => true
  | .setConnecting => true
  | .startTls _ => true
  | .establish _ => true
  | .eventErr => true
  | .soError => true
  | _ => false

/-- A test lets a thread go on only while no other thread is committed, and the unix connect
task, which makes no test, runs while the session still resolves. -/
def Fits (s : Shared) (c : Choice) (f : Frame) (others : List Frame) : Prop :=
  (committed f = false → 0 < (act s c f).2.countP committed → others.countP committed = 0) ∧
    (f = .unixConnect → s.state = .resolving)

def Keeps (s : Sys) : Op → Prop
  | .turn i c => ∀ r ∈ top s.threads i, Fits s.toShared c r.1 (s.threads.set i r.2).flatten
  | _ => True

instance (s : Shared) (c : Choice) (f : Frame) (others : List Frame) :
    Decidable (Fits s c f others) :=
  inferInstanceAs (Decidable (_ ∧ _))

instance (s : Sys) : (op : Op) → Decidable (Keeps s op)
  | .turn _ _ => inferInstanceAs (Decidable (∀ r ∈ _, _))
  | .send _ | .connect _ | .close | .leg | .event _ _ _ | .wakeEvent | .ownSweep | .sweep =>
    .isTrue trivial

end Statement

variable {s t : Shared} {f : Frame}

section Log

def Ended (s : Shared) : Prop := ∃ ev ∈ valuesAt s.attempt s.log, ev.terminal = true

structure Told (s : Shared) : Prop where
  last : OneTerminal s
  known : ∀ x ∈ s.log, x.1 ≤ s.attempt

theorem not_ended_iff : ¬ Ended s ↔ ∀ ev ∈ valuesAt s.attempt s.log, ev.terminal = false := by
  simp [Ended]

theorem Told.emit (told : Told s) (going : ¬ Ended s) (ev : Event) : Told (emit s ev) where
  last := by
    intro k
    change ∀ e ∈ (valuesAt k ((s.attempt, ev) :: s.log)).tail, e.terminal = false
    rw [valuesAt_cons]
    split_ifs with here
    · subst here
      exact not_ended_iff.mp going
    · exact told.last k
  known := by
    intro x mem
    rcases mem_cons.mp mem with rfl | old
    · exact Nat.le_refl _
    · exact told.known x old

theorem emit_going (going : ¬ Ended s) {ev : Event} (plain : ev.terminal = false) :
    ¬ Ended (emit s ev) := by
  rw [not_ended_iff] at going ⊢
  intro e mem
  change e ∈ valuesAt s.attempt ((s.attempt, ev) :: s.log) at mem
  rw [valuesAt_cons, if_pos rfl] at mem
  rcases mem_cons.mp mem with rfl | old
  · exact plain
  · exact going e old

theorem Told.congr (told : Told s) (attempt : t.attempt = s.attempt)
    (log : t.log = s.log) : Told t := by
  constructor
  · intro k
    rw [log]
    exact told.last k
  · rw [attempt, log]
    exact told.known

theorem Told.next (told : Told s) (attempt : t.attempt = s.attempt + 1)
    (log : t.log = s.log) : Told t ∧ ¬ Ended t := by
  refine ⟨⟨?_, ?_⟩, ?_⟩
  · intro k
    rw [log]
    exact told.last k
  · intro x mem
    rw [log] at mem
    have old := told.known x mem
    omega
  · rintro ⟨ev, mem, -⟩
    rw [mem_valuesAt, log] at mem
    have old := told.known _ mem
    omega

end Log

section Invariant

def live : State → Bool
  | .connecting => true
  | .tlsHandshake => true
  | .connected => true
  | _ => false

structure Rest (s : Shared) : Prop where
  ended : Ended s → s.state = .closed
  held : s.fd ≠ none → live s.state = true

/-- What the test before a committed frame has found, and the frame relies on. -/
def Due (s : Shared) : Frame → Prop
  | .deliver ev => ¬ Ended s ∧ (s.fd ≠ none → live s.state = true) ∧
      (ev.terminal = true → s.state = .closed)
  | .closeFd ev => ¬ Ended s ∧ ev.terminal = true
  | .report _ => ¬ Ended s ∧ s.fd = none
  | .adoptFd _ => ¬ Ended s ∧ s.fd = none
  | .submit => ¬ Ended s ∧ s.fd = none
  | .storeClosed => s.fd = none
  | .startConnect => s.fd = none
  | .closing => ¬ Ended s
  | .flush => ¬ Ended s
  | .setConnecting => ¬ Ended s
  | .startTls _ => ¬ Ended s
  | .establish _ => ¬ Ended s
  | .eventErr => ¬ Ended s
  | .soError => ¬ Ended s
  | _ => True

structure Inv (s : Shared) (frames : List Frame) : Prop where
  told : Told s
  single : frames.countP committed ≤ 1
  due : ∀ f ∈ frames, Due s f
  rest : frames.countP committed = 0 → Rest s

variable {s t : Shared} {c : Choice} {f : Frame} {frames frames' others : List Frame}

theorem due_of_uncommitted (free : committed f = false) : Due s f := by
  cases f <;> trivial

theorem Inv.perm (inv : Inv s frames) (same : frames.Perm frames') : Inv s frames' where
  told := inv.told
  single := by rw [← same.countP_eq]; exact inv.single
  due := fun f mem => inv.due f (same.mem_iff.mpr mem)
  rest := by rw [← same.countP_eq]; exact inv.rest

theorem Inv.append (inv : Inv s frames) (free : others.countP committed = 0) :
    Inv s (frames ++ others) where
  told := inv.told
  single := by rw [countP_append, free]; exact inv.single
  due := by
    intro f mem
    rcases mem_append.mp mem with here | other
    · exact inv.due f here
    · exact due_of_uncommitted (by simpa using countP_eq_zero.mp free f other)
  rest := by
    intro none
    rw [countP_append] at none
    exact inv.rest (by omega)

structure Same (s t : Shared) : Prop where
  state : t.state = s.state
  fd : t.fd = s.fd
  attempt : t.attempt = s.attempt
  log : t.log = s.log

variable (same : Same s t)
include same

theorem Same.ended : Ended t ↔ Ended s := by
  rw [Ended, Ended, same.attempt, same.log]

theorem Same.told (told : Told s) : Told t :=
  told.congr same.attempt same.log

theorem Same.due (due : Due s f) : Due t f := by
  unfold Due at due ⊢
  rw [same.ended, same.state, same.fd]
  exact due

theorem Same.rest (rest : Rest s) : Rest t := by
  constructor
  · rw [same.ended, same.state]
    exact rest.ended
  · rw [same.fd, same.state]
    exact rest.held

theorem Same.inv (inv : Inv s frames) : Inv t frames where
  told := same.told inv.told
  single := inv.single
  due := fun f mem => same.due (inv.due f mem)
  rest := fun none => same.rest (inv.rest none)

omit same

theorem drain_same (s : Shared) (writes : List (Option ℕ)) : Same s (drain s writes) := by
  cases h : s.fd with
  | none | some d => constructor <;> simp [drain, h]

theorem Same.refl (s : Shared) : Same s s := ⟨rfl, rfl, rfl, rfl⟩

theorem act_same (free : committed f = false) : Same s (act s c f).1 := by
  cases f with
  | drain => exact drain_same s c.writes
  | enqueue buf =>
    rw [act]
    split_ifs <;> exact ⟨rfl, rfl, rfl, rfl⟩
  | rearm out =>
    rw [act]
    split_ifs
    · exact .refl s
    · split <;> exact ⟨rfl, rfl, rfl, rfl⟩
  | wakeWorker | setArmed out | drainWake => exact ⟨rfl, rfl, rfl, rfl⟩
  | send buf | close | connect target | resolveDone | unixConnect | handshake
  | epollEvent err out inp | eventOut | eventIn | read | afterData | scan | hasData | sweep =>
    exact .refl s
  | _ => cases free

structure Calls (s : Shared) (calls : List Frame) : Prop where
  single : calls.countP committed ≤ 1
  due : ∀ f ∈ calls, Due s f

theorem Calls.nil : Calls s [] := ⟨by decide, by simp⟩

theorem Calls.one (due : Due s f) : Calls s [f] where
  single := countP_le_length
  due := fun _ mem => mem_singleton.mp mem ▸ due

theorem Calls.cons (due : Due s f) (free : frames.countP committed = 0) :
    Calls s (f :: frames) where
  single := by
    rw [countP_cons, free]
    split_ifs <;> omega
  due := by
    intro g mem
    rcases mem_cons.mp mem with rfl | other
    · exact due
    · exact due_of_uncommitted (by simpa using countP_eq_zero.mp free g other)

theorem Calls.ite {p : Prop} [Decidable p] (yes : p → Calls s frames) (no : ¬ p → Calls s frames') :
    Calls s (if p then frames else frames') := by
  split_ifs with h
  · exact yes h
  · exact no h

theorem dialed_calls (going : ¬ Ended s) (bare : s.fd = none) (dial : Dial) :
    Calls s (dialed dial) := by
  cases dial with
  | failed errno | connected | inProgress => exact .one ⟨going, bare⟩

theorem resolved_calls (going : ¬ Ended s) (bare : s.fd = none)
    (lookup : Option (List Dial)) : Calls s (resolved kind lookup) := by
  cases lookup with
  | none => exact .one ⟨going, bare⟩
  | some dials =>
    refine .ite (fun _ => .one ⟨going, bare⟩) fun _ => ?_
    refine .ite (fun _ => .one ⟨going, bare⟩) fun _ => ?_
    cases dials.find? Dial.opened with
    | none => exact .one ⟨going, bare⟩
    | some dial => exact dialed_calls going bare dial

theorem shaken_calls (going : ¬ Ended s) (result : Handshake) : Calls s (shaken result) := by
  cases result with
  | done => exact .one going
  | wantRead | wantWrite => exact .one trivial
  | failed => exact .one ⟨going, rfl⟩

theorem received_calls (going : ¬ Ended s) (held : s.fd ≠ none → live s.state = true)
    (result : Read) : Calls s (received result) := by
  cases result with
  | wouldBlock => exact .nil
  | interrupted => exact .one trivial
  | eof | failed err => exact .one ⟨going, rfl⟩
  | data bytes => exact .cons ⟨going, held, nofun⟩ rfl

theorem Rest.going (rest : Rest s) (not : s.state ≠ .closed) : ¬ Ended s :=
  fun ended => not (rest.ended ended)

theorem Rest.bare (rest : Rest s) (dead : live s.state = false) : s.fd = none := by
  by_contra held
  rw [rest.held held] at dead
  cases dead

theorem Rest.going_fd (rest : Rest s) (held : s.fd ≠ none) : ¬ Ended s := by
  apply rest.going
  intro closed
  have alive := rest.held held
  rw [closed] at alive
  cases alive

theorem timedOut_calls (rest : Rest s) : Calls s (timedOut s.state) := by
  cases state : s.state with
  | connecting | resolving | tlsHandshake | connected =>
    exact .cons ⟨rest.going (by simp [state]), rfl⟩ rfl
  | created | closing | closed => exact .nil

theorem writable_calls (rest : Rest s) : Calls s (writable s.state) := by
  cases state : s.state with
  | connecting => exact .one (rest.going (by simp [state]))
  | tlsHandshake | connected => exact .one trivial
  | created | resolving | closing | closed => exact .nil

theorem act_calls (free : committed f = false) (rest : Rest s)
    (unix : f = .unixConnect → s.state = .resolving) : Calls s (act s c f).2 := by
  cases f with
  | send buf =>
    rw [act]
    dsimp only
    split_ifs
    · exact .one trivial
    · exact .nil
  | enqueue buf =>
    rw [act]
    split_ifs
    · exact .nil
    · exact .nil
    · exact .one trivial
  | wakeWorker | setArmed out => exact .nil
  | close =>
    exact .ite (fun _ => .nil) fun runs => .one (rest.going fun closed => runs (.inl closed))
  | connect target =>
    refine .ite (fun allowed => .one (rest.bare ?_)) fun _ => .nil
    rcases allowed.1 with created | closed
    · rw [created]; rfl
    · rw [closed]; rfl
  | resolveDone =>
    refine .ite (fun resolving => ?_) fun _ => .nil
    have bare := rest.bare (by rw [resolving]; rfl)
    exact resolved_calls (rest.going (by simp [resolving])) bare _
  | unixConnect =>
    have resolving := unix rfl
    exact dialed_calls (rest.going (by simp [resolving])) (rest.bare (by rw [resolving]; rfl)) _
  | handshake =>
    refine .ite (fun _ => .nil) fun runs => shaken_calls (rest.going_fd ?_) _
    exact fun bare => runs (.inr bare)
  | rearm out =>
    rw [act]
    split_ifs
    · exact .one trivial
    · split
      · exact .one trivial
      · exact .nil
  | epollEvent err out inp =>
    refine .ite (fun _ => .nil) fun runs => ?_
    have going := rest.going fun closed => runs (.inl closed)
    cases err with
    | true => exact .one going
    | false => cases out <;> cases inp <;> exact ⟨by decide, by simp [Due]⟩
  | eventOut => exact writable_calls rest
  | drain | scan => exact .ite (fun _ => .one trivial) fun _ => .nil
  | eventIn =>
    exact .ite (fun _ => .one trivial) fun _ => .ite (fun _ => .nil) fun _ => .one trivial
  | read =>
    exact .ite (fun _ => .nil) fun held => received_calls (rest.going_fd held) rest.held _
  | afterData | hasData => exact .ite (fun _ => .nil) fun _ => .one trivial
  | drainWake => exact .one trivial
  | sweep => exact .ite (fun _ => timedOut_calls rest) fun _ => .nil
  | _ => cases free

theorem Inv.one (told : Told s) (due : Due s f) (bound : committed f = true) : Inv s [f] where
  told := told
  single := countP_le_length
  due := (Calls.one due).due
  rest := by
    intro none
    rw [countP_singleton, if_pos bound] at none
    cases none

theorem Inv.free (told : Told s) (rest : Rest s) (none : frames.countP committed = 0) :
    Inv s frames where
  told := told
  single := by omega
  due := fun f mem => due_of_uncommitted (by simpa using countP_eq_zero.mp none f mem)
  rest := fun _ => rest

theorem emit_rest (going : ¬ Ended s) (held : s.fd ≠ none → live s.state = true)
    (last : ev.terminal = true → s.state = .closed) : Rest (emit s ev) where
  ended := by
    intro ended
    by_contra running
    have plain : ev.terminal = false := by
      by_contra terminal
      exact running (last (by simpa using terminal))
    exact emit_going going plain ended
  held := held

theorem act_committed (bound : committed f = true) (told : Told s) (due : Due s f) :
    Inv (act s c f).1 (act s c f).2 := by
  cases f with
  | closing => exact .one (told.congr rfl rfl) due rfl
  | flush =>
    have same := drain_same s c.writes
    exact .one (same.told told) ⟨fun ended => due (same.ended.mp ended), rfl⟩ rfl
  | closeFd ev =>
    exact .one (told.congr rfl rfl) ⟨due.1, fun held => absurd rfl held, fun _ => rfl⟩ rfl
  | deliver ev => exact .free (told.emit due.1 ev) (emit_rest due.1 due.2.1 due.2.2) rfl
  | report err => exact .one (told.emit due.1 _) due.2 rfl
  | storeClosed =>
    exact .free (told.congr rfl rfl) ⟨fun _ => rfl, fun held => absurd due held⟩ rfl
  | startConnect =>
    obtain ⟨told, going⟩ := told.next (t := (act s c .startConnect).1) rfl rfl
    exact .one told ⟨going, due⟩ rfl
  | submit =>
    rw [act]
    split_ifs
    · exact .free (told.congr rfl rfl)
        ⟨fun ended => absurd ended due.1, fun held => absurd due.2 held⟩ rfl
    · exact .free (told.congr rfl rfl) ⟨fun _ => rfl, fun held => absurd due.2 held⟩ rfl
  | adoptFd inProgress =>
    rw [act]
    split
    · exact .one told due rfl
    · have told : Told (adopt s inProgress) := told.congr rfl rfl
      dsimp only
      split_ifs <;> exact .one told due.1 rfl
  | setConnecting =>
    exact .free (told.congr rfl rfl) ⟨fun ended => absurd ended due, fun _ => rfl⟩ rfl
  | startTls disarm =>
    refine .free (told.congr rfl rfl) ⟨fun ended => absurd ended due, fun _ => rfl⟩ ?_
    cases disarm <;> rfl
  | establish disarm =>
    have told : Told (act s c (.establish disarm)).1 := told.congr rfl rfl
    have opened : Inv (act s c (.establish disarm)).1 [.deliver .connected] :=
      .one told ⟨due, fun _ => rfl, nofun⟩ rfl
    cases disarm with
    | true =>
      have both : Inv (act s c (.establish true)).1 ([.deliver .connected] ++ [.rearm false]) :=
        opened.append rfl
      exact both.perm (.swap _ _ _)
    | false => exact opened
  | eventErr =>
    rw [act]
    split_ifs <;> exact .one told ⟨due, rfl⟩ rfl
  | soError =>
    rw [act]
    split_ifs
    · exact .one told ⟨due, rfl⟩ rfl
    · exact .one told due rfl
    · exact .one told due rfl
  | _ => cases bound

theorem Inv.act (inv : Inv s (f :: others)) (fits : Fits s c f others) :
    Inv (act s c f).1 ((act s c f).2 ++ others) := by
  cases bound : committed f with
  | true =>
    have alone : others.countP committed = 0 := by
      have single := inv.single
      rw [countP_cons, if_pos bound] at single
      omega
    exact (act_committed bound inv.told (inv.due f (.head _))).append alone
  | false =>
    have same : Same s (SockModel.act s c f).1 := act_same bound
    have outside : (f :: others).countP committed = others.countP committed := by
      rw [countP_cons, bound]
      rfl
    by_cases alone : others.countP committed = 0
    · -- nobody is committed, so the test is made on a session at rest
      have calls := act_calls (c := c) bound (inv.rest (outside.trans alone)) fits.2
      have called : Inv s (SockModel.act s c f).2 :=
        ⟨inv.told, calls.single, calls.due, fun _ => inv.rest (outside.trans alone)⟩
      exact same.inv (called.append alone)
    · -- somebody else is, so the test did not let this thread go on
      have none : (SockModel.act s c f).2.countP committed = 0 := by
        by_contra some
        exact alone (fits.1 bound (Nat.pos_of_ne_zero some))
      have older : Inv s others :=
        ⟨inv.told, outside ▸ inv.single, fun g mem => inv.due g (.tail _ mem),
          fun empty => absurd empty alone⟩
      exact same.inv ((older.append none).perm perm_append_comm)

end Invariant

section System

theorem start_inv (kind : Kind) (tls : Bool) :
    Inv (start kind tls).toShared (start kind tls).threads.flatten := by
  refine .free ⟨fun k ev mem => ?_, fun x mem => ?_⟩ ⟨?_, fun held => absurd rfl held⟩ rfl
  · cases mem
  · cases mem
  · rintro ⟨ev, mem, -⟩
    cases mem

theorem Inv.spawned {s : Sys} (inv : Inv s.toShared s.threads.flatten)
    (free : committed f = false) :
    Inv (spawn s f).toShared (spawn s f).threads.flatten := by
  rw [spawn, flatten_spawn]
  exact inv.append (by simp [free])

theorem Inv.worked {s t : Sys} (inv : Inv s.toShared s.threads.flatten)
    (free : committed f = false) (moved : work s f = some t) :
    Inv t.toShared t.threads.flatten := by
  obtain ⟨idle, rfl⟩ := fired moved
  dsimp only
  rw [flatten_start idle]
  exact (inv.append (by simp [free])).perm perm_append_comm

theorem Inv.step {s t : Sys} {op : Op} (inv : Inv s.toShared s.threads.flatten)
    (keeps : Keeps s op) (moved : step s op = some t) : Inv t.toShared t.threads.flatten := by
  cases op with
  | send buf | connect target | close | sweep =>
    cases moved
    exact inv.spawned rfl
  | leg =>
    obtain ⟨-, rfl⟩ := fired moved
    refine Inv.spawned (s := { s with legs := s.legs - 1 }) ?_ ?_
    · have same : Same s.toShared { s.toShared with legs := s.legs - 1 } := ⟨rfl, rfl, rfl, rfl⟩
      exact same.inv inv
    · split_ifs <;> rfl
  | event err out inp | ownSweep => exact inv.worked rfl moved
  | wakeEvent =>
    obtain ⟨-, moved⟩ := Option.ite_none_right_eq_some.mp moved
    exact inv.worked rfl moved
  | turn i c =>
    rw [SockModel.step] at moved
    split at moved
    next => cases moved
    next f rest found =>
      cases moved
      obtain ⟨before, after⟩ := turn_perm found
      exact ((inv.perm before).act (keeps _ found)).perm (after _).symm

theorem one_terminal_event {kind : Kind} {tls : Bool} {labels : List Op} {t : Sys}
    (run : Run step Keeps (start kind tls) labels t) : OneTerminal t.toShared :=
  (run.invariant (I := fun s => Inv s.toShared s.threads.flatten) Inv.step
    (start_inv kind tls)).told.last

theorem one_terminal_event_reconnect :
    ∃ t : Sys, t.log = [(2, .error .timedOut), (1, .disconnect), (1, .data [104, 105]),
      (1, .connected)] ∧ OneTerminal t.toShared := by
  have run : Run step Keeps (start .tcp true)
      (.connect true :: turns 1 3 ++
        .leg :: .turn 2 { calm with lookup := some [.failed 111, .inProgress] } :: turns 2 2 ++
        .event false true true :: turns 0 12 ++ .turn 0 { calm with read := .data [104, 105] } ::
        .turn 0 calm :: .close :: turns 3 5 ++ .turn 0 calm :: .connect true :: turns 4 3 ++
        .leg :: .ownSweep :: .turn 0 { calm with expired := true } :: turns 0 2 ++
        turns 5 1) _ :=
    runWhen_get (by decide +kernel)
  exact ⟨_, by decide +kernel, one_terminal_event run⟩

/-- The owner's `sock_close` has tested the state when the worker reads the end of the stream:
both close the session, and both deliver DISCONNECT. -/
theorem two_terminal_events :
    ∃ labels t, Run step Any (start .tcp false) labels t ∧
      t.log = [(1, .disconnect), (1, .disconnect), (1, .connected)] ∧
      ¬ OneTerminal t.toShared := by
  refine ⟨(.connect true :: turns 1 3 ++ .leg :: turns 2 4 ++ .close :: .turn 3 calm ::
        .event false false true :: turns 0 2 ++ .turn 0 { calm with read := .eof } :: turns 0 2 ++
        turns 3 4), _,
    run_get (by decide +kernel), by decide +kernel, fun fine => ?_⟩
  have plain := fine 1 .disconnect (by decide +kernel)
  cases plain

end System

end BotManager.SockEvents
