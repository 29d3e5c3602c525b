import BotManager.FramePool

/-! One session of the socket layer: the connect legs, the TLS handshake, the epoll worker that
owns the session, the timeout sweeps of all workers, `sock_send` and `sock_close`. Every section
under `io_lock` or `send_lock` is one turn of a thread; a test or a store of the state, which is
an atomic field, is a turn of its own. What the kernel, OpenSSL, the resolver and the clock
answer comes with the turn. -/

namespace BotManager.SockModel
open FramePool

section SendQueue

/-- A send buffer on the queue: part of it may have been sent, never all of it. -/
structure SendBuf where
  data : List UInt8
  offset : ℕ
  inside : offset < data.length
  deriving DecidableEq

def SendBuf.rest (b : SendBuf) : List UInt8 := b.data.drop b.offset

def SendBuf.alloc (buf : { l : List UInt8 // 0 < l.length }) : SendBuf := ⟨buf.1, 0, buf.2⟩

def unsent (queue : List SendBuf) : List UInt8 := queue.flatMap SendBuf.rest

/-- The loop of `sock_drain_sendq` on an open descriptor: what stays queued, and the bytes the
kernel took. Each write answers with how many bytes it took, or refuses (would block, or an
error); a buffer that went only in part stops the loop. -/
def drainSendq : List SendBuf → List (Option ℕ) → List SendBuf × List UInt8
  | [], _ => ([], [])
  | b :: queue, [] => (b :: queue, [])
  | b :: queue, none :: _ => (b :: queue, [])
  | b :: queue, some n :: writes =>
    if h : b.offset + n < b.data.length then
      ({ b with offset := b.offset + n, inside := h } :: queue, b.rest.take n)
    else
      let r := drainSendq queue writes
      (r.1, b.rest ++ r.2)

@[simp] theorem unsent_nil : unsent [] = [] := rfl

@[simp] theorem unsent_cons :
    unsent (b :: queue) = b.rest ++ unsent queue := rfl

@[simp] theorem unsent_append : unsent (queue ++ more) = unsent queue ++ unsent more :=
  List.flatMap_append

theorem drainSendq_unsent (queue : List SendBuf) (writes : List (Option ℕ)) :
    (drainSendq queue writes).2 ++ unsent (drainSendq queue writes).1 = unsent queue := by
  induction queue generalizing writes with
  | nil => rfl
  | cons b queue ih =>
    cases writes with
    | nil => rfl
    | cons write writes =>
      cases write with
      | none => rfl
      | some n =>
        rw [drainSendq]
        split_ifs with part
        · rw [unsent_cons, unsent_cons, ← List.append_assoc]
          congr 1
          rw [SendBuf.rest, SendBuf.rest, ← List.drop_drop]
          exact List.take_append_drop n _
        · rw [unsent_cons, List.append_assoc, ih]

end SendQueue

section Session

inductive Kind
  | tcp
  | udp
  | icmp
  | unix
  deriving DecidableEq

inductive State
  | created
  | resolving
  | connecting
  | connected
  | tlsHandshake
  | closing
  | closed
  deriving DecidableEq

inductive Err
  | timedOut
  | connRefused
  | hostUnreach
  | noSys
  | connAborted
  | io
  | os (errno : ℕ)
  deriving DecidableEq

inductive Event
  | connected
  | data (bytes : List UInt8)
  | disconnect
  | error (err : Err)
  deriving DecidableEq

def Event.terminal : Event → Bool
  | .disconnect => true
  | .error _ => true
  | _ => false

/-- What `connect` on one address, or on the path of a unix socket, comes to; a `socket` that
fails counts as `failed`. -/
inductive Dial
  | failed (errno : ℕ)
  | connected
  | inProgress
  deriving DecidableEq

def Dial.opened : Dial → Bool
  | .failed _ => false
  | _ => true

inductive Handshake
  | done
  | wantRead
  | wantWrite
  | failed
  deriving DecidableEq

inductive Read
  | data (bytes : List UInt8)
  | wouldBlock
  | interrupted
  | eof
  | failed (err : Err)
  deriving DecidableEq

/-- What a turn is answered: by `epoll_ctl`, by the writes of a drain, by `SO_ERROR`, by a read,
by `SSL_connect`, by the clock of a sweep, by the resolver (`none` if the lookup failed), by the
connect of a unix socket and by the submission of a connect leg; and the configured queue limit. -/
structure Choice where
  ctl : Option ℕ
  writes : List (Option ℕ)
  soError : ℕ
  read : Read
  handshake : Handshake
  expired : Bool
  lookup : Option (List Dial)
  dial : Dial
  submitted : Bool
  sendQueueMax : UInt32
  deriving DecidableEq

def calm : Choice :=
  ⟨none, [], 0, .wouldBlock, .done, false, some [.connected], .connected, true, 65536⟩

/-- The session, and what lies around it: `interest` is whether epoll watches the descriptor for
EPOLLOUT, `wake` whether the eventfd of the worker is readable, `legs` how many connect legs are
submitted. Connections are numbered as their descriptors are adopted. `attempt` counts the
accepted calls of `sock_connect`; `log` has the delivered events, the newest first, each with
the attempt it fell into; `accepted` and `written` have the bytes of each connection. -/
structure Shared where
  kind : Kind
  tlsEnabled : Bool
  state : State
  fd : Option ℕ
  tls : Bool
  epolloutArmed : Bool
  queue : List SendBuf
  sendQueued : UInt32
  interest : Bool
  wake : Bool
  legs : ℕ
  conns : ℕ
  attempt : ℕ
  log : List (ℕ × Event)
  accepted : ℕ → List UInt8
  written : ℕ → List UInt8

/-- `sock_set_tls` takes only TCP sessions. -/
def created (kind : Kind) (tls : Bool) : Shared where
  kind := kind
  tlsEnabled := tls && kind = .tcp
  state := .created
  fd := none
  tls := tls && kind = .tcp
  epolloutArmed := false
  queue := []
  sendQueued := 0
  interest := false
  wake := false
  legs := 0
  conns := 0
  attempt := 0
  log := []
  accepted := fun _ => []
  written := fun _ => []

def emit (s : Shared) (ev : Event) : Shared := { s with log := (s.attempt, ev) :: s.log }

def closeFd (s : Shared) : Shared :=
  { s with fd := none, tls := false, interest := false, state := .closed }

def drain (s : Shared) (writes : List (Option ℕ)) : Shared :=
  match s.fd with
  | none => s
  | some c =>
    let r := drainSendq s.queue writes
    { s with
      queue := r.1, sendQueued := s.sendQueued - UInt32.ofNat r.2.length
      written := Function.update s.written c (s.written c ++ r.2) }

def full (s : Shared) (max : UInt32) (len : ℕ) : Prop :=
  0 < max ∧ max < s.sendQueued + UInt32.ofNat len

instance (s : Shared) (max : UInt32) (len : ℕ) : Decidable (full s max len) :=
  inferInstanceAs (Decidable (_ ∧ _))

def enqueue (s : Shared) (buf : { l : List UInt8 // 0 < l.length }) : Shared :=
  { s with
    queue := s.queue ++ [.alloc buf], sendQueued := s.sendQueued + UInt32.ofNat buf.1.length
    accepted := Function.update s.accepted s.conns (s.accepted s.conns ++ buf.1) }

def adopt (s : Shared) (out : Bool) : Shared :=
  { s with fd := some (s.conns + 1), conns := s.conns + 1, interest := out }

end Session

section Frames

/-- What a thread still has to run: one constructor for each section, test, store or delivery of
the source. `closeFd` and `report` are the two orders in which an attempt is ended: close and
then tell the consumer, or tell the consumer and then store CLOSED. -/
inductive Frame
  | send (buf : List UInt8)
  | enqueue (buf : { l : List UInt8 // 0 < l.length })
  | wakeWorker
  | close
  | closing
  | flush
  | closeFd (ev : Event)
  | deliver (ev : Event)
  | report (err : Err)
  | storeClosed
  | connect (target : Bool)
  | startConnect
  | submit
  | resolveDone
  | unixConnect
  | adoptFd (inProgress : Bool)
  | setConnecting
  | startTls (disarm : Bool)
  | establish (disarm : Bool)
  | handshake
  | rearm (out : Bool)
  | setArmed (out : Bool)
  | epollEvent (err out inp : Bool)
  | eventErr
  | eventOut
  | soError
  | drain
  | eventIn
  | read
  | afterData
  | drainWake
  | scan
  | hasData
  | sweep
  deriving DecidableEq

def dialed : Dial → List Frame
  | .failed errno => [.report (.os errno)]
  | .connected => [.adoptFd false]
  | .inProgress => [.adoptFd true]

/-- `sock_resolve_done` on a session that still resolves: the resolved addresses are tried in
turn. -/
def resolved (kind : Kind) : Option (List Dial) → List Frame
  | none => [.report .hostUnreach]
  | some dials =>
    if dials = [] then [.report .hostUnreach]
    else if kind = .icmp then [.report .noSys]
    else
      match dials.find? Dial.opened with
      | none => [.report .connRefused]
      | some dial => dialed dial

def shaken : Handshake → List Frame
  | .done => [.establish true]
  | .wantRead => [.rearm false]
  | .wantWrite => [.rearm true]
  | .failed => [.closeFd (.error .connAborted)]

def received : Read → List Frame
  | .wouldBlock => []
  | .interrupted => [.read]
  | .eof => [.closeFd .disconnect]
  | .failed err => [.closeFd (.error err)]
  | .data bytes => [.deliver (.data bytes), .afterData]

/-- What a sweep does at a session whose timeout has passed; the scan of the list then starts
again. -/
def timedOut : State → List Frame
  | .connecting => [.closeFd (.error .timedOut), .sweep]
  | .resolving => [.closeFd (.error .timedOut), .sweep]
  | .tlsHandshake => [.closeFd (.error .timedOut), .sweep]
  | .connected => [.closeFd .disconnect, .sweep]
  | _ => []

def writable : State → List Frame
  | .connecting => [.soError]
  | .tlsHandshake => [.handshake]
  | .connected => [.drain]
  | _ => []

def act (s : Shared) (c : Choice) : Frame → Shared × List Frame
  -- sock_send
  | .send buf =>
    (s, if h : 0 < buf.length ∧ s.state = .connected then [.enqueue ⟨buf, h.1⟩] else [])
  | .enqueue buf =>
    if full s c.sendQueueMax buf.1.length then (s, [])
    else (enqueue s buf, if s.epolloutArmed then [] else [.wakeWorker])
  | .wakeWorker => ({ s with wake := true }, [])
  -- sock_close
  | .close => (s, if s.state = .closed ∨ s.state = .closing then [] else [.closing])
  | .closing => ({ s with state := .closing }, [.flush])
  | .flush => (drain s c.writes, [.closeFd .disconnect])
  | .closeFd ev => (closeFd s, [.deliver ev])
  | .deliver ev => (emit s ev, [])
  | .report err => (emit s (.error err), [.storeClosed])
  | .storeClosed => ({ s with state := .closed }, [])
  -- sock_connect
  | .connect target =>
    (s, if (s.state = .created ∨ s.state = .closed) ∧ target = true then [.startConnect] else [])
  | .startConnect => ({ s with state := .resolving, attempt := s.attempt + 1 }, [.submit])
  | .submit =>
    if c.submitted then ({ s with legs := s.legs + 1 }, [])
    else ({ s with state := .closed }, [])
  -- the connect legs
  | .resolveDone => (s, if s.state = .resolving then resolved s.kind c.lookup else [])
  | .unixConnect => (s, dialed c.dial)
  | .adoptFd inProgress =>
    match c.ctl with
    | some errno => (s, [.report (.os errno)])
    | none =>
      (adopt s inProgress,
        if inProgress then [.setConnecting]
        else if s.tlsEnabled ∧ s.kind ≠ .unix then [.startTls false]
        else [.establish false])
  | .setConnecting => ({ s with state := .connecting }, [.wakeWorker])
  | .startTls disarm =>
    ({ s with state := .tlsHandshake },
      if disarm then [.rearm false, .handshake] else [.handshake])
  | .establish disarm =>
    ({ s with state := .connected },
      if disarm then [.rearm false, .deliver .connected] else [.deliver .connected])
  | .handshake => (s, if s.tls = false ∨ s.fd = none then [] else shaken c.handshake)
  -- sock_epoll_rearm; without a descriptor there is no epoll_ctl to fail
  | .rearm out =>
    if s.fd = none then (s, [.setArmed out])
    else
      match c.ctl with
      | none => ({ s with interest := out }, [.setArmed out])
      | some _ => (s, [])
  | .setArmed out => ({ s with epolloutArmed := out }, [])
  -- sock_epoll_event
  | .epollEvent err out inp =>
    (s, if s.state = .closed ∨ s.fd = none then []
      else if err then [.eventErr]
      else (if out then [.eventOut] else []) ++ (if inp then [.eventIn] else []))
  | .eventErr =>
    (s, if s.state = .connecting then
        [.closeFd (.error (if c.soError = 0 then .connRefused else .os c.soError))]
      else [.closeFd .disconnect])
  | .eventOut => (s, writable s.state)
  | .soError =>
    (s, if c.soError ≠ 0 then [.closeFd (.error (.os c.soError))]
      else if s.tlsEnabled then [.startTls true]
      else [.establish true])
  | .drain =>
    let t := drain s c.writes
    (t, if t.queue = [] then [.rearm false] else [])
  | .eventIn =>
    (s, if s.state = .tlsHandshake then [.handshake]
      else if s.state ≠ .connected ∨ s.fd = none then []
      else [.read])
  | .read => (s, if s.fd = none then [] else received c.read)
  | .afterData => (s, if s.state ≠ .connected ∨ s.fd = none then [] else [.read])
  -- the wake handling of the worker
  | .drainWake => ({ s with wake := false }, [.scan])
  | .scan =>
    (s, if s.state = .connected ∧ s.fd ≠ none ∧ s.epolloutArmed = false then [.hasData] else [])
  | .hasData => (s, if s.queue = [] then [] else [.rearm true])
  -- sock_check_timeouts, at this session
  | .sweep => (s, if c.expired then timedOut s.state else [])

end Frames

section System

/-- Thread 0 is the epoll worker that owns the session. -/
structure Sys extends Shared where
  threads : List (List Frame)

def start (kind : Kind) (tls : Bool) : Sys := { created kind tls with threads := [[]] }

/-- `ownSweep` is the sweep of the session's worker, `sweep` that of any other worker. -/
inductive Op
  | send (buf : List UInt8)
  | connect (target : Bool)
  | close
  | leg
  | event (err out inp : Bool)
  | wakeEvent
  | ownSweep
  | sweep
  | turn (i : ℕ) (c : Choice)
  deriving DecidableEq

def spawn (s : Sys) (f : Frame) : Sys := { s with threads := s.threads ++ [[f]] }

def turns (i n : ℕ) : List Op := .replicate n (.turn i calm)

def work (s : Sys) (f : Frame) : Option Sys :=
  if s.threads.head? = some [] then some { s with threads := s.threads.set 0 [f] } else none

def step (s : Sys) : Op → Option Sys
  | .send buf => some (spawn s (.send buf))
  | .connect target => some (spawn s (.connect target))
  | .close => some (spawn s .close)
  | .leg =>
    if 0 < s.legs then
      some (spawn { s with legs := s.legs - 1 }
        (if s.kind = .unix then .unixConnect else .resolveDone))
    else none
  | .event err out inp => work s (.epollEvent err out inp)
  | .wakeEvent => if s.wake then work s .drainWake else none
  | .ownSweep => work s .sweep
  | .sweep => some (spawn s .sweep)
  | .turn i c =>
    match top s.threads i with
    | none => none
    | some (f, rest) =>
      let r := act s.toShared c f
      some { r.1 with threads := s.threads.set i (r.2 ++ rest) }

end System

end BotManager.SockModel
