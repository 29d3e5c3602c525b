import BotManager.ExchangeModel

/-! Who has a request. A request that `exchange_request` took is in exactly one place from then
on: in the queue, at the driver, on a retry timer, or completed by its one callback. -/

namespace BotManager.ExchangeOwner
open List ExchangeModel FramePool StableInsert StepRun

section Places

inductive Place
  | queued
  | driver
  | waiting
  | completed
  deriving DecidableEq

/-- What the frame of a thread has in hand. A request popped for the driver is at the driver
until its completion is settled, a retry waits until its callback is through with it, and what
an unregister has detached counts as queued until it is failed. -/
def inHand : Place → Frame → List Req
  | .queued, .drain rs => rs
  | .driver, .submit r _ => [r]
  | .driver, .respond r _ => [r]
  | .driver, .settle r _ => [r]
  | .waiting, .retry r => [r]
  | _, _ => []

def requestsAt (s : Sys) (p : Place) : List Req :=
  (match p with
    | .queued => s.exch.queue
    | .driver => s.driver
    | .waiting => s.retries
    | .completed => s.fired.map Prod.fst) ++ s.threads.flatten.flatMap (inHand p)

def times (id : ℕ) (rs : List Req) : ℕ := rs.countP fun r => r.id == id

structure ExactlyOnce (s : Sys) : Prop where
  placed : ∀ id ∈ s.accepted, ∃ p, times id (requestsAt s p) = 1 ∧
    ∀ q, q ≠ p → times id (requestsAt s q) = 0
  refused : ∀ id ∈ s.refused, id ∉ s.accepted ∧ ∀ p, times id (requestsAt s p) = 0
  handed : ∀ p, ∀ r ∈ requestsAt s p, r.handed ≤ retryMaxAttempts
  tombstone : s.exch.vt = none → s.exch.queue = []

end Places

variable {r : Req} {sh : Shared}

section Counting

variable (id : ℕ)

@[simp] theorem times_nil : times id [] = 0 := rfl

def one (id : ℕ) (r : Req) : ℕ := if r.id = id then 1 else 0

@[simp] theorem one_same :
    one id ⟨r.id, prio, attempts, handed⟩ = one id r := rfl

@[simp] theorem times_cons : times id (r :: rs) = times id rs + one id r := by
  simp [times, one, countP_cons]

@[simp] theorem times_append : times id (l₁ ++ l₂) = times id l₁ + times id l₂ :=
  countP_append ..

theorem times_perm {l₁ l₂ : List Req} (perm : l₁.Perm l₂) : times id l₁ = times id l₂ :=
  perm.countP_eq _

@[simp] theorem times_insertBy :
    times id (insertBy Req.prio r queue) = times id queue + one id r := by
  rw [times_perm id (insertBy_perm _ _ _), times_cons]

variable {i : ℕ} {f : Frame}

theorem times_eraseIdx {rs : List Req} (found : rs[i]? = some r) :
    times id rs = times id (rs.eraseIdx i) + one id r := by
  induction rs generalizing i with
  | nil => cases found
  | cons x xs ih =>
    cases i with
    | zero =>
      cases found
      simp
    | succ i =>
      have below := ih found
      rw [eraseIdx_cons_succ, times_cons, times_cons]
      omega

@[simp] def holds (id : ℕ) : Frame → ℕ
  | .submit r _ => one id r
  | .respond r _ => one id r
  | .settle r _ => one id r
  | .retry r => one id r
  | .drain rs => times id rs
  | _ => 0

def asks (id : ℕ) : Frame → ℕ
  | .request r => one id r
  | _ => 0

def kept (id : ℕ) (sh : Shared) : ℕ :=
  times id sh.exch.queue + times id sh.driver + times id sh.retries +
    times id (sh.fired.map Prod.fst)

theorem holds_eq :
    holds id f = times id (inHand .queued f) + times id (inHand .driver f) +
      times id (inHand .waiting f) + times id (inHand .completed f) := by
  cases f <;> simp [inHand]

theorem sum_places (s : Sys) (id : ℕ) :
    times id (requestsAt s .queued) + times id (requestsAt s .driver) +
      times id (requestsAt s .waiting) + times id (requestsAt s .completed) =
    kept id s.toShared + (s.threads.flatten.map (holds id)).sum := by
  have split : ∀ frames : List Frame, (frames.map (holds id)).sum =
      times id (frames.flatMap (inHand .queued)) + times id (frames.flatMap (inHand .driver)) +
        times id (frames.flatMap (inHand .waiting)) +
        times id (frames.flatMap (inHand .completed)) := by
    intro frames
    induction frames with
    | nil => rfl
    | cons f rest ih =>
      simp only [map_cons, sum_cons, flatMap_cons, times_append, ih,
        holds_eq id]
      omega
  simp only [requestsAt, times_append, split, kept]
  omega

end Counting

section Conservation
variable {sh : Shared} {c : Choice} (id : ℕ) (sh : Shared)

@[simp] theorem kept_deliver : kept id (deliver sh r d) = kept id sh + one id r := by
  simp only [kept, deliver, map_append, map_cons, map_nil, times_append, times_cons,
    times_nil]
  omega

theorem kept_dispatch (vt : Vtable) (c : Choice) :
    kept id (dispatch sh vt c).1 + ((dispatch sh vt c).2.map (holds id)).sum = kept id sh := by
  unfold dispatch
  obtain ⟨lim, r, rest, perm, popped⟩ | ⟨lim, popped⟩ := popEligible_cases sh.exch c.clock
  · rw [popped]
    have moved := times_perm id perm
    rw [times_cons] at moved
    simp [kept]
    omega
  · rw [popped]
    dsimp only
    split_ifs <;> simp [kept]

theorem kept_armRetry (r : Req) (c : Choice) :
    kept id (armRetry sh r c) = kept id sh + one id r ∧
      (armRetry sh r c).accepted = sh.accepted ∧ (armRetry sh r c).refused = sh.refused := by
  obtain ⟨d, failed⟩ | ⟨-, armed⟩ := armRetry_cases sh r c
  · rw [failed]
    exact ⟨kept_deliver .., rfl, rfl⟩
  · rw [armed]
    refine ⟨?_, rfl, rfl⟩
    simp only [kept, times_append, times_cons, times_nil, one_same]
    omega

theorem dispatch_answers (vt : Vtable) (c : Choice) :
    (dispatch sh vt c).1.accepted = sh.accepted ∧ (dispatch sh vt c).1.refused = sh.refused := by
  unfold dispatch
  split
  · exact ⟨rfl, rfl⟩
  · split_ifs <;> exact ⟨rfl, rfl⟩

/-- A turn moves requests between places, and takes a request in exactly where it accepts it; a
call is answered once: it stays open, is accepted or is refused. -/
theorem act_accounts (c : Choice) (f : Frame) :
    kept id (act sh c f).1 + ((act sh c f).2.map (holds id)).sum + sh.accepted.count id =
        kept id sh + holds id f + (act sh c f).1.accepted.count id ∧
      ((act sh c f).2.map (asks id)).sum + (act sh c f).1.refused.count id +
          (act sh c f).1.accepted.count id =
        asks id f + sh.refused.count id + sh.accepted.count id := by
  cases f with
  | request r =>
    have own (l : List ℕ) : (r.id :: l).count id = l.count id + one id r := by
      simp [count_cons, one]
    cases registered : sh.exch.vt with
    | none | some vt =>
      simp only [act, registered, kept, holds, asks, push_queue, times_insertBy, own, map_cons,
        map_nil, sum_cons, sum_nil, true_and]
      omega
  | dispatch =>
    cases registered : sh.exch.vt with
    | none => simp [act, registered, asks]
    | some vt =>
      have moved := kept_dispatch id sh vt c
      obtain ⟨accepted, refused⟩ := dispatch_answers sh vt c
      have quiet : ((dispatch sh vt c).2.map (asks id)).sum = 0 := by
        unfold dispatch
        split
        · rfl
        · split_ifs <;> rfl
      simp only [act, registered, holds, asks, accepted, refused, quiet, and_true]
      omega
  | submit r vt =>
    simp only [act, holds, asks]
    split_ifs
    · simp [asks]
    · simp [asks]
    · simp [asks]
    · simp [asks, kept]
      omega
  | refund | respond r status | pump h => simp [act, kept, asks]
  | settle r status =>
    cases outcome : classifyStatus status with
    | ok | fail => simp [act, outcome, asks]
    | retry =>
      obtain ⟨moved, accepted, refused⟩ := kept_armRetry id sh r c
      simp [act, outcome, asks, moved, accepted, refused]
  | retry r =>
    cases registered : sh.exch.vt with
    | none => simp [act, registered, asks]
    | some vt =>
      simp [act, registered, asks, kept]
      omega
  | drain rs =>
    cases rs with
    | nil => simp [act, asks]
    | cons r rest =>
      simp [act, asks]
      omega
  | register vt =>
    simp only [act, holds, asks]
    split_ifs <;> simp [asks]
  | revive vt => simp [act, kept, asks, revive]

end Conservation

section Attempts

def Due (r : Req) : Prop := r.handed = r.attempts ∧ r.attempts < retryMaxAttempts

def Out (r : Req) : Prop := r.handed = r.attempts + 1 ∧ r.attempts < retryMaxAttempts

@[simp] def Tried : Frame → Prop
  | .request r => Due r
  | .submit r _ => Due r
  | .respond r _ => Out r
  | .settle r _ => Out r
  | .retry r => Due r
  | .drain rs => ∀ r ∈ rs, Due r
  | _ => True

structure Attempts (sh : Shared) : Prop where
  queue : ∀ r ∈ sh.exch.queue, Due r
  driver : ∀ r ∈ sh.driver, Out r
  retries : ∀ r ∈ sh.retries, Due r
  fired : ∀ x ∈ sh.fired, x.1.handed ≤ retryMaxAttempts
  tombstone : sh.exch.vt = none → sh.exch.queue = []

variable {sh : Shared} {r : Req} {c : Choice}

theorem Due.handed_le (due : Due r) : r.handed ≤ retryMaxAttempts := by
  obtain ⟨same, below⟩ := due
  omega

theorem Out.handed_le (out : Out r) : r.handed ≤ retryMaxAttempts := by
  obtain ⟨same, below⟩ := out
  omega

theorem Due.submit (due : Due r) : Out { r with handed := r.handed + 1 } := by
  obtain ⟨same, below⟩ := due
  exact ⟨congrArg (· + 1) same, below⟩

variable (inv : Attempts sh)
include inv

theorem Attempts.deliver (bounded : r.handed ≤ retryMaxAttempts) (d : Delivery) :
    Attempts (deliver sh r d) where
  __ := inv
  fired := forall_mem_append.mpr ⟨inv.fired, forall_mem_singleton.mpr bounded⟩

theorem Attempts.exch {e : Exch} (queue : ∀ r ∈ e.queue, Due r)
    (tombstone : e.vt = none → e.queue = []) : Attempts { sh with exch := e } where
  queue := queue
  __ := inv
  tombstone := tombstone

theorem Attempts.push (due : Due r) (registered : sh.exch.vt ≠ none) :
    Attempts { sh with exch := push sh.exch r } := by
  apply inv.exch
  · intro x mem
    rw [push_queue, mem_insertBy] at mem
    rcases mem with rfl | old
    · exact due
    · exact inv.queue x old
  · intro none
    exact absurd none registered

theorem Attempts.armRetry (out : Out r) (c : Choice) : Attempts (armRetry sh r c) := by
  obtain ⟨same, below⟩ := out
  obtain ⟨d, failed⟩ | ⟨more, armed⟩ := armRetry_cases sh r c
  · rw [failed]
    apply inv.deliver
    show r.handed ≤ retryMaxAttempts
    omega
  · rw [armed]
    exact { inv with
      retries := forall_mem_append.mpr ⟨inv.retries, forall_mem_singleton.mpr ⟨same, more⟩⟩ }

theorem Attempts.dispatch {vt : Vtable} (registered : sh.exch.vt = some vt) (c : Choice) :
    Attempts (dispatch sh vt c).1 ∧ ∀ g ∈ (dispatch sh vt c).2, Tried g := by
  have live : sh.exch.vt ≠ none := by simp [registered]
  unfold ExchangeModel.dispatch
  obtain ⟨lim, r, rest, perm, popped⟩ | ⟨lim, popped⟩ := popEligible_cases sh.exch c.clock
  · rw [popped]
    constructor
    · apply inv.exch
      · intro x mem
        exact inv.queue x (perm.mem_iff.mpr (.tail _ mem))
      · intro none
        exact absurd none live
    · exact forall_mem_singleton.mpr (inv.queue r (perm.mem_iff.mpr (.head _)))
  · rw [popped]
    dsimp only
    split_ifs
    · refine ⟨inv.exch inv.queue inv.tombstone, by simp⟩
    · refine ⟨inv.exch (by simpa using inv.queue) (by simpa using inv.tombstone), by simp⟩
    · have armed := inv.exch (e := armPump { sh.exch with limiter := lim } (some sh.nextHandle))
        (by simpa using inv.queue) (by simpa using inv.tombstone)
      exact ⟨{ armed with }, by simp⟩

theorem Attempts.act (tried : Tried f) (c : Choice) :
    Attempts (act sh c f).1 ∧ ∀ g ∈ (act sh c f).2, Tried g := by
  cases f with
  | request r =>
    cases registered : sh.exch.vt with
    | none => simpa [ExchangeModel.act, registered] using { inv with }
    | some vt =>
      have pushed := inv.push tried (by simp [registered])
      simpa [ExchangeModel.act, registered] using { pushed with }
  | dispatch =>
    cases registered : sh.exch.vt with
    | none => simpa [ExchangeModel.act, registered] using inv
    | some vt => simpa only [ExchangeModel.act, registered] using inv.dispatch registered c
  | submit r vt =>
    have due : Due r := tried
    simp only [ExchangeModel.act]
    split_ifs
    · exact ⟨inv.deliver due.handed_le _, by simp⟩
    · exact ⟨inv.deliver due.handed_le _, by simp⟩
    · exact ⟨inv.deliver due.submit.handed_le _, by simp⟩
    · refine ⟨{ inv with driver := ?_ }, by simp⟩
      exact forall_mem_append.mpr ⟨inv.driver, forall_mem_singleton.mpr due.submit⟩
  | refund => exact ⟨inv.exch inv.queue inv.tombstone, by simp [ExchangeModel.act]⟩
  | respond r status =>
    have out : Out r := tried
    refine ⟨inv.exch (by simpa using inv.queue) (by simpa using inv.tombstone), ?_⟩
    simpa [ExchangeModel.act] using out
  | settle r status =>
    have out : Out r := tried
    cases outcome : classifyStatus status with
    | ok | fail =>
      simp only [ExchangeModel.act, outcome]
      exact ⟨inv.deliver out.handed_le _, by simp⟩
    | retry =>
      simp only [ExchangeModel.act, outcome]
      exact ⟨inv.armRetry out c, by simp⟩
  | retry r =>
    have due : Due r := tried
    cases registered : sh.exch.vt with
    | none =>
      simp only [ExchangeModel.act, registered]
      exact ⟨inv.deliver due.handed_le _, by simp⟩
    | some vt =>
      simp only [ExchangeModel.act, registered]
      exact ⟨inv.push due (by simp [registered]), by simp⟩
  | pump h => exact ⟨inv.exch inv.queue inv.tombstone, by simp [ExchangeModel.act]⟩
  | drain rs =>
    have due : ∀ r ∈ rs, Due r := tried
    cases rs with
    | nil => exact ⟨inv, by simp [ExchangeModel.act]⟩
    | cons r rest =>
      exact ⟨inv.deliver (due r (.head _)).handed_le _,
        forall_mem_singleton.mpr fun x mem => due x (.tail _ mem)⟩
  | register vt =>
    refine ⟨inv, ?_⟩
    simp only [ExchangeModel.act]
    split_ifs <;> simp
  | revive vt =>
    refine ⟨inv.exch inv.queue ?_, by simp [ExchangeModel.act]⟩
    intro none
    cases none

end Attempts

section Runs

structure Inv (s : Sys) : Prop where
  placed : ∀ id, kept id s.toShared + (s.threads.flatten.map (holds id)).sum = s.accepted.count id
  answered : ∀ id, (s.threads.flatten.map (asks id)).sum + s.refused.count id +
    s.accepted.count id = if id < s.nextId then 1 else 0
  attempts : Attempts s.toShared
  tried : ∀ f ∈ s.threads.flatten, Tried f

theorem start_inv (vt : Vtable) (now : ℕ) : Inv (start vt now) where
  placed := fun id => rfl
  answered := fun id => rfl
  attempts := {
    queue := by simp [start, fresh]
    driver := by simp [start]
    retries := by simp [start]
    fired := by simp [start]
    tombstone := fun _ => rfl }
  tried := by simp [start]

variable {s t : Sys}

theorem Inv.turn (inv : Inv s) {rest : List Frame} (found : top s.threads i = some (f, rest))
    (c : Choice) :
    Inv { s with
      toShared := (act s.toShared c f).1
      threads := s.threads.set i ((act s.toShared c f).2 ++ rest) } where
  placed := by
    intro id
    have moved := (act_accounts id s.toShared c f).1
    have frames := sum_turn found (holds id) (act s.toShared c f).2
    have before := inv.placed id
    dsimp only at moved frames ⊢
    omega
  answered := by
    intro id
    have moved := (act_accounts id s.toShared c f).2
    have frames := sum_turn found (asks id) (act s.toShared c f).2
    have before := inv.answered id
    dsimp only at moved frames ⊢
    omega
  attempts := (inv.attempts.act (inv.tried f (top_mem found)) c).1
  tried := by
    intro g mem
    rcases mem_of_turn found mem with new | old
    · exact (inv.attempts.act (inv.tried f (top_mem found)) c).2 g new
    · exact inv.tried g old

theorem Inv.spawned (inv : Inv s) {frames : List Frame} {next : ℕ}
    (accepted : sh.accepted = s.accepted)
    (moved : ∀ id, kept id sh + (frames.map (holds id)).sum = kept id s.toShared)
    (asked : ∀ id, (frames.map (asks id)).sum + sh.refused.count id +
      (if id < s.nextId then 1 else 0) = s.refused.count id + if id < next then 1 else 0)
    (attempts : Attempts sh) (tried : ∀ f ∈ frames, Tried f) :
    Inv ⟨sh, next, s.threads ++ [frames]⟩ where
  placed := by
    intro id
    have before := inv.placed id
    have moved := moved id
    dsimp only
    rw [flatten_spawn, map_append, sum_append, accepted]
    omega
  answered := by
    intro id
    have before := inv.answered id
    have asked := asked id
    dsimp only
    rw [flatten_spawn, map_append, sum_append, accepted]
    omega
  attempts := attempts
  tried := by
    dsimp only
    rw [flatten_spawn]
    exact forall_mem_append.mpr ⟨inv.tried, tried⟩

theorem below_succ (id next : ℕ) :
    (if next = id then 1 else 0) + (if id < next then 1 else 0) =
      if id < next + 1 then 1 else 0 := by
  split_ifs <;> omega

variable (inv : Inv s)
include inv

theorem Inv.request (prio : ℕ) :
    Inv { spawn s [.request ⟨s.nextId, prio, 0, 0⟩] with nextId := s.nextId + 1 } := by
  refine inv.spawned rfl (fun id => rfl) (fun id => ?_) inv.attempts ?_
  · have new := below_succ id s.nextId
    simp only [spawn, map_cons, map_nil, sum_cons, sum_nil, asks, one]
    omega
  · exact forall_mem_singleton.mpr ⟨rfl, Nat.zero_lt_succ 4⟩

theorem Inv.reject :
    Inv { s with refused := s.nextId :: s.refused, nextId := s.nextId + 1 } where
  __ := inv
  answered := by
    intro id
    have before := inv.answered id
    have new := below_succ id s.nextId
    simp only [count_cons, beq_iff_eq]
    omega
  attempts := { inv.attempts with }

theorem Inv.hand (accepted : sh.accepted = s.accepted)
    (refused : sh.refused = s.refused) (calm : ∀ id, asks id f = 0)
    (moved : ∀ id, kept id sh + holds id f = kept id s.toShared) (attempts : Attempts sh)
    (tried : Tried f) : Inv ⟨sh, s.nextId, s.threads ++ [[f]]⟩ := by
  refine inv.spawned accepted (fun id => ?_) (fun id => ?_) attempts
    (forall_mem_singleton.mpr tried)
  · simpa using moved id
  · simp [calm, refused]

theorem Inv.complete (found : s.driver[i]? = some r) (status : ℤ) :
    Inv { spawn s [.respond r status] with driver := s.driver.eraseIdx i } := by
  refine inv.hand rfl rfl (fun id => rfl) (fun id => ?_) ?_ ?_
  · have gone := times_eraseIdx id found
    simp only [spawn, kept, holds]
    omega
  · exact { inv.attempts with
      driver := fun x mem => inv.attempts.driver x (mem_of_mem_eraseIdx mem) }
  · exact inv.attempts.driver r (mem_of_getElem? found)

theorem Inv.fireRetry (found : s.retries[i]? = some r) :
    Inv { spawn s [.retry r] with retries := s.retries.eraseIdx i } := by
  refine inv.hand rfl rfl (fun id => rfl) (fun id => ?_) ?_ ?_
  · have gone := times_eraseIdx id found
    simp only [spawn, kept, holds]
    omega
  · exact { inv.attempts with
      retries := fun x mem => inv.attempts.retries x (mem_of_mem_eraseIdx mem) }
  · exact inv.attempts.retries r (mem_of_getElem? found)

theorem Inv.unregister (pumps : List ℕ) :
    Inv { spawn s [.drain s.exch.queue] with exch := tombstone s.exch, pumps := pumps } := by
  refine inv.hand rfl rfl (fun id => rfl) (fun id => ?_) ?_ inv.attempts.queue
  · simp only [spawn, kept, holds, tombstone, times_nil]
    omega
  · exact { inv.attempts with
      queue := nofun
      tombstone := fun _ => rfl }

theorem Inv.step {op : Op} (moved : step s op = some t) : Inv t := by
  cases op with
  | request cb path prio =>
    simp only [ExchangeModel.step] at moved
    split_ifs at moved <;> cases moved
    · exact inv.reject
    · exact inv.request prio
  | dispatch | register vt =>
    cases moved
    exact inv.hand rfl rfl (fun id => rfl) (fun id => rfl) inv.attempts trivial
  | complete i status =>
    simp only [ExchangeModel.step] at moved
    split at moved <;> cases moved
    next r found => exact inv.complete found status
  | fireRetry i =>
    simp only [ExchangeModel.step] at moved
    split at moved <;> cases moved
    next r found => exact inv.fireRetry found
  | firePump i =>
    simp only [ExchangeModel.step] at moved
    split at moved <;> cases moved
    next h found =>
      exact inv.hand rfl rfl (fun id => rfl) (fun id => rfl) { inv.attempts with } trivial
  | unregister cancelled =>
    cases moved
    exact inv.unregister _
  | turn i c =>
    simp only [ExchangeModel.step] at moved
    split at moved <;> cases moved
    next f rest found => exact inv.turn found c

omit inv

theorem exists_place {n : Place → ℕ}
    (sum : n .queued + n .driver + n .waiting + n .completed = 1) :
    ∃ p, n p = 1 ∧ ∀ q, q ≠ p → n q = 0 := by
  obtain ⟨p, here⟩ : ∃ p, n p = 1 := by
    by_contra none
    push Not at none
    have := none .queued
    have := none .driver
    have := none .waiting
    have := none .completed
    omega
  refine ⟨p, here, fun q other => ?_⟩
  cases p <;> cases q <;> first | exact absurd rfl other | omega

theorem Tried.handed_le (tried : Tried f) {p : Place} (mem : r ∈ inHand p f) :
    r.handed ≤ retryMaxAttempts := by
  cases f with
  | submit x vt | retry x =>
    cases p <;> simp only [inHand, mem_singleton, not_mem_nil] at mem
    exact mem ▸ Due.handed_le tried
  | respond x status | settle x status =>
    cases p <;> simp only [inHand, mem_singleton, not_mem_nil] at mem
    exact mem ▸ Out.handed_le tried
  | drain rs =>
    cases p <;> simp only [inHand, not_mem_nil] at mem
    exact Due.handed_le (tried r mem)
  | _ => cases p <;> simp only [inHand, not_mem_nil] at mem

theorem Inv.exactlyOnce (inv : Inv s) : ExactlyOnce s where
  placed := by
    intro id mem
    have sum := sum_places s id
    have answered := inv.answered id
    have once : 0 < s.accepted.count id := count_pos_iff.mpr mem
    rw [inv.placed id] at sum
    apply exists_place
    split_ifs at answered <;> omega
  refused := by
    intro id mem
    have sum := sum_places s id
    have answered := inv.answered id
    have once : 0 < s.refused.count id := count_pos_iff.mpr mem
    rw [inv.placed id] at sum
    have never : s.accepted.count id = 0 := by split_ifs at answered <;> omega
    refine ⟨count_eq_zero.mp never, fun p => ?_⟩
    cases p <;> omega
  handed := by
    intro p r mem
    rcases mem_append.mp mem with base | held
    · cases p with
      | queued => exact (inv.attempts.queue r base).handed_le
      | driver => exact (inv.attempts.driver r base).handed_le
      | waiting => exact (inv.attempts.retries r base).handed_le
      | completed =>
        obtain ⟨x, there, rfl⟩ := mem_map.mp base
        exact inv.attempts.fired x there
    · obtain ⟨f, there, mem⟩ := mem_flatMap.mp held
      exact (inv.tried f there).handed_le mem
  tombstone := inv.attempts.tombstone

theorem exchange_exactly_once (vt : Vtable) (now : ℕ) (ops : List Op) (s : Sys)
    (run : Run step Any (start vt now) ops s) : ExactlyOnce s := by
  have inv := run.invariant (fun inv _ moved => Inv.step inv moved) (start_inv vt now)
  exact inv.exactlyOnce

theorem exchange_exactly_once_retried :
    ∃ s, s.accepted = [1, 0] ∧
      s.fired = [(⟨0, 0, 1, 2⟩, .success 200), (⟨1, 50, 0, 0⟩, .unregistered)] ∧
      ExactlyOnce s := by
  have run : Run step Any (start ⟨true, true, 3, 1⟩ 0)
      (.request true "/orders" 0 :: turns 0 3 0 ++ .complete 0 503 :: turns 1 2 0 ++
        .fireRetry 0 :: turns 2 3 2000000000 ++ .complete 0 200 :: turns 3 2 2000000000 ++
        .request true "/candles" 50 :: turns 4 2 2000000000 ++
        .unregister true :: turns 5 1 2000000000) _ :=
    run_get (by decide +kernel)
  exact ⟨_, by decide +kernel, by decide +kernel, exchange_exactly_once _ _ _ _ run⟩

end Runs

end BotManager.ExchangeOwner
