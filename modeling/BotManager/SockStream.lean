import Mathlib.Data.List.Infix
import BotManager.SockModel
import BotManager.StepRun

/-! The bytes of a connection: what the kernel is handed on a descriptor is what `sock_send`
accepted while that descriptor was the session's, in order, as far as it was sent. -/

namespace BotManager.SockStream
open List FramePool SockModel StepRun

section Statement

structure OwnBytes (s : Shared) : Prop where
  own : ∀ k, s.written k <+: s.accepted k
  queued : s.sendQueued.toNat = (unsent s.queue).length

def adopts : Frame → Bool
  | .adoptFd _ => true
  | _ => false

def offered : Frame → Option (List UInt8)
  | .enqueue buf => some buf.1
  | _ => none

/-- A descriptor is adopted while nothing is left to send, and a buffer is accepted while what
is left to send stays countable. -/
def Fits (s : Shared) (c : Choice) (f : Frame) : Prop :=
  (adopts f = true → c.ctl = none → s.queue = []) ∧
    ∀ buf ∈ offered f, ¬ full s c.sendQueueMax buf.length →
      (unsent s.queue).length + buf.length < 2 ^ 32

def Keeps (s : Sys) : Op → Prop
  | .turn i c => ∀ r ∈ top s.threads i, Fits s.toShared c r.1
  | _ => True

instance (s : Shared) (c : Choice) (f : Frame) : Decidable (Fits s c f) :=
  inferInstanceAs (Decidable (_ ∧ _))

instance (s : Sys) : (op : Op) → Decidable (Keeps s op)
  | .turn _ _ => inferInstanceAs (Decidable (∀ r ∈ _, _))
  | .send _ | .connect _ | .close | .leg | .event _ _ _ | .wakeEvent | .ownSweep | .sweep =>
    .isTrue trivial

end Statement

section Invariant

variable {s t : Shared} {c : Choice} {f : Frame}

structure Same (s t : Shared) : Prop where
  queue : t.queue = s.queue
  sendQueued : t.sendQueued = s.sendQueued
  conns : t.conns = s.conns
  accepted : t.accepted = s.accepted
  written : t.written = s.written
  fd : t.fd = s.fd ∨ t.fd = none

theorem Same.refl (s : Shared) : Same s s := ⟨rfl, rfl, rfl, rfl, rfl, .inl rfl⟩

theorem act_cases (s : Shared) (c : Choice) (f : Frame) :
    Same s (act s c f).1 ∨ (act s c f).1 = drain s c.writes ∨
    (∃ buf, f = .enqueue buf ∧ ¬ full s c.sendQueueMax buf.1.length ∧
      (act s c f).1 = enqueue s buf) ∨
    ∃ out, f = .adoptFd out ∧ c.ctl = none ∧ (act s c f).1 = adopt s out := by
  cases f with
  | enqueue buf =>
    rw [act]
    split_ifs with room
    · exact .inl (.refl s)
    · exact .inr (.inr (.inl ⟨buf, rfl, room, rfl⟩))
    · exact .inr (.inr (.inl ⟨buf, rfl, room, rfl⟩))
  | flush | drain => exact .inr (.inl rfl)
  | adoptFd out =>
    cases ctl : c.ctl with
    | none => exact .inr (.inr (.inr ⟨out, rfl, rfl, by rw [act, ctl]⟩))
    | some errno =>
      left
      rw [act, ctl]
      exact .refl s
  | submit =>
    left
    rw [act]
    split_ifs <;> exact ⟨rfl, rfl, rfl, rfl, rfl, .inl rfl⟩
  | rearm out =>
    left
    rw [act]
    split_ifs
    · exact .refl s
    · split <;> exact ⟨rfl, rfl, rfl, rfl, rfl, .inl rfl⟩
  | closeFd ev => exact .inl ⟨rfl, rfl, rfl, rfl, rfl, .inr rfl⟩
  | _ => exact .inl ⟨rfl, rfl, rfl, rfl, rfl, .inl rfl⟩

structure Inv (s : Shared) : Prop where
  own : ∀ k, s.written k <+: s.accepted k
  left : s.accepted s.conns = s.written s.conns ++ unsent s.queue
  beyond : ∀ k, s.conns < k → s.accepted k = [] ∧ s.written k = []
  latest : ∀ d, s.fd = some d → d = s.conns
  queued : s.sendQueued = UInt32.ofNat (unsent s.queue).length
  small : (unsent s.queue).length < 2 ^ 32

theorem Inv.ownBytes (inv : Inv s) : OwnBytes s where
  own := inv.own
  queued := by
    rw [inv.queued]
    exact UInt32.toNat_ofNat_of_lt' inv.small

theorem created_inv : Inv (created kind tls) where
  own := fun k => prefix_rfl
  left := rfl
  beyond := fun k _ => ⟨rfl, rfl⟩
  latest := fun d held => by cases held
  queued := rfl
  small := Nat.two_pow_pos 32

theorem Same.inv (same : Same s t) (inv : Inv s) : Inv t := by
  constructor
  case own => rw [same.written, same.accepted]; exact inv.own
  case left => rw [same.written, same.accepted, same.conns, same.queue]; exact inv.left
  case beyond => rw [same.written, same.accepted, same.conns]; exact inv.beyond
  case latest =>
    intro d held
    rcases same.fd with kept | gone
    · rw [same.conns]
      exact inv.latest d (kept ▸ held)
    · rw [gone] at held
      cases held
  case queued => rw [same.sendQueued, same.queue]; exact inv.queued
  case small => rw [same.queue]; exact inv.small

theorem Inv.drain (inv : Inv s) (writes : List (Option ℕ)) : Inv (drain s writes) := by
  cases held : s.fd with
  | none => simpa only [SockModel.drain, held] using inv
  | some d =>
    obtain rfl := inv.latest d held
    have split := drainSendq_unsent s.queue writes
    have lengths := congrArg length split
    rw [length_append] at lengths
    have left : s.accepted s.conns = (s.written s.conns ++ (drainSendq s.queue writes).2) ++
        unsent (drainSendq s.queue writes).1 := by
      rw [append_assoc, split, inv.left]
    simp only [SockModel.drain, held]
    constructor
    case own =>
      intro k
      dsimp only
      by_cases here : k = s.conns
      · subst here
        rw [Function.update_self, left]
        exact prefix_append _ _
      · rw [Function.update_of_ne here]
        exact inv.own k
    case left =>
      dsimp only
      rw [Function.update_self]
      exact left
    case beyond =>
      intro k later
      dsimp only at later ⊢
      rw [Function.update_of_ne (Nat.ne_of_gt later)]
      exact inv.beyond k later
    case latest => exact fun d again => inv.latest d (held.trans again)
    case queued =>
      rw [inv.queued, ← lengths, Nat.add_comm, UInt32.ofNat_add, UInt32.add_sub_cancel]
    case small =>
      have small := inv.small
      dsimp only
      omega

theorem Inv.enqueue (inv : Inv s) (buf : { l : List UInt8 // 0 < l.length })
    (small : (unsent s.queue).length + buf.1.length < 2 ^ 32) : Inv (enqueue s buf) := by
  have queue : unsent (s.queue ++ [.alloc buf]) = unsent s.queue ++ buf.1 := by
    simp [SendBuf.alloc, SendBuf.rest]
  constructor
  case own =>
    intro k
    by_cases here : k = s.conns
    · subst here
      simp only [SockModel.enqueue, Function.update_self]
      exact (inv.own s.conns).trans (prefix_append _ _)
    · simp only [SockModel.enqueue, Function.update_of_ne here]
      exact inv.own k
  case left =>
    simp only [SockModel.enqueue, Function.update_self]
    rw [queue, inv.left, append_assoc]
  case beyond =>
    intro k later
    have other : k ≠ s.conns := Nat.ne_of_gt later
    simp only [SockModel.enqueue, Function.update_of_ne other]
    exact inv.beyond k later
  case latest => exact inv.latest
  case queued =>
    simp only [SockModel.enqueue]
    rw [queue, inv.queued, length_append, UInt32.ofNat_add]
  case small =>
    simp only [SockModel.enqueue]
    rw [queue, length_append]
    exact small

theorem Inv.adopt (inv : Inv s) (out : Bool) (empty : s.queue = []) : Inv (adopt s out) := by
  obtain ⟨accepted, written⟩ := inv.beyond (s.conns + 1) (Nat.lt_succ_self _)
  constructor
  case own => exact inv.own
  case left =>
    simp only [SockModel.adopt]
    rw [accepted, written, empty]
    rfl
  case beyond => exact fun k later => inv.beyond k (Nat.lt_of_succ_lt later)
  case latest => exact fun d held => (Option.some.inj held).symm
  case queued => exact inv.queued
  case small => exact inv.small

theorem Inv.act (inv : Inv s) (fits : Fits s c f) : Inv (act s c f).1 := by
  rcases act_cases s c f with same | drained | ⟨buf, rfl, room, queued⟩ | ⟨out, rfl, ok, adopted⟩
  · exact same.inv inv
  · rw [drained]
    exact inv.drain c.writes
  · rw [queued]
    exact inv.enqueue buf (fits.2 buf.1 rfl room)
  · rw [adopted]
    exact inv.adopt out (fits.1 rfl ok)

end Invariant

section System

theorem Inv.worked {s t : Sys} {f : Frame} (inv : Inv s.toShared) (moved : work s f = some t) :
    Inv t.toShared := by
  obtain ⟨-, rfl⟩ := fired moved
  exact inv

theorem Inv.step {s t : Sys} {op : Op} (inv : Inv s.toShared) (keeps : Keeps s op)
    (moved : step s op = some t) : Inv t.toShared := by
  cases op with
  | send buf | connect target | close | sweep =>
    cases moved
    exact inv
  | leg =>
    obtain ⟨-, rfl⟩ := fired moved
    have same : Same s.toShared { s.toShared with legs := s.legs - 1 } :=
      ⟨rfl, rfl, rfl, rfl, rfl, .inl rfl⟩
    exact same.inv inv
  | event err out inp | ownSweep => exact inv.worked moved
  | wakeEvent =>
    obtain ⟨-, moved⟩ := Option.ite_none_right_eq_some.mp moved
    exact inv.worked moved
  | turn i c =>
    rw [SockModel.step] at moved
    split at moved
    next => cases moved
    next f rest found =>
      cases moved
      exact inv.act (keeps _ found)

theorem connection_own_bytes {kind : Kind} {tls : Bool} {labels : List Op} {t : Sys}
    (run : Run step Keeps (start kind tls) labels t) : OwnBytes t.toShared :=
  (run.invariant (I := fun s => Inv s.toShared) Inv.step created_inv).ownBytes

theorem connection_own_bytes_twice :
    ∃ t : Sys, t.written 1 = [1, 2, 3] ∧ t.written 2 = [4] ∧ t.accepted 2 = [4, 5] ∧
      OwnBytes t.toShared := by
  have run : Run step Keeps (start .unix false)
      (.connect true :: turns 1 3 ++ .leg :: turns 2 4 ++ .send [1, 2, 3] :: turns 3 3 ++
        .event false true false :: turns 0 2 ++ .turn 0 { calm with writes := [some 2] } ::
        .event false true true :: turns 0 2 ++ .turn 0 { calm with writes := [some 1] } ::
        turns 0 3 ++ .turn 0 { calm with read := .eof } :: turns 0 2 ++
        .connect true :: turns 4 3 ++ .leg :: turns 5 4 ++ .send [4, 5] :: turns 6 2 ++
        .event false true false :: turns 0 2 ++
        [.turn 0 { calm with writes := [some 1, none] }]) _ :=
    runWhen_get (by decide +kernel)
  refine ⟨_, ?_, ?_, ?_, connection_own_bytes run⟩
  all_goals decide +kernel

/-- The peer closes after half of a buffer; the other half is the first thing that the next
connection carries, on which nothing was accepted. -/
theorem connection_foreign_bytes :
    ∃ labels t, Run step Any (start .tcp false) labels t ∧ t.written 1 = [1] ∧
      t.written 2 = [2] ∧ t.accepted 2 = [] ∧ ¬ OwnBytes t.toShared := by
  refine ⟨(.connect true :: turns 1 3 ++ .leg :: turns 2 4 ++ .send [1, 2] :: turns 3 3 ++
        .wakeEvent :: turns 0 5 ++ .event false true true :: turns 0 2 ++
        .turn 0 { calm with writes := [some 1] } :: .turn 0 calm ::
        .turn 0 { calm with read := .eof } :: turns 0 2 ++ .connect true :: turns 4 3 ++
        .leg :: .turn 5 { calm with lookup := some [.inProgress] } :: turns 5 3 ++
        .event false true false :: turns 0 7 ++ .close :: turns 6 2 ++
        [.turn 6 { calm with writes := [some 1] }]), _,
    run_get (by decide +kernel), by decide +kernel, by decide +kernel, by decide +kernel, fun fine => ?_⟩
  exact absurd (fine.own 2) (by decide +kernel)

end System

end BotManager.SockStream
