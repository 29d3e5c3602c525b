import Mathlib.Data.List.Perm.Basic
import Mathlib.Data.List.Nodup
import Mathlib.Algebra.Group.Nat.Even
import BotManager.StepRun
import BotManager.FirstMatch

/-! The in-flight set of core/curl_flight.c. A piece of work holds one slot from its open to
its close; the slot's value changes with every leg that is relayed and is the handle by
which the work finds it. Every section under the flight's mutex is one step, so a relay
takes two, with the submission in between; a completion callback can run as soon as the
request is accepted. A drain grounds the flight, and ends when the set is empty or its time
is up. -/

namespace BotManager.CurlFlight
open List StepRun FirstMatch

def curlFlightIdle : ℕ := 2 ^ 63
def curlFlightCap0 : ℕ := 8

structure Flight where
  slots : List ℕ
  cap : ℕ
  seq : ℕ
  grounded : Bool
  deriving DecidableEq

section Flight

def token (seq : ℕ) : ℕ := curlFlightIdle ||| seq

variable (f : Flight)

def nextSeq : ℕ := (f.seq + 1) % 2 ^ 64

def curlFlightFind (id : ℕ) : Option (List ℕ × ℕ × List ℕ) :=
  splitFirst (fun v => decide (v = id)) f.slots

def grown : ℕ :=
  if f.slots.length = f.cap then if f.cap ≠ 0 then f.cap * 2 % 2 ^ 32 else curlFlightCap0
  else f.cap

def curlFlightInit : Flight := ⟨[], 0, 0, false⟩

def curlFlightOpen : Option (Flight × ℕ) :=
  if f.grounded then none
  else some (⟨f.slots ++ [token (nextSeq f)], grown f, nextSeq f, f.grounded⟩, token (nextSeq f))

def put (slot value : ℕ) : Flight :=
  match curlFlightFind f slot with
  | some (pre, _, post) => { f with slots := pre ++ value :: post }
  | none => f

/-- A relay up to the submission: the slot takes the id of the request. -/
def curlFlightRelay (id slot : ℕ) : Option (Flight × ℕ) :=
  if f.grounded then none else some (put f slot id, id)

/-- The rest of a relay whose submission was refused: the slot takes a new token. -/
def curlFlightRefused (id : ℕ) : Flight × ℕ :=
  match curlFlightFind f id with
  | some _ => ({ put f id (token (nextSeq f)) with seq := nextSeq f }, token (nextSeq f))
  | none => (f, id)

def closeGap (pre post : List ℕ) : List ℕ :=
  match post.getLast? with
  | none => pre
  | some last => pre ++ last :: post.dropLast

def curlFlightClose (slot : ℕ) : Flight :=
  match curlFlightFind f slot with
  | some (pre, _, post) => { f with slots := closeGap pre post }
  | none => f

/-- The end of a drain: the slots left, and the flight open again if there are any. -/
def drainEnd : Flight × ℕ :=
  (if 0 < f.slots.length then { f with grounded := false } else f, f.slots.length)

end Flight

section System

inductive Phase
  | idle
  | submitting
  | airborne
  | closed
  deriving DecidableEq

structure Work where
  handle : ℕ
  phase : Phase
  deriving DecidableEq

def Work.isOpen (w : Work) : Bool := w.phase ≠ .closed

structure Sys where
  flight : Flight
  works : List Work
  used : List ℕ
  draining : ℕ
  deriving DecidableEq

inductive Op
  | opened
  | relay (w id : ℕ)
  | accepted (w : ℕ)
  | refused (w : ℕ)
  | close (w : ℕ)
  | closeStale (handle : ℕ)
  | drainBegin
  | drainEnd

/-- A handle that was never opened, or whose work is closed. -/
def Stale (s : Sys) (handle : ℕ) : Prop :=
  handle = 0 ∨ ∃ w ∈ s.works, w.phase = .closed ∧ w.handle = handle

instance (s : Sys) (handle : ℕ) : Decidable (Stale s handle) :=
  inferInstanceAs (Decidable (_ ∨ ∃ w ∈ s.works, _))

def Fresh (s : Sys) (id : ℕ) : Prop := id ≠ 0 ∧ id < curlFlightIdle ∧ id ∉ s.used

instance (s : Sys) (id : ℕ) : Decidable (Fresh s id) := inferInstanceAs (Decidable (_ ∧ _ ∧ _))

def stepOpen (s : Sys) : Sys :=
  match curlFlightOpen s.flight with
  | none => s
  | some (f, handle) => { s with flight := f, works := s.works ++ [⟨handle, .idle⟩] }

def stepRelay (s : Sys) (w : ℕ) (work : Work) (id : ℕ) : Sys :=
  match curlFlightRelay s.flight id work.handle with
  | none => { s with used := id :: s.used }
  | some (f, handle) =>
    { s with flight := f, works := s.works.set w ⟨handle, .submitting⟩, used := id :: s.used }

def onWork (s : Sys) (w : ℕ) (allowed : Work → Prop) [DecidablePred allowed] (go : Work → Sys) :
    Option Sys :=
  s.works[w]?.bind fun work => if allowed work then some (go work) else none

theorem onWork_some {s t : Sys} {w : ℕ} {allowed : Work → Prop} [DecidablePred allowed]
    {go : Work → Sys} (moved : onWork s w allowed go = some t) :
    ∃ work, s.works[w]? = some work ∧ allowed work ∧ go work = t := by
  obtain ⟨work, turn, taken⟩ := Option.bind_eq_some_iff.mp moved
  exact ⟨work, turn, fired taken⟩

def step (s : Sys) : Op → Option Sys
  | .opened => some (stepOpen s)
  | .relay w id =>
    onWork s w (fun work => (work.phase = .idle ∨ work.phase = .airborne) ∧ Fresh s id)
      fun work => stepRelay s w work id
  | .accepted w =>
    onWork s w (fun work => work.phase = .submitting)
      fun work => { s with works := s.works.set w ⟨work.handle, .airborne⟩ }
  | .refused w =>
    onWork s w (fun work => work.phase = .submitting) fun work =>
      let r := curlFlightRefused s.flight work.handle
      { s with flight := r.1, works := s.works.set w ⟨r.2, .idle⟩ }
  | .close w =>
    onWork s w (fun work => work.phase = .idle ∨ work.phase = .airborne) fun work =>
      { s with flight := curlFlightClose s.flight work.handle,
               works := s.works.set w ⟨work.handle, .closed⟩ }
  | .closeStale handle =>
    if Stale s handle then some { s with flight := curlFlightClose s.flight handle } else none
  | .drainBegin =>
    some { s with flight := { s.flight with grounded := true }, draining := s.draining + 1 }
  | .drainEnd =>
    if 0 < s.draining then
      some { s with flight := (CurlFlight.drainEnd s.flight).1, draining := s.draining - 1 }
    else none

def start : Sys := ⟨curlFlightInit, [], [], 0⟩

/-- Drains do not overlap, and neither the tokens nor the capacity run out of their types. -/
def Keeps (s : Sys) : Op → Prop
  | .opened => s.flight.seq + 1 < 2 ^ 63 ∧ s.flight.slots.length < 2 ^ 31
  | .refused _ => s.flight.seq + 1 < 2 ^ 63
  | .drainBegin => s.draining = 0
  | _ => True

end System

variable {handle seq : ℕ}

section Slots

def openHandles (ws : List Work) : List ℕ := (ws.filter Work.isOpen).map Work.handle

theorem openHandles_append : openHandles (a ++ b) = openHandles a ++ openHandles b := by
  simp [openHandles]

theorem token_eq {k : ℕ} (small : k < 2 ^ 63) : token k = 2 ^ 63 + k := by
  have sum := Nat.two_pow_add_eq_or_of_lt small 1
  rw [Nat.mul_one] at sum
  exact sum.symm

def Known (seq : ℕ) (used : List ℕ) (handle : ℕ) : Prop :=
  (∃ k, 1 ≤ k ∧ k ≤ seq ∧ handle = token k) ∨ handle ∈ used

structure Inv (s : Sys) : Prop where
  matched : s.flight.slots.Perm (openHandles s.works)
  handles : (s.works.map Work.handle).Nodup
  known : ∀ w ∈ s.works, Known s.flight.seq s.used w.handle
  ids : ∀ i ∈ s.used, i ≠ 0 ∧ i < 2 ^ 63
  minted : s.flight.seq < 2 ^ 63
  fits : s.flight.slots.length ≤ s.flight.cap

theorem openHandles_sublist : (openHandles ws).Sublist (ws.map Work.handle) :=
  filter_sublist.map _

variable {s : Sys} {f : Flight} {w : ℕ} {work : Work} {ws a b : List Work} {used : List ℕ}

theorem perm_closeGap (pre post : List ℕ) : (closeGap pre post).Perm (pre ++ post) := by
  unfold closeGap
  split
  next none =>
    rw [getLast?_eq_none_iff.mp none, append_nil]
  next last some =>
    have whole := dropLast_append_getLast? last some
    refine List.Perm.append_left pre ?_
    conv_rhs => rw [← whole]
    exact (perm_append_singleton last post.dropLast).symm

theorem find_of_mem {slot : ℕ} (mem : slot ∈ f.slots) :
    ∃ pre post, curlFlightFind f slot = some (pre, slot, post) ∧ f.slots = pre ++ slot :: post := by
  unfold curlFlightFind
  cases found : splitFirst (fun v => decide (v = slot)) f.slots with
  | none =>
    have none := splitFirst_none found slot mem
    simp at none
  | some parts =>
    obtain ⟨pre, v, post⟩ := parts
    obtain ⟨whole, here, -⟩ := splitFirst_some found
    obtain rfl := of_decide_eq_true here
    exact ⟨pre, post, rfl, whole⟩

theorem find_of_not_mem {slot : ℕ} (missing : slot ∉ f.slots) : curlFlightFind f slot = none := by
  cases found : curlFlightFind f slot with
  | none => rfl
  | some parts =>
    obtain ⟨pre, v, post⟩ := parts
    obtain ⟨whole, here, -⟩ := splitFirst_some found
    obtain rfl := of_decide_eq_true here
    exact absurd (whole ▸ by simp) missing

theorem split_works (turn : ws[w]? = some work) :
    ∃ a b, ws = a ++ work :: b ∧ ∀ new, ws.set w new = a ++ new :: b := by
  obtain ⟨inside, rfl⟩ := List.getElem?_eq_some_iff.mp turn
  refine ⟨ws.take w, ws.drop (w + 1), ?_, fun new => ?_⟩
  · rw [← drop_eq_getElem_cons inside, take_append_drop]
  · rw [set_eq_take_append_cons_drop, if_pos inside]

theorem Known.mono {seq' : ℕ} {used' : List ℕ} (known : Known seq used handle)
    (order : seq ≤ seq') (sub : used ⊆ used') : Known seq' used' handle := by
  rcases known with ⟨k, pos, past, same⟩ | mem
  · exact .inl ⟨k, pos, Nat.le_trans past order, same⟩
  · exact .inr (sub mem)

theorem nextSeq_eq (room : f.seq + 1 < 2 ^ 63) : nextSeq f = f.seq + 1 :=
  Nat.mod_eq_of_lt (by omega)

theorem openHandles_middle (opened : work.isOpen = true) :
    (openHandles (a ++ work :: b)).Perm (work.handle :: openHandles (a ++ b)) := by
  have front : openHandles (work :: (a ++ b)) = work.handle :: openHandles (a ++ b) := by
    simp [openHandles, opened]
  rw [← front]
  exact (perm_middle.filter _).map _

theorem handles_phase (works : ws = a ++ work :: b) (phase : Phase) :
    (a ++ Work.mk work.handle phase :: b).map Work.handle = ws.map Work.handle := by
  rw [works]
  simp

theorem known_of_handles {ws' : List Work}
    (handles : ws'.map Work.handle = ws.map Work.handle) (known : ∀ w ∈ ws, Known seq used w.handle) :
    ∀ w ∈ ws', Known seq used w.handle := by
  intro w mem
  have inside := mem_map_of_mem (f := Work.handle) mem
  rw [handles] at inside
  obtain ⟨y, present, same⟩ := mem_map.mp inside
  rw [← same]
  exact known y present

variable (inv : Inv s)
include inv

theorem Inv.nodup : s.flight.slots.Nodup :=
  inv.matched.nodup_iff.mpr (inv.handles.sublist openHandles_sublist)

theorem Inv.token_fresh (room : s.flight.seq + 1 < 2 ^ 63) :
    token (nextSeq s.flight) ∉ s.works.map Work.handle := by
  intro mem
  obtain ⟨w, inside, same⟩ := mem_map.mp mem
  rw [nextSeq_eq room, token_eq room] at same
  rcases inv.known w inside with ⟨k, -, past, minted⟩ | given
  · rw [same, token_eq (by omega)] at minted
    omega
  · have := (inv.ids _ given).2
    omega

theorem Inv.id_fresh {id : ℕ} (fresh : Fresh s id) : id ∉ s.works.map Work.handle := by
  intro mem
  obtain ⟨w, inside, rfl⟩ := mem_map.mp mem
  rcases inv.known w inside with ⟨k, -, past, minted⟩ | given
  · have below := fresh.2.1
    have small := inv.minted
    rw [minted, token_eq (by omega), curlFlightIdle] at below
    omega
  · exact fresh.2.2 given

theorem Inv.stale (stale : Stale s handle) : handle ∉ s.flight.slots := by
  intro mem
  obtain ⟨w, inside, rfl⟩ := mem_map.mp (inv.matched.mem_iff.mp mem)
  obtain ⟨present, opened⟩ := mem_filter.mp inside
  rcases stale with zero | ⟨v, other, closed, same⟩
  · rcases inv.known w present with ⟨k, pos, past, minted⟩ | given
    · have small := inv.minted
      rw [minted, token_eq (by omega)] at zero
      omega
    · exact (inv.ids _ given).1 zero
  · obtain rfl := inj_on_of_nodup_map inv.handles other present same
    simp [Work.isOpen, closed] at opened

theorem Inv.others {pre post : List ℕ} (opened : work.isOpen = true)
    (whole : s.flight.slots = pre ++ work.handle :: post) (works : s.works = a ++ work :: b) :
    (pre ++ post).Perm (openHandles (a ++ b)) := by
  have both := inv.matched
  rw [whole, works] at both
  exact ((perm_middle.symm.trans both).trans (openHandles_middle opened)).cons_inv

variable (turn : s.works[w]? = some work)
include turn

theorem Inv.slot (opened : work.isOpen = true) :
    work.handle ∈ s.flight.slots :=
  inv.matched.mem_iff.mpr
    (mem_map_of_mem (mem_filter.mpr ⟨mem_of_getElem? turn, opened⟩))

theorem Inv.renew {v : ℕ} {phase : Phase}
    (opened : work.isOpen = true) (goes : phase ≠ .closed)
    (slots : f.slots = (put s.flight work.handle v).slots) (cap : f.cap = s.flight.cap)
    (order : s.flight.seq ≤ f.seq) (minted : f.seq < 2 ^ 63) (sub : s.used ⊆ used)
    (ids : ∀ i ∈ used, i ≠ 0 ∧ i < 2 ^ 63) (fresh : v ∉ s.works.map Work.handle)
    (known : Known f.seq used v) :
    Inv { s with flight := f, works := s.works.set w ⟨v, phase⟩, used := used } := by
  obtain ⟨pre, post, found, whole⟩ := find_of_mem (inv.slot turn opened)
  obtain ⟨a, b, works, set⟩ := split_works turn
  have slots : f.slots = pre ++ v :: post := by rw [slots, put, found]
  have others := inv.others opened whole works
  have goes : (Work.mk v phase).isOpen = true := by simpa [Work.isOpen] using goes
  rw [set]
  have distinct := inv.handles
  rw [works, map_append, map_cons, nodup_middle, nodup_cons,
    ← map_append] at distinct
  constructor
  · rw [slots]
    exact (perm_middle.trans (others.cons v)).trans (openHandles_middle goes).symm
  · rw [map_append, map_cons, nodup_middle, nodup_cons, ← map_append]
    refine ⟨fun mem => fresh ?_, distinct.2⟩
    rw [works]
    have sub : (a ++ b).Sublist (a ++ work :: b) := by simp
    exact (sub.map _).subset mem
  · intro x mem
    rcases mem_cons.mp (perm_middle.mem_iff.mp mem) with rfl | old
    · exact known
    · refine (inv.known x ?_).mono order sub
      rw [works]
      exact perm_middle.mem_iff.mpr (mem_cons_of_mem work old)
  · exact ids
  · exact minted
  · have room := inv.fits
    rw [whole] at room
    simp only [slots, cap]
    simpa using room

theorem Inv.close (opened : work.isOpen = true) :
    Inv { s with flight := curlFlightClose s.flight work.handle,
                 works := s.works.set w ⟨work.handle, .closed⟩ } := by
  obtain ⟨pre, post, found, whole⟩ := find_of_mem (inv.slot turn opened)
  obtain ⟨a, b, works, set⟩ := split_works turn
  have others := inv.others opened whole works
  have handles := handles_phase works .closed
  rw [set, curlFlightClose, found]
  constructor
  · have gone : openHandles (a ++ Work.mk work.handle .closed :: b) = openHandles (a ++ b) := by
      simp [openHandles, Work.isOpen]
    rw [gone]
    exact (perm_closeGap pre post).trans others
  · rw [handles]
    exact inv.handles
  · exact known_of_handles handles inv.known
  · exact inv.ids
  · exact inv.minted
  · have room := inv.fits
    have size := (perm_closeGap pre post).length_eq
    rw [whole] at room
    simp only [length_append, length_cons] at room size ⊢
    omega

omit turn

theorem Inv.opened (keeps : Keeps s .opened) : Inv (stepOpen s) := by
  obtain ⟨room, few⟩ := keeps
  unfold stepOpen curlFlightOpen
  split
  · exact inv
  next f handle taken =>
    split at taken
    · cases taken
    · cases taken
      have next := nextSeq_eq room
      constructor
      · rw [openHandles_append]
        exact inv.matched.append (List.Perm.refl _)
      · rw [map_append, map_singleton]
        refine List.Nodup.append inv.handles (nodup_singleton _) ?_
        intro v left right
        rw [mem_singleton.mp right] at left
        exact inv.token_fresh room left
      · exact forall_mem_append.mpr
          ⟨fun w old => (inv.known w old).mono (by dsimp only; omega) (List.Subset.refl _),
            forall_mem_singleton.mpr (.inl ⟨nextSeq s.flight, by omega, Nat.le_refl _, rfl⟩)⟩
      · exact inv.ids
      · dsimp only
        omega
      · have room := inv.fits
        dsimp only
        rw [length_append, length_singleton, grown]
        split_ifs with full some
        · rw [Nat.mod_eq_of_lt (by omega)]
          omega
        · rw [curlFlightCap0]
          omega
        · omega

end Slots

section Runs

variable {s t : Sys} {w : ℕ} {work : Work} {op : Op}

theorem put_rest (f : Flight) (slot v : ℕ) :
    (put f slot v).cap = f.cap ∧ (put f slot v).seq = f.seq ∧
      (put f slot v).grounded = f.grounded := by
  unfold put
  split <;> exact ⟨rfl, rfl, rfl⟩

theorem isOpen_of_phase (turn : work.phase = .idle ∨ work.phase = .airborne) :
    work.isOpen = true := by
  rcases turn with here | here <;> simp [Work.isOpen, here]

variable (turn : s.works[w]? = some work)
include turn

variable (opened : work.isOpen = true)
include opened

theorem Inv.relay {id : ℕ} (inv : Inv s) (fresh : Fresh s id) : Inv (stepRelay s w work id) := by
  have ids : ∀ i ∈ id :: s.used, i ≠ 0 ∧ i < 2 ^ 63 :=
    forall_mem_cons.mpr ⟨⟨fresh.1, fresh.2.1⟩, inv.ids⟩
  have sub : s.used ⊆ id :: s.used := subset_cons_self id s.used
  obtain ⟨cap, seq, -⟩ := put_rest s.flight work.handle id
  unfold stepRelay curlFlightRelay
  split
  · exact { inv with ids, known := fun x mem => (inv.known x mem).mono (Nat.le_refl _) sub }
  next f handle taken =>
    split at taken
    · cases taken
    · cases taken
      exact inv.renew turn opened (by decide) rfl cap (Nat.le_of_eq seq.symm) (seq ▸ inv.minted) sub
        ids (inv.id_fresh fresh) (.inr mem_cons_self)

theorem Inv.refused (inv : Inv s)
    (room : s.flight.seq + 1 < 2 ^ 63) :
    Inv { s with flight := (curlFlightRefused s.flight work.handle).1,
                 works := s.works.set w ⟨(curlFlightRefused s.flight work.handle).2, .idle⟩ } := by
  obtain ⟨pre, post, found, -⟩ := find_of_mem (inv.slot turn opened)
  obtain ⟨cap, -, -⟩ := put_rest s.flight work.handle (token (nextSeq s.flight))
  have next := nextSeq_eq room
  unfold curlFlightRefused
  rw [found]
  refine inv.renew turn opened (by decide) rfl cap ?_ ?_ (List.Subset.refl _) inv.ids
    (inv.token_fresh room) (.inl ⟨nextSeq s.flight, by omega, Nat.le_refl _, rfl⟩)
  · dsimp only
    omega
  · dsimp only
    omega

theorem Inv.accepted (inv : Inv s) :
    Inv { s with works := s.works.set w ⟨work.handle, .airborne⟩ } := by
  obtain ⟨a, b, works, set⟩ := split_works turn
  have handles := handles_phase works .airborne
  rw [set]
  refine ⟨?_, handles ▸ inv.handles, known_of_handles handles inv.known, inv.ids, inv.minted,
    inv.fits⟩
  have before := inv.matched
  rw [works] at before
  have goes : (Work.mk work.handle .airborne).isOpen = true := rfl
  exact (before.trans (openHandles_middle opened)).trans (openHandles_middle goes).symm

omit opened

omit turn

theorem close_of_not_mem {f : Flight} {slot : ℕ} (missing : slot ∉ f.slots) :
    curlFlightClose f slot = f := by
  rw [curlFlightClose, find_of_not_mem missing]

theorem close_grounded : (curlFlightClose f slot).grounded = f.grounded := by
  unfold curlFlightClose
  split <;> rfl

theorem inv_step (inv : Inv s) (keeps : Keeps s op)
    (moved : step s op = some t) : Inv t := by
  cases op with
  | opened =>
    cases moved
    exact inv.opened keeps
  | relay w id =>
    obtain ⟨work, turn, ⟨phase, fresh⟩, rfl⟩ := onWork_some moved
    exact inv.relay turn (isOpen_of_phase phase) fresh
  | accepted w =>
    obtain ⟨work, turn, phase, rfl⟩ := onWork_some moved
    exact inv.accepted turn (by simp [Work.isOpen, phase])
  | refused w =>
    obtain ⟨work, turn, phase, rfl⟩ := onWork_some moved
    exact inv.refused turn (by simp [Work.isOpen, phase]) keeps
  | close w =>
    obtain ⟨work, turn, phase, rfl⟩ := onWork_some moved
    exact inv.close turn (isOpen_of_phase phase)
  | closeStale handle =>
    obtain ⟨stale, rfl⟩ := fired moved
    rw [close_of_not_mem (inv.stale stale)]
    exact inv
  | drainBegin =>
    cases moved
    exact { inv with }
  | drainEnd =>
    obtain ⟨-, rfl⟩ := fired moved
    unfold CurlFlight.drainEnd
    split <;> exact { inv with }

theorem inv_start : Inv start where
  matched := List.Perm.nil
  handles := nodup_nil
  known _ mem := by cases mem
  ids _ mem := by cases mem
  minted := by decide
  fits := Nat.le_refl _

def Final (s : Sys) : Prop := s.flight.slots = [] ∧ s.flight.grounded = true

theorem Final.not_mem (final : Final s) : slot ∉ s.flight.slots := by
  simp [final.1]

theorem grounded_step (moved : step s op = some t) :
    (op = .drainBegin ∨ op = .drainEnd) ∨ (t.flight.grounded = s.flight.grounded ∧
      t.draining = s.draining ∧ (Final s → t.flight = s.flight)) := by
  cases op with
  | opened =>
    cases moved
    refine .inr ?_
    unfold stepOpen curlFlightOpen
    split
    · exact ⟨rfl, rfl, fun _ => rfl⟩
    next taken =>
      split at taken <;> cases taken
      exact ⟨rfl, rfl, fun final => absurd final.2 ‹_›⟩
  | relay w id =>
    obtain ⟨work, turn, -, rfl⟩ := onWork_some moved
    refine .inr ?_
    unfold stepRelay curlFlightRelay
    split
    · exact ⟨rfl, rfl, fun _ => rfl⟩
    next taken =>
      split at taken <;> cases taken
      exact ⟨(put_rest _ _ _).2.2, rfl, fun final => absurd final.2 ‹_›⟩
  | accepted w =>
    obtain ⟨work, turn, -, rfl⟩ := onWork_some moved
    exact .inr ⟨rfl, rfl, fun _ => rfl⟩
  | refused w =>
    obtain ⟨work, turn, -, rfl⟩ := onWork_some moved
    refine .inr ⟨?_, rfl, fun final => ?_⟩
    · unfold curlFlightRefused
      split
      · exact (put_rest _ _ _).2.2
      · rfl
    · dsimp only
      rw [curlFlightRefused, find_of_not_mem final.not_mem]
  | close w =>
    obtain ⟨work, turn, -, rfl⟩ := onWork_some moved
    exact .inr ⟨close_grounded, rfl, fun final => close_of_not_mem final.not_mem⟩
  | closeStale handle =>
    obtain ⟨-, rfl⟩ := fired moved
    exact .inr ⟨close_grounded, rfl, fun final => close_of_not_mem final.not_mem⟩
  | drainBegin => exact .inl (.inl rfl)
  | drainEnd => exact .inl (.inr rfl)

def Latched (s : Sys) : Prop := 0 < s.draining → s.draining = 1 ∧ s.flight.grounded = true

theorem latched_step (latched : Latched s) (keeps : Keeps s op)
    (moved : step s op = some t) : Latched t := by
  rcases grounded_step moved with (rfl | rfl) | ⟨same, count, -⟩
  · cases moved
    intro _
    have none : s.draining = 0 := keeps
    exact ⟨by rw [none], rfl⟩
  · obtain ⟨active, rfl⟩ := fired moved
    intro still
    have one := (latched active).1
    dsimp only at still
    omega
  · unfold Latched
    rw [same, count]
    exact latched

theorem final_step (final : Final s) (moved : step s op = some t) : Final t := by
  rcases grounded_step moved with (rfl | rfl) | ⟨-, -, same⟩
  · cases moved
    exact ⟨final.1, rfl⟩
  · obtain ⟨-, rfl⟩ := fired moved
    simpa [Final, CurlFlight.drainEnd, final.1] using final.2
  · rw [Final, same final]
    exact final

structure Exact (s : Sys) : Prop where
  distinct : s.flight.slots.Nodup
  handles : (s.works.map Work.handle).Nodup
  matched : s.flight.slots.Perm (openHandles s.works)
  fits : s.flight.slots.length ≤ s.flight.cap
  stale : ∀ handle, Stale s handle → curlFlightClose s.flight handle = s.flight

theorem Inv.exact (inv : Inv s) : Exact s :=
  ⟨inv.nodup, inv.handles, inv.matched, inv.fits,
    fun _ stale => close_of_not_mem (inv.stale stale)⟩

def Settled (s t : Sys) : ℕ → Prop
  | 0 => openHandles s.works = [] ∧ ∀ {labels u}, Run step Any t labels u →
      u.flight.slots = [] ∧ curlFlightOpen u.flight = none ∧
        ∀ id slot, curlFlightRelay u.flight id slot = none
  | left + 1 => (openHandles s.works).length = left + 1 ∧ (curlFlightOpen t.flight).isSome

theorem settled_of_inv (inv : Inv s) (latched : Latched s) (moved : step s .drainEnd = some t) : Settled s t (CurlFlight.drainEnd s.flight).2 := by
  obtain ⟨active, rfl⟩ := fired moved
  have size := inv.matched.length_eq
  unfold CurlFlight.drainEnd
  cases count : s.flight.slots.length with
  | zero =>
    have empty := length_eq_zero_iff.mp count
    refine ⟨length_eq_zero_iff.mp (by omega), fun run => ?_⟩
    have final := run.invariant (I := Final) (fun final _ moved => final_step final moved)
      ⟨empty, (latched active).2⟩
    exact ⟨final.1, by simp [curlFlightOpen, final.2], by simp [curlFlightRelay, final.2]⟩
  | succ left => exact ⟨by omega, rfl⟩

theorem flight_exact {labels : List Op} {s : Sys} (run : Run step Keeps start labels s) :
    Exact s ∧ ∀ t, step s .drainEnd = some t → Settled s t (CurlFlight.drainEnd s.flight).2 := by
  have inv := run.invariant (I := fun s => Inv s ∧ Latched s)
    (fun inv keeps moved => ⟨inv_step inv.1 keeps moved, latched_step inv.2 keeps moved⟩)
    ⟨inv_start, fun active => absurd active (Nat.lt_irrefl 0)⟩
  exact ⟨inv.1.exact, fun _ moved => settled_of_inv inv.1 inv.2 moved⟩

theorem flight_exact_sample : ∃ s, Run step Keeps start
    [.opened, .opened, .relay 0 5, .accepted 0, .close 0, .drainBegin, .close 1] s ∧
      Exact s ∧ ∀ t, step s .drainEnd = some t → Settled s t (CurlFlight.drainEnd s.flight).2 := by
  have run : Run step Keeps start
      [.opened, .opened, .relay 0 5, .accepted 0, .close 0, .drainBegin, .close 1] _ :=
    .cons ⟨by decide, by decide⟩ rfl (.cons ⟨by decide, by decide⟩ rfl (.cons trivial rfl
      (.cons trivial rfl (.cons trivial rfl (.cons rfl rfl (.cons trivial rfl (.nil _)))))))
  exact ⟨_, run, flight_exact run⟩

/-- Of two drains that overlap, the first gives up and opens the flight again, and the
second returns with none left from a flight that is open. -/
theorem not_flight_exact : ∃ s t u, exec step start
    [.opened, .drainBegin, .drainBegin, .drainEnd, .close 0] = some s ∧
      step s .drainEnd = some t ∧ (CurlFlight.drainEnd s.flight).2 = 0 ∧
      step t .opened = some u ∧ u.flight.slots ≠ [] ∧ (curlFlightOpen t.flight).isSome :=
  ⟨_, _, _, rfl, rfl, rfl, rfl, by decide, rfl⟩

end Runs

end BotManager.CurlFlight
