import Mathlib.Algebra.BigOperators.Group.List.Basic
import BotManager.CurlMulti
import BotManager.StepRun

/-! Every accepted request has its completion callback invoked exactly once before it is
released, a refused one never. For each id the places where the request can be are counted: with
a client, queued, with the multi loop, in flight, released. -/

namespace BotManager.CurlOnce
open List CurlMulti FramePool StepRun

section Statement

def Loop.request : Loop → Option Req
  | .setup r => some r
  | .activate r => some r
  | .finishCancelled r => some r
  | _ => none

structure Completed (s : Sys) : Prop where
  once : ∀ id, s.called.count id ≤ 1
  silent : ∀ id ∈ s.refused, id ∉ s.called
  released : ∀ id ∈ s.accepted, id ∈ s.released → s.called.count id = 1
  kept : ∀ id ∈ s.accepted, id ∉ s.called → id ∈ s.queues.reqs.map Req.id ∨
    id ∈ s.active.map Req.id ∨ ∃ f ∈ s.loop, ∃ r, Loop.request f = some r ∧ r.id = id
  exited : s.loop = [] → ∀ id ∈ s.accepted, s.called.count id = 1
  total : s.total = s.queues.transactional.reqs.length + s.queues.normal.reqs.length +
    s.queues.bulk.reqs.length

def queuing : Client → Bool
  | .enqueue _ => true
  | .submitWait _ _ => true
  | _ => false

/-- libcurl sets up every popped request, and the loop takes over the queues at its exit only
when nothing is queued or in flight. -/
def LoopFits (s : Shared) (c : Choice) : Loop → Prop
  | .setup _ => c.easy = true ∧ c.added = true
  | .exitSplice => s.queues.reqs = [] ∧ s.active = []
  | _ => True

/-- A submit comes to its locked section before the loop has ended. -/
def Keeps (s : Sys) : Op → Prop
  | .turn i _ => ∀ r ∈ top s.threads i, queuing r.1 = true → s.loop ≠ []
  | .loopTurn c => ∀ f ∈ s.loop.head?, LoopFits s.toShared c f
  | _ => True

instance (s : Shared) (c : Choice) (f : Loop) : Decidable (LoopFits s c f) := by
  unfold LoopFits
  split <;> infer_instance

instance (s : Sys) (op : Op) : Decidable (Keeps s op) := by
  unfold Keeps
  split <;> infer_instance

end Statement

variable {F : Type} {t : Shared} {clients' : List Client} {queues : Queues} {g : Loop} {s : Sys}

section Counting

def one (id x : ℕ) : ℕ := if x = id then 1 else 0

def made (id last : ℕ) : ℕ := if 0 < id ∧ id ≤ last then 1 else 0

theorem count_cons (id x : ℕ) (l : List ℕ) : (x :: l).count id = l.count id + one id x := by
  rw [List.count_cons]
  simp [one]

variable (id : ℕ)

def owns : Client → ℕ
  | .submit r => one id r.id
  | .enqueue r => one id r.id
  | .submitWait r _ => one id r.id
  | .refuse r => one id r.id
  | _ => 0

def holds : Loop → ℕ
  | .setup r => one id r.id
  | .activate r => one id r.id
  | .finishCancelled r => one id r.id
  | _ => 0

@[simp] def unlinks : Loop → ℕ
  | .unlink x => one id x
  | _ => 0

def releases : Loop → ℕ
  | .release x => one id x
  | _ => 0

def sumOf {F : Type} (weight : F → ℕ) (frames : List F) : ℕ := (frames.map weight).sum

def queued (s : Shared) : ℕ := (s.queues.reqs.map Req.id).count id

def flying (s : Shared) : ℕ := (s.active.map Req.id).count id

@[simp] theorem sumOf_nil (w : F → ℕ) : sumOf w [] = 0 := rfl

@[simp] theorem sumOf_cons (w : F → ℕ) (f : F) (l : List F) :
    sumOf w (f :: l) = w f + sumOf w l := rfl

@[simp] theorem sumOf_append (w : F → ℕ) (l₁ l₂ : List F) :
    sumOf w (l₁ ++ l₂) = sumOf w l₁ + sumOf w l₂ := by
  simp [sumOf]

theorem sumOf_eq_zero {w : F → ℕ} {l : List F} (zero : ∀ f ∈ l, w f = 0) : sumOf w l = 0 := by
  apply sum_eq_zero
  simpa [sumOf] using zero

theorem sumOf_cancelled (l : List Req) :
    sumOf (holds id) (l.map .finishCancelled) = (l.map Req.id).count id ∧
      sumOf (unlinks id) (l.map .finishCancelled) = 0 ∧
      sumOf (releases id) (l.map .finishCancelled) = 0 := by
  induction l with
  | nil => exact ⟨rfl, rfl, rfl⟩
  | cons r l ih =>
    obtain ⟨held, unlinked, released⟩ := ih
    refine ⟨?_, by simpa using unlinked, by simpa [releases] using released⟩
    rw [map_cons, map_cons, sumOf_cons, held, count_cons, holds]
    omega

theorem count_unlinked (id x : ℕ) (l : List Req) (mem : x ∈ l.map Req.id) :
    ((l.eraseP fun r => r.id = x).map Req.id).count id + one id x = (l.map Req.id).count id := by
  have erased : (l.eraseP fun r => r.id = x).map Req.id = (l.map Req.id).erase x := by
    rw [erase_eq_eraseP, eraseP_map]
    congr 2
    funext r
    exact decide_eq_decide.mpr eq_comm
  have back := (perm_cons_erase mem).count_eq id
  rw [erased, back, count_cons]

end Counting

variable {f : Client} {loop : List Loop}

section Invariant

structure Inv (s : Shared) (loop : List Loop) (clients : List Client) : Prop where
  placed : ∀ id, sumOf (owns id) clients + queued id s + sumOf (holds id) loop + flying id s +
    sumOf (releases id) loop + s.released.count id = made id s.reqNextId
  told : ∀ id, s.called.count id + sumOf (owns id) clients + queued id s +
    sumOf (holds id) loop + flying id s + s.refused.count id =
      sumOf (unlinks id) loop + made id s.reqNextId
  answered : ∀ id, s.accepted.count id + sumOf (owns id) clients + s.refused.count id =
    made id s.reqNextId
  total : s.total = s.queues.reqs.length

structure Stack (s : Shared) (loop : List Loop) : Prop where
  bottom : (loop = [] ∧ s.queues.reqs = [] ∧ s.active = []) ∨
    ∃ front last, loop = front ++ [last] ∧ (last = .iterate ∨ last = .exitSplice) ∧
      .iterate ∉ front ∧ .exitSplice ∉ front
  next : ∀ f ∈ loop.tail, ∀ id, unlinks id f = 0
  linked : ∀ id, loop.head? = some (.unlink id) → id ∈ s.active.map Req.id

variable {s : Shared} {loop rest : List Loop} {clients others : List Client} {c : Choice}

def open_ (id : ℕ) (s : Shared) (loop : List Loop) (clients : List Client) : ℕ :=
  sumOf (owns id) clients + queued id s + sumOf (holds id) loop + flying id s

/-- The accounts stay balanced when what leaves one place enters another. -/
theorem Inv.move {loop' : List Loop}
    (inv : Inv s loop clients) (total : t.total = t.queues.reqs.length)
    (counts : ∀ id,
      open_ id t loop' clients' + sumOf (releases id) loop' + t.released.count id +
          made id s.reqNextId = open_ id s loop clients + sumOf (releases id) loop +
        s.released.count id + made id t.reqNextId ∧
      t.called.count id + open_ id t loop' clients' + t.refused.count id +
          sumOf (unlinks id) loop + made id s.reqNextId = s.called.count id +
        open_ id s loop clients + s.refused.count id + sumOf (unlinks id) loop' +
        made id t.reqNextId ∧
      t.accepted.count id + sumOf (owns id) clients' + t.refused.count id +
          made id s.reqNextId = s.accepted.count id + sumOf (owns id) clients +
        s.refused.count id + made id t.reqNextId) : Inv t loop' clients' := by
  refine ⟨fun id => ?_, fun id => ?_, fun id => ?_, total⟩
  all_goals
    have counts := counts id
    have placed := inv.placed id
    have told := inv.told id
    have answered := inv.answered id
    unfold open_ at counts
    omega

theorem Inv.pass {calls : List Client} (inv : Inv s loop (f :: others))
    (same : ∀ id, sumOf (owns id) calls = owns id f) : Inv s loop (calls ++ others) :=
  inv.move inv.total fun id => by simp [open_, same]

theorem Inv.drop (inv : Inv s loop (f :: others)) (bare : ∀ id, owns id f = 0) :
    Inv s loop others := by
  have passed : Inv s loop ([] ++ others) := inv.pass fun id => (bare id).symm
  exact passed

theorem Inv.congr (inv : Inv s loop clients)
    (queues : t.queues.reqs.map Req.id = s.queues.reqs.map Req.id)
    (active : t.active.map Req.id = s.active.map Req.id) (reqNextId : t.reqNextId = s.reqNextId)
    (called : t.called = s.called) (released : t.released = s.released)
    (accepted : t.accepted = s.accepted) (refused : t.refused = s.refused)
    (total : t.total = s.total) : Inv t loop clients := by
  have lengths := congrArg length queues
  rw [length_map, length_map] at lengths
  refine inv.move (by rw [total, inv.total, lengths]) fun id => ?_
  simp only [open_, queued, flying, queues, active, reqNextId, called, released, accepted,
    refused, and_self]

theorem push_queued (id : ℕ) (s : Shared) (r : Req) :
    queued id (push s r) = queued id s + one id r.id := by
  have perm := ((s.queues.push_reqs r).map Req.id).count_eq id
  rw [map_cons, count_cons] at perm
  exact perm

variable {r : Req} {x : ℕ}

theorem Inv.push (inv : Inv s loop (f :: others)) (own : ∀ id, owns id f = one id r.id) :
    Inv (push s r) loop others := by
  have length := (s.queues.push_reqs r).length_eq
  rw [length_cons, ← inv.total] at length
  refine inv.move length.symm fun id => ?_
  rw [open_, push_queued]
  simp only [open_, CurlMulti.push, flying, sumOf_cons, own, count_cons]
  omega

theorem Inv.refuse (inv : Inv s loop (.refuse r :: others)) :
    Inv { s with refused := r.id :: s.refused, released := r.id :: s.released } loop others :=
  inv.move inv.total fun id => by
    simp only [open_, sumOf_cons, owns, count_cons, queued, flying]
    omega

theorem Inv.client (inv : Inv s loop (f :: others)) :
    Inv (clientAct s c f).1 loop ((clientAct s c f).2 ++ others) := by
  cases f with
  | submit r =>
    rw [clientAct]
    dsimp only
    split_ifs <;> exact inv.pass fun id => rfl
  | enqueue r =>
    rw [clientAct]
    split_ifs
    · exact inv.pass fun id => rfl
    · exact inv.push fun id => rfl
  | submitWait r waited =>
    rw [clientAct]
    split_ifs
    · exact inv.pass fun id => rfl
    · exact inv.pass fun id => rfl
    · exact inv.push fun id => rfl
  | refuse r => exact inv.refuse
  | cancel x =>
    rw [clientAct]
    split_ifs
    · exact (inv.drop fun _ => rfl).congr (s.queues.flag_ids x) rfl rfl rfl rfl
        rfl rfl rfl
    · exact inv.pass fun id => rfl
  | cancelActive x =>
    exact (inv.drop fun _ => rfl).congr rfl (flagCancel_ids x) rfl rfl
      rfl rfl rfl rfl
  | beginShutdown =>
    rw [clientAct]
    split_ifs
    · exact inv.pass fun id => rfl
    · exact (inv.drop fun _ => rfl).congr rfl rfl rfl rfl rfl rfl rfl rfl

section Turns

variable {f : Loop} {calls : List Loop}

def Balanced (calls : List Loop) (f : Loop) : Prop :=
  ∀ id, sumOf (holds id) calls = holds id f ∧ sumOf (unlinks id) calls = unlinks id f ∧
    sumOf (releases id) calls = releases id f

theorem Inv.pop (inv : Inv s (.drainQueue :: rest) clients)
    (popped : s.queues.popHighest = some (r, queues)) :
    Inv { s with queues := queues, total := s.total - 1 } ([.setup r, .drainQueue] ++ rest)
      clients := by
  have reqs := Queues.popHighest_reqs popped
  have counts : ∀ id, queued id s = (queues.reqs.map Req.id).count id + one id r.id := by
    intro id
    rw [queued, reqs, map_cons, count_cons]
  have total := inv.total
  rw [reqs, length_cons] at total
  refine inv.move (by dsimp only; omega) fun id => ?_
  have count := counts id
  simp only [open_, cons_append, nil_append, sumOf_cons, holds, unlinks, releases, queued,
    flying, and_true] at count ⊢
  omega

theorem Inv.activate (inv : Inv s (.activate r :: rest) clients) :
    Inv { s with active := r :: s.active } rest clients :=
  inv.move inv.total fun id => by
    simp only [open_, sumOf_cons, holds, unlinks, releases, queued, flying, map_cons, count_cons,
      and_true]
    omega

theorem Inv.finishCancelled (inv : Inv s (.finishCancelled r :: rest) clients) :
    Inv { s with called := r.id :: s.called } ([.release r.id] ++ rest) clients :=
  inv.move inv.total fun id => by
    simp only [open_, cons_append, nil_append, sumOf_cons, holds, unlinks, releases, queued,
      flying, count_cons, and_true]
    omega

theorem Inv.unlink (inv : Inv s (.unlink x :: rest) clients) (linked : x ∈ s.active.map Req.id) :
    Inv { s with active := s.active.eraseP fun r => r.id = x } ([.release x] ++ rest) clients :=
  inv.move inv.total fun id => by
    have count := count_unlinked id x s.active linked
    simp only [open_, cons_append, nil_append, sumOf_cons, holds, unlinks, releases, queued,
      flying, and_true]
    omega

theorem Inv.release (inv : Inv s (.release x :: rest) clients) :
    Inv { s with released := x :: s.released } rest clients :=
  inv.move inv.total fun id => by
    simp only [open_, sumOf_cons, holds, unlinks, releases, queued, flying, count_cons, and_true]
    omega

section Turn

variable (inv : Inv s (f :: rest) clients)
include inv

theorem Inv.goOn (same : Balanced calls f) : Inv s (calls ++ rest) clients :=
  inv.move inv.total fun id => by simp [open_, same id]

theorem Inv.loopDrop (bare : Balanced [] f) : Inv s rest clients := by
  have gone : Inv s ([] ++ rest) clients := inv.goOn bare
  exact gone

theorem Inv.finish (same : Balanced [g] f) : Inv (finish s x) ([.unlink x, g] ++ rest) clients :=
  inv.move inv.total fun id => by
    obtain ⟨held, unlinked, released⟩ := same id
    have due : holds id (.unlink x) = 0 ∧ unlinks id (.unlink x) = one id x ∧
      releases id (.unlink x) = 0 := ⟨rfl, rfl, rfl⟩
    simp only [sumOf_cons, sumOf_nil, Nat.add_zero] at held unlinked released
    simp only [open_, cons_append, nil_append, sumOf_cons, held, unlinked, released, due,
      CurlMulti.finish, count_cons, queued, flying, and_true]
    omega

theorem Inv.take {taken : List Req}
    (parts : (queues.reqs ++ taken).Perm s.queues.reqs) (same : Balanced calls f) :
    Inv { s with queues := queues, total := s.total - taken.length }
      (taken.map .finishCancelled ++ calls ++ rest) clients := by
  have counts : ∀ id, (queues.reqs.map Req.id).count id + (taken.map Req.id).count id =
      queued id s := by
    intro id
    rw [queued, ← (parts.map Req.id).count_eq, map_append, count_append]
  have lengths := parts.length_eq
  rw [length_append, ← inv.total] at lengths
  refine inv.move (by dsimp only; omega) fun id => ?_
  have count := counts id
  simp only [open_, sumOf_append, sumOf_cons, same id, sumOf_cancelled id taken, flying,
    queued, and_true] at count ⊢
  omega

theorem Inv.looped (stack : Stack s (f :: rest)) (fits : LoopFits s c f) :
    Inv (loopAct s c f).1 ((loopAct s c f).2 ++ rest) clients := by
  cases f with
  | iterate | shutdown | pump | force =>
    rw [loopAct]
    dsimp only
    split_ifs <;> exact inv.goOn fun _ => ⟨rfl, rfl, rfl⟩
  | splice =>
    have taken : Inv (loopAct s c .splice).1
        (s.queues.spliced.map .finishCancelled ++ [] ++ rest) clients :=
      inv.take s.queues.spare_reqs fun _ => ⟨rfl, rfl, rfl⟩
    rwa [append_nil] at taken
  | cancelActive ids | sweepActive ids =>
    cases ids with
    | nil => exact inv.goOn fun _ => ⟨rfl, rfl, rfl⟩
    | cons id ids =>
      rw [loopAct]
      split_ifs
      · exact inv.finish fun _ => ⟨rfl, rfl, rfl⟩
      · exact inv.goOn fun _ => ⟨rfl, rfl, rfl⟩
  | forceAll =>
    rw [loopAct]
    split
    · exact inv.goOn fun _ => ⟨rfl, rfl, rfl⟩
    · exact inv.finish fun _ => ⟨rfl, rfl, rfl⟩
  | drainDone =>
    exact (inv.loopDrop fun _ => ⟨rfl, rfl, rfl⟩).congr rfl rfl rfl
      rfl rfl rfl rfl rfl
  | sweep => exact inv.take s.queues.sweep_reqs fun _ => ⟨rfl, rfl, rfl⟩
  | drainQueue =>
    rw [loopAct]
    split_ifs
    · exact inv.goOn fun _ => ⟨rfl, rfl, rfl⟩
    · split
      next => exact inv.goOn fun _ => ⟨rfl, rfl, rfl⟩
      next r queues popped => exact inv.pop popped
  | setup r =>
    have ready : c.easy = true ∧ c.added = true := fits
    rw [loopAct, if_pos ready]
    exact inv.goOn fun _ => ⟨rfl, rfl, rfl⟩
  | activate r => exact inv.activate
  | completions =>
    rw [loopAct]
    split
    · exact inv.goOn fun _ => ⟨rfl, rfl, rfl⟩
    · split_ifs
      · exact inv.finish fun _ => ⟨rfl, rfl, rfl⟩
      · exact inv.goOn fun _ => ⟨rfl, rfl, rfl⟩
  | finishCancelled r => exact inv.finishCancelled
  | unlink x => exact inv.unlink (stack.linked x rfl)
  | release x => exact inv.release
  | exitSplice =>
    obtain ⟨empty, -⟩ := fits
    have none : s.queues.bulk.reqs ++
        (s.queues.normal.reqs ++ s.queues.transactional.reqs) = [] := by
      simp only [Queues.reqs, append_eq_nil_iff] at empty ⊢
      exact ⟨empty.2, empty.1.2, empty.1.1⟩
    have total : s.total = 0 := by rw [inv.total, empty]; rfl
    rw [loopAct, none]
    refine (inv.loopDrop fun _ => ⟨rfl, rfl, rfl⟩).congr ?_ rfl rfl
      rfl rfl rfl rfl total.symm
    rw [empty]
    rfl

end Turn

structure Called (s : Shared) (calls : List Loop) : Prop where
  above : .iterate ∉ calls ∧ .exitSplice ∉ calls
  next : ∀ g ∈ calls.tail, ∀ id, unlinks id g = 0
  linked : ∀ id, calls.head? = some (.unlink id) → id ∈ s.active.map Req.id

theorem Called.plain (above : .iterate ∉ calls ∧ .exitSplice ∉ calls)
    (free : ∀ g ∈ calls, ∀ id, unlinks id g = 0) : Called s calls where
  above := above
  next := fun g mem => free g (mem_of_mem_tail mem)
  linked := by
    intro id first
    have zero := free _ (mem_of_head? first) id
    rw [unlinks, one, if_pos rfl] at zero
    cases zero

theorem Called.finishing (mem : x ∈ s.active.map Req.id)
    (above : g ≠ .iterate ∧ g ≠ .exitSplice) (free : ∀ id, unlinks id g = 0) :
    Called s [.unlink x, g] where
  above := ⟨by simpa using above.1.symm, by simpa using above.2.symm⟩
  next := fun h inside => by rw [mem_singleton.mp inside]; exact free
  linked := by
    intro id first
    obtain rfl := Loop.unlink.inj (Option.some.inj first)
    exact mem

theorem Called.cancelling {more : List Loop} (taken : List Req)
    (above : .iterate ∉ more ∧ .exitSplice ∉ more) (free : ∀ g ∈ more, ∀ id, unlinks id g = 0) :
    Called s (taken.map .finishCancelled ++ more) := by
  apply Called.plain
  · simpa using above
  · intro g mem id
    rcases mem_append.mp mem with cancelled | other
    · obtain ⟨r, -, rfl⟩ := mem_map.mp cancelled
      rfl
    · exact free g other id

theorem any_mem {p : Req → Prop} [DecidablePred p]
    (found : (s.active.any fun r => decide (r.id = x ∧ p r)) = true) : x ∈ s.active.map Req.id := by
  obtain ⟨r, mem, here⟩ := any_eq_true.mp found
  exact mem_map.mpr ⟨r, mem, (of_decide_eq_true here).1⟩

theorem loopAct_called (iterate : f ≠ .iterate) (exit : f ≠ .exitSplice) :
    Called (loopAct s c f).1 (loopAct s c f).2 := by
  cases f with
  | shutdown | pump | force | setup r =>
    rw [loopAct]
    dsimp only
    split_ifs <;> exact .plain (by simp) (by simp)
  | splice =>
    have called : Called (loopAct s c .splice).1 (s.queues.spliced.map .finishCancelled ++ []) :=
      Called.cancelling s.queues.spliced (by simp) (by simp)
    rwa [append_nil] at called
  | cancelActive ids | sweepActive ids =>
    cases ids with
    | nil => exact .plain (by simp [loopAct]) (by simp [loopAct])
    | cons id ids =>
      rw [loopAct]
      split_ifs with found
      · exact .finishing (any_mem found) (by simp) fun _ => rfl
      · exact .plain (by simp) (by simp)
  | forceAll =>
    cases active : s.active with
    | nil =>
      rw [loopAct, active]
      exact .plain (by simp) (by simp)
    | cons r more =>
      rw [loopAct, active]
      refine .finishing ?_ (by simp) fun _ => rfl
      simp [finish, active]
  | drainDone | activate r | release x => exact .plain (by simp [loopAct]) (by simp [loopAct])
  | sweep => exact .cancelling _ (by simp) (by simp)
  | drainQueue =>
    rw [loopAct]
    split_ifs
    · exact .plain (by simp) (by simp)
    · split <;> exact .plain (by simp) (by simp)
  | completions =>
    rw [loopAct]
    split
    · exact .plain (by simp) (by simp)
    · split_ifs with found
      · refine .finishing ?_ (by simp) fun _ => rfl
        obtain ⟨r, mem, here⟩ := any_eq_true.mp found
        exact mem_map.mpr ⟨r, mem, of_decide_eq_true here⟩
      · exact .plain (by simp) (by simp)
  | finishCancelled r | unlink x => exact .plain (by simp [loopAct]) (by simp [loopAct])
  | iterate => exact absurd rfl iterate
  | exitSplice => exact absurd rfl exit

variable (stack : Stack s (f :: rest))
include stack

theorem Stack.below (id : ℕ) :
    rest.head? ≠ some (.unlink id) := by
  intro first
  have zero := stack.next _ (mem_of_head? first) id
  rw [unlinks, one, if_pos rfl] at zero
  cases zero

theorem Stack.called (iterate : f ≠ .iterate)
    (exit : f ≠ .exitSplice) (called : Called t calls) : Stack t (calls ++ rest) where
  bottom := by
    rcases stack.bottom with ⟨empty, -, -⟩ | ⟨front, last, split, bottom, above⟩
    · cases empty
    · cases front with
      | nil =>
        obtain ⟨rfl, -⟩ := cons.inj split
        rcases bottom with at_ | at_
        · exact absurd at_ iterate
        · exact absurd at_ exit
      | cons g front =>
        obtain ⟨-, rfl⟩ := cons.inj split
        refine .inr ⟨calls ++ front, last, (append_assoc _ _ _).symm, bottom, ?_, ?_⟩
        · intro mem
          exact (mem_append.mp mem).elim called.above.1 fun under => above.1 (.tail _ under)
        · intro mem
          exact (mem_append.mp mem).elim called.above.2 fun under => above.2 (.tail _ under)
  next := by
    intro g mem id
    cases calls with
    | nil => exact stack.next g (mem_of_mem_tail mem) id
    | cons h calls =>
      rcases mem_append.mp mem with here | under
      · exact called.next g here id
      · exact stack.next g under id
  linked := by
    intro id first
    cases calls with
    | nil => exact absurd first (stack.below id)
    | cons h calls => exact called.linked id first

theorem Stack.alone (bottom : f = .iterate ∨ f = .exitSplice) :
    rest = [] := by
  rcases stack.bottom with ⟨empty, -, -⟩ | ⟨front, last, split, -, above⟩
  · cases empty
  · cases front with
    | nil => exact (cons.inj split).2
    | cons g front =>
      obtain ⟨rfl, -⟩ := cons.inj split
      rcases bottom with rfl | rfl
      · exact absurd (.head _) above.1
      · exact absurd (.head _) above.2

theorem Stack.looped (fits : LoopFits s c f) :
    Stack (loopAct s c f).1 ((loopAct s c f).2 ++ rest) := by
  by_cases iterate : f = .iterate
  · subst iterate
    obtain rfl := stack.alone (.inl rfl)
    rw [loopAct, append_nil]
    dsimp only
    split_ifs
    · exact ⟨.inr ⟨[.completions], .exitSplice, rfl, .inr rfl, by simp, by simp⟩,
        by simp, by simp⟩
    · exact ⟨.inr ⟨[.shutdown, .sweep, .drainQueue, .completions], .iterate, rfl, .inl rfl,
        by simp, by simp⟩, by simp, by simp⟩
  · by_cases exit : f = .exitSplice
    · subst exit
      obtain rfl := stack.alone (.inr rfl)
      obtain ⟨empty, landed⟩ := fits
      have none : (loopAct s c .exitSplice).2 = [] := by
        simp only [Queues.reqs, append_eq_nil_iff] at empty
        simp only [loopAct, empty.1.1, empty.1.2, empty.2, append_nil, map_nil]
      rw [none]
      exact ⟨.inl ⟨rfl, rfl, landed⟩, by simp, by simp⟩
    · exact stack.called iterate exit (loopAct_called iterate exit)

omit stack

theorem Stack.client {g : Client} (stack : Stack s loop)
    (fits : queuing g = true → loop ≠ []) : Stack (clientAct s c g).1 loop := by
  have active : (clientAct s c g).1.active.map Req.id = s.active.map Req.id := by
    cases g with
    | cancelActive x => exact flagCancel_ids x
    | submit r | refuse r => rfl
    | _ => rw [clientAct]; split_ifs <;> rfl
  refine ⟨?_, stack.next, fun id first => active ▸ stack.linked id first⟩
  rcases stack.bottom with ⟨ended, empty, landed⟩ | running
  · refine .inl ⟨ended, ?_, ?_⟩
    · cases g with
      | enqueue r | submitWait r waited => exact absurd ended (fits rfl)
      | cancel x =>
        have ids := s.queues.flag_ids x
        rw [empty, map_nil, map_eq_nil_iff] at ids
        rw [clientAct]
        split_ifs
        · exact ids
        · exact empty
      | beginShutdown => rw [clientAct]; split_ifs <;> exact empty
      | submit r | refuse r | cancelActive x => exact empty
    · rw [landed, map_nil, map_eq_nil_iff] at active
      exact active
  · exact .inr running

end Turns

end Invariant

section System

structure Sound (s : Sys) : Prop where
  inv : Inv s.toShared s.loop s.threads.flatten
  stack : Stack s.toShared s.loop

theorem Inv.perm {s : Shared} {clients : List Client}
    (inv : Inv s loop clients) (same : clients.Perm clients') : Inv s loop clients' := by
  have sums : ∀ id, sumOf (owns id) clients' = sumOf (owns id) clients :=
    fun id => ((same.map (owns id)).sum_eq).symm
  exact inv.move inv.total fun id => by simp [open_, sums]

theorem start_sound : Sound (start ready) where
  inv := by
    have none : ∀ id, made id 0 = 0 := by
      intro id
      rw [made, if_neg]
      omega
    exact ⟨fun id => (none id).symm, fun id => ((Nat.zero_add _).trans (none id)).symm,
      fun id => (none id).symm, rfl⟩
  stack := ⟨.inr ⟨[], .iterate, rfl, .inl rfl, by simp, by simp⟩, by simp [start],
    by simp [start]⟩

theorem Sound.spawned (sound : Sound s) (free : ∀ id, owns id f = 0) :
    Sound { s with threads := s.threads ++ [[f]] } where
  inv := by
    have same : ∀ id, sumOf (owns id) [f] = 0 := fun id => free id
    dsimp only
    rw [flatten_spawn]
    exact sound.inv.move sound.inv.total fun id => by simp [open_, same]
  stack := sound.stack

theorem made_succ (id last : ℕ) : made id (last + 1) = made id last + one id (last + 1) := by
  simp only [made, one]
  split_ifs <;> omega

theorem Sound.submitting {frame : Req → Client} (sound : Sound s) (prio : Prio)
    (own : ∀ id r, owns id (frame r) = one id r.id) : Sound (submitting s prio frame) where
  inv := by
    have new : ∀ id, sumOf (owns id) [frame ⟨s.reqNextId + 1, prio, false⟩] =
        one id (s.reqNextId + 1) := by
      intro id
      rw [sumOf_cons, own]
      rfl
    rw [CurlMulti.submitting, flatten_spawn]
    refine sound.inv.move sound.inv.total fun id => ?_
    simp only [open_, sumOf_append, new, made_succ, queued, flying]
    omega
  stack := ⟨sound.stack.bottom, sound.stack.next, sound.stack.linked⟩

theorem Sound.step {t : Sys} {op : Op} (sound : Sound s) (keeps : Keeps s op)
    (moved : step s op = some t) : Sound t := by
  cases op with
  | submit prio | submitWait prio =>
    cases moved
    exact sound.submitting prio fun _ _ => rfl
  | cancel id =>
    obtain ⟨-, moved⟩ := Option.ite_none_left_eq_some.mp moved
    cases moved
    exact sound.spawned fun _ => rfl
  | beginShutdown =>
    cases moved
    exact sound.spawned fun _ => rfl
  | turn i c =>
    rw [CurlMulti.step] at moved
    split at moved
    next => cases moved
    next f rest found =>
      cases moved
      obtain ⟨before, after⟩ := turn_perm found
      exact ⟨((sound.inv.perm before).client).perm (after _).symm,
        sound.stack.client (keeps _ found)⟩
  | loopTurn c =>
    obtain ⟨inv, stack⟩ := sound
    rw [CurlMulti.step] at moved
    split at moved
    next => cases moved
    next f rest frames =>
      have fits := keeps f (by rw [frames]; rfl)
      cases moved
      rw [frames] at inv stack
      exact ⟨inv.looped stack fits, stack.looped fits⟩

theorem Stack.unlinking {s : Shared} (stack : Stack s loop) (id : ℕ) :
    sumOf (unlinks id) loop ≤ flying id s := by
  cases loop with
  | nil => exact Nat.zero_le _
  | cons f rest =>
    have below : sumOf (unlinks id) rest = 0 := sumOf_eq_zero fun g mem => stack.next g mem id
    rw [sumOf_cons, below, Nat.add_zero]
    cases f with
    | unlink x =>
      rw [unlinks, one]
      split_ifs with here
      · subst here
        exact count_pos_iff.mpr (stack.linked x rfl)
      · exact Nat.zero_le _
    | _ => exact Nat.zero_le _

theorem holds_request {id : ℕ} {f : Loop} (held : holds id f ≠ 0) :
    ∃ r, Loop.request f = some r ∧ r.id = id := by
  have same : ∀ r : Req, one id r.id ≠ 0 → r.id = id := by
    intro r some
    by_contra other
    rw [one, if_neg other] at some
    exact some rfl
  cases f with
  | setup r | activate r | finishCancelled r => exact ⟨r, rfl, same r held⟩
  | _ => exact absurd rfl held

theorem made_le_one (id last : ℕ) : made id last ≤ 1 := by
  rw [made]
  split_ifs <;> omega

theorem Sound.completed (sound : Sound s) : Completed s := by
  have accounts : ∀ id, s.called.count id ≤ 1 ∧
      (0 < s.refused.count id → s.called.count id = 0) ∧
      (0 < s.accepted.count id → 0 < s.released.count id → s.called.count id = 1) ∧
      (0 < s.accepted.count id → s.called.count id = 0 → 0 < queued id s.toShared ∨
        0 < flying id s.toShared ∨ 0 < sumOf (holds id) s.loop) := by
    intro id
    have placed := sound.inv.placed id
    have told := sound.inv.told id
    have answered := sound.inv.answered id
    have unlinking := sound.stack.unlinking id
    have bound := made_le_one id s.reqNextId
    omega
  have positive : ∀ {id : ℕ} {l : List ℕ}, id ∈ l → 0 < l.count id := count_pos_iff.mpr
  have kept : ∀ id ∈ s.accepted, id ∉ s.called → id ∈ s.queues.reqs.map Req.id ∨
      id ∈ s.active.map Req.id ∨ ∃ f ∈ s.loop, ∃ r, Loop.request f = some r ∧ r.id = id := by
    intro id accepted uncalled
    rcases (accounts id).2.2.2 (positive accepted) (count_eq_zero.mpr uncalled)
      with queue | flight | held
    · exact .inl (count_pos_iff.mp queue)
    · exact .inr (.inl (count_pos_iff.mp flight))
    · right; right
      by_contra nowhere
      have zero : sumOf (holds id) s.loop = 0 := by
        apply sumOf_eq_zero
        intro f mem
        by_contra some
        exact nowhere ⟨f, mem, holds_request some⟩
      omega
  constructor
  case once => exact fun id => (accounts id).1
  case silent =>
    intro id refused
    exact count_eq_zero.mp ((accounts id).2.1 (positive refused))
  case released =>
    exact fun id accepted released => (accounts id).2.2.1 (positive accepted) (positive released)
  case kept => exact kept
  case exited =>
    intro ended id accepted
    rcases sound.stack.bottom with ⟨-, empty, landed⟩ | ⟨front, last, split, -⟩
    · by_cases called : id ∈ s.called
      · have some := positive called
        have one := (accounts id).1
        omega
      · rcases kept id accepted called with queue | flight | ⟨f, mem, -⟩
        · rw [empty] at queue
          cases queue
        · rw [landed] at flight
          cases flight
        · rw [ended] at mem
          cases mem
    · rw [ended] at split
      simp at split
  case total =>
    rw [sound.inv.total, Queues.reqs, length_append, length_append]

theorem request_completes_once {ready : Bool} {labels : List Op} {t : Sys}
    (run : Run step Keeps (start ready) labels t) : Completed t :=
  (run.invariant (I := Sound) Sound.step
    start_sound).completed

theorem request_completes_once_exit :
    ∃ t : Sys, t.accepted = [2, 1] ∧ t.called = [2, 1] ∧ t.released = [2, 3, 1] ∧
      t.refused = [3] ∧ t.loop = [] ∧ Completed t := by
  have run : Run step Keeps (start true)
      (.submit .normal :: .turn 0 calm :: .turn 0 calm :: .submitWait .transactional ::
        .turn 1 calm :: .cancel 1 :: .turn 2 calm :: replicate 9 (.loopTurn calm) ++
        .beginShutdown :: .turn 3 calm :: .submit .bulk :: .turn 4 calm :: .turn 4 calm ::
        replicate 8 (.loopTurn calm) ++ .loopTurn { calm with done := some 2 } ::
        replicate 10 (.loopTurn calm) ++ .loopTurn { calm with stop := true } ::
        replicate 2 (.loopTurn calm)) _ :=
    runWhen_get (by decide +kernel)
  refine ⟨_, ?_, ?_, ?_, ?_, ?_, request_completes_once run⟩
  all_goals decide +kernel

/-- `curl_easy_init` fails for a popped request: it is released and nobody is told. -/
theorem request_dropped :
    ∃ labels t, Run step Any (start true) labels t ∧ t.accepted = [1] ∧ t.released = [1] ∧
      t.called = [] ∧ ¬ Completed t := by
  refine ⟨[.submit .normal, .turn 0 calm, .turn 0 calm, .loopTurn calm, .loopTurn calm, .loopTurn calm,
        .loopTurn calm, .loopTurn calm, .loopTurn { calm with easy := false },
        .loopTurn calm], _,
    run_get (by decide +kernel), by decide +kernel, by decide +kernel, by decide +kernel, fun fine => ?_⟩
  have told := fine.released 1 (by decide +kernel) (by decide +kernel)
  exact absurd told (by decide +kernel)

end System

end BotManager.CurlOnce
