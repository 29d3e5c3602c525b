import BotManager.StepRun

/-! The live-record list of bot/chat/hold.c and the shutdown that drains it. Every operation is
one hold of `hold_mutex`. `chatbot_hold_shutdown` gives it up only to wait, so that it is two: the
pass that disowns, and the return, at the end of the list's records or of the time. `inside` are
the callbacks that may touch the owner of their record: they found it not disowned, and it has not
been unlinked. What is cancelled at the engines shortens the wait and is left out. -/

namespace BotManager.HoldDrain
open List StepRun

structure Hold where
  record : ℕ
  owner : ℕ
  disowned : Bool
  deriving DecidableEq

/-- `began` are the owners in shutdown, `returned` the results with the records stranded. -/
structure Sys where
  holds : List Hold
  inside : List (ℕ × ℕ)
  began : List ℕ
  returned : List (ℕ × ℕ)
  deriving DecidableEq

inductive Op
  | link (record owner : ℕ)
  | unlink (record : ℕ)
  | observe (callback record : ℕ)
  | touch (callback record : ℕ)
  | shutdown (owner : ℕ)
  | giveBack (owner : ℕ)

def disown (owner : ℕ) (h : Hold) : Hold :=
  { h with disowned := if h.owner = owner then true else h.disowned }

def step (s : Sys) : Op → Option Sys
  | .link record owner =>
    if s.holds.all (·.record ≠ record) then
      some { s with holds := ⟨record, owner, false⟩ :: s.holds }
    else none
  | .unlink record => some { s with
      holds := s.holds.filter (·.record ≠ record)
      inside := s.inside.filter (·.2 ≠ record) }
  | .observe callback record =>
    (s.holds.find? (·.record = record)).map fun h =>
      if h.disowned then { s with inside := s.inside.filter (· ≠ (callback, record)) }
      else { s with inside := (callback, record) :: s.inside }
  | .touch callback record => if (callback, record) ∈ s.inside then some s else none
  | .shutdown owner =>
    some { s with holds := s.holds.map (disown owner), began := owner :: s.began }
  | .giveBack owner =>
    if owner ∈ s.began then
      some { s with returned := (owner, s.holds.countP (·.owner = owner)) :: s.returned }
    else none

def start : Sys := ⟨[], [], [], []⟩

def keeps (s : Sys) : Op → Bool
  | .link _ owner => owner ∉ s.began
  | _ => true

structure Inv (s : Sys) : Prop where
  listed : ∀ x ∈ s.inside, ∃ h ∈ s.holds, h.record = x.2
  drained : ∀ o, (o, 0) ∈ s.returned → ∀ h ∈ s.holds, h.owner ≠ o
  begun : ∀ x ∈ s.returned, x.1 ∈ s.began

variable {s t : Sys} {op : Op}

theorem Inv.step (inv : Inv s) (allowed : keeps s op = true) (moved : step s op = some t) : Inv t := by
  cases op with
  | link record owner =>
    obtain ⟨-, rfl⟩ := fired moved
    refine { inv with listed := fun x mem => ?_, drained := fun o zero => ?_ }
    · obtain ⟨h, found, same⟩ := inv.listed x mem
      exact ⟨h, mem_cons_of_mem _ found, same⟩
    · refine forall_mem_cons.mpr ⟨?_, inv.drained o zero⟩
      rintro rfl
      exact of_decide_eq_true allowed (inv.begun _ zero)
  | unlink record =>
    cases moved
    refine { inv with listed := fun x mem => ?_, drained := fun o zero h mem => ?_ }
    · obtain ⟨mem, other⟩ := mem_filter.mp mem
      obtain ⟨h, found, same⟩ := inv.listed x mem
      exact ⟨h, mem_filter.mpr ⟨found, by rwa [same]⟩, same⟩
    · exact inv.drained o zero h (mem_of_mem_filter mem)
  | observe callback record =>
    obtain ⟨h, found, rfl⟩ := Option.map_eq_some_iff.mp moved
    split
    · exact { inv with listed := fun x mem => inv.listed x (mem_of_mem_filter mem) }
    · refine { inv with listed := forall_mem_cons.mpr ⟨?_, inv.listed⟩ }
      exact ⟨h, mem_of_find?_eq_some found, by simpa using find?_some found⟩
  | touch callback record =>
    obtain ⟨-, rfl⟩ := fired moved
    exact inv
  | shutdown owner =>
    cases moved
    refine ⟨fun x mem => ?_, fun o zero => ?_, fun x mem => mem_cons_of_mem _ (inv.begun x mem)⟩
    · obtain ⟨h, found, same⟩ := inv.listed x mem
      exact ⟨_, mem_map_of_mem found, same⟩
    · exact forall_mem_map.mpr (inv.drained o zero)
  | giveBack owner =>
    obtain ⟨waited, rfl⟩ := fired moved
    refine { inv with drained := fun o zero => ?_, begun := forall_mem_cons.mpr ⟨waited, inv.begun⟩ }
    rcases mem_cons.mp zero with here | before
    · obtain ⟨rfl, none⟩ := Prod.mk.inj here
      simpa using countP_eq_zero.mp none.symm
    · exact inv.drained o before

/-- The callback has no leave to touch the record's owner, and will find it disowned. -/
def Barred (callback record : ℕ) (s : Sys) : Prop :=
  (callback, record) ∉ s.inside ∧ ∀ h ∈ s.holds, h.record = record → h.disowned = true

variable {callback record : ℕ}

theorem Barred.step (barred : Barred callback record s) (other : ∀ o, op ≠ .link record o)
    (moved : HoldDrain.step s op = some t) : Barred callback record t := by
  obtain ⟨out, disowned⟩ := barred
  cases op with
  | link r o =>
    obtain ⟨-, rfl⟩ := fired moved
    refine ⟨out, forall_mem_cons.mpr ⟨?_, disowned⟩⟩
    rintro rfl
    exact absurd rfl (other o)
  | unlink r =>
    cases moved
    exact ⟨fun mem => out (mem_of_mem_filter mem), fun h mem => disowned h (mem_of_mem_filter mem)⟩
  | observe c r =>
    obtain ⟨h, found, rfl⟩ := Option.map_eq_some_iff.mp moved
    split
    · exact ⟨fun mem => out (mem_of_mem_filter mem), disowned⟩
    next held =>
      refine ⟨fun mem => ?_, disowned⟩
      rcases mem_cons.mp mem with here | before
      · cases here
        exact held (disowned h (mem_of_find?_eq_some found) (by simpa using find?_some found))
      · exact out before
  | touch c r =>
    obtain ⟨-, rfl⟩ := fired moved
    exact ⟨out, disowned⟩
  | shutdown o =>
    cases moved
    refine ⟨out, forall_mem_map.mpr fun h mem same => ?_⟩
    show (if _ then true else h.disowned) = true
    rw [disowned h mem same, ite_self]
  | giveBack o =>
    obtain ⟨-, rfl⟩ := fired moved
    exact ⟨out, disowned⟩

theorem barred_of_observe (disowned : ∀ h ∈ s.holds, h.record = record → h.disowned = true)
    (moved : step s (.observe callback record) = some t) : Barred callback record t := by
  obtain ⟨h, found, rfl⟩ := Option.map_eq_some_iff.mp moved
  rw [if_pos (disowned h (mem_of_find?_eq_some found) (by simpa using find?_some found))]
  exact ⟨by simp, disowned⟩

theorem drained_owner_untouched {ops : List Op}
    (run : Run step (fun s op => keeps s op = true) start ops s) :
    (∀ c r, (step s (.touch c r)).isSome = true →
      ∃ h ∈ s.holds, h.record = r ∧ (h.owner, 0) ∉ s.returned) ∧
    ∀ c r, (∀ h ∈ s.holds, h.record = r → h.disowned = true) →
      ∀ u, step s (.observe c r) = some u →
        ∀ later v, Run step (fun _ op => ∀ o, op ≠ .link r o) u later v →
          step v (.touch c r) = none := by
  constructor
  · intro c r touched
    have inv : Inv s := run.invariant Inv.step ⟨nofun, nofun, nofun⟩
    have inside : (c, r) ∈ s.inside := by
      by_contra out
      simp [step, out] at touched
    obtain ⟨h, found, same⟩ := inv.listed _ inside
    exact ⟨h, found, same, fun zero => inv.drained _ zero h found rfl⟩
  · intro c r disowned u observed later v run'
    have barred : Barred c r v := run'.invariant Barred.step (barred_of_observe disowned observed)
    exact if_neg barred.1

def drill : List Op :=
  [.link 1 7, .link 2 7, .observe 5 1, .touch 5 1, .shutdown 7, .observe 6 2, .unlink 2, .unlink 1,
    .giveBack 7, .link 3 8, .observe 5 3]

theorem drained_owner_untouched_drill : ∃ s,
    Run step (fun s op => keeps s op = true) start drill s ∧ (7, 0) ∈ s.returned ∧
      ∃ h ∈ s.holds, h.record = 3 ∧ (h.owner, 0) ∉ s.returned := by
  have run : Run step (fun s op => keeps s op = true) start drill _ := runWhen_get (by decide)
  exact ⟨_, run, by decide, (drained_owner_untouched run).1 5 3 (by decide)⟩

end BotManager.HoldDrain
