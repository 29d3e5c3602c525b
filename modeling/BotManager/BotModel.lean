import BotManager.FramePool
import BotManager.KeyedPart

/-! The driver of a bot under reload: deliveries take a reference and give it back, the lifecycle
operations detach a driver, attach a fresh handle and destroy the instance. Every section under
`bot_mutex` is one turn; the lifecycle operations hold `bot_life_mutex` and so run one at a time. -/

namespace BotManager.BotModel
open FramePool KeyedPart

section Instances

structure Drv where
  name : String
  addr : ℕ
  deriving DecidableEq

structure Attached where
  drv : Drv
  handle : ℕ
  deriving DecidableEq

/-- `made`, `torn` and `freed` record the handles created for the instance, those passed to
`bot_driver_teardown`, and how often the instance was freed. -/
structure Inst where
  listed : Bool
  running : Bool
  driver : Option Attached
  dying : Option (Attached × Bool)
  refs : ℕ
  doomed : Bool
  susp : Option (String × Bool)
  made : List ℕ
  torn : List ℕ
  freed : ℕ
  deriving DecidableEq

def absent : Inst := ⟨false, false, none, none, 0, false, none, [], [], 0⟩

def created (drv : Drv) (handle : ℕ) : Inst :=
  { absent with listed := true, driver := some ⟨drv, handle⟩, made := [handle] }

/-- What a delivery thread still has to run. A delivery is inside the driver from its acquire to
the first section of its release; `drop` is the second section. -/
inductive Deliv
  | acquire
  | deliver (a : Attached)
  | teardown (a : Attached) (stop : Bool)
  | drop
  | free
  deriving DecidableEq

inductive Life
  | detach (stop : Bool)
  | teardown (a : Attached) (stop : Bool)
  | unlink
  | free
  | resume (drv : Drv)
  deriving DecidableEq

def act (b : Inst) : Deliv → Inst × List Deliv
  | .acquire =>
    match b.driver with
    | none => (b, [])
    | some a => if b.listed then ({ b with refs := b.refs + 1 }, [.deliver a]) else (b, [])
  | .deliver _ =>
    match b.dying with
    | none => (b, [.drop])
    | some (a, stop) =>
      if b.refs = 1 then ({ b with dying := none }, [.teardown a stop, .drop]) else (b, [.drop])
  | .teardown a _ => ({ b with torn := a.handle :: b.torn }, [])
  | .drop => ({ b with refs := b.refs - 1 },
      if b.refs - 1 = 0 ∧ b.doomed = true then [.free] else [])
  | .free => ({ b with freed := b.freed + 1 }, [])

def lifeAct (b : Inst) (handle : Option ℕ) : Life → Inst × List Life
  | .detach stop =>
    match b.driver with
    | none => (b, [])
    | some a =>
      if b.refs = 0 then ({ b with driver := none }, [.teardown a stop])
      else ({ b with driver := none, dying := some (a, stop) }, [])
  | .teardown a _ => ({ b with torn := a.handle :: b.torn }, [])
  | .unlink => ({ b with listed := false, doomed := true }, if b.refs = 0 then [.free] else [])
  | .free => ({ b with freed := b.freed + 1 }, [])
  | .resume drv =>
    match handle with
    | none => (b, [])
    | some h => ({ b with driver := some ⟨drv, h⟩, susp := none, made := h :: b.made }, [])

theorem acquire_cases (b : Inst) :
    act b .acquire = (b, []) ∨ ∃ a, b.driver = some a ∧ b.listed = true ∧
      act b .acquire = ({ b with refs := b.refs + 1 }, [.deliver a]) := by
  cases driver : b.driver with
  | none => exact .inl (by simp [act, driver])
  | some a =>
    by_cases listed : b.listed = true
    · exact .inr ⟨a, rfl, listed, by simp [act, driver, listed]⟩
    · exact .inl (by simp [act, driver, listed])

theorem deliver_cases (b : Inst) (d : Attached) :
    (act b (.deliver d) = (b, [.drop]) ∧ (b.dying = none ∨ b.refs ≠ 1)) ∨
    ∃ a stop, b.dying = some (a, stop) ∧ b.refs = 1 ∧
      act b (.deliver d) = ({ b with dying := none }, [.teardown a stop, .drop]) := by
  cases owed : b.dying with
  | none => exact .inl ⟨by simp [act, owed], .inl rfl⟩
  | some owes =>
    by_cases last : b.refs = 1
    · exact .inr ⟨owes.1, owes.2, rfl, last, by simp [act, owed, last]⟩
    · exact .inl ⟨by simp [act, owed, last], .inr last⟩

theorem detach_cases (b : Inst) (handle : Option ℕ) (stop : Bool) :
    (b.driver = none ∧ lifeAct b handle (.detach stop) = (b, [])) ∨
    (∃ a, b.driver = some a ∧ b.refs = 0 ∧
      lifeAct b handle (.detach stop) = ({ b with driver := none }, [.teardown a stop])) ∨
    ∃ a, b.driver = some a ∧ b.refs ≠ 0 ∧ lifeAct b handle (.detach stop) =
      ({ b with driver := none, dying := some (a, stop) }, []) := by
  cases driver : b.driver with
  | none => exact .inl ⟨rfl, by simp [lifeAct, driver]⟩
  | some a =>
    by_cases idle : b.refs = 0
    · exact .inr (.inl ⟨a, rfl, idle, by simp [lifeAct, driver, idle]⟩)
    · exact .inr (.inr ⟨a, rfl, idle, by simp [lifeAct, driver, idle]⟩)

end Instances

section System

def suspendMax : ℕ := 64

structure Sys where
  inst : ℕ → Inst
  nextInst : ℕ
  nextHandle : ℕ
  life : List (ℕ × Life)
  threads : List (List (ℕ × Deliv))

def start : Sys := ⟨fun _ => absent, 0, 0, [], []⟩

def listedIds (s : Sys) : List ℕ :=
  (List.range s.nextInst).reverse.filter fun id => (s.inst id).listed

def suspendPicks (s : Sys) (name : String) : List ℕ :=
  ((listedIds s).filter fun id => (s.inst id).driver.any fun a => a.drv.name = name).take suspendMax

def resumePicks (s : Sys) (drv : Drv) : List ℕ :=
  ((listedIds s).filter fun id => (s.inst id).susp.any fun p => p.1 = drv.name).take suspendMax

/-- The pointer `bot_driver_inflight_owned` looks at: the attached driver, or else the one whose
teardown is owed. -/
def ownerAddr (b : Inst) : ℕ :=
  match b.driver with
  | some a => a.drv.addr
  | none => (b.dying.map fun d => d.1.drv.addr).getD 0

def inflightOwned (s : Sys) (lo hi : ℕ) : ℕ :=
  if hi ≤ lo then 0
  else (listedIds s).countP fun id =>
    decide ((s.inst id).refs ≠ 0 ∧ lo ≤ ownerAddr (s.inst id) ∧ ownerAddr (s.inst id) < hi)

/-- A lifecycle operation starts with its first section, which picks the instances. -/
inductive Op
  | create (drv : Drv)
  | setRunning (id : ℕ) (on : Bool)
  | suspend (name : String)
  | resume (drv : Drv)
  | destroy (id : ℕ)
  | lifeTurn (creates : Bool)
  | message (id : ℕ)
  | turn (i : ℕ)
  deriving DecidableEq

def lifecycle (s : Sys) (t : Sys) : Option Sys := if s.life = [] then some t else none

def step (s : Sys) : Op → Option Sys
  | .create drv => lifecycle s { s with
      inst := Function.update s.inst s.nextInst (created drv s.nextHandle)
      nextInst := s.nextInst + 1, nextHandle := s.nextHandle + 1 }
  | .setRunning id on =>
    if (s.inst id).listed = true then lifecycle s { s with
      inst := Function.update s.inst id { s.inst id with running := on } }
    else none
  | .suspend name => lifecycle s { s with
      inst := fun id => if id ∈ suspendPicks s name then
        { s.inst id with susp := some (name, (s.inst id).running) } else s.inst id
      life := (suspendPicks s name).map fun id => (id, .detach (s.inst id).running) }
  | .resume drv => lifecycle s { s with
      life := (resumePicks s drv).map fun id => (id, .resume drv) }
  | .destroy id =>
    if (s.inst id).listed = true then lifecycle s { s with
      inst := Function.update s.inst id { s.inst id with running := false }
      life := [(id, .detach false), (id, .unlink)] }
    else none
  | .lifeTurn creates =>
    match s.life with
    | [] => none
    | (id, k) :: rest =>
      let r := lifeAct (s.inst id) (if creates then some s.nextHandle else none) k
      some { s with
        inst := Function.update s.inst id r.1, nextHandle := s.nextHandle + 1
        life := r.2.map (Prod.mk id) ++ rest }
  | .message id => some { s with threads := s.threads ++ [[(id, .acquire)]] }
  | .turn i =>
    match top s.threads i with
    | none => none
    | some ((id, k), rest) =>
      let r := act (s.inst id) k
      some { s with
        inst := Function.update s.inst id r.1
        threads := s.threads.set i (r.2.map (Prod.mk id) ++ rest) }

end System

end BotManager.BotModel
