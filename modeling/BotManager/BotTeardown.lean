import BotManager.BotModel
import BotManager.StepRun

/-! A handle of a driver is torn down once, and not while a delivery is inside the driver. An
instance is looked at with the frames that belong to it; a turn on one instance leaves the
others alone. -/

namespace BotManager.BotTeardown
open List BotModel FramePool KeyedPart StepRun

section Statement

structure TornDownOnce (b : Inst) (ks : List Deliv) (ls : List Life) : Prop where
  once : b.torn.Nodup
  detached : ∀ h ∈ b.torn, ∀ a, b.driver = some a → a.handle ≠ h
  settled : ∀ h ∈ b.made, (∀ a, b.driver = some a → a.handle ≠ h) → b.refs = 0 →
    (∀ a stop, a.handle = h → .teardown a stop ∉ ks ∧ .teardown a stop ∉ ls) → h ∈ b.torn
  apart : ∀ a, (a.handle ∈ b.torn ∨ ∃ stop, .teardown a stop ∈ ks ∨ .teardown a stop ∈ ls) →
    ∀ d, .deliver d ∈ ks → d.handle ≠ a.handle
  owes : b.refs = 0 → b.dying = none
  freed : b.freed ≤ 1 ∧ (b.freed = 1 → b.doomed = true ∧ b.refs = 0)
  freedLast : b.doomed = true → b.refs = 0 → .free ∉ ks → .free ∉ ls → b.freed = 1

/-- Every instance is torn down once, and a mapping that `bot_driver_inflight_owned` counts no
delivery in is owed no teardown by a listed instance. -/
structure Quiesced (s : Sys) : Prop where
  torn : ∀ id, TornDownOnce (s.inst id) (valuesAt id s.threads.flatten) (valuesAt id s.life)
  unowed : ∀ lo hi, inflightOwned s lo hi = 0 → ∀ id, (s.inst id).listed = true →
    ∀ a stop, (s.inst id).dying = some (a, stop) → ¬ (lo ≤ a.drv.addr ∧ a.drv.addr < hi)

def isDeliver : Deliv → Bool
  | .deliver _ => true
  | _ => false

def isDrop : Deliv → Bool
  | .drop => true
  | _ => false

/-- A release whose delivery is the last one inside while a teardown is owed finds no other
release between its two sections. -/
def Fits (b : Inst) (others : List Deliv) : Deliv → Prop
  | .deliver _ => b.dying = none ∨ others.countP isDrop = 0 ∨ 0 < others.countP isDeliver
  | _ => True

/-- A driver is detached while a delivery is inside it, or while no reference is left; a driver
is attached only to an instance that owes no teardown. -/
def LifeFits (b : Inst) (ks : List Deliv) : Life → Prop
  | .detach _ => b.driver = none ∨ b.refs = 0 ∨ 0 < ks.countP isDeliver
  | .resume _ => b.dying = none
  | _ => True

def Keeps (s : Sys) : Op → Prop
  | .turn i => ∀ r ∈ top s.threads i,
      Fits (s.inst r.1.1) (valuesAt r.1.1 (s.threads.set i r.2).flatten) r.1.2
  | .lifeTurn _ => ∀ r ∈ s.life.head?,
      LifeFits (s.inst r.1) (valuesAt r.1 s.threads.flatten) r.2
  | _ => True

instance (b : Inst) (others : List Deliv) (k : Deliv) : Decidable (Fits b others k) := by
  unfold Fits
  split <;> infer_instance

instance (b : Inst) (ks : List Deliv) (k : Life) : Decidable (LifeFits b ks k) := by
  unfold LifeFits
  split <;> infer_instance

instance (s : Sys) (op : Op) : Decidable (Keeps s op) := by
  unfold Keeps
  split <;> infer_instance

end Statement

variable {b' b : Inst} {a : Attached} {stop : Bool} {l : Life} {drv : Drv}

section Local

def attached (driver : Option Attached) (h : ℕ) : ℕ :=
  driver.elim 0 fun a => if a.handle = h then 1 else 0

def owed (dying : Option (Attached × Bool)) (h : ℕ) : ℕ :=
  dying.elim 0 fun d => if d.1.handle = h then 1 else 0

def lastOut (doomed : Bool) (refs : ℕ) : ℕ := if doomed = true ∧ refs = 0 then 1 else 0

def tearing (h : ℕ) : Deliv → Bool
  | .teardown a _ => a.handle = h
  | _ => false

def lifeTearing (h : ℕ) : Life → Bool
  | .teardown a _ => a.handle = h
  | _ => false

inductive Phase (b : Inst) : List Life → Prop
  | idle (suspended : b.susp ≠ none → b.driver = none) : Phase b []
  | detach (stop : Bool) : Phase b [.detach stop]
  | teardown (bare : b.driver = none) (a : Attached) (stop : Bool) : Phase b [.teardown a stop]
  | destroy (alive : b.doomed = false) (stop : Bool) : Phase b [.detach stop, .unlink]
  | destroyTeardown (alive : b.doomed = false) (bare : b.driver = none) (a : Attached)
      (stop : Bool) : Phase b [.teardown a stop, .unlink]
  | unlink (alive : b.doomed = false) (bare : b.driver = none) : Phase b [.unlink]
  | free (bare : b.driver = none) : Phase b [.free]
  | resume (bare : b.driver = none) (drv : Drv) : Phase b [.resume drv]

structure Local (b : Inst) (ks : List Deliv) (ls : List Life) : Prop where
  refs : b.refs = ks.countP isDeliver + ks.countP isDrop
  handles : ∀ h, attached b.driver h + owed b.dying h + ks.countP (tearing h) +
    ls.countP (lifeTearing h) + b.torn.count h = b.made.count h
  made : b.made.Nodup
  delivers : ∀ a, .deliver a ∈ ks → b.driver = some a ∨ ∃ stop, b.dying = some (a, stop)
  owing : b.dying ≠ none → 0 < ks.countP isDeliver
  apart : b.driver ≠ none → b.dying = none
  freed : b.freed + ks.count .free + ls.count .free = lastOut b.doomed b.refs
  unlisted : b.doomed = true → b.listed = false
  phase : Phase b ls

variable {b : Inst} {ks ks' : List Deliv} {ls : List Life} {k : Deliv}

theorem Phase.congr (phase : Phase b ls) (driver : b'.driver = b.driver)
    (susp : b'.susp = b.susp) (doomed : b'.doomed = b.doomed) : Phase b' ls := by
  cases phase with
  | idle suspended => exact .idle (by rw [driver, susp]; exact suspended)
  | detach stop => exact .detach stop
  | teardown bare a stop => exact .teardown (driver.trans bare) a stop
  | destroy alive stop => exact .destroy (doomed.trans alive) stop
  | destroyTeardown alive bare a stop =>
    exact .destroyTeardown (doomed.trans alive) (driver.trans bare) a stop
  | unlink alive bare => exact .unlink (doomed.trans alive) (driver.trans bare)
  | free bare => exact .free (driver.trans bare)
  | resume bare drv => exact .resume (driver.trans bare) drv

theorem Local.perm (inv : Local b ks ls) (same : ks.Perm ks') : Local b ks' ls where
  refs := by rw [← same.countP_eq, ← same.countP_eq]; exact inv.refs
  handles := fun h => by rw [← same.countP_eq]; exact inv.handles h
  __ := inv
  delivers := fun a mem => inv.delivers a (same.mem_iff.mpr mem)
  owing := by rw [← same.countP_eq]; exact inv.owing
  freed := by rw [← same.count_eq]; exact inv.freed

def refOf : Deliv → ℕ
  | .acquire => 0
  | .deliver _ => 1
  | .teardown _ _ => 0
  | .drop => 1
  | .free => 0

theorem refs_cons :
    (k :: ks).countP isDeliver + (k :: ks).countP isDrop =
      refOf k + (ks.countP isDeliver + ks.countP isDrop) := by
  rw [countP_cons, countP_cons]
  cases k <;> simp only [isDeliver, isDrop, refOf, if_true, Bool.false_eq_true, if_false] <;> omega

theorem Local.drop_acquire (inv : Local b (.acquire :: ks) ls) : Local b ks ls :=
  { inv with
    delivers := fun a mem => inv.delivers a (.tail _ mem) }

theorem Local.acquire (inv : Local b (.acquire :: ks) ls) :
    Local (act b .acquire).1 ((act b .acquire).2 ++ ks) ls := by
  have rest := inv.drop_acquire
  obtain missed | ⟨a, driver, listed, taken⟩ := acquire_cases b
  · rw [missed]
    exact rest
  · rw [taken]
    have alive : ¬ b.doomed = true := by
      intro doomed
      rw [inv.unlisted doomed] at listed
      cases listed
    have unowed : b.dying = none := inv.apart (by simp [driver])
    have refs := rest.refs
    exact
      { rest with
        refs := by
          rw [singleton_append, refs_cons, refOf]
          dsimp only
          omega
        delivers := by
          intro d mem
          rcases mem_cons.mp mem with same | old
          · cases same
            exact .inl driver
          · exact rest.delivers d old
        owing := fun owes => absurd unowed owes
        freed := by simpa [lastOut, alive] using rest.freed
        phase := rest.phase.congr rfl rfl rfl }

theorem Local.release {d : Attached} (inv : Local b (.deliver d :: ks) ls)
    (fits : Fits b ks (.deliver d)) :
    Local (act b (.deliver d)).1 ((act b (.deliver d)).2 ++ ks) ls := by
  have refs : b.refs = ks.countP isDeliver + 1 + ks.countP isDrop := by
    simpa [countP_cons, isDeliver, isDrop] using inv.refs
  have delivers : ∀ a, .deliver a ∈ ks → b.driver = some a ∨ ∃ stop, b.dying = some (a, stop) :=
    fun a mem => inv.delivers a (.tail _ mem)
  obtain ⟨kept, why⟩ | ⟨a, stop, owes, last, claimed⟩ := deliver_cases b d
  · rw [kept]
    exact
      { inv with
        refs := by
          rw [singleton_append, refs_cons, refOf]
          dsimp only
          omega
        delivers := by simpa using delivers
        owing := by
          intro owes
          suffices 0 < ks.countP isDeliver by simpa [countP_cons, isDeliver] using this
          rcases fits with unowed | alone | other
          · exact absurd unowed owes
          · rcases why with unowed | more
            · exact absurd unowed owes
            · omega
          · exact other }
  · rw [claimed]
    have alone : ks.countP isDeliver = 0 := by omega
    exact
      { inv with
        refs := by
          rw [cons_append, singleton_append, refs_cons, refs_cons, refOf, refOf]
          dsimp only
          omega
        handles := by
          intro h
          have before := inv.handles h
          simp only [cons_append, nil_append, countP_cons, tearing, owes, owed,
            Option.elim_some, Option.elim_none, decide_eq_true_eq, Bool.false_eq_true,
            if_false] at before ⊢
          omega
        delivers := by
          intro e mem
          have inside : Deliv.deliver e ∈ ks := by simpa using mem
          exact absurd rfl (countP_eq_zero.mp alone _ inside)
        owing := fun still => absurd rfl still
        apart := fun _ => rfl
        phase := inv.phase.congr rfl rfl rfl }

theorem Local.teardown (inv : Local b (.teardown a stop :: ks) ls) :
    Local (act b (.teardown a stop)).1 ((act b (.teardown a stop)).2 ++ ks) ls :=
  { inv with
    handles := by
      intro h
      have before := inv.handles h
      simp only [act, nil_append, countP_cons, count_cons, tearing,
        beq_iff_eq, decide_eq_true_eq] at before ⊢
      omega
    delivers := fun d mem => inv.delivers d (.tail _ mem)
    phase := inv.phase.congr rfl rfl rfl }

theorem Local.drop (inv : Local b (.drop :: ks) ls) :
    Local (act b .drop).1 ((act b .drop).2 ++ ks) ls := by
  have refs : b.refs = ks.countP isDeliver + (ks.countP isDrop + 1) := by
    simpa [countP_cons, isDeliver, isDrop] using inv.refs
  have freed : b.freed + ks.count .free + ls.count .free = 0 := by
    have freed := inv.freed
    rw [lastOut, if_neg (by omega)] at freed
    simpa using freed
  show Local { b with refs := b.refs - 1 } ((if b.refs - 1 = 0 ∧ b.doomed = true
      then [.free] else []) ++ ks) ls
  by_cases last : b.refs - 1 = 0 ∧ b.doomed = true
  · rw [if_pos last]
    exact
      { inv with
        refs := by
          rw [singleton_append, refs_cons, refOf]
          dsimp only
          omega
        delivers := fun e mem => inv.delivers e (by simpa using mem)
        freed := by
          rw [lastOut, if_pos last.symm, cons_append, nil_append,
            count_cons_self]
          dsimp only
          omega
        phase := inv.phase.congr rfl rfl rfl }
  · rw [if_neg last]
    exact
      { inv with
        refs := by simp only [nil_append]; omega
        delivers := fun e mem => inv.delivers e (.tail _ mem)
        freed := by
          rw [lastOut, if_neg fun both => last both.symm]
          exact freed
        phase := inv.phase.congr rfl rfl rfl }

theorem Local.free (inv : Local b (.free :: ks) ls) :
    Local (act b .free).1 ((act b .free).2 ++ ks) ls :=
  { inv with
    delivers := fun d mem => inv.delivers d (.tail _ mem)
    freed := by
      have freed := inv.freed
      rw [count_cons_self] at freed
      simp only [act, nil_append]
      omega
    phase := inv.phase.congr rfl rfl rfl }

theorem Local.act (inv : Local b (k :: ks) ls) (fits : Fits b ks k) :
    Local (act b k).1 ((act b k).2 ++ ks) ls := by
  cases k with
  | acquire => exact inv.acquire
  | deliver d => exact inv.release fits
  | teardown a stop => exact inv.teardown
  | drop => exact inv.drop
  | free => exact inv.free

theorem Phase.tail (phase : Phase b (l :: ls)) : ls = [] ∨ ls = [.unlink] ∧ b.doomed = false := by
  cases phase with
  | detach | teardown | unlink | free | resume => exact .inl rfl
  | destroy alive | destroyTeardown alive => exact .inr ⟨rfl, alive⟩

theorem Phase.bare (phase : Phase b (l :: ls)) (bare : b'.driver = none)
    (doomed : b'.doomed = b.doomed) : Phase b' ls := by
  rcases phase.tail with rfl | ⟨rfl, alive⟩
  · exact .idle fun _ => bare
  · exact .unlink (doomed.trans alive) bare

variable {handle : Option ℕ}

theorem Local.detach (inv : Local b ks (.detach stop :: ls))
    (fits : LifeFits b ks (.detach stop)) :
    Local (lifeAct b handle (.detach stop)).1 ks
      ((lifeAct b handle (.detach stop)).2 ++ ls) := by
  obtain ⟨bare, left⟩ | ⟨a, driver, idle, torn⟩ | ⟨a, driver, busy, owing⟩ :=
    detach_cases b handle stop
  · rw [left]
    exact
      { inv with
        phase := inv.phase.bare bare rfl }
  · rw [torn]
    have none : ks.countP isDeliver = 0 := by
      have refs := inv.refs
      omega
    exact
      { inv with
        handles := by
          intro h
          have before := inv.handles h
          simp only [driver, attached, Option.elim_some, Option.elim_none, cons_append,
            nil_append, countP_cons, lifeTearing, decide_eq_true_eq, Bool.false_eq_true,
            if_false] at before ⊢
          omega
        delivers := by
          intro e mem
          exact absurd rfl (countP_eq_zero.mp none _ mem)
        apart := fun attached => absurd rfl attached
        phase := by
          rcases inv.phase.tail with rfl | ⟨rfl, alive⟩
          · exact .teardown rfl a stop
          · refine .destroyTeardown ?_ rfl a stop
            exact alive }
  · rw [owing]
    have unowed : b.dying = none := inv.apart (by simp [driver])
    have inside : 0 < ks.countP isDeliver := by
      rcases fits with bare | idle | inside
      · rw [driver] at bare
        cases bare
      · exact absurd idle busy
      · exact inside
    exact
      { inv with
        handles := by
          intro h
          have before := inv.handles h
          simp only [driver, unowed, attached, owed, Option.elim_some, Option.elim_none,
            nil_append, countP_cons, lifeTearing, Bool.false_eq_true, if_false] at before ⊢
          omega
        delivers := by
          intro e mem
          rcases inv.delivers e mem with same | ⟨stop, owed⟩
          · rw [driver] at same
            cases same
            exact .inr ⟨stop, rfl⟩
          · rw [unowed] at owed
            cases owed
        owing := fun _ => inside
        apart := fun attached => absurd rfl attached
        phase := inv.phase.bare rfl rfl }

theorem Local.lifeTeardown (inv : Local b ks (.teardown a stop :: ls)) :
    Local (lifeAct b handle (.teardown a stop)).1 ks
      ((lifeAct b handle (.teardown a stop)).2 ++ ls) := by
  have bare : b.driver = none := by
    cases inv.phase with
    | teardown bare | destroyTeardown _ bare => exact bare
  exact
    { inv with
      handles := by
        intro h
        have before := inv.handles h
        simp only [lifeAct, nil_append, countP_cons, count_cons,
          lifeTearing, beq_iff_eq, decide_eq_true_eq] at before ⊢
        omega
      phase := inv.phase.bare bare rfl }

theorem Local.unlink (inv : Local b ks (.unlink :: ls)) :
    Local (lifeAct b handle .unlink).1 ks ((lifeAct b handle .unlink).2 ++ ls) := by
  obtain ⟨rfl, bare, alive⟩ : ls = [] ∧ b.driver = none ∧ b.doomed = false := by
    cases inv.phase with
    | unlink alive bare => exact ⟨rfl, bare, alive⟩
  have unfreed : b.freed + ks.count .free = 0 := by
    have freed := inv.freed
    rw [lastOut, if_neg (by simp [alive])] at freed
    simpa using freed
  show Local { b with listed := false, doomed := true } ks
      ((if b.refs = 0 then [.free] else []) ++ [])
  by_cases idle : b.refs = 0
  · rw [if_pos idle]
    exact
      { inv with
        freed := by
          rw [lastOut, if_pos ⟨rfl, idle⟩, append_nil, count_singleton_self]
          dsimp only
          omega
        unlisted := fun _ => rfl
        phase := .free bare }
  · rw [if_neg idle]
    exact
      { inv with
        freed := by
          rw [lastOut, if_neg fun both => idle both.2]
          simpa using unfreed
        unlisted := fun _ => rfl
        phase := .idle fun _ => bare }

theorem Local.lifeFree (inv : Local b ks (.free :: ls)) :
    Local (lifeAct b handle .free).1 ks ((lifeAct b handle .free).2 ++ ls) := by
  have bare : b.driver = none := by
    cases inv.phase with
    | free bare => exact bare
  exact
    { inv with
      freed := by
        have freed := inv.freed
        rw [count_cons_self] at freed
        simp only [lifeAct, nil_append]
        omega
      phase := inv.phase.bare bare rfl }

theorem Local.resume (inv : Local b ks (.resume drv :: ls))
    (fresh : ∀ h, handle = some h → h ∉ b.made) (fits : b.dying = none) :
    Local (lifeAct b handle (.resume drv)).1 ks
      ((lifeAct b handle (.resume drv)).2 ++ ls) := by
  obtain ⟨rfl, bare⟩ : ls = [] ∧ b.driver = none := by
    cases inv.phase with
    | resume bare => exact ⟨rfl, bare⟩
  cases handle with
  | none =>
    exact
      { inv with
        phase := .idle fun _ => bare }
  | some new =>
    exact
      { inv with
        handles := by
          intro h
          have before := inv.handles h
          simp only [bare, attached, Option.elim_none, countP_cons, countP_nil, lifeTearing,
            Bool.false_eq_true, if_false] at before
          simp only [lifeAct, attached, Option.elim_some, append_nil,
            countP_nil, count_cons, beq_iff_eq]
          omega
        made := nodup_cons.mpr ⟨fresh new rfl, inv.made⟩
        delivers := by
          intro e mem
          rcases inv.delivers e mem with same | owed
          · rw [bare] at same
            cases same
          · exact .inr owed
        apart := fun _ => fits
        phase := .idle fun suspended => absurd rfl suspended }

theorem Local.lifeAct (inv : Local b ks (l :: ls))
    (fresh : ∀ h, handle = some h → h ∉ b.made) (fits : LifeFits b ks l) :
    Local (lifeAct b handle l).1 ks ((lifeAct b handle l).2 ++ ls) := by
  cases l with
  | detach stop => exact inv.detach fits
  | teardown a stop => exact inv.lifeTeardown
  | unlink => exact inv.unlink
  | free => exact inv.lifeFree
  | resume drv => exact inv.resume fresh fits

theorem attached_some (driver : b.driver = some a) : attached b.driver a.handle = 1 := by
  rw [driver]
  exact if_pos rfl

theorem Local.tornDownOnce (inv : Local b ks ls) : TornDownOnce b ks ls := by
  have single : ∀ h, b.made.count h ≤ 1 := nodup_iff_count_le_one.mp inv.made
  constructor
  case once =>
    apply nodup_iff_count_le_one.mpr
    intro h
    have handles := inv.handles h
    have made := single h
    omega
  case detached =>
    intro h torn a driver same
    have handles := inv.handles h
    have made := single h
    have there := attached_some driver
    have counted : 0 < b.torn.count h := count_pos_iff.mpr torn
    rw [same] at there
    omega
  case settled =>
    intro h made bare idle through
    have handles := inv.handles h
    have counted : 0 < b.made.count h := count_pos_iff.mpr made
    have unattached : attached b.driver h = 0 := by
      cases driver : b.driver with
      | none => rfl
      | some a => exact if_neg (bare a driver)
    have unowed : owed b.dying h = 0 := by
      cases dying : b.dying with
      | none => rfl
      | some d =>
        have inside := inv.owing (by simp [dying])
        have refs := inv.refs
        omega
    have idleDeliv : ks.countP (tearing h) = 0 := by
      apply countP_eq_zero.mpr
      intro k mem here
      cases k with
      | teardown a stop => exact (through a stop (of_decide_eq_true here)).1 mem
      | _ => cases here
    have idleLife : ls.countP (lifeTearing h) = 0 := by
      apply countP_eq_zero.mpr
      intro l mem here
      cases l with
      | teardown a stop => exact (through a stop (of_decide_eq_true here)).2 mem
      | _ => cases here
    apply count_pos_iff.mp
    omega
  case apart =>
    intro a gone d inside same
    have handles := inv.handles d.handle
    have made := single d.handle
    -- the handle of a delivery inside is attached or owed, so it has no second place
    have held : 0 < attached b.driver d.handle + owed b.dying d.handle := by
      rcases inv.delivers d inside with driver | ⟨stop, dying⟩
      · have there := attached_some driver
        omega
      · have there : owed b.dying d.handle = 1 := by
          rw [dying]
          exact if_pos rfl
        omega
    rcases gone with torn | ⟨stop, deliv | life⟩
    · have counted : 0 < b.torn.count d.handle := count_pos_iff.mpr (same ▸ torn)
      omega
    · have counted : 0 < ks.countP (tearing d.handle) :=
        countP_pos_iff.mpr ⟨_, deliv, decide_eq_true same.symm⟩
      omega
    · have counted : 0 < ls.countP (lifeTearing d.handle) :=
        countP_pos_iff.mpr ⟨_, life, decide_eq_true same.symm⟩
      omega
  case owes =>
    intro idle
    by_contra owes
    have inside := inv.owing owes
    have refs := inv.refs
    omega
  case freed =>
    have freed := inv.freed
    unfold lastOut at freed
    split_ifs at freed with last
    · exact ⟨by omega, fun _ => last⟩
    · exact ⟨by omega, fun once => by omega⟩
  case freedLast =>
    intro doomed idle unfreed unfreedLife
    have freed := inv.freed
    rw [lastOut, if_pos ⟨doomed, idle⟩, count_eq_zero.mpr unfreed,
      count_eq_zero.mpr unfreedLife] at freed
    omega

end Local

section System
variable {s t : Sys}

structure Inv (s : Sys) : Prop where
  inst : ∀ id, Local (s.inst id) (valuesAt id s.threads.flatten) (valuesAt id s.life)
  fresh : ∀ id, ∀ h ∈ (s.inst id).made, h < s.nextHandle
  beyond : ∀ id, s.nextInst ≤ id → s.inst id = absent
  known : ∀ x ∈ s.life, x.1 < s.nextInst

theorem absent_local (ks : List Deliv) (quiet : ∀ k ∈ ks, k = .acquire) :
    Local absent ks [] := by
  have none : ∀ p : Deliv → Bool, p .acquire = false → ks.countP p = 0 := by
    intro p calm
    apply countP_eq_zero.mpr
    intro k mem
    rw [quiet k mem, calm]
    simp
  constructor
  case refs => rw [none _ rfl, none _ rfl]; rfl
  case handles => intro h; rw [none _ rfl]; rfl
  case made => exact nodup_nil
  case delivers =>
    intro a mem
    cases quiet _ mem
  case owing => exact fun owes => absurd rfl owes
  case apart => exact fun _ => rfl
  case freed =>
    have unfreed : ks.count .free = 0 := by
      apply count_eq_zero.mpr
      intro mem
      cases quiet _ mem
    rw [unfreed]
    rfl
  case unlisted => exact fun _ => rfl
  case phase => exact .idle fun _ => rfl

theorem start_inv : Inv start where
  inst := fun id => absent_local [] (by simp)
  fresh := nofun
  beyond := fun id _ => rfl
  known := nofun

variable {ks : List Deliv}

theorem Local.only_acquire {ls : List Life} (inv : Local absent ks ls) {k : Deliv} (mem : k ∈ ks) : k = .acquire := by
  have refs : 0 = ks.countP isDeliver + ks.countP isDrop := inv.refs
  cases k with
  | acquire => rfl
  | deliver a =>
    have none : ks.countP isDeliver = 0 := by omega
    exact absurd rfl (countP_eq_zero.mp none _ mem)
  | teardown a stop =>
    have handles : 0 + 0 + ks.countP (tearing a.handle) + ls.countP (lifeTearing a.handle) + 0 =
      0 := inv.handles a.handle
    have none : ks.countP (tearing a.handle) = 0 := by omega
    exact absurd (decide_eq_true rfl) (countP_eq_zero.mp none _ mem)
  | drop =>
    have none : ks.countP isDrop = 0 := by omega
    exact absurd rfl (countP_eq_zero.mp none _ mem)
  | free =>
    have freed : 0 + ks.count .free + ls.count .free = 0 := inv.freed
    have none : ks.count .free = 0 := by omega
    exact absurd mem (count_eq_zero.mp none)

theorem Local.create (inv : Local absent ks []) (drv : Drv) (h : ℕ) :
    Local (created drv h) ks [] := by
  constructor
  case refs => exact inv.refs
  case handles =>
    intro g
    have before : 0 + 0 + ks.countP (tearing g) + 0 + 0 = 0 := inv.handles g
    simp only [created, absent, attached, owed, Option.elim_some, Option.elim_none,
      countP_nil, count_nil, count_cons, beq_iff_eq]
    omega
  case made => exact nodup_singleton h
  case delivers =>
    intro a mem
    cases inv.only_acquire mem
  case owing => exact fun owes => absurd rfl owes
  case apart => exact fun _ => rfl
  case freed => exact inv.freed
  case unlisted => exact nofun
  case phase => exact .idle fun suspended => absurd rfl suspended

variable {ls : List Life}

theorem Local.message (inv : Local b ks ls) : Local b (.acquire :: ks) ls :=
  { inv with
    delivers := fun a mem => inv.delivers a (by simpa using mem) }

theorem Local.begin (inv : Local b ks [])
    (same : b' = { b with running := b'.running, susp := b'.susp })
    (quiet : ∀ h, ls.countP (lifeTearing h) = 0) (unfreed : ls.count .free = 0)
    (phase : Phase b' ls) : Local b' ks ls := by
  rw [same] at phase ⊢
  exact
    { inv with
      handles := fun h => by rw [quiet]; exact inv.handles h
      freed := by rw [unfreed]; exact inv.freed
      phase := phase }

theorem Inv.idle (inv : Inv s) (free : s.life = []) (id : ℕ) :
    Local (s.inst id) (valuesAt id s.threads.flatten) [] := by
  have here := inv.inst id
  rwa [free] at here

variable {id : ℕ}

theorem picks_spec :
    (((listedIds s).filter p).take suspendMax).Nodup ∧
      ∀ id ∈ ((listedIds s).filter p).take suspendMax, id < s.nextInst ∧ p id = true := by
  refine ⟨(((nodup_reverse.mpr nodup_range).filter _).filter _).sublist (take_sublist _ _), ?_⟩
  intro id mem
  obtain ⟨listed, picked⟩ := mem_filter.mp (mem_of_mem_take mem)
  exact ⟨mem_range.mp (mem_reverse.mp (mem_filter.mp listed).1), picked⟩

theorem act_made : (act b k).1.made = b.made := by
  cases k with
  | acquire =>
    obtain missed | ⟨a, -, -, taken⟩ := acquire_cases b
    · rw [missed]
    · rw [taken]
  | deliver d =>
    obtain ⟨kept, -⟩ | ⟨a, stop, -, -, claimed⟩ := deliver_cases b d
    · rw [kept]
    · rw [claimed]
  | teardown a stop | drop | free => rfl

theorem lifeAct_made : ∀ h ∈ (lifeAct b handle l).1.made, h ∈ b.made ∨ handle = some h := by
  intro h mem
  cases l with
  | detach stop =>
    obtain ⟨-, left⟩ | ⟨a, -, -, left⟩ | ⟨a, -, -, left⟩ := detach_cases b handle stop
    all_goals
      rw [left] at mem
      exact .inl mem
  | teardown a stop | unlink | free => exact .inl mem
  | resume drv =>
    cases handle with
    | none => exact .inl mem
    | some new =>
      rcases mem_cons.mp mem with rfl | old
      · exact .inr rfl
      · exact .inl old

variable (inv : Inv s)
include inv

theorem Inv.update {count next : ℕ} {life : List (ℕ × Life)}
    {threads : List (List (ℕ × Deliv))}
    (here : Local b (valuesAt id threads.flatten) (valuesAt id life))
    (others : ∀ j, j ≠ id → (valuesAt j s.threads.flatten).Perm (valuesAt j threads.flatten) ∧ valuesAt j life = valuesAt j s.life)
    (made : ∀ h ∈ b.made, h < next) (grows : s.nextInst ≤ count) (later : s.nextHandle ≤ next)
    (gone : count ≤ id → b = absent) (known : ∀ x ∈ life, x.1 < count) :
    Inv ⟨Function.update s.inst id b, count, next, life, threads⟩ where
  inst := by
    refine (Function.forall_update_iff s.inst
      fun j b => Local b (valuesAt j threads.flatten) (valuesAt j life)).mpr ⟨here, fun j other => ?_⟩
    obtain ⟨same, lives⟩ := others j other
    rw [lives]
    exact (inv.inst j).perm same
  fresh := by
    refine (Function.forall_update_iff s.inst fun _ b => ∀ h ∈ b.made, h < next).mpr ⟨made, ?_⟩
    exact fun j _ h mem => Nat.lt_of_lt_of_le (inv.fresh j h mem) later
  beyond := by
    refine (Function.forall_update_iff s.inst fun j b => count ≤ j → b = absent).mpr ⟨gone, ?_⟩
    exact fun j _ above => inv.beyond j (Nat.le_trans grows above)
  known := known

theorem Inv.create (moved : step s (.create drv) = some t) : Inv t := by
  obtain ⟨free, rfl⟩ := fired moved
  refine inv.update ?_ (fun _ _ => ⟨.refl _, rfl⟩) ?_ (Nat.le_succ _) (Nat.le_succ _) (by omega)
    fun x mem => Nat.lt_succ_of_lt (inv.known x mem)
  · have here := inv.idle free s.nextInst
    rw [inv.beyond _ (Nat.le_refl _)] at here
    rw [free]
    exact here.create drv s.nextHandle
  · intro h mem
    obtain rfl := mem_singleton.mp mem
    exact Nat.lt_succ_self _

theorem Inv.suspend {name : String} (moved : step s (.suspend name) = some t) : Inv t := by
  obtain ⟨free, rfl⟩ := fired moved
  obtain ⟨distinct, known⟩ : (suspendPicks s name).Nodup ∧ _ := picks_spec
  constructor
  case inst =>
    intro id
    dsimp only
    rw [valuesAt_map distinct]
    split_ifs
    · exact (inv.idle free id).begin rfl (fun _ => rfl) rfl (.detach _)
    · exact inv.idle free id
  case fresh =>
    intro id h mem
    dsimp only at mem
    split_ifs at mem <;> exact inv.fresh id h mem
  case beyond =>
    intro id above
    dsimp only
    rw [if_neg fun picked => ?_]
    · exact inv.beyond id above
    · exact absurd (known id picked).1 (Nat.not_lt.mpr above)
  case known =>
    intro x mem
    obtain ⟨id, picked, rfl⟩ := mem_map.mp mem
    exact (known id picked).1

theorem Inv.resume (moved : step s (.resume drv) = some t) : Inv t := by
  obtain ⟨free, rfl⟩ := fired moved
  obtain ⟨distinct, known⟩ : (resumePicks s drv).Nodup ∧ _ := picks_spec
  refine ⟨fun id => ?_, inv.fresh, inv.beyond, fun x mem => ?_⟩
  swap
  · obtain ⟨id, picked, rfl⟩ := mem_map.mp mem
    exact (known id picked).1
  rw [valuesAt_map distinct]
  have here := inv.idle free id
  split_ifs with picked
  · have suspended := (known id picked).2
    have bare : (s.inst id).driver = none := by
      cases here.phase with
      | idle kept =>
        apply kept
        intro none
        rw [none] at suspended
        cases suspended
    exact here.begin rfl (fun _ => rfl) rfl (.resume bare drv)
  · exact here

theorem Inv.turn {i : ℕ} (keeps : Keeps s (.turn i)) (moved : step s (.turn i) = some t) :
    Inv t := by
  rw [step] at moved
  split at moved <;> cases moved
  rename_i id k rest found
  obtain ⟨before, after⟩ := turn_perm found
  have after := after ((act (s.inst id) k).2.map (Prod.mk id))
  have around : (valuesAt id s.threads.flatten).Perm
      (k :: valuesAt id (s.threads.set i rest).flatten) := by
    have split := valuesAt_perm id before
    rwa [valuesAt_cons, if_pos rfl] at split
  refine inv.update ?_ (fun j other => ⟨?_, rfl⟩) ?_ (Nat.le_refl _) (Nat.le_refl _) ?_ inv.known
  · have called := valuesAt_perm id after
    rw [valuesAt_append, valuesAt_keyed, if_pos rfl] at called
    exact (((inv.inst id).perm around).act (keeps _ found)).perm called.symm
  · have split := valuesAt_perm j before
    have called := valuesAt_perm j after
    rw [valuesAt_cons, if_neg (Ne.symm other)] at split
    rw [valuesAt_append, valuesAt_keyed, if_neg (Ne.symm other)] at called
    exact split.trans called.symm
  · intro h mem
    rw [act_made] at mem
    exact inv.fresh id h mem
  · intro above
    have here := inv.inst id
    have gone := inv.beyond id above
    have mem : k ∈ valuesAt id s.threads.flatten := around.mem_iff.mpr (.head _)
    rw [gone] at here ⊢
    rw [here.only_acquire mem]
    rfl

theorem Inv.lifeTurn {creates : Bool} (keeps : Keeps s (.lifeTurn creates))
    (moved : step s (.lifeTurn creates) = some t) : Inv t := by
  rw [step] at moved
  split at moved <;> cases moved
  rename_i id l rest first
  have fits := keeps (id, l) (by rw [first]; rfl)
  have made : ∀ h, (if creates then some s.nextHandle else none) = some h → h = s.nextHandle := by
    intro h given
    split at given
    · exact (Option.some.inj given).symm
    · cases given
  have below : id < s.nextInst := inv.known (id, l) (by simp [first])
  refine inv.update ?_ (fun j other => ⟨.refl _, ?_⟩) ?_ (Nat.le_refl _) (Nat.le_succ _) ?_ ?_
  · have here := inv.inst id
    rw [first, valuesAt_cons, if_pos rfl] at here
    rw [valuesAt_append, valuesAt_keyed, if_pos rfl]
    apply here.lifeAct _ fits
    intro h given mem
    have old := inv.fresh id h mem
    have new := made h given
    omega
  · rw [first, valuesAt_append, valuesAt_keyed, valuesAt_cons, if_neg (Ne.symm other),
      if_neg (Ne.symm other), nil_append]
  · intro h mem
    rcases lifeAct_made h mem with old | new
    · have old := inv.fresh id h old
      omega
    · have new := made h new
      omega
  · omega
  · intro x mem
    rcases mem_append.mp mem with called | old
    · obtain ⟨k, -, rfl⟩ := mem_map.mp called
      exact below
    · exact inv.known x (by simp [first, old])

theorem Inv.below (listed : (s.inst id).listed = true) : id < s.nextInst := by
  by_contra above
  rw [inv.beyond id (Nat.not_lt.mp above)] at listed
  cases listed

theorem Inv.setRunning {on : Bool} (moved : step s (.setRunning id on) = some t) : Inv t := by
  obtain ⟨listed, moved⟩ := Option.ite_none_right_eq_some.mp moved
  obtain ⟨free, rfl⟩ := fired moved
  have here := inv.idle free id
  refine inv.update (b := { s.inst id with running := on }) ?_ (fun j other => ⟨.refl _, rfl⟩)
    (inv.fresh id) (Nat.le_refl _) (Nat.le_refl _) (fun above => ?_) inv.known
  · rw [free]
    exact here.begin rfl (fun _ => rfl) rfl (here.phase.congr rfl rfl rfl)
  · exact absurd (inv.below listed) (Nat.not_lt.mpr above)

theorem Inv.destroy (moved : step s (.destroy id) = some t) : Inv t := by
  obtain ⟨listed, moved⟩ := Option.ite_none_right_eq_some.mp moved
  obtain ⟨free, rfl⟩ := fired moved
  have here := inv.idle free id
  refine inv.update (b := { s.inst id with running := false }) ?_
    (fun j other => ⟨.refl _, ?_⟩) (inv.fresh id) (Nat.le_refl _) (Nat.le_refl _)
    (fun above => ?_) ?_
  · rw [valuesAt_cons, valuesAt_cons, if_pos rfl, if_pos rfl]
    apply here.begin rfl (fun _ => rfl) rfl
    apply Phase.destroy
    -- a doomed instance is off the list
    by_contra doomed
    have unlisted := here.unlisted (by simpa using doomed)
    rw [listed] at unlisted
    cases unlisted
  · rw [free, valuesAt_cons, valuesAt_cons, if_neg (Ne.symm other), if_neg (Ne.symm other)]
  · exact absurd (inv.below listed) (Nat.not_lt.mpr above)
  · intro x mem
    have same : x.1 = id := by
      rcases mem_pair.mp mem with rfl | rfl <;> rfl
    rw [same]
    exact inv.below listed

theorem Inv.message (moved : step s (.message id) = some t) : Inv t := by
  cases moved
  refine { inv with inst := fun j => ?_ }
  rw [flatten_spawn, valuesAt_append, valuesAt_cons, valuesAt_nil]
  split_ifs with same
  · exact (inv.inst j).message.perm (perm_append_singleton _ _).symm
  · rw [append_nil]
    exact inv.inst j

theorem Inv.step {op : Op} (keeps : Keeps s op) (moved : step s op = some t) : Inv t := by
  cases op with
  | create drv => exact inv.create moved
  | setRunning id on => exact inv.setRunning moved
  | suspend name => exact inv.suspend moved
  | resume drv => exact inv.resume moved
  | destroy id => exact inv.destroy moved
  | lifeTurn creates => exact inv.lifeTurn keeps moved
  | message id => exact inv.message moved
  | turn i => exact inv.turn keeps moved

theorem Inv.quiesced : Quiesced s where
  torn := fun id => (inv.inst id).tornDownOnce
  unowed := by
    rintro lo hi idle id listed a stop owes ⟨above, below⟩
    have here := inv.inst id
    have bare : (s.inst id).driver = none := by
      by_contra driver
      rw [here.apart driver] at owes
      cases owes
    have busy : (s.inst id).refs ≠ 0 := by
      have inside := here.owing (by simp [owes])
      have refs := here.refs
      omega
    have owner : ownerAddr (s.inst id) = a.drv.addr := by simp [ownerAddr, bare, owes]
    have counted : id ∈ listedIds s := by simp [listedIds, inv.below listed, listed]
    rw [inflightOwned, if_neg (by omega)] at idle
    apply countP_eq_zero.mp idle id counted
    rw [owner]
    exact decide_eq_true ⟨busy, above, below⟩

end System

section Results

theorem driver_torn_down_once {labels : List Op} {t : Sys}
    (run : Run step Keeps start labels t) : Quiesced t :=
  (run.invariant (I := Inv) (fun inv => inv.step)
    start_inv).quiesced

theorem driver_torn_down_once_deferred :
    ∃ t, (t.inst 0).torn = [2, 0] ∧ (t.inst 0).freed = 1 ∧ Quiesced t := by
  have run : Run step Keeps start
      [.create ⟨"irc", 4096⟩, .message 0, .turn 0, .setRunning 0 true, .suspend "irc",
        .lifeTurn false, .turn 0, .turn 0, .turn 0, .resume ⟨"irc", 8192⟩,
        .lifeTurn true, .destroy 0, .lifeTurn false, .lifeTurn false, .lifeTurn false,
        .lifeTurn false] _ :=
    runWhen_get (by decide +kernel)
  exact ⟨_, by decide +kernel, by decide +kernel, driver_torn_down_once run⟩

/-- Two deliveries are inside when the driver is suspended. Both releases take their first
section while two references are held, so that neither is the last one there; then both drop
their reference. -/
theorem driver_never_torn_down :
    ∃ labels t, Run step Any start labels t ∧ t.threads.flatten = [] ∧ t.life = [] ∧
      (t.inst 0).refs = 0 ∧ (t.inst 0).torn = [] ∧
      (t.inst 0).dying = some (⟨⟨"irc", 4096⟩, 0⟩, false) ∧ inflightOwned t 4096 8192 = 0 ∧
      ¬ Quiesced t := by
  refine ⟨[.create ⟨"irc", 4096⟩, .message 0, .message 0, .turn 0, .turn 1, .suspend "irc",
        .lifeTurn false, .turn 0, .turn 1, .turn 0, .turn 1], _,
    run_get (by decide +kernel), by decide +kernel, by decide +kernel, by decide +kernel,
    by decide +kernel, by decide +kernel, by decide +kernel, fun fine => ?_⟩
  have none := (fine.torn 0).owes (by decide +kernel)
  exact absurd none (by decide +kernel)

end Results

end BotManager.BotTeardown
