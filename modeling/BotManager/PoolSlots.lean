import Mathlib.Algebra.BigOperators.Group.Finset.Piecewise
import Mathlib.Data.List.Find
import Mathlib.Order.Interval.Finset.Nat
import BotManager.PoolModel
import BotManager.KeyedPart
import BotManager.StepRun

/-! Worker-thread slots are exact: no thread is joined twice, a slot is not given away under a
thread that has not exited, and `pool_size` counts the elastic workers that run. What an
operation has in hand of a slot is its claim; a slot has at most one claim at a time, and state,
thread and claim of a slot fit together. -/

namespace BotManager.PoolSlots
open List PoolModel FramePool KeyedPart StepRun

section Statement

inductive Claim
  | toJoin
  | waiting (t : ℕ)
  | joined
  | timed (t : ℕ) (prev : WState)
  deriving DecidableEq

def Frame.claim : Frame → Option (Key × Claim)
  | .join i => some (.elastic i, .toJoin)
  | .wait i t => some (.elastic i, .waiting t)
  | .reaped i => some (.elastic i, .joined)
  | .joinRetired i _ => some (.persist i, .toJoin)
  | .waitRetired i t _ => some (.persist i, .waiting t)
  | .reapedPersist i _ => some (.persist i, .joined)
  | .timedJoin i t prev => some (.persist i, .timed t prev)
  | .timedOut i t prev => some (.persist i, .timed t prev)
  | .joinedPersist i => some (.persist i, .joined)
  | .checkSpare => none
  | .spawnWorker => none
  | .spawnPersist _ => none
  | .joinPersist _ => none

def claims (frames : List Frame) : List (Key × Claim) := frames.filterMap Frame.claim

def liveAt (p : Pool) (k : Key) : Bool :=
  (p.slot k).thread.any fun t => decide (p.phase t = .running)

structure Exact (s : Sys) : Prop where
  once : ∀ t, s.joined t ≤ 1
  kept : ∀ t < s.next, s.phase t ≠ .exited →
    (s.slot (s.home t)).thread = some t ∧ (s.slot (s.home t)).wstate ≠ .unused
  size : s.poolSize = ((Finset.Icc 1 s.max).filter fun i => liveAt s.toPool (.elastic i)).card
  reclaimed : s.ops.flatten = [] → ∀ i t, (s.slot (.persist i)).thread = some t →
    s.phase t = .exited →
      (s.slot (.persist i)).wstate = .retiring ∨ (s.slot (.persist i)).wstate = .unused

def reaps (max : ℕ) (p : Pool) (c : Choice) : Frame → Option ℕ
  | .checkSpare =>
    if c.wanted = true ∧ p.poolSize < max then
      firstSlot p .elastic .retiring (elasticFrom max 1) else none
  | .spawnWorker => firstSlot p .elastic .retiring (elasticFrom max 1)
  | .reaped i => firstSlot p .elastic .retiring (elasticFrom max (i + 1))
  | _ => none

/-- A join that times out hands its slot back as running only to a thread that has not gone
through `persist_retire_self`. -/
def HandsBack (p : Pool) : Frame → Prop
  | .timedOut _ t prev => prev = .running → p.phase t ≠ .leaving
  | _ => True

/-- A reap takes up an elastic slot that no other reap is at. -/
def Keeps (s : Sys) : Op → Prop
  | .turn i c => ∀ r ∈ top s.ops i, HandsBack s.toPool r.1 ∧
      ∀ k ∈ reaps s.max s.toPool c r.1,
        valuesAt (.elastic k) (claims (s.ops.set i r.2).flatten) = []
  | _ => True

instance (p : Pool) (f : Frame) : Decidable (HandsBack p f) := by
  unfold HandsBack
  split <;> infer_instance

instance (s : Sys) (op : Op) : Decidable (Keeps s op) := by
  unfold Keeps
  split <;> infer_instance

end Statement

section Slots

def held : Key → WState
  | .elastic _ => .retiring
  | .persist _ => .joining

def Gone (p : Pool) (t : ℕ) : Prop := p.phase t = .exited ∧ p.joined t = 1

inductive SlotOk (p : Pool) (k : Key) : List Claim → Prop
  | free (state : (p.slot k).wstate = .unused)
      (gone : ∀ t, (p.slot k).thread = some t → Gone p t) : SlotOk p k []
  | live {t : ℕ} (state : (p.slot k).wstate = .running) (thread : (p.slot k).thread = some t)
      (phase : p.phase t = .running) (unjoined : p.joined t = 0) : SlotOk p k []
  | retiring {t : ℕ} (state : (p.slot k).wstate = .retiring)
      (thread : (p.slot k).thread = some t) (phase : p.phase t ≠ .running)
      (unjoined : p.joined t = 0) : SlotOk p k []
  | reaped {t : ℕ} {c : Claim} (state : (p.slot k).wstate = held k)
      (thread : (p.slot k).thread = some t) (phase : p.phase t ≠ .running)
      (unjoined : p.joined t = 0) (due : c = .toJoin ∨ c = .waiting t) : SlotOk p k [c]
  | joined {t : ℕ} (state : (p.slot k).wstate = held k) (thread : (p.slot k).thread = some t)
      (gone : Gone p t) : SlotOk p k [.joined]
  | timed {t : ℕ} {prev : WState} (persist : k.isElastic = false)
      (state : (p.slot k).wstate = .joining) (thread : (p.slot k).thread = some t)
      (unjoined : p.joined t = 0)
      (before : prev = .running ∨ prev = .retiring ∧ p.phase t ≠ .running) :
      SlotOk p k [.timed t prev]

variable {p p' : Pool} {k : Key} {t : ℕ} {c : Claim} {l : List Claim}

theorem SlotOk.sole (ok : SlotOk p k (c :: l)) : l = [] := by
  cases ok <;> rfl

theorem SlotOk.keep (ok : SlotOk p k l) (slot : p'.slot k = p.slot k)
    (threads : ∀ u, (p.slot k).thread = some u →
      p'.phase u = p.phase u ∧ p'.joined u = p.joined u) : SlotOk p' k l := by
  cases ok with
  | free state gone =>
    refine .free (by rw [slot, state]) fun u named => ?_
    rw [slot] at named
    rw [Gone, (threads u named).1, (threads u named).2]
    exact gone u named
  | live state thread phase unjoined =>
    obtain ⟨samePhase, sameJoined⟩ := threads _ thread
    exact .live (by rw [slot, state]) (by rw [slot, thread]) (by rw [samePhase, phase])
      (by rw [sameJoined, unjoined])
  | retiring state thread phase unjoined =>
    obtain ⟨samePhase, sameJoined⟩ := threads _ thread
    exact .retiring (by rw [slot, state]) (by rw [slot, thread]) (by rwa [samePhase])
      (by rw [sameJoined, unjoined])
  | reaped state thread phase unjoined due =>
    obtain ⟨samePhase, sameJoined⟩ := threads _ thread
    exact .reaped (by rw [slot, state]) (by rw [slot, thread]) (by rwa [samePhase])
      (by rw [sameJoined, unjoined]) due
  | joined state thread gone =>
    obtain ⟨samePhase, sameJoined⟩ := threads _ thread
    refine .joined (by rw [slot, state]) (by rw [slot, thread]) ?_
    rwa [Gone, samePhase, sameJoined]
  | timed persist state thread unjoined before =>
    obtain ⟨samePhase, sameJoined⟩ := threads _ thread
    exact .timed persist (by rw [slot, state]) (by rw [slot, thread])
      (by rw [sameJoined, unjoined]) (by rwa [samePhase])

theorem SlotOk.named (ok : SlotOk p k l) (named : (p.slot k).thread = some t) :
    p.joined t ≤ 1 ∧ (p.phase t ≠ .exited → (p.slot k).wstate ≠ .unused) := by
  cases ok with
  | free state gone =>
    obtain ⟨phase, joined⟩ := gone t named
    exact ⟨joined.le, fun running => absurd phase running⟩
  | live state thread phase unjoined | retiring state thread phase unjoined
  | timed persist state thread unjoined before =>
    cases thread.symm.trans named
    exact ⟨by omega, fun _ => by simp [state]⟩
  | reaped state thread phase unjoined due =>
    cases thread.symm.trans named
    refine ⟨by omega, fun _ => ?_⟩
    cases k <;> simp [state, held]
  | joined state thread gone =>
    cases thread.symm.trans named
    exact ⟨gone.2.le, fun running => absurd gone.1 running⟩

theorem SlotOk.running (ok : SlotOk p k l) (named : (p.slot k).thread = some t)
    (running : p.phase t = .running) :
    p.joined t = 0 ∧ (l = [] ∧ (p.slot k).wstate = .running ∨
      k.isElastic = false ∧ (p.slot k).wstate = .joining ∧ l = [.timed t .running]) := by
  cases ok with
  | free _ gone => simp [(gone t named).1] at running
  | live state thread _ unjoined =>
    cases thread.symm.trans named
    exact ⟨unjoined, .inl ⟨rfl, state⟩⟩
  | retiring _ thread idle _ | reaped _ thread idle _ _ =>
    cases thread.symm.trans named
    exact absurd running idle
  | joined _ thread gone =>
    cases thread.symm.trans named
    simp [gone.1] at running
  | timed persist state thread unjoined before =>
    cases thread.symm.trans named
    obtain rfl | ⟨-, idle⟩ := before
    · exact ⟨unjoined, .inr ⟨persist, state, rfl⟩⟩
    · exact absurd running idle

end Slots

section Invariant

def InRange (max : ℕ) : Key → Prop
  | .elastic i => i ∈ Finset.Icc 1 max
  | .persist i => i < poolMaxPersist

structure Inv (max : ℕ) (p : Pool) (cl : List (Key × Claim)) : Prop where
  slots : ∀ k, SlotOk p k (valuesAt k cl)
  homes : ∀ k t, (p.slot k).thread = some t → p.home t = k ∧ t < p.next
  past : ∀ t < p.next, (p.slot (p.home t)).thread = some t ∨ Gone p t
  unborn : ∀ t, p.next ≤ t → p.joined t = 0
  size : p.poolSize = ((Finset.Icc 1 max).filter fun i => liveAt p (.elastic i)).card
  within : ∀ k t, (p.slot k).thread = some t → InRange max k

variable {max : ℕ} {p p' : Pool} {cl cl' : List (Key × Claim)} {k : Key} {t : ℕ}

theorem Inv.perm (inv : Inv max p cl) (perm : cl.Perm cl') : Inv max p cl' where
  __ := inv
  slots := by
    intro k
    have ok := inv.slots k
    have same := valuesAt_perm k perm
    -- a list of at most one claim has no other arrangement
    cases here : valuesAt k cl with
    | nil =>
      rw [here] at ok same
      rwa [← same.nil_eq]
    | cons c l =>
      rw [here] at ok same
      obtain rfl := ok.sole
      rwa [perm_singleton.mp same.symm]

def weight (p : Pool) (k : Key) : ℕ := if (k.isElastic && liveAt p k) = true then 1 else 0

theorem card_live :
    ((Finset.Icc 1 max).filter fun i => liveAt p (.elastic i)).card =
      ∑ i ∈ Finset.Icc 1 max, weight p (.elastic i) := by
  rw [Finset.card_filter]
  rfl

theorem card_change (others : ∀ j ≠ k, weight p' j = weight p j)
    (inside : InRange max k) :
    ((Finset.Icc 1 max).filter fun i => liveAt p' (.elastic i)).card + weight p k =
      ((Finset.Icc 1 max).filter fun i => liveAt p (.elastic i)).card + weight p' k := by
  rw [card_live, card_live]
  cases k with
  | persist j =>
    have same : ∀ i ∈ Finset.Icc 1 max, weight p' (.elastic i) = weight p (.elastic i) := by
      intro i _
      apply others
      exact Key.noConfusion
    rw [Finset.sum_congr rfl same]
    rfl
  | elastic j =>
    have mem : j ∈ Finset.Icc 1 max := inside
    have same : ∀ i ∈ (Finset.Icc 1 max).erase j,
        weight p' (.elastic i) = weight p (.elastic i) := by
      intro i other
      apply others
      intro eq
      exact Finset.ne_of_mem_erase other (Key.elastic.inj eq)
    rw [← Finset.add_sum_erase _ _ mem, ← Finset.add_sum_erase _ _ mem,
      Finset.sum_congr rfl same]
    omega

structure Change (k : Key) (t : ℕ) (p p' : Pool) : Prop where
  slots : ∀ j ≠ k, p'.slot j = p.slot j
  thread : (p'.slot k).thread = (p.slot k).thread
  threads : ∀ u ≠ t, p'.phase u = p.phase u ∧ p'.joined u = p.joined u
  home : p'.home = p.home
  next : p'.next = p.next

theorem weight_eq (slot : p'.slot k = p.slot k)
    (threads : ∀ u, (p.slot k).thread = some u → p'.phase u = p.phase u) :
    weight p' k = weight p k := by
  have same : liveAt p' k = liveAt p k := by
    unfold liveAt
    rw [slot]
    cases named : (p.slot k).thread with
    | none => rfl
    | some u => rw [Option.any_some, Option.any_some, threads u named]
  rw [weight, same, weight]

theorem Inv.change (inv : Inv max p cl) (change : Change k t p p')
    (named : (p.slot k).thread = some t) (claimed : ∀ j ≠ k, valuesAt j cl' = valuesAt j cl)
    (ok : SlotOk p' k (valuesAt k cl'))
    (size : p'.poolSize + weight p k = p.poolSize + weight p' k) : Inv max p' cl' := by
  -- a thread that another slot names is not the one that changes
  have apart : ∀ j ≠ k, ∀ u, (p.slot j).thread = some u → u ≠ t := by
    rintro j other u namedThere rfl
    exact other ((inv.homes j u namedThere).1.symm.trans (inv.homes k u named).1)
  have threadOf : ∀ j, (p'.slot j).thread = (p.slot j).thread := by
    intro j
    by_cases here : j = k
    · rw [here, change.thread]
    · rw [change.slots j here]
  refine ⟨fun j => ?_, fun j u => ?_, fun u born => ?_, fun u later => ?_, ?_, fun j u => ?_⟩
  · by_cases here : j = k
    · exact here ▸ ok
    · rw [claimed j here]
      exact (inv.slots j).keep (change.slots j here) fun u namedThere =>
        change.threads u (apart j here u namedThere)
  · rw [threadOf, change.home, change.next]
    exact inv.homes j u
  · rw [change.home, threadOf]
    rw [change.next] at born
    by_cases here : u = t
    · left
      rw [here, (inv.homes k t named).1, named]
    · rw [Gone, (change.threads u here).1, (change.threads u here).2]
      exact inv.past u born
  · rw [change.next] at later
    have other : u ≠ t := by
      have := (inv.homes k t named).2
      omega
    rw [(change.threads u other).2]
    exact inv.unborn u later
  · have others : ∀ j ≠ k, weight p' j = weight p j := by
      intro j other
      apply weight_eq (change.slots j other)
      intro u namedThere
      exact (change.threads u (apart j other u namedThere)).1
    have counted := card_change others (inv.within k t named)
    have before := inv.size
    omega
  · rw [threadOf]
    exact inv.within j u

end Invariant

variable {w : WState} {l : List Claim} {f : Frame}

section Transitions

variable {max : ℕ} {p : Pool} {cl cl' : List (Key × Claim)} {k : Key} {t : ℕ} {c : Claim}

theorem weight_named {p' : Pool} (thread : (p'.slot k).thread = (p.slot k).thread)
    (phase : p'.phase = p.phase) : weight p' k = weight p k := by
  rw [weight, weight, liveAt, liveAt, thread, phase]

theorem Inv.put (inv : Inv max p cl) (named : (p.slot k).thread = some t)
    (claimed : ∀ j ≠ k, valuesAt j cl' = valuesAt j cl) {task : Option ℕ}
    (ok : SlotOk (PoolModel.put p k ⟨w, (p.slot k).thread, task⟩) k (valuesAt k cl')) :
    Inv max (PoolModel.put p k ⟨w, (p.slot k).thread, task⟩) cl' := by
  have same : ((PoolModel.put p k ⟨w, (p.slot k).thread, task⟩).slot k).thread =
      (p.slot k).thread := by
    rw [put_self]
  have change : Change k t p (PoolModel.put p k ⟨w, (p.slot k).thread, task⟩) :=
    ⟨fun j other => put_of_ne other p, same, fun _ _ => ⟨rfl, rfl⟩, rfl, rfl⟩
  apply inv.change change named claimed ok
  rw [weight_named same rfl]
  rfl

theorem claimed_cons : ∀ j ≠ k, valuesAt j ((k, c) :: cl) = valuesAt j cl := by
  intro j other
  rw [valuesAt_cons, if_neg (Ne.symm other)]

theorem valuesAt_self : valuesAt k ((k, c) :: cl) = c :: valuesAt k cl := by
  rw [valuesAt_cons, if_pos rfl]

theorem Inv.claim (inv : Inv max p ((k, c) :: cl)) : SlotOk p k [c] ∧ valuesAt k cl = [] := by
  have ok := inv.slots k
  rw [valuesAt_self] at ok
  have rest := ok.sole
  rw [rest] at ok
  exact ⟨ok, rest⟩

theorem Inv.pick (inv : Inv max p cl) (retiring : (p.slot k).wstate = .retiring)
    (unclaimed : valuesAt k cl = []) : Inv max (setState p k (held k)) ((k, .toJoin) :: cl) := by
  have ok := inv.slots k
  rw [unclaimed] at ok
  cases ok with
  | free state _ | live state _ _ _ => simp [state] at retiring
  | retiring state thread phase unjoined =>
    apply inv.put thread claimed_cons
    rw [valuesAt_self, unclaimed]
    exact .reaped (by rw [put_self]) (by rw [put_self, thread]) phase unjoined (.inl rfl)

theorem Inv.wait (inv : Inv max p ((k, .toJoin) :: cl)) (named : (p.slot k).thread = some t) :
    Inv max p ((k, .waiting t) :: cl) := by
  obtain ⟨ok, rest⟩ := inv.claim
  cases ok with
  | reaped state thread phase unjoined _ =>
    cases thread.symm.trans named
    apply inv.change ⟨fun _ _ => rfl, rfl, fun _ _ => ⟨rfl, rfl⟩, rfl, rfl⟩ thread
    · intro j other
      rw [claimed_cons j other, claimed_cons j other]
    · rw [valuesAt_self, rest]
      exact .reaped state thread phase unjoined (.inr rfl)
    · rfl

def Claim.joins (t : ℕ) (c : Claim) : Prop := c = .waiting t ∨ ∃ prev, c = .timed t prev

theorem SlotOk.joinable (ok : SlotOk p k [c]) (joins : Claim.joins t c) :
    (p.slot k).thread = some t ∧ (p.slot k).wstate = held k ∧ p.joined t = 0 := by
  cases ok with
  | reaped state thread phase unjoined due =>
    obtain rfl | rfl := due
    · obtain h | ⟨_, h⟩ := joins <;> cases h
    · obtain h | ⟨_, h⟩ := joins <;> cases h
      exact ⟨thread, state, unjoined⟩
  | joined _ _ _ => obtain h | ⟨_, h⟩ := joins <;> cases h
  | timed persist state thread unjoined before =>
    obtain h | ⟨_, h⟩ := joins <;> cases h
    refine ⟨thread, ?_, unjoined⟩
    cases k with
    | elastic i => cases persist
    | persist i => exact state

theorem Inv.join (inv : Inv max p ((k, c) :: cl)) (joins : Claim.joins t c)
    (exited : p.phase t = .exited) : Inv max (PoolModel.join p t) ((k, .joined) :: cl) := by
  obtain ⟨ok, rest⟩ := inv.claim
  obtain ⟨thread, state, unjoined⟩ := ok.joinable joins
  have change : Change k t p (PoolModel.join p t) :=
    ⟨fun _ _ => rfl, rfl, fun u other => ⟨rfl, Function.update_of_ne other ..⟩, rfl, rfl⟩
  apply inv.change change thread
  · intro j other
    rw [claimed_cons j other, claimed_cons j other]
  · rw [valuesAt_self, rest]
    have once : (PoolModel.join p t).joined t = p.joined t + 1 := Function.update_self ..
    exact .joined state thread ⟨exited, by rw [once, unjoined]⟩
  · rfl

theorem Inv.store (inv : Inv max p ((k, .joined) :: cl)) (task : Option ℕ) :
    Inv max (PoolModel.put p k ⟨.unused, (p.slot k).thread, task⟩) cl := by
  obtain ⟨ok, rest⟩ := inv.claim
  cases ok with
  | reaped _ _ _ _ due => obtain h | h := due <;> cases h
  | joined state thread gone =>
    apply inv.put thread fun j other => (claimed_cons j other).symm
    rw [rest]
    apply SlotOk.free
    · rw [put_self]
    · intro u named
      rw [put_self, thread] at named
      cases named
      exact gone

variable {i lo : ℕ}

theorem Inv.restore {prev : WState} (inv : Inv max p ((k, .timed t prev) :: cl))
    (still : p.phase t ≠ .exited) (fits : prev = .running → p.phase t ≠ .leaving) :
    Inv max (setState p k prev) cl := by
  obtain ⟨ok, rest⟩ := inv.claim
  cases ok with
  | reaped _ _ _ _ due => obtain h | h := due <;> cases h
  | timed _ state thread unjoined before =>
    apply inv.put thread fun j other => (claimed_cons j other).symm
    rw [rest]
    obtain rfl | ⟨rfl, phase⟩ := before
    · have running : p.phase t = .running := by
        cases here : p.phase t with
        | running => rfl
        | leaving => exact absurd here (fits rfl)
        | exited => exact absurd here still
      exact .live (by rw [put_self]) (by rw [put_self, thread]) running unjoined
    · exact .retiring (by rw [put_self]) (by rw [put_self, thread]) phase unjoined

theorem setPhase_change {ph : Phase} : Change k t p (setPhase p t ph) :=
  ⟨fun _ _ => rfl, rfl, fun _ other => ⟨Function.update_of_ne other .., rfl⟩, rfl, rfl⟩

theorem slotOfThread_some (found : slotOfThread p t = some i) :
    (p.slot (.persist i)).wstate = .running ∧ (p.slot (.persist i)).thread = some t := by
  have holds := find?_some found
  exact of_decide_eq_true holds

theorem mem_persistFrom (mem : i ∈ persistFrom lo) : i < poolMaxPersist := by
  rw [persistFrom, mem_range'_1] at mem
  omega

theorem slotOfThread_none (missed : slotOfThread p t = none) (inside : i < poolMaxPersist)
    (named : (p.slot (.persist i)).thread = some t) : (p.slot (.persist i)).wstate ≠ .running := by
  intro running
  have mem : i ∈ persistFrom 0 := by
    rw [persistFrom, mem_range'_1]
    omega
  have fails := find?_eq_none.mp missed i mem
  simp [running, named] at fails

theorem SlotOk.unused (ok : SlotOk p k l) (unused : (p.slot k).wstate = .unused) :
    l = [] ∧ ∀ u, (p.slot k).thread = some u → Gone p u := by
  cases ok with
  | free _ gone => exact ⟨rfl, gone⟩
  | live state _ _ _ | retiring state _ _ _ | timed _ state _ _ _ => simp [state] at unused
  | reaped state _ _ _ _ | joined state _ _ => cases k <;> simp [state, held] at unused

variable (inv : Inv max p cl)
include inv

theorem Inv.park (named : (p.slot (.persist i)).thread = some t)
    (found : (p.slot (.persist i)).wstate = .running ∨ (p.slot (.persist i)).wstate = .retiring) :
    Inv max (setState p (.persist i) .joining)
      ((.persist i, .timed t (p.slot (.persist i)).wstate) :: cl) := by
  apply inv.put named claimed_cons
  have ok := inv.slots (.persist i)
  rw [valuesAt_self]
  generalize valuesAt (.persist i) cl = here at ok
  cases ok with
  | free state _ | timed _ state _ _ _ => simp [state] at found
  | live state thread phase unjoined =>
    cases thread.symm.trans named
    exact .timed rfl (by rw [put_self]) (by rw [put_self, thread]) unjoined (.inl state)
  | retiring state thread phase unjoined =>
    cases thread.symm.trans named
    exact .timed rfl (by rw [put_self]) (by rw [put_self, thread]) unjoined (.inr ⟨state, phase⟩)
  | reaped state _ _ _ _ | joined state _ _ => simp [state, held] at found

variable (born : t < p.next)
include born

theorem Inv.present (still : p.phase t ≠ .exited) :
    (p.slot (p.home t)).thread = some t := by
  obtain named | gone := inv.past t born
  · exact named
  · exact absurd gone.1 still

theorem Inv.exited (leaving : p.phase t = .leaving) :
    Inv max (setPhase p t .exited) cl := by
  have thread := inv.present born (by simp [leaving])
  have phase : (setPhase p t .exited).phase t = .exited := Function.update_self ..
  apply inv.change setPhase_change thread fun _ _ => rfl
  · have ok := inv.slots (p.home t)
    generalize valuesAt (p.home t) cl = here at ok
    cases ok with
    | free _ gone => simp [(gone t thread).1] at leaving
    | live _ named running _ =>
      cases named.symm.trans thread
      simp [running] at leaving
    | retiring state named _ unjoined =>
      cases named.symm.trans thread
      exact .retiring state thread (by simp [phase]) unjoined
    | reaped state named _ unjoined due =>
      cases named.symm.trans thread
      exact .reaped state thread (by simp [phase]) unjoined due
    | joined _ named gone =>
      cases named.symm.trans thread
      simp [gone.1] at leaving
    | timed persist state named unjoined before =>
      cases named.symm.trans thread
      refine .timed persist state thread unjoined ?_
      exact before.imp_right fun found => ⟨found.1, by simp [phase]⟩
  · have before : liveAt p (p.home t) = false := by simp [liveAt, thread, leaving]
    have after : liveAt (setPhase p t .exited) (p.home t) = false := by
      rw [liveAt, show ((setPhase p t .exited).slot (p.home t)).thread = some t from thread]
      simp [phase]
    rw [weight, weight, before, after]
    rfl

theorem Inv.workerExit (running : p.phase t = .running)
    (elastic : (p.home t).isElastic = true) : Inv max (PoolModel.workerExit p t) cl := by
  have thread := inv.present born (by simp [running])
  have slot : (PoolModel.workerExit p t).slot (p.home t) =
      { p.slot (p.home t) with wstate := .retiring } :=
    Function.update_self ..
  have phase : (PoolModel.workerExit p t).phase t = .leaving := Function.update_self ..
  have change : Change (p.home t) t p (PoolModel.workerExit p t) :=
    ⟨fun _ other => Function.update_of_ne other .., by rw [slot],
      fun _ other => ⟨Function.update_of_ne other .., rfl⟩, rfl, rfl⟩
  have lives : liveAt p (p.home t) = true := by simp [liveAt, thread, running]
  have left : liveAt (PoolModel.workerExit p t) (p.home t) = false := by
    simp [liveAt, slot, thread, phase]
  apply inv.change change thread fun _ _ => rfl
  · obtain ⟨unjoined, ⟨unclaimed, -⟩ | ⟨persist, -⟩⟩ := (inv.slots _).running thread running
    · rw [unclaimed]
      exact .retiring (by rw [slot]) (by rw [slot, thread]) (by simp [phase]) unjoined
    · simp [elastic] at persist
  · have counted : 0 < p.poolSize := by
      have inside := inv.within _ t thread
      rw [inv.size, Finset.card_pos]
      cases home : p.home t with
      | elastic i =>
        rw [home] at inside lives
        exact ⟨i, Finset.mem_filter.mpr ⟨inside, lives⟩⟩
      | persist i => simp [home, Key.isElastic] at elastic
    have less : (PoolModel.workerExit p t).poolSize = p.poolSize - 1 := rfl
    rw [weight, weight, elastic, lives, left, less]
    simp only [Bool.and_self, Bool.and_false, if_true, Bool.false_eq_true, if_false]
    omega

theorem Inv.retireSelf (running : p.phase t = .running)
    (persist : (p.home t).isElastic = false) : Inv max (PoolModel.retireSelf p t) cl := by
  have thread := inv.present born (by simp [running])
  obtain ⟨unjoined, found⟩ := (inv.slots _).running thread running
  -- no elastic slot is concerned, so the count stays
  have weightless : ∀ q, weight q (p.home t) = 0 := fun q => by simp [weight, persist]
  unfold PoolModel.retireSelf
  split
  next i hit =>
    obtain ⟨state, named⟩ := slotOfThread_some hit
    have home := (inv.homes _ _ named).1
    have slot : (setPhase (setState p (.persist i) .retiring) t .leaving).slot (.persist i) =
        { p.slot (.persist i) with wstate := .retiring } :=
      Function.update_self ..
    have change : Change (.persist i) t p
        (setPhase (setState p (.persist i) .retiring) t .leaving) :=
      ⟨fun _ other => Function.update_of_ne other .., by rw [slot],
        fun _ other => ⟨Function.update_of_ne other .., rfl⟩, rfl, rfl⟩
    have phase : (setPhase (setState p (.persist i) .retiring) t .leaving).phase t = .leaving :=
      Function.update_self ..
    rw [home] at found weightless
    apply inv.change change named fun _ _ => rfl
    · obtain ⟨unclaimed, -⟩ | ⟨-, joining, -⟩ := found
      · rw [unclaimed]
        exact .retiring (by rw [slot]) (by rw [slot, named]) (by simp [phase]) unjoined
      · simp [state] at joining
    · rfl
  next missed =>
    have phase : (setPhase p t .leaving).phase t = .leaving := Function.update_self ..
    apply inv.change setPhase_change thread fun _ _ => rfl
    · obtain ⟨-, state⟩ | ⟨-, state, claimed⟩ := found
      · have inside := inv.within _ t thread
        cases home : p.home t with
        | elastic i => simp [home, Key.isElastic] at persist
        | persist i =>
          rw [home] at state inside thread
          exact absurd state (slotOfThread_none missed inside thread)
      · rw [claimed]
        exact .timed persist state thread unjoined (.inl rfl)
    · rw [weightless, weightless]
      rfl

omit born

theorem Inv.create (unused : (p.slot k).wstate = .unused) (inside : InRange max k)
    (task : Option ℕ) : Inv max { PoolModel.create p k task with
      poolSize := p.poolSize + if k.isElastic = true then 1 else 0 } cl := by
  obtain ⟨unclaimed, gone⟩ := (inv.slots k).unused unused
  generalize made : ({ PoolModel.create p k task with
    poolSize := p.poolSize + if k.isElastic = true then 1 else 0 } : Pool) = p'
  have slot : p'.slot k = ⟨.running, some p.next, task⟩ := made ▸ Function.update_self ..
  have others : ∀ j ≠ k, p'.slot j = p.slot j := made ▸ fun j other =>
    Function.update_of_ne other ..
  have fresh : p'.phase p.next = .running := made ▸ Function.update_self ..
  have phases : ∀ u ≠ p.next, p'.phase u = p.phase u := made ▸ fun u other =>
    Function.update_of_ne other ..
  have home : p'.home p.next = k := made ▸ Function.update_self ..
  have homes : ∀ u ≠ p.next, p'.home u = p.home u := made ▸ fun u other =>
    Function.update_of_ne other ..
  have joined : p'.joined = p.joined := made ▸ rfl
  have next : p'.next = p.next + 1 := made ▸ rfl
  have more : p'.poolSize = p.poolSize + if k.isElastic = true then 1 else 0 := made ▸ rfl
  -- a thread that a slot names was there before
  have older : ∀ j u, (p.slot j).thread = some u → u ≠ p.next := by
    rintro j u named rfl
    exact absurd (inv.homes j _ named).2 (Nat.lt_irrefl _)
  refine ⟨fun j => ?_, fun j u named => ?_, fun u born => ?_, fun u later => ?_, ?_,
    fun j u named => ?_⟩
  · by_cases here : j = k
    · subst here
      rw [unclaimed]
      exact .live (by rw [slot]) (by rw [slot]) fresh (by rw [joined, inv.unborn _ le_rfl])
    · apply (inv.slots j).keep (others j here)
      intro u named
      exact ⟨phases u (older j u named), by rw [joined]⟩
  · by_cases here : j = k
    · subst here
      rw [slot] at named
      cases named
      exact ⟨home, by omega⟩
    · rw [others j here] at named
      obtain ⟨there, born⟩ := inv.homes j u named
      exact ⟨by rw [homes u (older j u named), there], by omega⟩
  · by_cases new : u = p.next
    · left
      rw [new, home, slot]
    · rw [homes u new, Gone, phases u new, joined]
      have known := inv.past u (by omega)
      by_cases here : p.home u = k
      · rw [here] at known
        exact .inr (known.elim (gone u) id)
      · rw [others _ here]
        exact known
  · rw [joined]
    exact inv.unborn u (by omega)
  · have same : ∀ j ≠ k, weight p' j = weight p j := by
      intro j other
      apply weight_eq (others j other)
      intro u named
      exact phases u (older j u named)
    have before : weight p k = 0 := by
      have idle : liveAt p k = false := by
        rw [liveAt]
        cases named : (p.slot k).thread with
        | none => rfl
        | some u => simp [(gone u named).1]
      simp [weight, idle]
    have after : weight p' k = if k.isElastic = true then 1 else 0 := by
      have lives : liveAt p' k = true := by simp [liveAt, slot, fresh]
      rw [weight, lives, Bool.and_true]
    have counted := card_change same inside
    have size := inv.size
    omega
  · by_cases here : j = k
    · exact here ▸ inside
    · rw [others j here] at named
      exact inv.within j u named

end Transitions

section Run

variable {max : ℕ} {p : Pool} {k : Key} {t : ℕ}

theorem firstSlot_some {array : ℕ → Key} {indices : List ℕ}
    (found : firstSlot p array w indices = some i) :
    i ∈ indices ∧ (p.slot (array i)).wstate = w := by
  have holds := find?_some found
  exact ⟨mem_of_find?_eq_some found, of_decide_eq_true holds⟩

theorem firstSlot_past :
    firstSlot (setState p (.elastic i) v) .elastic w (elasticFrom max (i + 1)) =
      firstSlot p .elastic w (elasticFrom max (i + 1)) := by
  apply find?_congr
  intro j mem
  rw [elasticFrom, mem_range'_1] at mem
  have other : Key.elastic j ≠ .elastic i := by
    intro eq
    have := Key.elastic.inj eq
    omega
  rw [setState, put_of_ne other]

theorem setState_self : setState p k (p.slot k).wstate = p := by
  exact congrArg (fun slot => { p with slot := slot }) (Function.update_eq_self k p.slot)

variable {others : List Frame} {c : Choice}

theorem Inv.spawnFrom (inv : Inv max p (claims others))
    (alone : ∀ i ∈ firstSlot p .elastic .retiring (elasticFrom max lo),
      valuesAt (.elastic i) (claims others) = []) :
    Inv max (PoolModel.spawnFrom p c max lo).1
      (claims ((PoolModel.spawnFrom p c max lo).2 ++ others)) := by
  unfold PoolModel.spawnFrom
  split
  next i found =>
    have retiring := (firstSlot_some found).2
    have picked := inv.pick retiring (alone i found)
    rw [held, ← retiring, setState_self] at picked
    exact picked
  next =>
    split
    next => exact inv
    next i found =>
      obtain ⟨mem, unused⟩ := firstSlot_some found
      have inside : InRange max (.elastic i) := by
        rw [elasticFrom, mem_range'_1] at mem
        exact Finset.mem_Icc.mpr (by omega)
      split
      · exact inv.create unused inside none
      · exact inv

theorem Inv.spawnPersistFrom {task : ℕ} (inv : Inv max p (claims others)) :
    Inv max (PoolModel.spawnPersistFrom p c task lo).1
      (claims ((PoolModel.spawnPersistFrom p c task lo).2 ++ others)) := by
  unfold PoolModel.spawnPersistFrom
  split
  next i found =>
    have retiring := (firstSlot_some found).2
    have unclaimed : valuesAt (.persist i) (claims others) = [] := by
      have ok := inv.slots (.persist i)
      generalize valuesAt (Key.persist i) (claims others) = here at ok
      cases ok with
      | free _ _ | live _ _ _ _ | retiring _ _ _ _ => rfl
      | reaped joining _ _ _ _ | joined joining _ _ => simp [retiring, held] at joining
      | timed _ joining _ _ _ => simp [retiring] at joining
    exact inv.pick retiring unclaimed
  next =>
    split
    next => exact inv
    next i found =>
      obtain ⟨mem, unused⟩ := firstSlot_some found
      split
      · exact inv.create unused (mem_persistFrom mem) (some task)
      · exact inv

theorem Inv.act {r : Pool × List Frame}
    (inv : Inv max p (claims (f :: others))) (back : HandsBack p f)
    (alone : ∀ i ∈ reaps max p c f, valuesAt (.elastic i) (claims others) = [])
    (moved : act max p c f = some r) : Inv max r.1 (claims (r.2 ++ others)) := by
  cases f with
  | checkSpare =>
    cases moved
    rw [reaps] at alone
    split
    next wanted =>
      rw [if_pos wanted] at alone
      exact Inv.spawnFrom inv alone
    next => exact inv
  | spawnWorker =>
    cases moved
    exact Inv.spawnFrom inv alone
  | join i | joinRetired i task =>
    obtain ⟨t, named, rfl⟩ := Option.map_eq_some_iff.mp moved
    exact Inv.wait inv named
  | wait i t | waitRetired i t task =>
    obtain ⟨exited, rfl⟩ := fired moved
    exact Inv.join inv (.inl rfl) exited
  | reaped i =>
    cases moved
    have stored : Inv max (setState p (.elastic i) .unused) (claims others) :=
      Inv.store inv _
    apply Inv.spawnFrom stored
    rw [firstSlot_past]
    exact alone
  | spawnPersist task =>
    cases moved
    exact Inv.spawnPersistFrom inv
  | reapedPersist i task =>
    cases moved
    have stored : Inv max (vacate p (.persist i)) (claims others) := Inv.store inv none
    exact Inv.spawnPersistFrom stored
  | joinPersist task =>
    rw [act] at moved
    split at moved
    next =>
      cases moved
      exact inv
    next i found =>
      obtain ⟨t, named, rfl⟩ := Option.map_eq_some_iff.mp moved
      have holds := find?_some found
      exact Inv.park inv named (of_decide_eq_true holds).2
  | timedJoin i t prev =>
    rw [act] at moved
    split at moved
    next =>
      cases moved
      exact inv
    next =>
      obtain ⟨exited, rfl⟩ := fired moved
      exact Inv.join inv (.inr ⟨prev, rfl⟩) exited
  | timedOut i t prev =>
    cases moved
    split
    next exited =>
      have joined := Inv.join inv (.inr ⟨prev, rfl⟩) exited
      exact joined.store none
    next still => exact Inv.restore inv still back
  | joinedPersist i =>
    cases moved
    exact Inv.store inv none

def Sound (s : Sys) : Prop := Inv s.max s.toPool (claims s.ops.flatten)

theorem sound_start : Sound (start max) where
  slots := fun _ => .free rfl nofun
  homes := nofun
  past := nofun
  unborn := fun _ _ => rfl
  size := by simp [liveAt, start, initial]
  within := nofun

theorem Sound.begin (sound : Sound s) (unclaimed : Frame.claim f = none) :
    Sound (PoolModel.begin s f) := by
  have same : claims (s.ops ++ [[f]]).flatten = claims s.ops.flatten := by
    rw [flatten_spawn, claims, filterMap_append, filterMap_cons_none unclaimed,
      filterMap_nil, append_nil]
    rfl
  unfold Sound PoolModel.begin
  rw [same]
  exact sound

theorem Sound.step {t : Sys} {op : Op} (sound : Sound s) (keeps : Keeps s op)
    (moved : PoolModel.step s op = some t) : Sound t := by
  cases op with
  | checkSpare | spawnWorker | spawnPersist task | joinPersist task =>
    cases moved
    exact sound.begin rfl
  | workerExit u =>
    obtain ⟨⟨born, running, elastic⟩, rfl⟩ := fired moved
    exact Inv.workerExit sound born running elastic
  | retireSelf u =>
    obtain ⟨⟨born, running, persist⟩, rfl⟩ := fired moved
    exact Inv.retireSelf sound born running persist
  | exited u =>
    obtain ⟨⟨born, leaving⟩, rfl⟩ := fired moved
    exact Inv.exited sound born leaving
  | turn i c =>
    rw [PoolModel.step] at moved
    split at moved
    next => cases moved
    next f rest found =>
      obtain ⟨r, acted, rfl⟩ := Option.map_eq_some_iff.mp moved
      obtain ⟨back, alone⟩ := keeps (f, rest) found
      obtain ⟨before, after⟩ := turn_perm found
      have inv := Inv.perm sound (before.filterMap Frame.claim)
      have next := inv.act back alone acted
      exact next.perm ((after r.2).symm.filterMap Frame.claim)

theorem SlotOk.reclaimed (ok : SlotOk p k l) (unclaimed : l = [])
    (named : (p.slot k).thread = some t) (exited : p.phase t = .exited) :
    (p.slot k).wstate = .retiring ∨ (p.slot k).wstate = .unused := by
  cases ok with
  | free state _ => exact .inr state
  | live _ thread running _ =>
    cases thread.symm.trans named
    simp [running] at exited
  | retiring state _ _ _ => exact .inl state
  | reaped _ _ _ _ _ | joined _ _ _ | timed _ _ _ _ _ => cases unclaimed

theorem Sound.exact (sound : Sound s) : Exact s where
  once := by
    intro u
    by_cases born : u < s.next
    · obtain named | gone := sound.past u born
      · exact ((sound.slots _).named named).1
      · exact gone.2.le
    · rw [sound.unborn u (by omega)]
      exact Nat.zero_le 1
  kept := by
    intro u born still
    have named := Inv.present sound born still
    exact ⟨named, ((sound.slots _).named named).2 still⟩
  size := sound.size
  reclaimed := by
    intro idle i u named exited
    apply (sound.slots (.persist i)).reclaimed _ named exited
    rw [idle]
    rfl

theorem worker_slots_exact (max : ℕ) {labels : List Op} {s : Sys}
    (run : Run step Keeps (start max) labels s) : Exact s :=
  (run.invariant (I := Sound) Sound.step
    sound_start).exact

theorem worker_slots_exact_reused :
    ∃ s : Sys, s.next = 3 ∧ s.joined 0 = 1 ∧ s.joined 2 = 1 ∧ s.poolSize = 1 ∧
      (s.slot (.elastic 1)).thread = some 1 ∧ (s.slot (.persist 0)).wstate = .unused ∧
      Exact s := by
  have run : Run step Keeps (start 2)
      [.spawnWorker, .turn 0 calm, .workerExit 0, .checkSpare, .turn 1 calm, .turn 1 calm,
        .exited 0, .turn 1 calm, .turn 1 calm, .spawnPersist 7, .turn 2 calm, .joinPersist 7,
        .turn 3 calm, .turn 3 { calm with expired := true }, .turn 3 calm, .retireSelf 2,
        .joinPersist 7, .turn 4 calm, .exited 2, .turn 4 calm, .turn 4 calm] _ :=
    runWhen_get (by decide +kernel)
  refine ⟨_, ?_, ?_, ?_, ?_, ?_, ?_, worker_slots_exact 2 run⟩
  all_goals decide +kernel

/-- Two reaps come to the same retiring slot: its thread is joined twice, and the later of them
gives the slot away under the worker that the first has started in it. -/
theorem worker_joined_twice :
    ∃ labels s, Run step Any (start 3) labels s ∧ s.joined 2 = 2 ∧ s.phase 3 = .running ∧
      s.home 3 = .elastic 3 ∧ (s.slot (.elastic 3)).thread = some 4 ∧ ¬ Exact s := by
  refine ⟨[.spawnWorker, .turn 0 calm, .spawnWorker, .turn 1 calm, .checkSpare, .turn 2 calm,
        .workerExit 2, .exited 2, .checkSpare, .turn 3 calm, .checkSpare, .turn 4 calm,
        .turn 3 calm, .turn 4 calm, .turn 3 calm, .turn 3 calm, .turn 4 calm,
        .turn 4 calm], _,
    run_get (by decide +kernel), by decide +kernel, by decide +kernel, by decide +kernel,
    by decide +kernel, fun exact => ?_⟩
  have once := exact.once 2
  exact absurd once (by decide +kernel)

end Run

end BotManager.PoolSlots
