import BotManager.AttackModel

/-!
A round that is over keeps its ledger, as long as the decay task services a row only while the
row's round is still active.

Every turn changes the pit of a round that it finds active under the lock, or of one that it
opens. The decay task reads its rows before it takes the lock and looks again at the victim only.
-/

namespace BotManager.AttackFrozen
open AttackModel FramePool StepRun

/-! ## One round -/

def ledger (p : Pit) :
    Option (Option ℕ × Option ℕ) × List (ℕ × ℤ × Bool × ℤ × ℤ × ℤ × ℤ) × List Credit :=
  (p.round.map fun r => (r.slayer, r.fallen),
    p.players.map fun q =>
      (q.user, q.hp, q.died, q.dmgGiven, q.dmgTaken, q.healGiven, q.healTaken),
    p.credits)

def status (p : Pit) : Option RoundState × ℕ := (p.round.map (·.state), p.endings)

def Over (p : Pit) : Prop := ∃ state, (status p).1 = some state ∧ state ≠ .active

theorem isActive_iff (p : Pit) : p.isActive = true ↔ (status p).1 = some .active := by
  unfold Pit.isActive status
  cases p.round with
  | none | some r => simp

variable {p : Pit} {s t : Sys}

theorem not_over (active : p.isActive = true) : ¬Over p := by
  rintro ⟨state, same, left⟩
  rw [(isActive_iff p).mp active] at same
  exact left (Option.some.inj same).symm

section Status

variable (p : Pit)

@[simp] theorem status_updPlayer :
    status (p.updPlayer u f) = status p := rfl

@[simp] theorem status_credit :
    status (p.credit ns u tally amount) = status p := rfl

theorem status_updRound {f : Round → Round} (keeps : ∀ r, (f r).state = r.state) :
    status (p.updRound f) = status p := by
  unfold status Pit.updRound
  cases p.round with
  | none => rfl
  | some r => simp [keeps]

@[simp] theorem status_turnWave : status p.turnWave = status p := by
  refine status_updRound p fun r => ?_
  split <;> rfl

@[simp] theorem status_countBlow : status (p.countBlow newTop dmg) = status p :=
  status_updRound p fun _ => rfl

@[simp] theorem status_hurt : status (p.hurt u dmg dealt) = status p := rfl

@[simp] theorem status_swing :
    status (p.swing u dealt crit dmg wave) = status p := rfl

@[simp] theorem status_creditSwing :
    status (p.creditSwing ns u dealt crit) = status p := rfl

@[simp] theorem status_enrol : status (p.enrol ns u hp) = status p := by
  unfold Pit.enrol
  split <;> rfl

theorem status_foldl {α : Type*} (f : Pit → α → Pit) (keeps : ∀ p a, status (f p a) = status p)
    (l : List α) : status (l.foldl f p) = status p := by
  induction l generalizing p with
  | nil => rfl
  | cons a l ih => rw [List.foldl_cons, ih, keeps]

def endedAs (state : RoundState) : Option RoundState × ℕ :=
  (p.round.map fun _ => state, p.endings + 1)

theorem status_abandon : status p.abandon = endedAs p .abandoned := by
  unfold status Pit.abandon endedAs Pit.updRound
  cases p.round <;> rfl

theorem status_death (ns slayer fallen : ℕ) (dead : List ℕ) :
    status (p.death ns slayer fallen dead) = endedAs p .ended := by
  unfold Pit.death
  refine (status_foldl _ (fun p u => p.credit ns u .deaths 1) (fun _ _ => rfl) dead).trans ?_
  unfold status endedAs Pit.credit Pit.updRound
  cases p.round <;> rfl

@[simp] theorem status_hurtAll (ns : ℕ) (dmg : ℤ) :
    status (hurtAll ns dmg victims p) = status p := by
  unfold hurtAll
  refine status_foldl p _ ?_ victims
  exact fun _ _ => rfl

end Status

inductive Plays (p p' : Pit) : Prop
  | on (same : status p' = status p)
  | ends (state : RoundState) (left : state ≠ .active) (last : status p' = endedAs p state)

variable {p' : Pit} {db db' : Db} {r : ℕ} {room : Room}

theorem endedAs_congr (same : status p' = status p) : endedAs p' state = endedAs p state := by
  obtain ⟨states, endings⟩ := Prod.mk.inj same
  have rounds : p'.round.map (fun _ => state) = p.round.map fun _ => state := by
    cases here : p'.round with
    | none | some r => cases there : p.round <;> simp_all
  rw [endedAs, endedAs, rounds, endings]

theorem Plays.around {q q' : Pit} (before : status q = status p) (plays : Plays q q')
    (after : status p' = status q') : Plays p p' := by
  cases plays with
  | on here => exact .on (after.trans (here.trans before))
  | ends state left last =>
    exact .ends state left (after.trans (last.trans (endedAs_congr before)))

theorem plays_death : Plays p (p.death ns slayer fallen dead) :=
  .ends .ended (by decide) (status_death p ns slayer fallen dead)

theorem plays_fall : Plays p (fall ns slayer fell p) := by
  cases fell with
  | nil => exact .on rfl
  | cons first fell => exact plays_death

theorem plays_blow (p : Pit) : Plays p (blowApply b p) := by
  unfold blowApply
  split
  · exact plays_death.around (by simp) rfl
  · exact .on (by simp)

theorem plays_sweep : Plays p (sweepApply b victims p) :=
  plays_fall.around (by simp) (status_turnWave _)

theorem plays_sweepTurn {b : Blow} (swept : sweepTurn b p = some p') : Plays p p' := by
  revert swept
  fun_cases sweepTurn b p with
  | case3 =>
    rintro ⟨⟩
    exact plays_sweep
  | _ => nofun

theorem plays_land (src tgt : ℕ) (dmg hp : ℤ) (r : Round) :
    Plays p (land room src tgt roll dmg hp r p) := by
  unfold land
  dsimp only
  split
  next found =>
    split at found
    · exact plays_sweepTurn found
    · cases found
  next => exact plays_blow p

theorem plays_tick : Plays p (tickPit d dmg dealt fatal p) := by
  unfold tickPit
  split
  · exact plays_death.around (by simp) rfl
  · exact .on (by simp)

theorem plays_spend (wave : ℤ) : Plays p (turnSpend ns u wave p) := by
  refine .on ?_
  unfold turnSpend
  rw [status_turnWave, status_credit]
  exact status_updRound _ fun _ => rfl

theorem plays_heal : Plays p (healApply ns src tgt amt delta wave p) := by
  refine .on ?_
  unfold healApply
  simp

theorem plays_defer : Plays p (deferApply u wave bonus p) := by
  refine .on ?_
  unfold deferApply
  simp

theorem plays_abandon : Plays p p.abandon :=
  .ends .abandoned (by decide) (status_abandon p)

theorem pass_keeps (u : ℕ) (wave : ℤ) (p : Pit) :
    status (turnPass u wave p) = status p ∧ ledger (turnPass u wave p) = ledger p := by
  constructor
  · unfold turnPass
    simp
  · unfold turnPass ledger Pit.turnWave Pit.updRound Pit.updPlayer
    refine Prod.ext ?_ (Prod.ext ?_ rfl)
    · cases p.round with
      | none => rfl
      | some r =>
        simp only [Option.map_some]
        split <;> rfl
    · rw [List.map_map]
      refine List.map_congr_left fun q _ => ?_
      simp only [Function.comp_apply]
      split <;> rfl

/-! ## All rounds -/

def Frozen (s t : Sys) : Prop :=
  ∀ r, Over (s.db.pit r) →
    ledger (t.db.pit r) = ledger (s.db.pit r) ∧ status (t.db.pit r) = status (s.db.pit r)

structure Inv (db : Db) : Prop where
  blank : ∀ r, db.nextRound ≤ r → status (db.pit r) = (none, 0)
  running : ∀ r, ¬Over (db.pit r) → (db.pit r).endings = 0
  once : ∀ r, (db.pit r).endings ≤ 1

structure Keeps (db db' : Db) : Prop where
  frozen : ∀ r, Over (db.pit r) →
    ledger (db'.pit r) = ledger (db.pit r) ∧ status (db'.pit r) = status (db.pit r)
  inv : Inv db'

theorem over_congr (same : status p' = status p) : Over p' ↔ Over p := by
  rw [Over, Over, same]

theorem Keeps.trans {a b c : Db} (first : Keeps a b) (second : Keeps b c) : Keeps a c := by
  refine ⟨fun r ended => ?_, second.inv⟩
  obtain ⟨ledger₁, status₁⟩ := first.frozen r ended
  obtain ⟨ledger₂, status₂⟩ := second.frozen r ((over_congr status₁).mpr ended)
  exact ⟨ledger₂.trans ledger₁, status₂.trans status₁⟩

theorem Keeps.refl (inv : Inv db) : Keeps db db := ⟨fun _ _ => ⟨rfl, rfl⟩, inv⟩

theorem Inv.congr (inv : Inv db) (pit : db'.pit = db.pit) (next : db'.nextRound = db.nextRound) :
    Inv db' := by
  refine ⟨fun r later => ?_, fun r => ?_, fun r => ?_⟩
  · rw [pit]
    exact inv.blank r (next ▸ later)
  · rw [pit]
    exact inv.running r
  · rw [pit]
    exact inv.once r

theorem Keeps.change (inv : Inv db) (pit : db'.pit = Function.update db.pit r p')
    (next : db.nextRound ≤ db'.nextRound)
    (frozen : Over (db.pit r) → ledger p' = ledger (db.pit r) ∧ status p' = status (db.pit r))
    (blank : db'.nextRound ≤ r → status p' = (none, 0)) (running : ¬Over p' → p'.endings = 0)
    (once : p'.endings ≤ 1) : Keeps db db' := by
  have here : db'.pit r = p' := pit ▸ Function.update_self ..
  have there {r' : ℕ} (other : r' ≠ r) : db'.pit r' = db.pit r' :=
    pit ▸ Function.update_of_ne other ..
  refine ⟨fun r' ended => ?_, fun r' later => ?_, fun r' live => ?_, fun r' => ?_⟩
  all_goals by_cases same : r' = r
  · subst same
    rw [here]
    exact frozen ended
  · rw [there same]
    exact ⟨rfl, rfl⟩
  · subst same
    rw [here]
    exact blank later
  · rw [there same]
    exact inv.blank r' (next.trans later)
  · subst same
    rw [here] at live ⊢
    exact running live
  · rw [there same] at live ⊢
    exact inv.running r' live
  · rw [same, here]
    exact once
  · rw [there same]
    exact inv.once r'

theorem Keeps.play {f : Pit → Pit} (inv : Inv db) (active : (db.pit r).isActive = true)
    (plays : Plays (db.pit r) (f (db.pit r))) : Keeps db (db.onPit r f) := by
  have running : (db.pit r).endings = 0 := inv.running r (not_over active)
  have state := (isActive_iff _).mp active
  refine Keeps.change inv rfl le_rfl (fun ended => absurd ended (not_over active)) (fun later => ?_)
    (fun live => ?_) ?_
  · rw [inv.blank r later] at state
    cases state
  · cases plays with
    | on keeps => exact (congrArg Prod.snd keeps).trans running
    | ends state' left last =>
      refine absurd ⟨state', ?_, left⟩ live
      rw [last, endedAs]
      cases there : (db.pit r).round with
      | none => simp [status, there] at state
      | some round => rfl
  · cases plays with
    | on keeps => exact (congrArg Prod.snd keeps).trans_le (inv.once r)
    | ends state' left last =>
      have count := congrArg Prod.snd last
      simp only [status, endedAs, running] at count
      exact count.le

theorem Keeps.dots {mid : Db} (keeps : Keeps db mid)
    (same : db'.pit = mid.pit ∧ db'.nextRound = mid.nextRound) : Keeps db db' := by
  refine ⟨fun r ended => ?_, keeps.inv.congr same.1 same.2⟩
  rw [same.1]
  exact keeps.frozen r ended

theorem dotInflict_pit (round ns victim source : ℕ)
    (stackMax : ℕ) :
    (db.dotInflict round ns victim source maxTicks dmgPlan stackMax).pit = db.pit ∧
      (db.dotInflict round ns victim source maxTicks dmgPlan stackMax).nextRound =
        db.nextRound := by
  unfold Db.dotInflict
  dsimp only
  split
  · exact ⟨rfl, rfl⟩
  · exact ⟨rfl, rfl⟩

theorem roundFind_active (found : db.roundFind room = some r) : (db.pit r).isActive = true := by
  unfold Db.roundFind at found
  split at found
  next one =>
    cases found
    have mem := one ▸ List.mem_singleton_self _
    rw [List.mem_filter, Bool.and_eq_true] at mem
    exact mem.2.1
  next => cases found

variable (inv : Inv db)
include inv

theorem Keeps.roundOpen (opened : db.roundOpen room = some (db', r)) :
    Keeps db db' ∧ (db'.pit r).isActive = true := by
  unfold Db.roundOpen at opened
  split at opened
  · cases opened
  · cases opened
    have blank := inv.blank db.nextRound le_rfl
    constructor
    · refine Keeps.change inv rfl (Nat.le_succ _) (fun ended => ?_) (fun later => ?_)
        (fun _ => rfl) (Nat.zero_le 1)
      · obtain ⟨state, same, -⟩ := ended
        rw [blank] at same
        cases same
      · exact absurd later (Nat.not_succ_le_self _)
    · dsimp only
      rw [Function.update_self]
      rfl

theorem Keeps.enter {idle : Bool} (entered : enter db room idle = some (db', r)) :
    Keeps db db' ∧ (db'.pit r).isActive = true := by
  unfold AttackModel.enter at entered
  split at entered
  next => exact Keeps.roundOpen inv entered
  next found =>
    have active := roundFind_active found
    split at entered
    · have left := Keeps.play inv active plays_abandon
      obtain ⟨opened, fresh⟩ := Keeps.roundOpen left.inv entered
      exact ⟨left.trans opened, fresh⟩
    · cases entered
      exact ⟨Keeps.refl inv, active⟩

theorem Keeps.attack (t : Tunables) (room : Room) (src tgt : ℕ) (roll : Roll) :
    Keeps db (attack db t room src tgt roll) := by
  unfold AttackModel.attack
  split
  next => exact Keeps.refl inv
  next db' r entered =>
    obtain ⟨entered, active⟩ := Keeps.enter inv entered
    have same : status (((db'.pit r).enrol room.ns src t.startHp).enrol room.ns tgt t.startHp) =
        status (db'.pit r) := by simp
    have enrolled := entered.trans (Keeps.play entered.inv active (f := fun p =>
      (p.enrol room.ns src t.startHp).enrol room.ns tgt t.startHp) (.on same))
    have still : ((db'.onPit r fun p =>
        (p.enrol room.ns src t.startHp).enrol room.ns tgt t.startHp).pit r).isActive = true := by
      rw [isActive_iff, Db.onPit_self, same]
      exact (isActive_iff _).mp active
    dsimp only
    split
    next =>
      split
      · exact enrolled
      · split
        · exact enrolled
        · split
          · refine enrolled.trans (Keeps.dots ?_ (dotInflict_pit ..))
            exact Keeps.play enrolled.inv still (plays_spend ..)
          · exact enrolled.trans (Keeps.play enrolled.inv still (plays_land ..))
    next => exact enrolled

theorem Keeps.heal (room : Room) (src tgt : ℕ) (idle mends : Bool) (roll : ℤ) :
    Keeps db (heal db room src tgt idle mends roll) := by
  fun_cases AttackModel.heal db room src tgt idle mends roll with
  | case7 r found => exact Keeps.play inv (roundFind_active found) (plays_heal ..)
  | _ => exact Keeps.refl inv

theorem Keeps.defer (t : Tunables) (room : Room) (src : ℕ) (idle : Bool) (roll : ℤ) :
    Keeps db (defer db t room src idle roll) := by
  fun_cases AttackModel.defer db t room src idle roll with
  | case7 r found => exact Keeps.play inv (roundFind_active found) (plays_defer ..)
  | _ => exact Keeps.refl inv

theorem Keeps.endRound (room : Room) : Keeps db (endRound db room) := by
  unfold AttackModel.endRound
  split
  next => exact Keeps.refl inv
  next found => exact Keeps.play inv (roundFind_active found) plays_abandon

theorem Keeps.pass (round user : ℕ) (wave : ℤ) :
    Keeps db (db.onPit round (turnPass user wave)) := by
  obtain ⟨sameStatus, sameLedger⟩ := pass_keeps user wave (db.pit round)
  have endings := congrArg Prod.snd sameStatus
  refine Keeps.change inv rfl le_rfl (fun _ => ⟨sameLedger, sameStatus⟩) (fun later => ?_)
    (fun live => ?_) (endings.trans_le (inv.once round))
  · exact sameStatus.trans (inv.blank round later)
  · rw [over_congr sameStatus] at live
    exact endings.trans (inv.running round live)

theorem Keeps.service {room : Bool} {d : Due}
    (live : room = true → (db.pit d.dot.round).isActive = true) :
    Keeps db (service db room d).1 := by
  have refl := Keeps.refl inv
  unfold AttackModel.service
  split
  · exact refl
  next there =>
    have active := live (by simpa using there)
    split
    · exact refl
    · split
      · exact refl
      · exact (Keeps.play inv active (plays_tick ..)).dots ⟨rfl, rfl⟩

omit inv

/-- The row that a turn of the decay task services belongs to a round that is still active. -/
def fresh (s : Sys) : Op → Bool
  | .turn i answer =>
    match top s.threads i with
    | some (.service d, _) => !answer.room || (s.db.pit d.dot.round).isActive
    | _ => true
  | _ => true

theorem Keeps.turn {i : ℕ} {answer : Answer} (inv : Inv s.db)
    (live : fresh s (.turn i answer) = true) (moved : step s (.turn i answer) = some t) :
    Keeps s.db t.db := by
  obtain ⟨⟨f, rest⟩, found, rfl⟩ := Option.map_eq_some_iff.mp moved
  rw [fresh, found] at live
  cases f with
  | sweep | cancel id => exact (Keeps.refl inv).dots ⟨rfl, rfl⟩
  | due => exact Keeps.refl inv
  | service d =>
    refine Keeps.service inv fun there => ?_
    simpa [there] using live

theorem Keeps.step {op : Op} (inv : Inv s.db) (live : fresh s op = true)
    (moved : step s op = some t) : Keeps s.db t.db := by
  cases op with
  | attack u room src tgt roll =>
    cases moved
    exact Keeps.attack inv u room src tgt roll
  | heal room src tgt idle mends roll =>
    cases moved
    exact Keeps.heal inv room src tgt idle mends roll
  | defer u room src idle roll =>
    cases moved
    exact Keeps.defer inv u room src idle roll
  | pass round user wave =>
    cases moved
    exact Keeps.pass inv round user wave
  | endRound room =>
    cases moved
    exact Keeps.endRound inv room
  | decay =>
    cases moved
    exact Keeps.refl inv
  | turn i answer => exact Keeps.turn inv live moved

theorem Inv.empty : Inv empty.db := by
  refine ⟨fun _ _ => rfl, fun _ _ => rfl, fun _ => Nat.zero_le 1⟩

theorem ended_round_frozen {ops : List Op} {t : Sys}
    (run : Run step (fun s op => fresh s op = true) empty ops t) :
    Steps step Frozen empty ops ∧ ∀ r, (t.db.pit r).endings ≤ 1 := by
  constructor
  · exact run.steps (fun inv live moved =>
      ⟨(Keeps.step inv live moved).frozen, (Keeps.step inv live moved).inv⟩) Inv.empty
  · have inv : Inv t.db := run.invariant (I := fun s => Inv s.db)
      (fun inv live moved => (Keeps.step inv live moved).inv) Inv.empty
    exact inv.once

def rules : Tunables := ⟨5, 1, 3, 0, 0⟩

def arena : Room := ⟨0, 0, 0⟩

def inflicts : Roll := ⟨false, 5, false, true, false⟩

def strikes : Roll := ⟨false, 5, false, false, false⟩

def wounded : List Op :=
  [.attack rules arena 1 2 inflicts, .attack rules arena 2 1 inflicts, .decay,
    .turn 0 ⟨[], true⟩, .turn 0 ⟨[(0, false), (1, false)], true⟩]

def fought : List Op :=
  wounded ++ [.turn 0 ⟨[], true⟩, .turn 0 ⟨[], false⟩, .pass 0 1 7, .attack rules arena 1 2 strikes,
    .endRound arena]

theorem ended_round_frozen_fought : ∃ t,
    Run step (fun s op => fresh s op = true) empty fought t ∧
      ((t.db.pit 0).round.map (fun r => (r.state, r.slayer, r.fallen)) =
          some (.ended, some 1, some 2) ∧
        (t.db.pit 1).round.map (·.state) = some .ended ∧ (t.db.pit 0).endings = 1) ∧
      Steps step Frozen empty fought ∧ ∀ r, (t.db.pit r).endings ≤ 1 := by
  have run : Run step (fun s op => fresh s op = true) empty fought _ := runWhen_get (by decide)
  exact ⟨_, run, by decide, ended_round_frozen run⟩

/-- Both rows of one batch are serviced: the first ends the round with the second's death, the
second ends it again, with the slayer of the first fallen. -/
theorem second_row_ends_round_again : ∃ s t,
    Run step Any empty (wounded ++ [.turn 0 ⟨[], true⟩]) s ∧
      ((s.db.pit 0).round.map (fun r => (r.state, r.slayer, r.fallen)) =
        some (.ended, some 1, some 2) ∧ (s.db.pit 0).endings = 1) ∧
      Run step Any empty (wounded ++ [.turn 0 ⟨[], true⟩, .turn 0 ⟨[], true⟩]) t ∧
      ((t.db.pit 0).round.map (fun r => (r.state, r.slayer, r.fallen)) =
        some (.ended, some 2, some 1) ∧ (t.db.pit 0).endings = 2) :=
  ⟨_, _, run_get (by decide), by decide, run_get (by decide), by decide⟩

end BotManager.AttackFrozen
