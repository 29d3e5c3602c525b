import BotManager.FramePool
import BotManager.StepRun
import Mathlib.Algebra.Order.Ring.Int

/-!
The duels of the attack plugin: rounds, the turns played in them, and the decay task.

The tables are kept by round. What a statement changes under `id = r` or `round_id = r` is the
pit of `r`; the lifetime scores are the list of the changes made on behalf of a round. A turn is
everything it does under `atk_turn_lock`. The decay task runs in pieces: it cancels the
afflictions of rounds that are over, reads the rows that are due, and then services row after row,
each under the lock. Usernames are numbers in the order of the database's collation.
-/

namespace BotManager.AttackModel
open FramePool StepRun

inductive RoundState
  | active
  | ended
  | abandoned
  deriving DecidableEq

structure Room where
  ns : ℕ
  method : ℕ
  channel : ℕ
  deriving DecidableEq

structure Round where
  room : Room
  state : RoundState := .active
  wave : ℤ := 1
  blows : ℤ := 0
  topCrit : ℤ := 0
  slayer : Option ℕ := none
  fallen : Option ℕ := none
  deriving DecidableEq

structure Player where
  user : ℕ
  hp : ℤ
  hpMax : ℤ
  dmgGiven : ℤ := 0
  dmgTaken : ℤ := 0
  healGiven : ℤ := 0
  healTaken : ℤ := 0
  blows : ℤ := 0
  crits : ℤ := 0
  bestCrit : ℤ := 0
  heals : ℤ := 0
  defers : ℤ := 0
  bonusPct : ℤ := 0
  lastWave : ℤ := 0
  died : Bool := false
  deriving DecidableEq

inductive Tally
  | rounds
  | kills
  | deaths
  | dmgGiven
  | dmgTaken
  | healGiven
  | healTaken
  | blows
  | crits
  | heals
  deriving DecidableEq

structure Credit where
  ns : ℕ
  user : ℕ
  tally : Tally
  amount : ℤ
  deriving DecidableEq

structure Pit where
  round : Option Round := none
  players : List Player := []
  credits : List Credit := []
  endings : ℕ := 0
  deriving DecidableEq

/-! ## Statements on one round -/

namespace Pit

def updPlayer (u : ℕ) (f : Player → Player) (p : Pit) : Pit :=
  { p with players := p.players.map fun q => if q.user = u then f q else q }

def updRound (f : Round → Round) (p : Pit) : Pit := { p with round := p.round.map f }

def credit (ns u : ℕ) (tally : Tally) (amount : ℤ) (p : Pit) : Pit :=
  { p with credits := p.credits ++ [⟨ns, u, tally, amount⟩] }

def isActive (p : Pit) : Bool :=
  match p.round with
  | some r => r.state = .active
  | none => false

def player (p : Pit) (u : ℕ) : Option Player := p.players.find? (·.user = u)

/-- The clause every turn carries: the wave turns once all living combatants have swung. -/
def turnWave (p : Pit) : Pit :=
  p.updRound fun r =>
    if p.players.all fun q => !(0 < q.hp && q.lastWave < r.wave) then
      { r with wave := r.wave + 1 } else r

/-- The end of a round by a death: a kill to the slayer, a death to each of the fallen. -/
def death (ns slayer fallen : ℕ) (dead : List ℕ) (p : Pit) : Pit :=
  let p := { p.updRound fun r =>
    { r with state := .ended, slayer := some slayer, fallen := some fallen } with
    endings := p.endings + 1 }
  dead.foldl (fun p u => p.credit ns u .deaths 1) (p.credit ns slayer .kills 1)

def abandon (p : Pit) : Pit :=
  { p.updRound fun r => { r with state := .abandoned } with endings := p.endings + 1 }

/-- `atk_db_player_enrol`, for a combatant who was not there. -/
def enrol (ns u : ℕ) (hp : ℤ) (p : Pit) : Pit :=
  if (p.player u).isSome then p else
    credit ns u .rounds 1 { p with players := p.players ++ [{ user := u, hp, hpMax := hp }] }

/-- Health lost to a number rolled, of which `dealt` was there to lose. -/
def hurt (u : ℕ) (dmg dealt : ℤ) (p : Pit) : Pit :=
  p.updPlayer u fun q =>
    { q with
      hp := max (q.hp - dmg) 0
      dmgTaken := q.dmgTaken + dealt
      died := q.died || q.hp - dmg ≤ 0 }

/-- The attacker's row: the wave is spent, and with it the deferral bonus. -/
def swing (u : ℕ) (dealt : ℤ) (crit : Bool) (dmg wave : ℤ) (p : Pit) : Pit :=
  p.updPlayer u fun q =>
    { q with
      dmgGiven := q.dmgGiven + dealt
      blows := q.blows + 1
      crits := q.crits + (if crit then 1 else 0)
      bestCrit := max q.bestCrit (if crit then dmg else 0)
      lastWave := wave
      bonusPct := 0 }

def countBlow (newTop : Bool) (dmg : ℤ) (p : Pit) : Pit :=
  p.updRound fun r => { r with blows := r.blows + 1, topCrit := if newTop then dmg else r.topCrit }

def creditSwing (ns u : ℕ) (dealt : ℤ) (crit : Bool) (p : Pit) : Pit :=
  ((p.credit ns u .dmgGiven dealt).credit ns u .blows 1).credit ns u .crits (if crit then 1 else 0)

end Pit

structure Blow where
  ns : ℕ
  src : ℕ
  tgt : ℕ
  dmg : ℤ
  dealt : ℤ
  wave : ℤ
  crit : Bool
  newTop : Bool
  fatal : Bool

def blowApply (b : Blow) (p : Pit) : Pit :=
  let p := p.swing b.src b.dealt b.crit b.dmg b.wave
  let p := p.hurt b.tgt b.dmg b.dealt
  let p := p.countBlow b.newTop b.dmg
  let p := p.creditSwing b.ns b.src b.dealt b.crit
  let p := p.credit b.ns b.tgt .dmgTaken b.dealt
  let p := p.turnWave
  if b.fatal then p.death b.ns b.src b.tgt [b.tgt] else p

def living (p : Pit) (except : ℕ) (cap : ℕ) : List Player :=
  ((p.players.filter fun q => 0 < q.hp && q.user ≠ except).mergeSort
    fun a b => a.user ≤ b.user).take cap

def atkMaxPlayers : ℕ := 32

def hpLeft (hp dmg : ℤ) : ℤ := if dmg < hp then hp - dmg else 0

def hurtAll (ns : ℕ) (dmg : ℤ) (victims : List Player) (p : Pit) : Pit :=
  victims.foldl (fun p v =>
    (p.hurt v.user dmg (v.hp - hpLeft v.hp dmg)).credit ns v.user .dmgTaken
      (v.hp - hpLeft v.hp dmg)) p

/-- A sweep that killed ends the round; the first of the fallen is the one it records. -/
def fall (ns slayer : ℕ) (fell : List ℕ) (p : Pit) : Pit :=
  match fell with
  | [] => p
  | first :: _ => p.death ns slayer first fell

/-- `atk_db_sweep_apply`: one blow, many victims. -/
def sweepApply (b : Blow) (victims : List Player) (p : Pit) : Pit :=
  let dealt := (victims.map fun v => v.hp - hpLeft v.hp b.dmg).sum
  let fell := (victims.filter fun v => hpLeft v.hp b.dmg = 0).map (·.user)
  let p := p.swing b.src dealt b.crit b.dmg b.wave
  let p := hurtAll b.ns b.dmg victims p
  let p := p.countBlow b.newTop b.dmg
  let p := p.creditSwing b.ns b.src dealt b.crit
  (fall b.ns b.src fell p).turnWave

/-- `atk_sweep_turn`: none when the blow lands as an ordinary one. -/
def sweepTurn (b : Blow) (p : Pit) : Option Pit :=
  let victims := living p b.src atkMaxPlayers
  if victims.length < 2 then none
  else if victims.all (·.user ≠ b.tgt) then none
  else some (sweepApply b victims p)

/-- `atk_db_turn_spend`: a turn that deals no instant damage. -/
def turnSpend (ns u : ℕ) (wave : ℤ) (p : Pit) : Pit :=
  let p := p.updPlayer u fun q => { q with blows := q.blows + 1, lastWave := wave, bonusPct := 0 }
  let p := p.updRound fun r => { r with blows := r.blows + 1 }
  (p.credit ns u .blows 1).turnWave

def healApply (ns src tgt : ℕ) (amt delta wave : ℤ) (p : Pit) : Pit :=
  let p := p.updPlayer tgt fun q =>
    { q with hp := min (q.hp + amt) q.hpMax, healTaken := q.healTaken + delta }
  let p := p.updPlayer src fun q =>
    { q with
      healGiven := q.healGiven + delta
      heals := q.heals + 1
      lastWave := wave
      bonusPct := 0 }
  let p := (p.credit ns src .healGiven delta).credit ns src .heals 1
  (p.credit ns tgt .healTaken delta).turnWave

def deferApply (u : ℕ) (wave bonus : ℤ) (p : Pit) : Pit :=
  (p.updPlayer u fun q =>
    { q with defers := q.defers + 1, bonusPct := bonus, lastWave := wave }).turnWave

def turnPass (u : ℕ) (wave : ℤ) (p : Pit) : Pit :=
  (p.updPlayer u fun q => { q with lastWave := wave }).turnWave

/-! ## Afflictions -/

inductive DotState
  | live
  | spent
  | cancelled
  deriving DecidableEq

structure Dot where
  id : ℕ
  round : ℕ
  ns : ℕ
  victim : ℕ
  source : ℕ
  maxTicks : ℤ
  dmgPlan : ℤ
  dmgTotal : ℤ := 0
  ticks : ℤ := 0
  state : DotState := .live
  deriving DecidableEq

structure Due where
  dot : Dot
  expired : Bool
  stale : Bool
  deriving DecidableEq

structure Db where
  pit : ℕ → Pit
  nextRound : ℕ
  dots : List Dot
  nextDot : ℕ

namespace Db

variable (db : Db)

def onPit (r : ℕ) (f : Pit → Pit) : Db :=
  { db with pit := Function.update db.pit r (f (db.pit r)) }

@[simp] theorem onPit_self (r : ℕ) (f : Pit → Pit) :
    (db.onPit r f).pit r = f (db.pit r) :=
  Function.update_self ..

def updDot (id : ℕ) (f : Dot → Dot) : Db :=
  { db with dots := db.dots.map fun d => if d.id = id then f d else d }

/-- `atk_db_dot_inflict`: the stack cap is in the statement. -/
def dotInflict (round ns victim source : ℕ) (maxTicks dmgPlan : ℤ) (stackMax : ℕ) : Db :=
  let carried := db.dots.countP fun d => d.round = round && d.victim = victim && d.state = .live
  if carried < stackMax then
    { db with
      dots := db.dots ++ [{ id := db.nextDot, round, ns, victim, source, maxTicks, dmgPlan }]
      nextDot := db.nextDot + 1 }
  else db

/-- `atk_db_round_find`: the room's one active round. -/
def roundFind (room : Room) : Option ℕ :=
  match (List.range db.nextRound).filter fun r =>
      (db.pit r).isActive && (db.pit r).round.map (·.room) = some room with
  | [r] => some r
  | _ => none

/-- `atk_db_round_open`, refused by the index on the active rounds of a room. -/
def roundOpen (room : Room) : Option (Db × ℕ) :=
  if (List.range db.nextRound).any fun r =>
      (db.pit r).isActive && (db.pit r).round.map (·.room) = some room then none
  else some ({ db with
    pit := Function.update db.pit db.nextRound { round := some { room } }
    nextRound := db.nextRound + 1 }, db.nextRound)

end Db

/-! ## Turns -/

structure Tunables where
  startHp : ℤ
  dotMaxTicks : ℤ
  dotStackMax : ℕ
  deferMax : ℤ
  deferCapPct : ℤ

structure Roll where
  idle : Bool
  dmg : ℤ
  crit : Bool
  dot : Bool
  wide : Bool

def bonused (n bonus : ℤ) : ℤ := if 0 < bonus then max 1 (n * (100 + bonus) / 100) else n

variable (db : Db)

/-- The round the attack is fought in: one gone idle is retired and a fresh one opened. -/
def enter (room : Room) (idle : Bool) : Option (Db × ℕ) :=
  match db.roundFind room with
  | none => db.roundOpen room
  | some r => if idle then (db.onPit r Pit.abandon).roundOpen room else some (db, r)

def land (room : Room) (src tgt : ℕ) (roll : Roll) (dmg hp : ℤ) (r : Round) (p : Pit) : Pit :=
  let newTop := roll.crit && r.topCrit < dmg
  let blow : Blow := ⟨room.ns, src, tgt, dmg, hp - hpLeft hp dmg, r.wave, roll.crit, newTop,
    hpLeft hp dmg = 0⟩
  match if roll.wide then sweepTurn blow p else none with
  | some p => p
  | none => blowApply blow p

def attack (t : Tunables) (room : Room) (src tgt : ℕ) (roll : Roll) : Db :=
  match enter db room roll.idle with
  | none => db
  | some (db, r) =>
    let db := db.onPit r fun p => (p.enrol room.ns src t.startHp).enrol room.ns tgt t.startHp
    match (db.pit r).round, (db.pit r).player src, (db.pit r).player tgt with
    | some round, some s, some g =>
      if round.wave ≤ s.lastWave then db
      else if g.hp ≤ 0 then db
      else
        let dmg := bonused roll.dmg s.bonusPct
        if roll.dot then
          let ticks := if dmg < t.dotMaxTicks then dmg else t.dotMaxTicks
          (db.onPit r (turnSpend room.ns src round.wave)).dotInflict r room.ns tgt src ticks
            dmg t.dotStackMax
        else db.onPit r (land room src tgt roll dmg g.hp round)
    | _, _, _ => db

/-- `atk_cmd_heal` under the lock; `mends` says whether the healer's class can. -/
def heal (room : Room) (src tgt : ℕ) (idle mends : Bool) (roll : ℤ) : Db :=
  match db.roundFind room with
  | none => db
  | some r =>
    if idle then db
    else
      match (db.pit r).round, (db.pit r).player src, (db.pit r).player tgt with
      | some round, some s, some g =>
        if !mends then db
        else if round.wave ≤ s.lastWave then db
        else if g.hp ≤ 0 then db
        else if g.hpMax ≤ g.hp then db
        else
          let amt := bonused roll s.bonusPct
          let delta := if amt < g.hpMax - g.hp then amt else g.hpMax - g.hp
          db.onPit r (healApply room.ns src tgt amt delta round.wave)
      | _, _, _ => db

def defer (t : Tunables) (room : Room) (src : ℕ) (idle : Bool) (roll : ℤ) : Db :=
  match db.roundFind room with
  | none => db
  | some r =>
    if idle then db
    else
      match (db.pit r).round, (db.pit r).player src with
      | some round, some s =>
        if s.hp ≤ 0 then db
        else if round.wave ≤ s.lastWave then db
        else if t.deferMax = 0 then db
        else if t.deferMax ≤ s.defers then db
        else
          let next := s.bonusPct + roll
          db.onPit r (deferApply src round.wave
            (if t.deferCapPct < next then t.deferCapPct else next))
      | _, _ => db

def endRound (room : Room) : Db :=
  match db.roundFind room with
  | none => db
  | some r => db.onPit r Pit.abandon

/-! ## The decay task -/

/-- `atk_db_dot_tick` on the round: what the tick takes, and the death it may be. -/
def tickPit (d : Due) (dmg dealt : ℤ) (fatal : Bool) (p : Pit) : Pit :=
  let p := p.hurt d.dot.victim dmg dealt
  let p := p.updPlayer d.dot.source fun q => { q with dmgGiven := q.dmgGiven + dealt }
  let p := p.credit d.dot.ns d.dot.victim .dmgTaken dealt
  let p := p.credit d.dot.ns d.dot.source .dmgGiven dealt
  if fatal then p.death d.dot.ns d.dot.source d.dot.victim [d.dot.victim] else p

def tickDot (dealt : ℤ) (last : Bool) (d : Dot) : Dot :=
  { d with
    ticks := d.ticks + 1
    dmgTotal := d.dmgTotal + dealt
    state := if last then .spent else .live }

def share (d : Dot) : ℤ :=
  let left := d.dmgPlan - d.dmgTotal
  let ticks := d.maxTicks - d.ticks
  max 1 (if 0 < ticks then (left + ticks - 1) / ticks else left)

inductive Frame
  | sweep
  | due
  | service (d : Due)
  | cancel (id : ℕ)
  deriving DecidableEq

structure Answer where
  rows : List (ℕ × Bool)
  room : Bool

def atkDotBatch : ℕ := 32

/-- `atk_db_dot_due`: live afflictions of active rounds. -/
def dotDue (rows : List (ℕ × Bool)) : List Due :=
  (rows.filterMap fun (id, stale) =>
    (db.dots.find? fun d => d.id = id && d.state = .live && (db.pit d.round).isActive).map fun d =>
      ⟨d, d.maxTicks ≤ d.ticks + 1, stale⟩).take atkDotBatch

def dotSweep : Db :=
  { db with dots := db.dots.map fun d =>
      if d.state = .live && !(db.pit d.round).isActive then { d with state := .cancelled } else d }

def service (room : Bool) (d : Due) : Db × List Frame :=
  if !room then (db, if d.stale then [.cancel d.dot.id] else [])
  else
    match (db.pit d.dot.round).player d.dot.victim with
    | none => (db, [.cancel d.dot.id])
    | some v =>
      if v.hp ≤ 0 then (db, [.cancel d.dot.id])
      else
        let dmg := share d.dot
        let left := hpLeft v.hp dmg
        ((db.onPit d.dot.round (tickPit d dmg (v.hp - left) (left = 0))).updDot d.dot.id
          (tickDot (v.hp - left) (d.expired || left = 0)), [])

def act (answer : Answer) : Frame → Db × List Frame
  | .sweep => (dotSweep db, [])
  | .due => (db, (dotDue db answer.rows).map .service)
  | .service d => service db answer.room d
  | .cancel id => (db.updDot id fun d => { d with state := .cancelled }, [])

structure Sys where
  db : Db
  threads : List (List Frame)

inductive Op
  | attack (t : Tunables) (room : Room) (src tgt : ℕ) (roll : Roll)
  | heal (room : Room) (src tgt : ℕ) (idle mends : Bool) (roll : ℤ)
  | defer (t : Tunables) (room : Room) (src : ℕ) (idle : Bool) (roll : ℤ)
  | pass (round user : ℕ) (wave : ℤ)
  | endRound (room : Room)
  | decay
  | turn (i : ℕ) (answer : Answer)

def step (s : Sys) : Op → Option Sys
  | .attack t room src tgt roll => some { s with db := attack s.db t room src tgt roll }
  | .heal room src tgt idle mends roll =>
    some { s with db := heal s.db room src tgt idle mends roll }
  | .defer t room src idle roll => some { s with db := defer s.db t room src idle roll }
  | .pass round user wave => some { s with db := s.db.onPit round (turnPass user wave) }
  | .endRound room => some { s with db := endRound s.db room }
  | .decay => some { s with threads := s.threads ++ [[.sweep, .due]] }
  | .turn i answer => (top s.threads i).map fun (f, rest) =>
    ⟨(act s.db answer f).1, s.threads.set i ((act s.db answer f).2 ++ rest)⟩

def empty : Sys := ⟨⟨fun _ => {}, 0, [], 0⟩, []⟩

end BotManager.AttackModel
