import BotManager.StepRun
import BotManager.FirstMatch
import BotManager.MfaPattern

/-! The temporary logins of core/userns_tmfa.c: a cache in front of the table
`user_mfa_temp`. The cache tells logins apart by user, method kind and key without regard
to case, the table by user and key as they are written. Every operation takes one step,
which reads the clock, changes the cache under its lock and then issues its statements;
only a sweep gives up the lock in between, and there may be several. -/

namespace BotManager.TmfaModel
open List CText StepRun FirstMatch
open MfaPattern (usernsMfaPatternSz)

def usernsUserSz : ℕ := 31
def usernsTmfaMax : ℕ := 8
def usernsTmfaPersistSec : ℤ := 60
def usernsTmfaBotSz : ℕ := 64
def usernsTmfaKindSz : ℕ := 64

section Table

structure Row where
  userId : ℕ
  metadata : Bytes
  botName : Bytes
  methodKind : Bytes
  lastSeen : ℤ
  deriving DecidableEq

def Row.id (r : Row) : ℕ × Bytes := (r.userId, r.metadata)

structure Table where
  rows : List Row
  unique : (rows.map Row.id).Nodup

theorem nodup_upsert {rows : List Row} (nodup : (rows.map Row.id).Nodup) (row : Row) :
    ((row :: rows.filter (·.id ≠ row.id)).map Row.id).Nodup := by
  rw [map_cons, nodup_cons]
  refine ⟨fun mem => ?_, nodup.sublist (filter_sublist.map _)⟩
  obtain ⟨other, kept, same⟩ := mem_map.mp mem
  have := (mem_filter.mp kept).2
  simp [same] at this

/-- The insertion, or on conflict the update of everything but the key. -/
def tmfaDbUpsert (t : Table) (userId : ℕ) (bot kind key : Bytes) (now : ℤ) : Table :=
  let row : Row := ⟨userId, key, bot, kind, now⟩
  ⟨row :: t.rows.filter (·.id ≠ row.id), nodup_upsert t.unique row⟩

def tmfaDbDelete (t : Table) (userId : ℕ) (key : Bytes) : Table :=
  ⟨t.rows.filter (·.id ≠ (userId, key)), t.unique.sublist (filter_sublist.map _)⟩

def touchRow (userId : ℕ) (key : Bytes) (lastSeen : ℤ) (r : Row) : Row :=
  if r.id = (userId, key) then { r with lastSeen := lastSeen } else r

theorem id_touchRow (userId : ℕ) (key : Bytes) (lastSeen : ℤ) (r : Row) :
    (touchRow userId key lastSeen r).id = r.id := by
  unfold touchRow
  split <;> rfl

theorem ids_touch (rows : List Row) (userId : ℕ) (key : Bytes) (lastSeen : ℤ) :
    (rows.map (touchRow userId key lastSeen)).map Row.id = rows.map Row.id := by
  rw [map_map]
  exact map_congr_left fun r _ => id_touchRow userId key lastSeen r

def tmfaDbTouch (t : Table) (userId : ℕ) (key : Bytes) (lastSeen : ℤ) : Table :=
  ⟨t.rows.map (touchRow userId key lastSeen), by
    rw [ids_touch]
    exact t.unique⟩

end Table

structure Entry where
  userId : ℕ
  username : Bytes
  key : Bytes
  bot : Bytes
  kind : Bytes
  lastSeen : ℤ
  persistedAt : ℤ
  keyFits : key.length < usernsMfaPatternSz
  botFits : bot.length < usernsTmfaBotSz
  kindFits : kind.length < usernsTmfaKindSz
  deriving DecidableEq

/-- What the module asks of its surroundings: the users of the namespace and the idle
window of a method of a bot. -/
structure Env where
  usernsGetUserId : Bytes → ℕ
  username : ℕ → Bytes
  identtimeout : Bytes → Bytes → ℕ

inductive TmfaPresence
  | absent
  | present
  | orphan
  deriving DecidableEq

inductive TmfaResult
  | none
  | ok (user : Bytes)
  | expired (user : Bytes)
  deriving DecidableEq

section Entries

variable (env : Env)

def tmfaIdledOut (bot kind : Bytes) (lastSeen now : ℤ) : Bool :=
  let timeout := env.identtimeout bot kind
  timeout ≠ 0 && now - lastSeen > timeout

def tmfaMatches (e : Entry) (kind key : Bytes) : Bool :=
  strcasecmp e.kind kind && strncasecmp usernsMfaPatternSz e.key key

theorem matches_self : tmfaMatches e e.kind e.key = true := by
  simp [tmfaMatches, strncasecmp, strcasecmp]

def tmfaStamp (e : Entry) (now : ℤ) : Entry × Bool :=
  if now - e.persistedAt < usernsTmfaPersistSec then ({ e with lastSeen := now }, false)
  else ({ e with lastSeen := now, persistedAt := now }, true)

def entryOfRow (r : Row) : Entry where
  userId := r.userId
  username := bounded usernsUserSz (env.username r.userId)
  key := bounded usernsMfaPatternSz r.metadata
  bot := bounded usernsTmfaBotSz r.botName
  kind := bounded usernsTmfaKindSz r.methodKind
  lastSeen := r.lastSeen
  persistedAt := r.lastSeen
  keyFits := length_bounded_lt (by decide) _
  botFits := length_bounded_lt (by decide) _
  kindFits := length_bounded_lt (by decide) _

/-- The list that `userns_tmfa_ensure` builds, each row put before the others. -/
def load (t : Table) : List Entry := (t.rows.map (entryOfRow env)).reverse

def flush (t : Table) (e : Entry) : Table :=
  if e.lastSeen > e.persistedAt then tmfaDbTouch t e.userId e.key e.lastSeen else t

/-- The user's first entry among those seen least recently. -/
def stalest (userId : ℕ) : List Entry → Option Entry
  | [] => none
  | e :: rest =>
    if e.userId ≠ userId then stalest userId rest
    else
      match stalest userId rest with
      | none => some e
      | some later => if later.lastSeen < e.lastSeen then some later else some e

def held (userId : ℕ) (es : List Entry) : ℕ := es.countP (·.userId = userId)

def evicts (userId : ℕ) (es : List Entry) : Option (List Entry × Entry × List Entry) :=
  if usernsTmfaMax ≤ held userId es then
    (stalest userId es).bind fun s => splitFirst (fun e => decide (e = s)) es
  else none

variable {userId : ℕ} {es : List Entry}

theorem stalest_spec {s : Entry} (found : stalest userId es = some s) :
    s ∈ es ∧ s.userId = userId := by
  fun_induction stalest userId es generalizing s with
  | case1 => cases found
  | case2 e rest _ ih => exact ⟨mem_cons_of_mem e (ih found).1, (ih found).2⟩
  | case3 e rest mine | case5 e rest mine =>
    cases found
    exact ⟨mem_cons_self, not_not.mp mine⟩
  | case4 e rest _ later rested _ ih =>
    cases found
    exact ⟨mem_cons_of_mem e (ih rested).1, (ih rested).2⟩

theorem held_of_stalest_none (missing : stalest userId es = none) : held userId es = 0 := by
  fun_induction stalest userId es with
  | case1 => rfl
  | case2 e rest other ih =>
    rw [held, countP_cons_of_neg (by simpa using other)]
    exact ih missing
  | _ => cases missing

theorem evicts_none (missing : evicts userId es = none) : held userId es < usernsTmfaMax := by
  by_contra full
  rw [evicts, if_pos (not_lt.mp full), Option.bind_eq_none_iff] at missing
  cases found : stalest userId es with
  | none =>
    rw [held_of_stalest_none found] at full
    exact full (by decide)
  | some s =>
    have all := splitFirst_none (missing s found)
    simpa using all s (stalest_spec found).1

theorem evicts_some {pre post : List Entry} {old : Entry}
    (found : evicts userId es = some (pre, old, post)) :
    es = pre ++ old :: post ∧ old.userId = userId := by
  rw [evicts] at found
  split at found
  · obtain ⟨s, stale, split⟩ := Option.bind_eq_some_iff.mp found
    obtain ⟨whole, same, -⟩ := splitFirst_some split
    rw [of_decide_eq_true same]
    exact ⟨of_decide_eq_true same ▸ whole, (stalest_spec stale).2⟩
  · cases found

structure Fits (bot kind key : Bytes) : Prop where
  key : key.length < usernsMfaPatternSz
  bot : bot.length < usernsTmfaBotSz
  kind : kind.length < usernsTmfaKindSz

instance (bot kind key : Bytes) : Decidable (Fits bot kind key) :=
  decidable_of_iff (key.length < usernsMfaPatternSz ∧ bot.length < usernsTmfaBotSz ∧
      kind.length < usernsTmfaKindSz)
    ⟨fun ⟨a, b, c⟩ => ⟨a, b, c⟩, fun ⟨a, b, c⟩ => ⟨a, b, c⟩⟩

def minted (userId : ℕ) (username bot kind key : Bytes) (now : ℤ) (fits : Fits bot kind key) :
    Entry :=
  ⟨userId, bounded usernsUserSz username, key, bot, kind, now, now, fits.key, fits.bot, fits.kind⟩

variable (es : List Entry)

def usernsTmfaAdd (t : Table) (userId : ℕ) (username bot kind key : Bytes)
    (now : ℤ) (fits : Fits bot kind key) : List Entry × Table :=
  match splitFirst (fun e => decide (e.userId = userId) && tmfaMatches e kind key) es with
  | some (pre, e, post) =>
    (pre ++ { e with bot := bot, botFits := fits.bot, lastSeen := now, persistedAt := now } :: post,
      tmfaDbUpsert t userId bot kind key now)
  | none =>
    let new := minted userId username bot kind key now fits
    match evicts userId es with
    | some (pre, old, post) =>
      (new :: (pre ++ post),
        tmfaDbUpsert (tmfaDbDelete t old.userId old.key) userId bot kind key now)
    | none => (new :: es, tmfaDbUpsert t userId bot kind key now)

def usernsTmfaResolve (t : Table) (kind key : Bytes) (now : ℤ) :
    List Entry × Table × TmfaResult :=
  match splitFirst (tmfaMatches · kind key) es with
  | none => (es, t, .none)
  | some (pre, e, post) =>
    if tmfaIdledOut env e.bot e.kind e.lastSeen now then
      (pre ++ post, tmfaDbDelete t e.userId e.key, .expired e.username)
    else
      (pre ++ (tmfaStamp e now).1 :: post,
        if (tmfaStamp e now).2 then tmfaDbTouch t e.userId e.key now else t, .ok e.username)

/-- The pass of `userns_tmfa_seen` with the number of rows that are due already: the
entries and the rows to touch. -/
def seenPass (kind key : Bytes) (now : ℤ) : ℕ → List Entry → List Entry × List (ℕ × Bytes)
  | _, [] => ([], [])
  | n, e :: rest =>
    if !tmfaMatches e kind key || tmfaIdledOut env e.bot e.kind e.lastSeen now then
      let later := seenPass kind key now n rest
      (e :: later.1, later.2)
    else if usernsTmfaMax ≤ n then
      let later := seenPass kind key now n rest
      ({ e with lastSeen := now } :: later.1, later.2)
    else if (tmfaStamp e now).2 then
      let later := seenPass kind key now (n + 1) rest
      ((tmfaStamp e now).1 :: later.1, (e.userId, e.key) :: later.2)
    else
      let later := seenPass kind key now n rest
      ((tmfaStamp e now).1 :: later.1, later.2)

def usernsTmfaSeen (t : Table) (kind key : Bytes) (now : ℤ) :
    List Entry × Table :=
  let pass := seenPass env kind key now 0 es
  (pass.1, pass.2.foldl (fun t id => tmfaDbTouch t id.1 id.2 now) t)

/-- The entries of a key end one by one, from the front. -/
def usernsTmfaDrop (kind key : Bytes) : List Entry → Table → List Entry × Table
  | [], t => ([], t)
  | e :: rest, t =>
    if tmfaMatches e kind key then usernsTmfaDrop kind key rest (tmfaDbDelete t e.userId e.key)
    else
      let later := usernsTmfaDrop kind key rest t
      (e :: later.1, later.2)

theorem drop_eq :
    usernsTmfaDrop kind key es t = (es.filter (!tmfaMatches · kind key),
      (es.filter (tmfaMatches · kind key)).foldl (fun t e => tmfaDbDelete t e.userId e.key) t) := by
  induction es generalizing t with
  | nil => rfl
  | cons e rest ih =>
    rw [usernsTmfaDrop]
    split
    next dead => simp [ih, dead]
    next kept => simp [ih, kept]

def deletes (userId : ℕ) (key : Option Bytes) (e : Entry) : Bool :=
  e.userId = userId && key.all fun k => strncasecmp usernsMfaPatternSz e.key k

/-- The scratch for the statements holds as many keys as one user can have. -/
def usernsTmfaDel (t : Table) (userId : ℕ) (key : Option Bytes) :
    List Entry × Table :=
  let dead := ((es.filter (deletes userId key)).map (·.key)).take usernsTmfaMax
  (es.filter (!deletes userId key ·), dead.foldl (fun t k => tmfaDbDelete t userId k) t)

structure Asked where
  entry : Entry
  presence : TmfaPresence
  now : ℤ
  deriving DecidableEq

def sameRow (s : Entry) (e : Entry) : Bool := e.userId = s.userId && e.key = s.key

/-- What a sweep does to the entry it finds when it has the lock again. -/
def reread (t : Table) (a : Asked) : List Entry × Table :=
  match splitFirst (sameRow a.entry) es with
  | none => (es, t)
  | some (pre, e, post) =>
    if a.presence = .orphan || tmfaIdledOut env e.bot e.kind e.lastSeen a.now then
      (pre ++ post, tmfaDbDelete t a.entry.userId a.entry.key)
    else if a.presence = .present then
      (pre ++ (tmfaStamp e a.now).1 :: post,
        if (tmfaStamp e a.now).2 then tmfaDbTouch t a.entry.userId a.entry.key a.now else t)
    else (es, t)

end Entries

section System

structure Sweep where
  rest : List Entry
  asked : Option Asked
  deriving DecidableEq

structure Sys where
  clock : ℤ
  cache : Option (List Entry)
  table : Table
  sweeps : List Sweep

inductive Op
  | add (now : ℤ) (username bot kind key : Bytes)
  | resolve (now : ℤ) (kind key : Bytes)
  | seen (now : ℤ) (kind key : Bytes)
  | drop (kind key : Bytes)
  | del (username : Bytes) (key : Option Bytes)
  | sweepBegin
  | sweepLook (now : ℤ) (i : ℕ) (presence : TmfaPresence)
  | sweepReread (i : ℕ)

variable (env : Env) (s : Sys)

def tick (now : ℤ) : Option Sys :=
  if s.clock ≤ now then some { s with clock := now } else none

def ensured : List Entry := s.cache.getD (load env s.table)

def onCache (f : List Entry → Table → List Entry × Table) : Sys :=
  match s.cache with
  | none => s
  | some es => { s with cache := some (f es s.table).1, table := (f es s.table).2 }

/-- Presence is asked only about an entry that is still inside its window. -/
def look (e : Entry) (presence : TmfaPresence) (now : ℤ) : Option Asked :=
  if tmfaIdledOut env e.bot e.kind e.lastSeen now then some ⟨e, .absent, now⟩
  else if presence = .absent then none
  else some ⟨e, presence, now⟩

def stepAdd (username bot kind key : Bytes) (now : ℤ) : Sys :=
  if key = [] then s
  else if fits : Fits bot kind key then
    let userId := env.usernsGetUserId username
    if userId = 0 then s
    else
      let r := usernsTmfaAdd (ensured env s) s.table userId username bot kind key now fits
      { s with cache := some r.1, table := r.2 }
  else s

def step : Op → Option Sys
  | .add now username bot kind key => (tick s now).map (stepAdd env · username bot kind key now)
  | .resolve now kind key => (tick s now).map fun s =>
    if key = [] then s
    else onCache s fun es t =>
      let r := usernsTmfaResolve env es t kind key now
      (r.1, r.2.1)
  | .seen now kind key => (tick s now).map fun s =>
    if key = [] then s else onCache s fun es t => usernsTmfaSeen env es t kind key now
  | .drop kind key => some (if key = [] then s else onCache s (usernsTmfaDrop kind key))
  | .del username key =>
    let userId := env.usernsGetUserId username
    some (if userId = 0 then s else onCache s fun es t => usernsTmfaDel es t userId key)
  | .sweepBegin =>
    match s.cache with
    | none => some s
    | some es => some { s with sweeps := ⟨es, none⟩ :: s.sweeps }
  | .sweepLook now i presence =>
    match s.sweeps[i]? with
    | some ⟨e :: rest, none⟩ =>
      (tick s now).map fun s => { s with sweeps := s.sweeps.set i ⟨rest, look env e presence now⟩ }
    | _ => none
  | .sweepReread i =>
    match s.sweeps[i]? with
    | some ⟨rest, some a⟩ =>
      some (onCache { s with sweeps := s.sweeps.set i ⟨rest, none⟩ } fun es t => reread env es t a)
    | _ => none

inductive LifeOp
  | live (op : Op)
  | destroy
  | ensure

/-- Teardown runs alone, so no sweep is under way. -/
def usernsTmfaDestroy : Option Sys :=
  if s.sweeps.all fun w => w = ⟨[], none⟩ then
    match s.cache with
    | none => some s
    | some es => some ⟨s.clock, none, es.foldl flush s.table, []⟩
  else none

def usernsTmfaEnsure : Sys := { s with cache := some (ensured env s) }

def lifeStep : LifeOp → Option Sys
  | .live op => step env s op
  | .destroy => usernsTmfaDestroy s
  | .ensure => some (usernsTmfaEnsure env s)

def noRows : Table := ⟨[], nodup_nil⟩

def start (clock : ℤ) : Sys := ⟨clock, none, noRows, []⟩

end System

end BotManager.TmfaModel
