import BotManager.ChainedTable
import BotManager.KvValue

/-! The registry of core/kv.c: the hash table of entries, and every function that
registers, sets, resets, removes, loads or persists one. Each is the sequential
behaviour of its source function; `kv_mutex` makes the table sections atomic.

The database is a parameter: `dbEscape` and `dbQuery` on SQL text, as core/db.c offers
them. The statements are built in fixed buffers, so they are cut where the source cuts
them. Change callbacks, set-time checks, natural-language responders and log lines are
left out; `cb`, `cbData` and `help` are kept as the addresses and text registered. -/

namespace BotManager.KvTable
open CText ChainedTable KvValue

structure QueryResult where
  ok : Bool
  rows : List (List (Option Bytes))

structure World (F D : Type) where
  floats : Floats F
  dbEscape : Bytes → Option Bytes
  dbQuery : Bytes → D → QueryResult × D

structure Entry (F : Type) where
  key : Bytes
  type : KvType
  val : Val F
  defaultVal : Val F
  cb : ℕ
  cbData : ℕ
  help : Option Bytes
  ownerPc : ℕ
  dirty : Bool
  secret : Bool
  deriving DecidableEq

def Entry.clean {F : Type} (e : Entry F) : Entry F := { e with dirty := false }

structure Decl where
  key : Bytes
  type : KvType
  defaultText : Bytes
  cb : ℕ
  cbData : ℕ
  help : Option Bytes
  ownerPc : ℕ
  deriving DecidableEq

inductive Status
  | success | fail
  deriving DecidableEq, Repr

def kvBuckets : ℕ := 64
def wordSize : ℕ := 2 ^ 32

structure Store (F D : Type) where
  table : Chains (Entry F) kvBuckets
  kvCount : ℕ
  kvLoaded : Bool
  db : D

def utilDjb2 (s : Bytes) : ℕ := s.foldl (fun h c => (h * 33 + c.toNat) % wordSize) 5381

def hashKey (key : Bytes) : Fin kvBuckets := ⟨utilDjb2 key % kvBuckets, Nat.mod_lt _ (by decide)⟩

def scheme (F : Type) : Scheme Bytes (Entry F) kvBuckets := ⟨hashKey, Entry.key⟩

/-- Walk the segments before each dot; the tail segment is not checked. -/
def secretSegments : Bytes → Bytes → Bool
  | _, [] => false
  | segment, c :: rest =>
    if c = 46 then segment = ascii "creds" || secretSegments [] rest
    else secretSegments (segment ++ [c]) rest

def kvIsSecretKey (key : Bytes) : Bool := secretSegments [] key

variable {F D : Type} (w : World F D)

def findLocked (key : Bytes) (s : Store F D) : Option (Entry F) := find (scheme F) key s.table

def Store.update (key : Bytes) (f : Entry F → Entry F) (s : Store F D) : Store F D :=
  { s with table := modify (scheme F) key f s.table }

def Store.uncount (removed : ℕ) (s : Store F D) : Store F D :=
  { s with kvCount := (s.kvCount + removed * (wordSize - 1)) % wordSize }

def atoi (s : Bytes) : ℤ :=
  match scanInt s with
  | some (neg, n, _) => if neg then -(n : ℤ) else n
  | none => 0

def applyVal (e : Entry F) (new : Val F) (s : Store F D) : Status × Store F D :=
  if valChanged w.floats e.type e.val new then
    (.success, s.update e.key fun e => { e with val := new, dirty := true })
  else (.success, s)

/-- The shape the setters share: find the entry, convert the argument for its type. -/
def setWith (key : Bytes) (convert : KvType → Option (Val F)) (s : Store F D) :
    Status × Store F D :=
  match findLocked key s with
  | none => (.fail, s)
  | some e =>
    match convert e.type with
    | none => (.fail, s)
    | some new => applyVal w e new s

def kvSet (key text : Bytes) : Store F D → Status × Store F D :=
  setWith w key fun t => strToVal w.floats t text

def within (lo hi v : ℤ) : Option (Val F) := if v < lo ∨ hi < v then none else some (.int v)

def intVal (v : ℤ) : KvType → Option (Val F)
  | .int8 => within (-2 ^ 7) (2 ^ 7 - 1) v
  | .uint8 => within 0 (2 ^ 8 - 1) v
  | .int16 => within (-2 ^ 15) (2 ^ 15 - 1) v
  | .uint16 => within 0 (2 ^ 16 - 1) v
  | .int32 => within (-2 ^ 31) (2 ^ 31 - 1) v
  | .uint32 => within 0 (2 ^ 32 - 1) v
  | .int64 => some (.int v)
  | .uint64 => if v < 0 then none else some (.int v)
  | .bool => within 0 1 v
  | _ => none

def atMost (hi v : ℤ) : Option (Val F) := if hi < v then none else some (.int v)

def uintVal (v : ℤ) : KvType → Option (Val F)
  | .int8 => atMost (2 ^ 7 - 1) v
  | .uint8 => atMost (2 ^ 8 - 1) v
  | .int16 => atMost (2 ^ 15 - 1) v
  | .uint16 => atMost (2 ^ 16 - 1) v
  | .int32 => atMost (2 ^ 31 - 1) v
  | .uint32 => atMost (2 ^ 32 - 1) v
  | .int64 => atMost int64Max v
  | .uint64 => some (.int v)
  | .bool => atMost 1 v
  | _ => none

def realVal (x : F) (t : KvType) : Option (Val F) :=
  if t.isFloat then some (.flt (w.floats.cast t x)) else none

def kvSetInt (key : Bytes) (v : ℤ) : Store F D → Status × Store F D := setWith w key (intVal v)

def kvSetUint (key : Bytes) (v : ℤ) : Store F D → Status × Store F D := setWith w key (uintVal v)

def kvSetFloat (key : Bytes) (x : F) : Store F D → Status × Store F D :=
  setWith w key (realVal w x)

def kvExists (key : Bytes) (s : Store F D) : Bool := (findLocked key s).isSome

/-- The upsert of `persist_entry`, around the escaped key, the type and the escaped value. -/
def insertText (escKey : Bytes) (type : ℕ) (escVal : Bytes) : Bytes :=
  ascii "INSERT INTO kv (key, type, value) VALUES ('" ++ escKey ++ ascii "', " ++ natText type ++
    ascii ", '" ++ escVal ++ ascii ("') ON CONFLICT (key) DO UPDATE SET type = EXCLUDED.type, " ++
    "value = EXCLUDED.value")

def selectText (escKey : Bytes) : Bytes :=
  ascii "SELECT type, value FROM kv WHERE key = '" ++ escKey ++ ascii "'"

def deleteText (escKey : Bytes) : Bytes :=
  ascii "DELETE FROM kv WHERE key = '" ++ escKey ++ ascii "'"

def deletePrefixText (escPrefix : Bytes) : Bytes :=
  ascii "DELETE FROM kv WHERE key LIKE '" ++ escPrefix ++ ascii "%'"

def createText : Bytes :=
  ascii ("CREATE TABLE IF NOT EXISTS kv (key TEXT PRIMARY KEY, type SMALLINT NOT NULL, " ++
    "value TEXT NOT NULL)")

def selectAllText : Bytes := ascii "SELECT key, type, value FROM kv"

def persistBuf : ℕ := 512 + kvKeySz + kvValBuf

def persistEntry (e : Entry F) (d : D) : Bool × D :=
  match w.dbEscape e.key, w.dbEscape (valToStr w.floats e.type e.val kvValBuf) with
  | some escKey, some escVal =>
    let (result, d) := w.dbQuery (bounded persistBuf (insertText escKey e.type.id escVal)) d
    (result.ok, d)
  | _, _ => (false, d)

/-- The persisted row of one key: the type id and the text, cut to the caller's buffer. -/
def kvDbLookupOne (key : Bytes) (size : ℕ) (d : D) : Option (ℤ × Bytes) × D :=
  match w.dbEscape key with
  | none => (none, d)
  | some esc =>
    let (result, d) := w.dbQuery (bounded (256 + kvKeySz) (selectText esc)) d
    match result.ok, result.rows with
    | true, (some type :: some value :: _) :: _ => (some (atoi type, bounded size value), d)
    | _, _ => (none, d)

/-- The value a persisted row gives an entry of the type. A row of another type, or whose
text does not parse, is declined. -/
def rowVal (t : KvType) (row : ℤ × Bytes) : Option (Val F) :=
  if row.1 = t.id then strToVal w.floats t row.2 else none

/-- What a row does to an entry registered after the load: it takes the value, or keeps
its default. Either way it is clean, so that nothing is written over the row. -/
def adopt (row : ℤ × Bytes) (e : Entry F) : Entry F :=
  match rowVal w e.type row with
  | some v => { e with val := v, dirty := false }
  | none => e.clean

def declared (r : Decl) (v : Val F) : Entry F :=
  { key := bounded kvKeySz r.key, type := r.type, val := v, defaultVal := v, cb := r.cb
    cbData := r.cbData, help := r.help, ownerPc := r.ownerPc, dirty := true
    secret := kvIsSecretKey r.key }

/-- Insert at the default. The key is copied into the bounded field, the chain is chosen
by the key as given. -/
def insertEntry (r : Decl) (v : Val F) (s : Store F D) : Store F D :=
  { s with
    table := push (hashKey r.key) (declared r v) s.table
    kvCount := (s.kvCount + 1) % wordSize }

/-- Once the table is loaded, a new entry takes its persisted row. -/
def rehydrate (r : Decl) (s : Store F D) : Store F D :=
  if s.kvLoaded then
    let (row, d) := kvDbLookupOne w r.key kvStrSz s.db
    let s := { s with db := d }
    match row with
    | some row => s.update r.key (adopt w row)
    | none => s
  else s

def kvRegisterOwned (r : Decl) (s : Store F D) : Status × Store F D :=
  match strToVal w.floats r.type r.defaultText with
  | none => (.fail, s)
  | some v =>
    match findLocked r.key s with
    | some _ => (.fail, s)
    | none => (.success, rehydrate w r (insertEntry r v s))

variable (key : Bytes)

theorem findLocked_update {g : Entry F → Entry F} (keeps : ∀ e, (g e).key = e.key)
    (s : Store F D) (k : Bytes) : findLocked k (s.update key g) =
      if k = key then (findLocked key s).map g else findLocked k s :=
  find_modify (c := scheme F) keeps

theorem setWith_outcome (convert : KvType → Option (Val F)) (s : Store F D) :
    setWith w key convert s = (.fail, s) ∨ ∃ e new, findLocked key s = some e ∧
      convert e.type = some new ∧ setWith w key convert s = (.success,
        if valChanged w.floats e.type e.val new then
          s.update key (fun e => { e with val := new, dirty := true }) else s) := by
  cases found : findLocked key s with
  | none => exact .inl (by simp only [setWith, found])
  | some e =>
    cases converted : convert e.type with
    | none => exact .inl (by simp only [setWith, found, converted])
    | some new =>
      have named : e.key = key := key_of_find found
      refine .inr ⟨e, new, rfl, converted, ?_⟩
      simp only [setWith, found, converted, applyVal, named]
      split <;> rfl

theorem setWith_cases (convert : KvType → Option (Val F)) (s : Store F D) :
    (setWith w key convert s).2 = s ∨ ∃ e new, findLocked key s = some e ∧
      convert e.type = some new ∧ (setWith w key convert s).2 =
        s.update key (fun e => { e with val := new, dirty := true }) := by
  rcases setWith_outcome w key convert s with refused | ⟨e, new, found, converted, done⟩
  · exact .inl (by rw [refused])
  · by_cases changed : valChanged w.floats e.type e.val new = true
    · exact .inr ⟨e, new, found, converted, by rw [done, if_pos changed]⟩
    · exact .inl (by rw [done, if_neg changed])

theorem findLocked_insertEntry {r : Decl} (short : r.key.length < kvKeySz)
    (s : Store F D) (key : Bytes) : findLocked key (insertEntry r v s) =
      if r.key = key then some (declared r v) else findLocked key s := by
  have whole : (declared r v).key = r.key := bounded_of_lt short
  have pushed := find_push (c := scheme F) (e := declared r v) (t := s.table) key
  simp only [scheme, whole] at pushed
  exact pushed

def kvRowDelete (d : D) : D :=
  match w.dbEscape key with
  | none => d
  | some esc => (w.dbQuery (bounded (kvKeySz + 64) (deleteText esc)) d).2

def revert (e : Entry F) : Entry F :=
  let val := if valChanged w.floats e.type e.val e.defaultVal then e.defaultVal else e.val
  { e with val, dirty := false }

variable (s : Store F D)

def kvReset : Bool × Store F D :=
  if key = [] then (false, s)
  else match findLocked key s with
    | none => (false, s)
    | some e =>
      let s := s.update key (revert w)
      (true, { s with db := kvRowDelete w e.key s.db })

def unlink : Bool × Store F D :=
  match findLocked key s with
  | none => (false, s)
  | some _ => (true, Store.uncount 1 { s with table := remove (scheme F) key s.table })

def kvDelete : Bool × Store F D :=
  if key = [] then (false, s)
  else
    let (found, s) := unlink key s
    (found, { s with db := kvRowDelete w key s.db })

def kvUnregister : Status × Store F D :=
  if key = [] then (.fail, s)
  else
    let (found, s) := unlink key s
    (if found then .success else .fail, s)

def unlinkAll (test : Entry F → Bool) (s : Store F D) : ℕ × Store F D :=
  let removed := (entries s.table).countP test
  (removed, Store.uncount removed { s with table := sift (fun e => !test e) s.table })

def kvDeletePrefix (start : Bytes) (s : Store F D) : ℕ × Store F D :=
  if start = [] then (0, s)
  else
    let (deleted, s) := unlinkAll (fun e => start.isPrefixOf e.key) s
    if deleted = 0 then (0, s)
    else match w.dbEscape start with
      | none => (deleted, s)
      | some esc =>
        (deleted, { s with db := (w.dbQuery (bounded 512 (deletePrefixText esc)) s.db).2 })

def ownedBy (lo hi : ℕ) (e : Entry F) : Bool := lo ≤ e.ownerPc && e.ownerPc < hi

/-- The unlinked entries are persisted afterwards, last unlinked first, if dirty. -/
def kvReclaimOwned (lo hi : ℕ) (s : Store F D) : ℕ × Store F D :=
  if hi ≤ lo then (0, s)
  else
    let doomed := ((entries s.table).filter (ownedBy lo hi)).reverse
    let (removed, s) := unlinkAll (ownedBy lo hi) s
    let d := doomed.foldl (fun d e => if e.dirty then (persistEntry w e d).2 else d) s.db
    (removed, { s with db := d })

/-- The load compares before it stores. -/
def loadApplyRow (row : ℤ × Bytes) (e : Entry F) : Entry F :=
  match rowVal w e.type row with
  | some v => { e with val := if valChanged w.floats e.type e.val v then v else e.val, dirty := false }
  | none => e.clean

def loadRow : List (Option Bytes) → Store F D
  | some key :: some type :: some value :: _ => s.update key (loadApplyRow w (atoi type, value))
  | _ => s

def kvLoad : Status × Store F D :=
  let (created, d) := w.dbQuery createText s.db
  if !created.ok then (.fail, { s with db := d })
  else
    let (result, d) := w.dbQuery selectAllText d
    if !result.ok then (.fail, { s with db := d })
    else (.success, { result.rows.foldl (loadRow w) { s with db := d } with kvLoaded := true })

def flushEntry (e : Entry F) (state : D × ℕ) : Entry F × D × ℕ :=
  if e.dirty then
    let (ok, d) := persistEntry w e state.1
    if ok then (e.clean, d, state.2) else (e, d, state.2 + 1)
  else (e, state)

def kvFlush : Status × Store F D :=
  if !s.kvLoaded then (.success, s)
  else
    let (table, d, failed) := walk (flushEntry w) s.table (s.db, 0)
    (if failed = 0 then .success else .fail, { s with table, db := d })

def emptyStore (d : D) : Store F D := ⟨fun _ => [], 0, false, d⟩

def blankWorld : World Unit Unit where
  floats := ⟨fun _ _ => some (), fun _ _ => [], fun _ x => x⟩
  dbEscape := some
  dbQuery _ d := (⟨true, []⟩, d)

def sampleDecl (key : Bytes) (type : KvType) : Decl := ⟨key, type, ascii "0", 0, 0, none, 0⟩

end BotManager.KvTable
