import BotManager.KvInvariant
import BotManager.KvDatabase

/-! What `kv_flush` writes, over a lawful database. An entry whose upsert fits the buffer of
`persist_entry` is written exactly and marked clean. One whose upsert is cut, because
escaping doubled its quotes, stays dirty and makes the flush fail. -/

namespace BotManager.KvPersist
open List CText ChainedTable KvValue KvTable SqlText KvDatabase

variable {F D : Type} {w : World F D} {rows : D → List Row}

/-- The `%g` conversions print short texts. -/
def ShortFloats (fl : Floats F) : Prop := ∀ t x, (fl.print t x).length ≤ 64

def Tidy (l : List Row) : Prop := ∀ k r, lookupRow k l = some r → r.value.length < kvStrSz

def rowOf (w : World F D) (e : Entry F) : Row :=
  ⟨e.key, e.type.id, valToStr w.floats e.type e.val kvValBuf⟩

def statement (w : World F D) (e : Entry F) : Bytes :=
  insertText (doubleQuotes e.key) e.type.id (doubleQuotes (rowOf w e).value)

def Fits (w : World F D) (e : Entry F) : Prop := (statement w e).length < persistBuf

instance (w : World F D) (e : Entry F) : Decidable (Fits w e) := inferInstanceAs (Decidable (_ < _))

structure Regular (e : Entry F) : Prop where
  key : e.key.length < kvKeySz
  typed : Typed e.type e.val

variable {e : Entry F}

theorem Regular.text (regular : Regular e) (floats : ShortFloats w.floats) :
    (rowOf w e).value.length < kvStrSz := by
  simp only [rowOf]
  cases float : e.type.isFloat with
  | false =>
    rw [valToStr_eq regular.typed float]
    exact length_valText_lt w.floats regular.typed float
  | true =>
    have cut : (valToStr w.floats e.type e.val kvValBuf).length ≤
        (valText w.floats e.type e.val).length := by
      simp only [valToStr, bounded, length_take]
      omega
    have short : (valText w.floats e.type e.val).length ≤ 64 := by
      cases type : e.type with
      | float | double | ldouble =>
        simp only [valText]
        cases e.val.real with
        | none => simp
        | some x => exact floats _ x
      | int8 | uint8 | int16 | uint16 | int32 | uint32 | int64 | uint64 | str | bool =>
        rw [type] at float
        cases float
    simp only [kvStrSz]
    omega

theorem length_statement (w : World F D) (e : Entry F) : (statement w e).length =
    128 + (natText e.type.id).length + (doubleQuotes e.key).length +
      (doubleQuotes (rowOf w e).value).length := by
  have head : (ascii "INSERT INTO kv (key, type, value) VALUES ('").length = 43 := by decide
  have first : (ascii "', ").length = 3 := by decide
  have second : (ascii ", '").length = 3 := by decide
  have last : (ascii ("') ON CONFLICT (key) DO UPDATE SET type = EXCLUDED.type, " ++
      "value = EXCLUDED.value")).length = 79 := by decide
  simp only [statement, insertText, length_append, head, first, second, last]
  omega

theorem length_type_le (t : KvType) : (natText t.id).length ≤ 2 := by
  cases t <;> decide

theorem length_statement_lt (regular : Regular e) (floats : ShortFloats w.floats) :
    (statement w e).length < persistBuf - 1 + lastAssignment := by
  have total := length_statement w e
  have type := length_type_le e.type
  have key := length_doubleQuotes_le e.key
  have value := length_doubleQuotes_le (rowOf w e).value
  have keyShort := regular.key
  have valueShort := regular.text floats
  simp only [kvKeySz, kvStrSz, persistBuf, kvValBuf, lastAssignment] at *
  omega

def saved (w : World F D) (e : Entry F) : Bool := e.dirty && decide (Fits w e)

def flushed (w : World F D) (e : Entry F) : Entry F := if saved w e then e.clean else e

theorem flushed_key (e : Entry F) : (flushed w e).key = e.key := by
  simp only [flushed]
  split <;> rfl

structure Ready (rows : D → List Row) (s : Store F D) : Prop where
  placed : Placed (scheme F) s.table
  loaded : s.kvLoaded = true
  regular : ∀ e ∈ entries s.table, Regular e
  tidy : Tidy (rows s.db)

theorem Ready.find_iff {s : Store F D} (ready : Ready rows s) {k : Bytes} :
    findLocked k s = some e ↔ e ∈ entries s.table ∧ e.key = k := ready.placed.find_iff

section Flush

variable {s : Store F D} (law : Lawful w rows)
include law

theorem persistEntry_eq :
    persistEntry w e d = ((w.dbQuery (bounded persistBuf (statement w e)) d).1.ok,
      (w.dbQuery (bounded persistBuf (statement w e)) d).2) := by
  simp only [persistEntry, law.escape]
  rfl

theorem persistEntry_fits (fits : Fits w e) (d : D) :
    (persistEntry w e d).1 = true ∧ ∀ k, lookupRow k (rows (persistEntry w e d).2) =
      if k = e.key then some (rowOf w e) else lookupRow k (rows d) := by
  rw [persistEntry_eq law, bounded_of_lt fits]
  exact law.insert e.key e.type.id (rowOf w e).value d

variable (floats : ShortFloats w.floats)
include floats

theorem persistEntry_cut (regular : Regular e) (cut : ¬ Fits w e) (d : D) :
    (persistEntry w e d).1 = false ∧ rows (persistEntry w e d).2 = rows d := by
  have long : persistBuf ≤ (statement w e).length := not_lt.mp cut
  have pos : 0 < persistBuf := by decide
  rw [persistEntry_eq law]
  refine law.cut e.key e.type.id (rowOf w e).value d (persistBuf - 1) ?_
    (length_statement_lt regular floats)
  exact lt_of_lt_of_le (by omega) long

theorem flushEntry_eq (regular : Regular e) (state : D × ℕ) :
    (flushEntry w e state).1 = flushed w e ∧
      (flushEntry w e state).2.2 = state.2 + (if e.dirty && !saved w e then 1 else 0) ∧
      ∀ k, lookupRow k (rows (flushEntry w e state).2.1) =
        if saved w e = true ∧ k = e.key then some (rowOf w e) else lookupRow k (rows state.1) := by
  simp only [flushEntry, flushed, saved]
  by_cases dirty : e.dirty = true
  · by_cases fits : Fits w e
    · obtain ⟨ok, lookup⟩ := persistEntry_fits law fits state.1
      simp [dirty, ok, fits, lookup]
    · obtain ⟨ok, same⟩ := persistEntry_cut law floats regular fits state.1
      simp [dirty, ok, fits, same]
  · simp [dirty]

theorem foldl_flushEntry {l : List (Entry F)} (regular : ∀ e ∈ l, Regular e) (nodup : (l.map (·.key)).Nodup)
    (state : D × ℕ) :
    (l.foldl (fun s e => (flushEntry w e s).2) state).2 =
        state.2 + l.countP (fun e => e.dirty && !saved w e) ∧
      (∀ e ∈ l, saved w e = true →
        lookupRow e.key (rows (l.foldl (fun s e => (flushEntry w e s).2) state).1) = some (rowOf w e)) ∧
      ∀ k, (∀ e ∈ l, saved w e = true → e.key ≠ k) →
        lookupRow k (rows (l.foldl (fun s e => (flushEntry w e s).2) state).1) =
          lookupRow k (rows state.1) := by
  induction l generalizing state with
  | nil => exact ⟨rfl, nofun, fun _ _ => rfl⟩
  | cons x rest ih =>
    obtain ⟨fresh, nodup⟩ := nodup_cons.mp nodup
    obtain ⟨_, failed, lookup⟩ := flushEntry_eq law floats (regular x mem_cons_self) state
    obtain ⟨count, written, kept⟩ :=
      ih (fun e mem => regular e (.tail _ mem)) nodup (flushEntry w x state).2
    simp only [foldl_cons]
    refine ⟨?_, fun e mem save => ?_, fun k others => ?_⟩
    · rw [count, failed, countP_cons]
      omega
    · rcases mem_cons.mp mem with rfl | later
      · have once : ∀ y ∈ rest, saved w y = true → y.key ≠ e.key := by
          intro y memy _ same
          exact fresh (mem_map.mpr ⟨y, memy, same⟩)
        rw [kept e.key once, lookup, if_pos ⟨save, rfl⟩]
      · exact written e later save
    · rw [kept k fun e mem => others e (.tail _ mem), lookup, if_neg]
      rintro ⟨save, rfl⟩
      exact others x mem_cons_self save rfl

variable (ready : Ready rows s)
include ready

theorem kvFlush_table :
    (kvFlush w s).2.table = fun b => (s.table b).map (flushed w) := by
  have walked : (kvFlush w s).2.table = (walk (flushEntry w) s.table (s.db, 0)).1 := by
    simp [kvFlush, ready.loaded]
  rw [walked]
  exact walk_fst (fun e mem state => (flushEntry_eq law floats (ready.regular e mem) state).1)

theorem kvFlush_status :
    (kvFlush w s).1 = .success ↔ ∀ e ∈ entries s.table, e.dirty = true → Fits w e := by
  obtain ⟨count, _⟩ := foldl_flushEntry law floats ready.regular ready.placed.nodup (s.db, 0)
  have walked : (kvFlush w s).1 =
      if (walk (flushEntry w) s.table (s.db, 0)).2.2 = 0 then .success else .fail := by
    simp [kvFlush, ready.loaded]
  rw [walked, walk_snd, count, Nat.zero_add]
  have none : (entries s.table).countP (fun e => e.dirty && !saved w e) = 0 ↔
      ∀ e ∈ entries s.table, e.dirty = true → Fits w e := by
    rw [countP_eq_zero]
    refine forall₂_congr fun e _ => ?_
    by_cases dirty : e.dirty = true <;> simp [saved, dirty]
  rw [← none]
  split <;> simp_all

theorem kvFlush_rows :
    (∀ e ∈ entries s.table, saved w e = true →
      lookupRow e.key (rows (kvFlush w s).2.db) = some (rowOf w e)) ∧
      ∀ k, (∀ e ∈ entries s.table, saved w e = true → e.key ≠ k) →
        lookupRow k (rows (kvFlush w s).2.db) = lookupRow k (rows s.db) := by
  obtain ⟨_, written, kept⟩ := foldl_flushEntry law floats ready.regular ready.placed.nodup (s.db, 0)
  have walked : (kvFlush w s).2.db = (walk (flushEntry w) s.table (s.db, 0)).2.1 := by
    simp [kvFlush, ready.loaded]
  rw [walked, walk_snd]
  exact ⟨written, kept⟩

theorem kvFlush_find (k : Bytes) :
    findLocked k (kvFlush w s).2 = (findLocked k s).map (flushed w) := by
  rw [findLocked, kvFlush_table law floats ready]
  exact find_mapped flushed_key

theorem ready_flush :
    Ready rows (kvFlush w s).2 := by
  have table := kvFlush_table law floats ready
  obtain ⟨written, kept⟩ := kvFlush_rows law floats ready
  refine ⟨KvInvariant.inPlace_flush.placed ready.placed, ?_, fun e mem => ?_, fun k r found => ?_⟩
  · simp [kvFlush, ready.loaded]
  · rw [table, mem_entries] at mem
    obtain ⟨b, mem⟩ := mem
    obtain ⟨old, memo, rfl⟩ := mem_map.mp mem
    have regular := ready.regular old (mem_entries.mpr ⟨b, memo⟩)
    simp only [flushed]
    split
    · exact ⟨regular.key, regular.typed⟩
    · exact regular
  · by_cases here : ∃ e ∈ entries s.table, saved w e = true ∧ e.key = k
    · obtain ⟨e, mem, save, rfl⟩ := here
      rw [written e mem save] at found
      cases found
      exact (ready.regular e mem).text floats
    · rw [kept k fun e mem save same => here ⟨e, mem, save, same⟩] at found
      exact ready.tidy k r found

end Flush

end BotManager.KvPersist
