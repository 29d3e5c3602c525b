import BotManager.KvTable
import BotManager.SqlText

/-! What core/kv.c relies on of its database, as laws about the statements it issues:
escaping doubles quotes, a whole upsert stores the unescaped values under the key, one
cut short inside its last assignment is refused and changes nothing, and the two
selections return the stored rows. `postgres` is a small interpreter of exactly these
statements that obeys the laws. -/

namespace BotManager.KvDatabase
open List CText ChainedTable KvValue KvTable SqlText

structure Row where
  key : Bytes
  type : ℕ
  value : Bytes
  deriving DecidableEq, Repr

def lookupRow (key : Bytes) (rows : List Row) : Option Row := rows.find? (·.key = key)

def Row.columns (r : Row) : List (Option Bytes) := [some r.key, some (natText r.type), some r.value]

def lastAssignment : ℕ := 22

structure Lawful {F D : Type} (w : World F D) (rows : D → List Row) : Prop where
  escape : ∀ s, w.dbEscape s = some (doubleQuotes s)
  distinct : ∀ d, ((rows d).map (·.key)).Nodup
  create : ∀ d, (w.dbQuery createText d).1.ok = true ∧ rows (w.dbQuery createText d).2 = rows d
  selectAll : ∀ d, (w.dbQuery selectAllText d).1 = ⟨true, (rows d).map Row.columns⟩ ∧
    rows (w.dbQuery selectAllText d).2 = rows d
  selectOne : ∀ key d, (w.dbQuery (selectText (doubleQuotes key)) d).1 =
      ⟨true, (lookupRow key (rows d)).toList.map fun r => [some (natText r.type), some r.value]⟩ ∧
    rows (w.dbQuery (selectText (doubleQuotes key)) d).2 = rows d
  insert : ∀ key type value d,
    (w.dbQuery (insertText (doubleQuotes key) type (doubleQuotes value)) d).1.ok = true ∧
      ∀ k, lookupRow k (rows (w.dbQuery (insertText (doubleQuotes key) type (doubleQuotes value)) d).2) =
        if k = key then some ⟨key, type, value⟩ else lookupRow k (rows d)
  cut : ∀ key type value d n,
    n < (insertText (doubleQuotes key) type (doubleQuotes value)).length →
    (insertText (doubleQuotes key) type (doubleQuotes value)).length < n + lastAssignment →
      (w.dbQuery ((insertText (doubleQuotes key) type (doubleQuotes value)).take n) d).1.ok = false ∧
        rows (w.dbQuery ((insertText (doubleQuotes key) type (doubleQuotes value)).take n) d).2 = rows d

def Relation := { rows : List Row // (rows.map (·.key)).Nodup }

theorem nodup_upsert {rows : List Row} (nodup : (rows.map (·.key)).Nodup) (row : Row) :
    ((row :: rows.filter (·.key ≠ row.key)).map (·.key)).Nodup := by
  rw [map_cons, nodup_cons]
  refine ⟨fun mem => ?_, nodup.sublist (filter_sublist.map _)⟩
  obtain ⟨other, memo, same⟩ := mem_map.mp mem
  have := (mem_filter.mp memo).2
  simp [same] at this

def Relation.upsert (row : Row) (d : Relation) : Relation :=
  ⟨row :: d.1.filter (·.key ≠ row.key), nodup_upsert d.2 row⟩

def insertHead : Bytes := ascii "INSERT INTO kv (key, type, value) VALUES ('"

def insertTail : Bytes :=
  ascii (") ON CONFLICT (key) DO UPDATE SET type = EXCLUDED.type, " ++ "value = EXCLUDED.value")

def selectHead : Bytes := ascii "SELECT type, value FROM kv WHERE key = '"

def parseInsert (s : Bytes) : Option Row := do
  let (key, s) ← readLiteral s
  let s ← expect (ascii ", ") s
  let digits := s.takeWhile isDigit
  let s ← expect (ascii ", '") (s.dropWhile isDigit)
  let (value, s) ← readLiteral s
  if s = insertTail then some ⟨key, digitsValue digits, value⟩ else none

def parseSelect (s : Bytes) : Option Bytes := do
  let (key, s) ← readLiteral s
  if s = [] then some key else none

def runQuery (sql : Bytes) (d : Relation) : QueryResult × Relation :=
  match expect insertHead sql with
  | some s =>
    match parseInsert s with
    | some row => (⟨true, []⟩, d.upsert row)
    | none => (⟨false, []⟩, d)
  | none =>
    match expect selectHead sql with
    | some s =>
      match parseSelect s with
      | some key =>
        (⟨true, (lookupRow key d.1).toList.map fun r => [some (natText r.type), some r.value]⟩, d)
      | none => (⟨false, []⟩, d)
    | none =>
      if sql = createText then (⟨true, []⟩, d)
      else if sql = selectAllText then (⟨true, d.1.map Row.columns⟩, d)
      else (⟨false, []⟩, d)

def postgres {F : Type} (fl : Floats F) : World F Relation where
  floats := fl
  dbEscape s := some (doubleQuotes s)
  dbQuery := runQuery

theorem insertText_eq (type : ℕ) (escVal : Bytes) :
    insertText escKey type escVal = insertHead ++ (escKey ++ quote :: (ascii ", " ++ (natText type ++
      (ascii ", '" ++ (escVal ++ quote :: insertTail))))) := by
  have first : ascii "', " = quote :: ascii ", " := rfl
  have last : ascii ("') ON CONFLICT (key) DO UPDATE SET type = EXCLUDED.type, " ++
      "value = EXCLUDED.value") = quote :: insertTail := by decide +kernel
  simp only [insertText, insertHead, first, last, append_assoc, cons_append]

theorem digits_type (type : ℕ) (s : Bytes) :
    (natText type ++ (ascii ", '" ++ s)).takeWhile isDigit = natText type ∧
      (natText type ++ (ascii ", '" ++ s)).dropWhile isDigit = ascii ", '" ++ s := by
  have digits : ∀ c ∈ natText type, isDigit c = true := isDigit_natText
  have stop : (ascii ", '" ++ s).takeWhile isDigit = [] := rfl
  have stop' : (ascii ", '" ++ s).dropWhile isDigit = ascii ", '" ++ s := rfl
  rw [takeWhile_append_of_pos digits, dropWhile_append_of_pos digits, stop, stop',
    append_nil]
  exact ⟨rfl, rfl⟩

variable {tail : Bytes}

theorem parseInsert_text (ends : tail.head? ≠ some quote) :
    parseInsert (doubleQuotes key ++ quote :: (ascii ", " ++ (natText type ++
      (ascii ", '" ++ (doubleQuotes value ++ quote :: tail))))) =
        if tail = insertTail then some ⟨key, type, value⟩ else none := by
  obtain ⟨take, drop⟩ := digits_type type (doubleQuotes value ++ quote :: tail)
  have comma : (ascii ", " ++ (natText type ++ (ascii ", '" ++
      (doubleQuotes value ++ quote :: tail)))).head? ≠ some quote := by
    change some (44 : UInt8) ≠ some quote
    decide
  simp only [parseInsert, readLiteral_doubleQuotes comma, expect_append, take, drop,
    readLiteral_doubleQuotes ends, digitsValue_natText, Option.bind_eq_bind, Option.bind_some]

theorem lookup_upsert (d : Relation) (k : Bytes) :
    lookupRow k (d.upsert row).1 = if k = row.key then some row else lookupRow k d.1 := by
  simp only [lookupRow, Relation.upsert]
  by_cases here : k = row.key
  · rw [if_pos here, find?_cons_of_pos (by simp [here])]
  · rw [if_neg here, find?_cons_of_neg (by simpa using Ne.symm here), find?_filter]
    congr 1
    funext r
    by_cases hit : r.key = k
    · simp [hit, here]
    · simp [hit]

theorem runQuery_insert (type : ℕ) (value : Bytes) (ends : tail.head? ≠ some quote) :
    runQuery (insertHead ++ (doubleQuotes key ++ quote :: (ascii ", " ++ (natText type ++
      (ascii ", '" ++ (doubleQuotes value ++ quote :: tail)))))) d =
        if tail = insertTail then (⟨true, []⟩, d.upsert ⟨key, type, value⟩) else (⟨false, []⟩, d) := by
  simp only [runQuery, expect_append, parseInsert_text ends]
  by_cases whole : tail = insertTail
  · simp only [if_pos whole]
  · simp only [if_neg whole]

theorem take_append_late {front : Bytes} {n k : ℕ} (short : n < (front ++ tail).length)
    (late : (front ++ tail).length < n + k) (long : k ≤ tail.length) :
    ∃ m, 0 < m ∧ m < tail.length ∧ (front ++ tail).take n = front ++ tail.take m := by
  rw [length_append] at short late
  refine ⟨n - front.length, by omega, by omega, ?_⟩
  rw [take_append, take_of_length_le (by omega)]

theorem take_insertText (type : ℕ) (escVal : Bytes) {n : ℕ}
    (short : n < (insertText escKey type escVal).length)
    (late : (insertText escKey type escVal).length < n + lastAssignment) :
    ∃ m, 0 < m ∧ m < insertTail.length ∧ (insertText escKey type escVal).take n =
      insertHead ++ (escKey ++ quote :: (ascii ", " ++ (natText type ++
        (ascii ", '" ++ (escVal ++ quote :: insertTail.take m))))) := by
  have regroup (tail : Bytes) : insertHead ++ (escKey ++ quote :: (ascii ", " ++ (natText type ++
      (ascii ", '" ++ (escVal ++ quote :: tail))))) = (insertHead ++ (escKey ++ quote ::
        (ascii ", " ++ (natText type ++ (ascii ", '" ++ (escVal ++ [quote])))))) ++ tail := by
    simp
  rw [insertText_eq, regroup] at short late
  have long : lastAssignment ≤ insertTail.length := by decide +kernel
  obtain ⟨m, pos, less, eq⟩ := take_append_late short late long
  refine ⟨m, pos, less, ?_⟩
  rw [insertText_eq, regroup, eq]
  exact (regroup _).symm

theorem lawful_postgres {F : Type} (fl : Floats F) : Lawful (postgres fl) Subtype.val where
  escape _ := rfl
  distinct d := d.2
  create _ := by
    have noInsert : expect insertHead createText = none := by decide +kernel
    have noSelect : expect selectHead createText = none := by decide +kernel
    simp only [postgres, runQuery, noInsert, noSelect, if_true, and_self]
  selectAll _ := by
    have noInsert : expect insertHead selectAllText = none := by decide +kernel
    have noSelect : expect selectHead selectAllText = none := by decide +kernel
    have other : selectAllText ≠ createText := by decide +kernel
    simp only [postgres, runQuery, noInsert, noSelect, if_neg other, if_true, and_self]
  selectOne key d := by
    have apart : expect insertHead (selectText (doubleQuotes key)) = none := rfl
    have split : selectText (doubleQuotes key) = selectHead ++ (doubleQuotes key ++ [quote]) := by
      simp only [selectText, selectHead, append_assoc]
      rfl
    have parsed : parseSelect (doubleQuotes key ++ [quote]) = some key := by
      have read : readLiteral (doubleQuotes key ++ [quote]) = some (key, []) :=
        readLiteral_doubleQuotes (by simp)
      simp [parseSelect, read]
    simp only [postgres, runQuery, apart]
    rw [split, expect_append]
    simp only [parsed, and_self]
  insert key type value d := by
    have ends : insertTail.head? ≠ some quote := by decide
    simp only [postgres, insertText_eq, runQuery_insert type value ends, if_true, true_and]
    exact lookup_upsert d
  cut key type value d n short late := by
    obtain ⟨m, pos, less, eq⟩ := take_insertText _ _ short late
    have ends : (insertTail.take m).head? ≠ some quote := by
      rw [head?_take, if_neg (by omega)]
      decide
    have differs : insertTail.take m ≠ insertTail := by
      intro same
      have := congrArg length same
      rw [length_take] at this
      omega
    simp only [postgres, eq, runQuery_insert type value ends, if_neg differs, and_self]

end BotManager.KvDatabase
