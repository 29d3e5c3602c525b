import BotManager.KvSetters
import BotManager.KvPersist

/-! The way of a value from one process to the next: a process boots, sets values and
flushes, and another one boots on the same database. For the integer types, BOOL and STR
the second finds every entry at its value and clean, provided that the upsert of every
entry dirty at the flush fits its buffer. -/

namespace BotManager.KvRestart
open List StepRun CText ChainedTable KvValue KvTable KvDatabase KvPersist

variable {F D : Type} {w : World F D} {rows : D → List Row}

def registerAll (w : World F D) (regs : List Decl) (s : Store F D) : Store F D :=
  regs.foldl (fun s r => (kvRegisterOwned w r s).2) s

/-- A process start: the keys registered before `kv_load`, the load, and those registered
after it. -/
def boot (w : World F D) (pre post : List Decl) (d : D) : Store F D :=
  registerAll w post (kvLoad w (registerAll w pre (emptyStore d))).2

def firstDecl (w : World F D) (key : Bytes) (regs : List Decl) : Option (Decl × Val F) :=
  regs.findSome? fun r =>
    if r.key = key then (strToVal w.floats r.type r.defaultText).map fun v => (r, v) else none

variable {r : Decl} {v : Val F} {e : Entry F} {d : D} {done : List Decl} {row : Bytes → Option Row}

variable {key : Bytes} {pre post : List Decl}

theorem firstDecl_some {regs : List Decl} (h : firstDecl w key regs = some (r, v)) :
    r ∈ regs ∧ r.key = key ∧ strToVal w.floats r.type r.defaultText = some v := by
  obtain ⟨x, mem, eq⟩ := exists_of_findSome?_eq_some h
  split at eq
  next here =>
    obtain ⟨u, parsed, pair⟩ := Option.map_eq_some_iff.mp eq
    cases pair
    exact ⟨mem, here, parsed⟩
  next => cases eq

theorem firstDecl_snoc (key : Bytes) (regs : List Decl) (r : Decl) :
    firstDecl w key (regs ++ [r]) = (firstDecl w key regs).or
      (if r.key = key then (strToVal w.floats r.type r.defaultText).map fun v => (r, v) else none) := by
  simp [firstDecl, findSome?_append]

def reread (w : World F D) : Option Row → Entry F → Entry F
  | none, e => e
  | some row, e => adopt w (row.type, row.value) e

def applyRow (w : World F D) : Option Row → Entry F → Entry F
  | none, e => e
  | some row, e => loadApplyRow w (row.type, row.value) e

theorem key_reread (row : Option Row) (e : Entry F) : (reread w row e).key = e.key := by
  cases row with
  | none => rfl
  | some row => exact congrArg Prod.fst (KvInvariant.identity_adopt e)

theorem key_loadApplyRow (row : ℤ × Bytes) (e : Entry F) : (loadApplyRow w row e).key = e.key :=
  congrArg Prod.fst (KvInvariant.identity_loadApplyRow e)

/-- `e` is the entry a registration and the row make. A floating-point value may differ
where the load found its text unchanged. -/
structure Agrees (w : World F D) (r : Decl) (v : Val F) (row : Option Row) (e : Entry F) : Prop where
  shape : e = { reread w row (declared r v) with val := e.val }
  typed : Typed r.type e.val
  exact : r.type.isFloat = false → e.val = (reread w row (declared r v)).val

theorem type_reread (row : Option Row) : (reread w row e).type = e.type := by
  cases row with
  | none => rfl
  | some row =>
    simp only [reread, adopt]
    split <;> rfl

theorem typed_rowVal {t : KvType} {row : ℤ × Bytes} (h : rowVal w t row = some v) : Typed t v := by
  simp only [rowVal] at h
  split at h
  · exact typed_strToVal h
  · cases h

theorem typed_reread (typed : Typed e.type e.val) (row : Option Row) :
    Typed e.type (reread w row e).val := by
  cases row with
  | none => exact typed
  | some row =>
    simp only [reread, adopt]
    split
    next v taken => exact typed_rowVal taken
    next => exact typed

structure Registered (w : World F D) (row : Bytes → Option Row) (regs : List Decl)
    (s : Store F D) : Prop where
  absent : ∀ k, firstDecl w k regs = none → findLocked k s = none
  present : ∀ k r v, firstDecl w k regs = some (r, v) →
    ∃ e, findLocked k s = some e ∧ Agrees w r v (row k) e

theorem atoi_natText (n : ℕ) : atoi (natText n) = n := by
  have text : natText n = intText n := by simp [intText]
  simp [atoi, text, scanInt_intText]

section Register

def visible (rows : D → List Row) (s : Store F D) (key : Bytes) : Option Row :=
  if s.kvLoaded then lookupRow key (rows s.db) else none

variable {s : Store F D}

theorem Registered.of_firstDecl {more : List Decl} (reg : Registered w row done s)
    (first : ∀ k, firstDecl w k more = firstDecl w k done) : Registered w row more s :=
  ⟨fun k none => reg.absent k (first k ▸ none), fun k r v some => reg.present k r v (first k ▸ some)⟩

structure Starting (w : World F D) (rows : D → List Row) (all : List Row) (loaded : Bool)
    (done : List Decl) (s : Store F D) : Prop where
  registered : Registered w (fun k => if loaded then lookupRow k all else none) done s
  placed : Placed (scheme F) s.table
  loaded : s.kvLoaded = loaded
  same : rows s.db = all

variable {all : List Row} {loaded : Bool} (law : Lawful w rows)
include law

theorem kvDbLookupOne_eq (short : key.length < kvKeySz) (tidy : Tidy (rows d)) :
    (kvDbLookupOne w key kvStrSz d).1 =
      (lookupRow key (rows d)).map (fun r => ((r.type : ℤ), r.value)) ∧
      rows (kvDbLookupOne w key kvStrSz d).2 = rows d := by
  obtain ⟨result, same⟩ := law.selectOne key d
  have fits : (selectText (SqlText.doubleQuotes key)).length < 256 + kvKeySz := by
    have head : (ascii "SELECT type, value FROM kv WHERE key = '").length = 40 := by decide
    have last : (ascii "'").length = 1 := by decide
    have escaped := SqlText.length_doubleQuotes_le key
    simp only [selectText, length_append, head, last, kvKeySz] at short ⊢
    omega
  simp only [kvDbLookupOne, law.escape, bounded_of_lt fits, result]
  cases found : lookupRow key (rows d) with
  | none => exact ⟨rfl, same⟩
  | some row =>
    refine ⟨?_, same⟩
    simp [atoi_natText, bounded_of_lt (tidy key row found)]

theorem rehydrate_cases (short : r.key.length < kvKeySz) (tidy : Tidy (rows s.db)) :
    ∃ d, rows d = rows s.db ∧
      rehydrate w r s = match visible rows s r.key with
        | none => { s with db := d }
        | some row => Store.update r.key (reread w (some row)) { s with db := d } := by
  by_cases loaded : s.kvLoaded = true
  · obtain ⟨row, same⟩ := kvDbLookupOne_eq law short tidy
    refine ⟨_, same, ?_⟩
    rw [rehydrate, visible, if_pos loaded, if_pos loaded]
    simp only [row]
    cases lookupRow r.key (rows s.db) with
    | none | some row => rfl
  · refine ⟨s.db, rfl, ?_⟩
    rw [rehydrate, visible, if_neg loaded, if_neg loaded]

theorem rehydrate_eq (short : r.key.length < kvKeySz) (tidy : Tidy (rows s.db)) :
    (rehydrate w r s).kvLoaded = s.kvLoaded ∧ rows (rehydrate w r s).db = rows s.db ∧
      ∀ k, findLocked k (rehydrate w r s) = if k = r.key then
        (findLocked r.key s).map (reread w (visible rows s r.key)) else findLocked k s := by
  obtain ⟨d, same, eq⟩ := rehydrate_cases law short tidy
  rw [eq]
  cases visible rows s r.key with
  | none =>
    refine ⟨rfl, same, fun k => ?_⟩
    have kept : reread w none = (id : Entry F → Entry F) := rfl
    rw [kept, Option.map_id_fun]
    by_cases here : k = r.key
    · rw [if_pos here, here]
      rfl
    · rw [if_neg here]
      rfl
  | some row => exact ⟨rfl, same, findLocked_update r.key (key_reread (some row)) _⟩

theorem Starting.snoc (starting : Starting w rows all loaded done s) (tidy : Tidy all)
    (short : r.key.length < kvKeySz) :
    Starting w rows all loaded (done ++ [r]) (kvRegisterOwned w r s).2 := by
  obtain ⟨reg, placed, rfl, rfl⟩ := starting
  have snoc (k : Bytes) := firstDecl_snoc (w := w) k done r
  cases parsed : strToVal w.floats r.type r.defaultText with
  | none =>
    have same : (kvRegisterOwned w r s).2 = s := by simp [kvRegisterOwned, parsed]
    have first (k : Bytes) : firstDecl w k (done ++ [r]) = firstDecl w k done := by
      simp [snoc, parsed]
    rw [same]
    exact ⟨reg.of_firstDecl first, placed, rfl, rfl⟩
  | some v =>
    cases first : firstDecl w r.key done with
    | some old =>
      obtain ⟨e, found, _⟩ := reg.present r.key old.1 old.2 first
      have same : (kvRegisterOwned w r s).2 = s := by simp [kvRegisterOwned, parsed, found]
      have first (k : Bytes) : firstDecl w k (done ++ [r]) = firstDecl w k done := by
        rw [snoc]
        by_cases here : r.key = k
        · rw [← here, first]
          rfl
        · simp [here]
      rw [same]
      exact ⟨reg.of_firstDecl first, placed, rfl, rfl⟩
    | none =>
      have absent := reg.absent r.key first
      have inserted : (kvRegisterOwned w r s).2 = rehydrate w r (insertEntry r v s) := by
        simp [kvRegisterOwned, parsed, absent]
      have whole := KvInvariant.placed_insertEntry placed short absent v
      obtain ⟨loaded, same, find⟩ := rehydrate_eq law (s := insertEntry r v s) short tidy
      rw [inserted]
      refine ⟨⟨fun k h => ?_, fun k x u h => ?_⟩,
        (KvInvariant.inPlace_rehydrate _).placed whole, loaded, same⟩
      · rw [snoc, parsed] at h
        obtain ⟨before, other⟩ := Option.or_eq_none_iff.mp h
        have other : ¬ r.key = k := by
          intro here
          simp [here] at other
        rw [find, if_neg (Ne.symm other), findLocked_insertEntry short, if_neg other]
        exact reg.absent k before
      · rw [snoc, parsed] at h
        by_cases here : r.key = k
        · subst here
          rw [first, if_pos rfl] at h
          cases h
          rw [find, if_pos rfl, findLocked_insertEntry short, if_pos rfl]
          have typed : Typed (declared r v).type (declared r v).val := typed_strToVal parsed
          exact ⟨_, rfl, rfl, typed_reread typed _, fun _ => rfl⟩
        · rw [if_neg here, Option.or_none] at h
          rw [find, if_neg (Ne.symm here), findLocked_insertEntry short, if_neg here]
          exact reg.present k x u h

theorem Starting.registerAll (starting : Starting w rows all loaded done s) (tidy : Tidy all)
    (short : ∀ r ∈ regs, r.key.length < kvKeySz) :
    Starting w rows all loaded (done ++ regs) (registerAll w regs s) := by
  induction regs generalizing done s with
  | nil => simpa [KvRestart.registerAll] using starting
  | cons r rest ih =>
    have next := starting.snoc law tidy (short r mem_cons_self)
    have whole := ih next fun x mem => short x (.tail _ mem)
    rw [append_assoc] at whole
    exact whole

end Register

section Load

theorem loadRow_columns (r : Row) :
    loadRow w s r.columns = s.update r.key (loadApplyRow w (r.type, r.value)) := by
  simp [loadRow, Row.columns, atoi_natText]

theorem foldl_loadRow {l : List Row} (nodup : (l.map (·.key)).Nodup) (s : Store F D) :
    ((l.map Row.columns).foldl (loadRow w) s).db = s.db ∧
      ∀ k, findLocked k ((l.map Row.columns).foldl (loadRow w) s) =
        (findLocked k s).map (applyRow w (lookupRow k l)) := by
  induction l generalizing s with
  | nil =>
    refine ⟨rfl, fun k => ?_⟩
    have kept : applyRow w (lookupRow k []) = (id : Entry F → Entry F) := rfl
    rw [kept, Option.map_id_fun]
    rfl
  | cons r rest ih =>
    obtain ⟨fresh, nodup⟩ := nodup_cons.mp nodup
    obtain ⟨db, find⟩ := ih nodup (loadRow w s r.columns)
    have update := findLocked_update r.key (key_loadApplyRow (w := w) (r.type, r.value)) s
    simp only [map_cons, foldl_cons]
    rw [loadRow_columns] at db find ⊢
    refine ⟨db, fun k => ?_⟩
    rw [find, update]
    by_cases here : k = r.key
    · have later : lookupRow k rest = none := by
        refine find?_eq_none.mpr fun x mem same => fresh ?_
        exact mem_map.mpr ⟨x, mem, (of_decide_eq_true same).trans here⟩
      have kept : applyRow w none = (id : Entry F → Entry F) := rfl
      have first : lookupRow k (r :: rest) = some r := by simp [lookupRow, here]
      rw [if_pos here, later, kept, Option.map_id_fun, first, here]
      rfl
    · have later : lookupRow k (r :: rest) = lookupRow k rest := by
        simp [lookupRow, Ne.symm here]
      rw [if_neg here, later]

theorem kvLoad_eq (law : Lawful w rows) (s : Store F D) :
    (kvLoad w s).2.kvLoaded = true ∧ rows (kvLoad w s).2.db = rows s.db ∧
      ∀ k, findLocked k (kvLoad w s).2 = (findLocked k s).map (applyRow w (lookupRow k (rows s.db))) := by
  obtain ⟨created, same⟩ := law.create s.db
  obtain ⟨result, same'⟩ := law.selectAll (w.dbQuery createText s.db).2
  have whole := same'.trans same
  obtain ⟨db, find⟩ := foldl_loadRow (w := w) (law.distinct s.db)
    { s with db := (w.dbQuery selectAllText (w.dbQuery createText s.db).2).2 }
  simp only [kvLoad, created, result, same, Bool.not_true, Bool.false_eq_true, if_false]
  exact ⟨trivial, by rw [db, whole], find⟩

theorem Agrees.load (agrees : Agrees w r v none e) (row : Option Row) :
    Agrees w r v row (applyRow w row e) := by
  cases row with
  | none => exact agrees
  | some row =>
    obtain ⟨u, rfl⟩ : ∃ u, e = { declared r v with val := u } := ⟨e.val, agrees.shape⟩
    have old : Typed r.type u := agrees.typed
    cases taken : rowVal w r.type (row.type, row.value) with
    | none =>
      have loaded : applyRow w (some row) { declared r v with val := u } =
          Entry.clean { declared r v with val := u } := by
        simp only [applyRow, loadApplyRow]
        rw [show rowVal w (declared r v).type _ = none from taken]
      have adopted : reread w (some row) (declared r v) = (declared r v).clean := by
        simp only [reread, adopt]
        rw [show rowVal w (declared r v).type _ = none from taken]
      rw [loaded]
      exact ⟨by rw [adopted]; rfl, old, by rw [adopted]; exact agrees.exact⟩
    | some x =>
      have loaded : applyRow w (some row) { declared r v with val := u } =
          { declared r v with val := if valChanged w.floats r.type u x then x else u, dirty := false } := by
        simp only [applyRow, loadApplyRow]
        rw [show rowVal w (declared r v).type _ = some x from taken]
        rfl
      have adopted : reread w (some row) (declared r v) =
          { declared r v with val := x, dirty := false } := by
        simp only [reread, adopt]
        rw [show rowVal w (declared r v).type _ = some x from taken]
      rw [loaded]
      refine ⟨by rw [adopted], ?_, fun float => ?_⟩
      · split
        · exact typed_rowVal taken
        · exact old
      · rw [adopted]
        split
        next => rfl
        next same => exact (valChanged_eq_false old (typed_rowVal taken) float).mp (by simpa using same)

end Load

theorem boot_spec (law : Lawful w rows)
    (short : ∀ r ∈ pre ++ post, r.key.length < kvKeySz) (tidy : Tidy (rows d)) :
    Registered w (fun k => lookupRow k (rows d)) (pre ++ post) (boot w pre post d) ∧
      Placed (scheme F) (boot w pre post d).table ∧ (boot w pre post d).kvLoaded = true ∧
      rows (boot w pre post d).db = rows d := by
  have start : Starting w rows (rows d) false [] (emptyStore d) :=
    ⟨⟨fun _ _ => rfl, nofun⟩, placed_empty, rfl, rfl⟩
  have before := start.registerAll law tidy fun r mem => short r (mem_append_left _ mem)
  obtain ⟨loaded, same, find⟩ := kvLoad_eq law (registerAll w pre (emptyStore d))
  rw [before.same] at same find
  have load : Starting w rows (rows d) true pre (kvLoad w (registerAll w pre (emptyStore d))).2 := by
    refine ⟨⟨fun k none => ?_, fun k r v some => ?_⟩,
      KvInvariant.inPlace_load.placed before.placed, loaded, same⟩
    · rw [find, before.registered.absent k none]
      rfl
    · obtain ⟨e, found, agrees⟩ := before.registered.present k r v some
      rw [find, found]
      exact ⟨_, rfl, agrees.load _⟩
  obtain ⟨registered, placed, loaded, same⟩ :=
    load.registerAll law tidy fun r mem => short r (mem_append_right _ mem)
  exact ⟨registered, placed, loaded, same⟩

section Session

/-- The operations of a running process. The integers are those of the C types. -/
def Serves : KvInvariant.KvOp F → Prop
  | .set _ _ => True
  | .setInt _ v => int64Min ≤ v ∧ v ≤ int64Max
  | .setUint _ v => 0 ≤ v ∧ v ≤ uint64Max
  | .setFloat _ _ => True
  | .flush => True
  | _ => False

structure Live (w : World F D) (r : Decl) (v : Val F) (row : Option Row) (e : Entry F) : Prop where
  key : e.key = r.key
  type : e.type = r.type
  typed : Typed r.type e.val
  clean : r.type.isFloat = false → e.dirty = false →
    row.isSome = true ∧ e.val = (reread w row (declared r v)).val

structure Serving (w : World F D) (rows : D → List Row) (regs : List Decl) (s : Store F D) : Prop where
  placed : Placed (scheme F) s.table
  loaded : s.kvLoaded = true
  tidy : Tidy (rows s.db)
  absent : ∀ k, firstDecl w k regs = none → findLocked k s = none
  present : ∀ k r v, firstDecl w k regs = some (r, v) →
    ∃ e, findLocked k s = some e ∧ Live w r v (lookupRow k (rows s.db)) e

variable {regs : List Decl} {s : Store F D}

theorem Agrees.live {row : Option Row} (agrees : Agrees w r v row e)
    (short : r.key.length < kvKeySz) : Live w r v row e := by
  obtain ⟨shape, typed, exact⟩ := agrees
  have key : e.key = (reread w row (declared r v)).key := by rw [shape]
  have type : e.type = (reread w row (declared r v)).type := by rw [shape]
  have dirty : e.dirty = (reread w row (declared r v)).dirty := by rw [shape]
  refine ⟨?_, ?_, typed, fun float clean => ⟨?_, exact float⟩⟩
  · rw [key, key_reread]
    exact bounded_of_lt short
  · rw [type, type_reread]
    rfl
  · cases row with
    | none =>
      rw [dirty] at clean
      cases clean
    | some row => rfl

theorem serving_boot (law : Lawful w rows)
    (short : ∀ r ∈ pre ++ post, r.key.length < kvKeySz) (tidy : Tidy (rows d)) :
    Serving w rows (pre ++ post) (boot w pre post d) := by
  obtain ⟨registered, placed, loaded, same⟩ := boot_spec law short tidy
  refine ⟨placed, loaded, same.symm ▸ tidy, registered.absent, fun k r v some => ?_⟩
  obtain ⟨e, found, agrees⟩ := registered.present k r v some
  rw [same]
  exact ⟨e, found, agrees.live (short r (firstDecl_some some).1)⟩

variable (serving : Serving w rows regs s)
include serving

theorem Serving.declared (mem : e ∈ entries s.table) :
    ∃ r v, firstDecl w e.key regs = some (r, v) ∧ Live w r v (lookupRow e.key (rows s.db)) e := by
  have found : findLocked e.key s = some e := serving.placed.find_iff.mpr ⟨mem, rfl⟩
  cases first : firstDecl w e.key regs with
  | none =>
    rw [serving.absent _ first] at found
    cases found
  | some pair =>
    obtain ⟨e', found', live⟩ := serving.present _ pair.1 pair.2 first
    cases found.symm.trans found'
    exact ⟨pair.1, pair.2, rfl, live⟩

theorem Serving.ready
    (short : ∀ r ∈ regs, r.key.length < kvKeySz) : Ready rows s := by
  refine ⟨serving.placed, serving.loaded, fun e mem => ?_, serving.tidy⟩
  obtain ⟨r, v, first, live⟩ := serving.declared mem
  refine ⟨?_, live.type ▸ live.typed⟩
  rw [live.key]
  exact short r (firstDecl_some first).1

theorem serving_setWith (key : Bytes)
    {convert : KvType → Option (Val F)} (typed : ∀ t v, convert t = some v → Typed t v) :
    Serving w rows regs (setWith w key convert s).2 := by
  rcases setWith_cases w key convert s with same | ⟨e, new, found, converted, changed⟩
  · rw [same]
    exact serving
  · have lookup := findLocked_update key
      (g := fun e => { e with val := new, dirty := true }) (fun _ => rfl) s
    rw [changed]
    refine ⟨serving.placed.modify fun _ => rfl, serving.loaded, serving.tidy, fun k none => ?_,
      fun k r v some => ?_⟩
    · have absent := serving.absent k none
      rw [lookup]
      split
      next here =>
        rw [here, found] at absent
        cases absent
      next => exact absent
    · obtain ⟨old, foundOld, live⟩ := serving.present k r v some
      rw [lookup]
      split
      next here =>
        rw [here, found] at foundOld
        cases foundOld
        rw [found]
        refine ⟨_, rfl, live.key, live.type, ?_, nofun⟩
        exact typed r.type new (live.type ▸ converted)
      next => exact ⟨old, foundOld, live⟩

omit serving

theorem val_reread_rowOf (type : e.type = r.type) (typed : Typed r.type e.val)
    (float : r.type.isFloat = false) :
    (reread w (some (rowOf w e)) (declared r v)).val = e.val := by
  have taken : rowVal w (declared r v).type (((rowOf w e).type : ℤ), (rowOf w e).value) = some e.val := by
    have parsed := strToVal_valToStr w.floats typed float
    simp only [rowVal, rowOf, type, declared, if_true, parsed]
  simp only [reread, adopt]
  rw [taken]

theorem serving_flush (law : Lawful w rows) (floats : ShortFloats w.floats)
    (serving : Serving w rows regs s) (short : ∀ r ∈ regs, r.key.length < kvKeySz) :
    Serving w rows regs (kvFlush w s).2 := by
  have ready := serving.ready short
  obtain ⟨placed, loaded, _, tidy⟩ := ready_flush law floats ready
  obtain ⟨written, kept⟩ := kvFlush_rows law floats ready
  have lookup := kvFlush_find law floats ready
  refine ⟨placed, loaded, tidy, fun k none => ?_, fun k r v some => ?_⟩
  · rw [lookup, serving.absent k none]
    rfl
  · obtain ⟨e, found, live⟩ := serving.present k r v some
    obtain ⟨mem, key⟩ := ready.find_iff.mp found
    rw [lookup, found]
    refine ⟨_, rfl, ?_⟩
    cases save : saved w e with
    | true =>
      have row := written e mem save
      rw [key] at row
      rw [flushed, if_pos save, row]
      refine ⟨live.key, live.type, live.typed, fun float _ => ⟨rfl, ?_⟩⟩
      exact (val_reread_rowOf live.type live.typed float).symm
    | false =>
      have untouched : ∀ x ∈ entries s.table, saved w x = true → x.key ≠ k := by
        intro x memx savex here
        have foundx := ready.find_iff.mpr ⟨memx, here⟩
        cases found.symm.trans foundx
        rw [save] at savex
        cases savex
      rw [flushed, if_neg (by simp [save]), kept k untouched]
      exact live

theorem serving_step (law : Lawful w rows) (floats : ShortFloats w.floats)
    (short : ∀ r ∈ regs, r.key.length < kvKeySz) {op : KvInvariant.KvOp F} {u : Store F D}
    (serving : Serving w rows regs s) (serves : Serves op)
    (h : KvInvariant.step w s op = some u) : Serving w rows regs u := by
  cases op with
  | register | reset | delete | deletePrefix | unregister | reclaimOwned | load => cases serves
  | set key text =>
    cases h
    exact serving_setWith serving key fun t v => typed_strToVal
  | setInt key v =>
    cases h
    exact serving_setWith serving key fun t x => KvSetters.typed_intVal serves.1 serves.2
  | setUint key v =>
    cases h
    exact serving_setWith serving key fun t x => KvSetters.typed_uintVal serves.1 serves.2
  | setFloat key x =>
    cases h
    exact serving_setWith serving key fun t y => KvSetters.typed_realVal
  | flush =>
    cases h
    exact serving_flush law floats serving short

end Session

/-- Every exact entry of `s` comes back, at its value and clean, in a process that boots on
the database. -/
def Restored (w : World F D) (s : Store F D) (pre post : List Decl) (d : D) : Prop :=
  ∀ e ∈ entries s.table, e.type.isFloat = false →
    ∃ e', findLocked e.key (boot w pre post d) = some e' ∧ e'.val = e.val ∧ e'.dirty = false

theorem persistence_iff (law : Lawful w rows) (floats : ShortFloats w.floats)
    {pre post pre' post' : List Decl} (short : ∀ r ∈ pre ++ post, r.key.length < kvKeySz)
    (short' : ∀ r ∈ pre' ++ post', r.key.length < kvKeySz)
    (same : ∀ k, firstDecl w k (pre' ++ post') = firstDecl w k (pre ++ post)) {d : D}
    (tidy : Tidy (rows d)) {labels : List (KvInvariant.KvOp F)} {s : Store F D}
    (run : Run (KvInvariant.step w) (fun _ op => Serves op) (boot w pre post d) labels s) :
    ((kvFlush w s).1 = .success ∧ Restored w s pre' post' (kvFlush w s).2.db) ↔
      ∀ e ∈ entries s.table, e.dirty = true → Fits w e := by
  have serving : Serving w rows (pre ++ post) s :=
    run.invariant (serving_step law floats short)
      (serving_boot law short tidy)
  have ready := serving.ready short
  rw [← kvFlush_status law floats ready]
  refine ⟨fun h => h.1, fun success => ⟨success, fun e mem float => ?_⟩⟩
  have fits := (kvFlush_status law floats ready).mp success e mem
  obtain ⟨r, v, first, live⟩ := serving.declared mem
  have after := serving_flush law floats serving short
  obtain ⟨kept, found, live'⟩ := after.present e.key r v first
  have there : findLocked e.key s = some e := ready.find_iff.mpr ⟨mem, rfl⟩
  rw [kvFlush_find law floats ready, there] at found
  cases found
  have clean : (flushed w e).dirty = false ∧ (flushed w e).val = e.val := by
    cases dirty : e.dirty with
    | true => simp [flushed, saved, dirty, fits dirty, Entry.clean]
    | false => simp [flushed, saved, dirty]
  obtain ⟨some, value⟩ := live'.clean (live.type ▸ float) clean.1
  obtain ⟨registered, _⟩ := boot_spec law short' after.tidy
  obtain ⟨e', found', agrees⟩ := registered.present e.key r v ((same e.key).trans first)
  refine ⟨e', found', ?_, ?_⟩
  · rw [agrees.exact (live.type ▸ float), ← value, clean.2]
  · rw [agrees.shape]
    obtain ⟨row, row_eq⟩ := Option.isSome_iff_exists.mp some
    rw [row_eq]
    simp only [reread, adopt]
    split <;> rfl

def sampleWorld : World Unit Relation := postgres blankWorld.floats

def sampleDb : Relation := ⟨[], nodup_nil⟩

theorem sampleFloats : ShortFloats sampleWorld.floats := fun _ _ => Nat.zero_le _

theorem sampleTidy : Tidy sampleDb.val := nofun

def sampleRegs : List Decl := [sampleDecl (ascii "name") .str, sampleDecl (ascii "port") .int32]

def sampleStore : Store Unit Relation :=
  (kvSetInt sampleWorld (ascii "port") 70 (kvSet sampleWorld (ascii "name") (ascii "it's")
    (boot sampleWorld sampleRegs [] sampleDb)).2).2

theorem sample_run : Run (KvInvariant.step sampleWorld) (fun _ op => Serves op)
    (boot sampleWorld sampleRegs [] sampleDb)
    [.set (ascii "name") (ascii "it's"), .setInt (ascii "port") 70] sampleStore :=
  .cons trivial rfl (.cons (show int64Min ≤ 70 ∧ 70 ≤ int64Max by decide) rfl (.nil _))

theorem sampleLaw : Lawful sampleWorld Subtype.val := lawful_postgres _

theorem persistence_sample : (kvFlush sampleWorld sampleStore).1 = .success ∧
    Restored sampleWorld sampleStore [] sampleRegs (kvFlush sampleWorld sampleStore).2.db := by
  have fits : ∀ e ∈ entries sampleStore.table, e.dirty = true → Fits sampleWorld e := by decide +kernel
  have short : ∀ r ∈ sampleRegs ++ [], r.key.length < kvKeySz := by decide
  have same (k : Bytes) : firstDecl sampleWorld k ([] ++ sampleRegs) =
      firstDecl sampleWorld k (sampleRegs ++ []) := rfl
  have short' : ∀ r ∈ [] ++ sampleRegs, r.key.length < kvKeySz := short
  exact (persistence_iff sampleLaw sampleFloats short short' same sampleTidy sample_run).mpr fits

theorem length_doubleQuotes_replicate :
    (SqlText.doubleQuotes (replicate n SqlText.quote)).length = 2 * n := by
  induction n with
  | zero => rfl
  | succ n ih =>
    simp [replicate_succ, SqlText.doubleQuotes] at ih ⊢
    omega

theorem set_after_boot (law : Lawful w rows) (short : ∀ x ∈ [r] ++ [], x.key.length < kvKeySz)
    {new : Val F} (parsed : strToVal w.floats r.type r.defaultText = some v)
    (exact : r.type.isFloat = false) (empty : rows d = []) {text : Bytes}
    (converted : strToVal w.floats r.type text = some new) :
    findLocked r.key (kvSet w r.key text (boot w [r] [] d)).2 =
      some { declared r v with val := new } := by
  have tidy : Tidy (rows d) := fun k row found => by
    rw [empty] at found
    cases found
  obtain ⟨registered, _⟩ := boot_spec law short tidy
  have first : firstDecl w r.key ([r] ++ []) = some (r, v) := by simp [firstDecl, parsed]
  obtain ⟨e, found, agrees⟩ := registered.present r.key r v first
  have none : lookupRow r.key (rows d) = none := by
    rw [empty]
    rfl
  simp only [none] at agrees
  have fresh : e = declared r v := by
    have val := agrees.exact exact
    rw [agrees.shape, val]
    rfl
  have typed : Typed r.type v := typed_strToVal parsed
  subst fresh
  have set : kvSet w r.key text (boot w [r] [] d) =
      applyVal w (declared r v) new (boot w [r] [] d) := by
    rw [kvSet, KvSetters.setWith_of_found found]
    simp only [declared, converted]
  have named : (declared r v).key = r.key := bounded_of_lt (short r mem_cons_self)
  rw [set, applyVal]
  split
  next changed =>
    rw [named, findLocked_update r.key (g := fun e => { e with val := new, dirty := true })
      (fun _ => rfl), if_pos rfl, found]
    rfl
  next unchanged =>
    have same : v = new := (valChanged_eq_false typed (typed_strToVal converted) exact).mp
      (by simpa [declared] using unchanged)
    rw [found, ← same]
    rfl

def quotes : Decl := sampleDecl (replicate 191 SqlText.quote) .str

theorem not_persistence : ¬ ∀ (pre post pre' post' : List Decl),
    (∀ r ∈ pre ++ post, r.key.length < kvKeySz) → (∀ r ∈ pre' ++ post', r.key.length < kvKeySz) →
    (∀ k, firstDecl sampleWorld k (pre' ++ post') = firstDecl sampleWorld k (pre ++ post)) →
    ∀ (d : Relation), Tidy d.val → ∀ labels s,
      Run (KvInvariant.step sampleWorld) (fun _ op => Serves op) (boot sampleWorld pre post d) labels s →
        (kvFlush sampleWorld s).1 = .success ∧
          Restored sampleWorld s pre' post' (kvFlush sampleWorld s).2.db := by
  intro all
  have law := sampleLaw
  have short : ∀ r ∈ [quotes] ++ [], r.key.length < kvKeySz := by
    intro r mem
    obtain rfl := mem_singleton.mp mem
    exact lt_of_eq_of_lt length_replicate (by decide)
  have run : Run (KvInvariant.step sampleWorld) (fun _ op => Serves op)
      (boot sampleWorld [quotes] [] sampleDb) [.set quotes.key (replicate 255 SqlText.quote)]
      (kvSet sampleWorld quotes.key (replicate 255 SqlText.quote)
        (boot sampleWorld [quotes] [] sampleDb)).2 := .cons trivial rfl (.nil _)
  have success := (all _ _ _ _ short short (fun _ => rfl) sampleDb sampleTidy _ _ run).1
  have serving := serving_setWith (serving_boot law short sampleTidy) quotes.key
    (fun t v (h : strToVal sampleWorld.floats t (replicate 255 SqlText.quote) = some v) =>
      typed_strToVal h)
  have ready := serving.ready short
  have text : strToVal sampleWorld.floats .str (replicate 255 SqlText.quote) =
      some (.str (replicate 255 SqlText.quote)) := by
    rw [strToVal, bounded_of_lt (lt_of_eq_of_lt length_replicate (by decide))]
  have found := set_after_boot law short (v := .str (ascii "0")) rfl rfl
    (show sampleDb.val = [] from rfl) text
  have fits := (kvFlush_status law sampleFloats ready).mp success _ (ready.find_iff.mp found).1 rfl
  have key : (declared quotes (.str (ascii "0")) : Entry Unit).key = replicate 191 SqlText.quote :=
    bounded_of_lt (short quotes mem_cons_self)
  have value : valToStr sampleWorld.floats .str (.str (replicate 255 SqlText.quote)) kvValBuf =
      replicate 255 SqlText.quote :=
    bounded_of_lt (lt_of_eq_of_lt length_replicate (by decide))
  have type : (natText KvType.str.id).length = 2 := by decide
  simp only [Fits, length_statement, rowOf, key] at fits
  rw [show (declared quotes (Val.str (ascii "0")) : Entry Unit).type = .str from rfl, value, type,
    length_doubleQuotes_replicate, length_doubleQuotes_replicate] at fits
  simp only [persistBuf, kvKeySz, kvValBuf] at fits
  omega

end BotManager.KvRestart
