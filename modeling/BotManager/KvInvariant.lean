import BotManager.StepRun
import BotManager.KvTable

/-! The table invariant of core/kv.c over runs of its operations: keys are distinct,
entries sit in the chain their key selects, `kv_count` counts them, and what was
registered is found until an operation that names it takes it out.

It needs registered keys that fit the key field. A longer key is stored cut, in the
chain chosen by the whole key, and is then found under neither name. -/

namespace BotManager.KvInvariant
open List StepRun CText ChainedTable KvValue KvTable

variable {F D : Type} {w : World F D}

inductive KvOp (F : Type)
  | register (r : Decl)
  | set (key text : Bytes)
  | setInt (key : Bytes) (v : ℤ)
  | setUint (key : Bytes) (v : ℤ)
  | setFloat (key : Bytes) (x : F)
  | reset (key : Bytes)
  | delete (key : Bytes)
  | deletePrefix (start : Bytes)
  | unregister (key : Bytes)
  | reclaimOwned (lo hi : ℕ)
  | load
  | flush

def step (w : World F D) (s : Store F D) : KvOp F → Option (Store F D)
  | .register r => some (kvRegisterOwned w r s).2
  | .set key text => some (kvSet w key text s).2
  | .setInt key v => some (kvSetInt w key v s).2
  | .setUint key v => some (kvSetUint w key v s).2
  | .setFloat key x => some (kvSetFloat w key x s).2
  | .reset key => some (kvReset w key s).2
  | .delete key => some (kvDelete w key s).2
  | .deletePrefix start => some (kvDeletePrefix w start s).2
  | .unregister key => some (kvUnregister key s).2
  | .reclaimOwned lo hi => some (kvReclaimOwned w lo hi s).2
  | .load => some (kvLoad w s).2
  | .flush => some (kvFlush w s).2

/-- A registered key fits its field, and the 32-bit counter has room. -/
def Meets (s : Store F D) : KvOp F → Prop
  | .register r => r.key.length < kvKeySz ∧ (entries s.table).length + 1 < wordSize
  | _ => True

def Names (r : Decl) : KvOp F → Prop
  | .delete key => key = r.key
  | .unregister key => key = r.key
  | .deletePrefix start => start ≠ [] ∧ start <+: r.key
  | .reclaimOwned lo hi => lo ≤ r.ownerPc ∧ r.ownerPc < hi
  | _ => False

structure TableOk (s : Store F D) : Prop where
  distinct : ((entries s.table).map (·.key)).Nodup
  bucket : ∀ b, ∀ e ∈ s.table b, hashKey e.key = b
  count : s.kvCount = (entries s.table).length

def identity (e : Entry F) : Bytes × ℕ := (e.key, e.ownerPc)

structure InPlace (s u : Store F D) : Prop where
  same : ∀ b, (u.table b).map identity = (s.table b).map identity
  count : u.kvCount = s.kvCount

theorem InPlace.rfl (s : Store F D) : InPlace s s := ⟨fun _ => .refl _, .refl _⟩

variable {s u : Store F D} {r : Decl}

theorem InPlace.trans {t : Store F D} (first : InPlace s t) (second : InPlace t u) : InPlace s u :=
  ⟨fun b => (second.same b).trans (first.same b), second.count.trans first.count⟩

theorem InPlace.placed (inPlace : InPlace s u) (placed : Placed (scheme F) s.table) :
    Placed (scheme F) u.table := by
  refine placed.of_keys fun b => ?_
  have keys := congrArg (map Prod.fst) (inPlace.same b)
  rw [map_map, map_map] at keys
  exact keys

theorem InPlace.length (inPlace : InPlace s u) :
    (entries u.table).length = (entries s.table).length := length_of_map_eq inPlace.same

theorem InPlace.find (inPlace : InPlace s u) (key : Bytes) :
    (findLocked key u).map identity = (findLocked key s).map identity :=
  find_map_of_eq (c := scheme F) Prod.fst (fun _ => .refl _) inPlace.same

theorem inPlace_update {f : Entry F → Entry F}
    (keeps : ∀ e, identity (f e) = identity e) (s : Store F D) : InPlace s (s.update key f) :=
  ⟨map_modify keeps, .refl _⟩

theorem inPlace_setWith (convert : KvType → Option (Val F)) :
    InPlace s (setWith w key convert s).2 := by
  rcases setWith_cases w key convert s with same | ⟨_, new, _, _, changed⟩
  · rw [same]
    exact .rfl s
  · rw [changed]
    refine inPlace_update ?_ s
    intro e
    rfl

theorem identity_adopt (e : Entry F) : identity (adopt w row e) = identity e := by
  simp only [adopt]
  split <;> rfl

theorem identity_loadApplyRow (e : Entry F) : identity (loadApplyRow w row e) = identity e := by
  simp only [loadApplyRow]
  split <;> rfl

theorem inPlace_rehydrate (s : Store F D) : InPlace s (rehydrate w r s) := by
  simp only [rehydrate]
  split
  · split
    · have read : InPlace s { s with db := (kvDbLookupOne w r.key kvStrSz s.db).2 } :=
        ⟨fun _ => .refl _, .refl _⟩
      exact read.trans (inPlace_update identity_adopt _)
    · exact ⟨fun _ => .refl _, .refl _⟩
  · exact .rfl s

theorem inPlace_reset : InPlace s (kvReset w key s).2 := by
  simp only [kvReset]
  split
  · exact .rfl s
  · split
    · exact .rfl s
    · have reverted : InPlace s (s.update key (revert w)) := by
        refine inPlace_update ?_ s
        intro e
        rfl
      exact reverted.trans ⟨fun _ => .refl _, .refl _⟩

theorem inPlace_loadRow : InPlace s (loadRow w s row) := by
  simp only [loadRow]
  split
  · exact inPlace_update identity_loadApplyRow s
  · exact .rfl s

theorem inPlace_load : InPlace s (kvLoad w s).2 := by
  have rows (l : List (List (Option Bytes))) (s : Store F D) : InPlace s (l.foldl (loadRow w) s) := by
    induction l generalizing s with
    | nil => exact .rfl s
    | cons row rest ih => exact inPlace_loadRow.trans (ih _)
  simp only [kvLoad]
  split
  · exact ⟨fun _ => .refl _, .refl _⟩
  · split
    · exact ⟨fun _ => .refl _, .refl _⟩
    · have loaded := rows (w.dbQuery selectAllText (w.dbQuery createText s.db).2).1.rows
        { s with db := (w.dbQuery selectAllText (w.dbQuery createText s.db).2).2 }
      exact ⟨loaded.same, loaded.count⟩

theorem identity_flushEntry (e : Entry F) (state : D × ℕ) :
    identity (flushEntry w e state).1 = identity e := by
  simp only [flushEntry]
  split
  · split <;> rfl
  · rfl

theorem inPlace_flush : InPlace s (kvFlush w s).2 := by
  simp only [kvFlush]
  split
  · exact .rfl s
  · refine ⟨fun b => ?_, .refl _⟩
    exact map_walk identity_flushEntry _ b

structure Sound (s : Store F D) : Prop where
  placed : Placed (scheme F) s.table
  count : s.kvCount = (entries s.table).length
  room : (entries s.table).length < wordSize

theorem sound_empty (d : D) : Sound (emptyStore d : Store F D) :=
  ⟨placed_empty, by simp [emptyStore, entries], by simp [emptyStore, entries, wordSize]⟩

theorem placed_insertEntry (placed : Placed (scheme F) s.table) (short : r.key.length < kvKeySz)
    (absent : findLocked r.key s = none) (v : Val F) :
    Placed (scheme F) (insertEntry r v s).table := by
  have whole : (declared r v).key = r.key := bounded_of_lt short
  have fresh : find (scheme F) (declared r v).key s.table = none := by
    rw [whole]
    exact absent
  have pushed := placed.push (e := declared r v) fresh
  simp only [scheme, whole] at pushed
  exact pushed

variable {op : KvOp F} {labels : List (KvOp F)}

section Kept

variable (sound : Sound s)
include sound

theorem Sound.inPlace (inPlace : InPlace s u) : Sound u :=
  ⟨inPlace.placed sound.placed, by rw [inPlace.count, inPlace.length, sound.count],
    inPlace.length ▸ sound.room⟩

theorem Sound.tableOk : TableOk s :=
  ⟨sound.placed.nodup, sound.placed.bucket, sound.count⟩

theorem sound_insertEntry (short : r.key.length < kvKeySz)
    (room : (entries s.table).length + 1 < wordSize) (absent : findLocked r.key s = none) :
    Sound (insertEntry r v s) := by
  have length : (entries (insertEntry r v s).table).length = (entries s.table).length + 1 :=
    length_push
  refine ⟨placed_insertEntry sound.placed short absent v, ?_, length ▸ room⟩
  rw [length]
  simp only [insertEntry, sound.count]
  exact Nat.mod_eq_of_lt room

theorem Sound.uncount {t : Chains (Entry F) kvBuckets} {removed : ℕ} (placed : Placed (scheme F) t)
    (length : (entries t).length + removed = (entries s.table).length) :
    Sound (Store.uncount removed { s with table := t }) := by
  have room := sound.room
  refine ⟨placed, ?_, ?_⟩
  · simp only [Store.uncount, sound.count, wordSize] at room ⊢
    omega
  · simp only [Store.uncount]
    omega

theorem sound_unlink : Sound (unlink key s).2 := by
  simp only [unlink]
  split
  · exact sound
  next e found =>
    refine sound.uncount sound.placed.remove ?_
    have length := length_remove (c := scheme F) (k := key) (t := s.table)
    have some : (find (scheme F) key s.table).isSome = true := by
      rw [show find (scheme F) key s.table = _ from found]
      rfl
    rwa [if_pos some] at length

theorem sound_unlinkAll (test : Entry F → Bool) : Sound (unlinkAll test s).2 := by
  refine sound.uncount (sound.placed.sift _) ?_
  rw [entries_sift, ← countP_eq_length_filter]
  have split := length_eq_countP_add_countP test (l := entries s.table)
  have same : (entries s.table).countP (fun e => !test e) =
      (entries s.table).countP (fun e => ¬ test e = true) := by
    congr 1
    funext e
    cases test e <;> rfl
  rw [same]
  omega

theorem sound_db : Sound { s with db := d } :=
  { sound with }

theorem sound_register (meets : Meets (F := F) s (.register r)) :
    Sound (kvRegisterOwned w r s).2 := by
  simp only [kvRegisterOwned]
  split
  · exact sound
  · split
    · exact sound
    next absent =>
      exact (sound_insertEntry sound meets.1 meets.2 absent).inPlace (inPlace_rehydrate _)

theorem sound_step (meets : Meets s op) (h : step w s op = some u) : Sound u := by
  cases op with
  | register r =>
    cases h
    exact sound_register sound meets
  | set key text | setInt key v | setUint key v | setFloat key x =>
    cases h
    exact sound.inPlace (inPlace_setWith _)
  | reset key =>
    cases h
    exact sound.inPlace inPlace_reset
  | delete key =>
    cases h
    simp only [kvDelete]
    split
    · exact sound
    · exact sound_db (sound_unlink sound)
  | deletePrefix start =>
    cases h
    have sifted := sound_unlinkAll sound (fun e => start.isPrefixOf e.key)
    simp only [kvDeletePrefix]
    split
    · exact sound
    · split
      · exact sifted
      · split
        · exact sifted
        · exact sound_db sifted
  | unregister key =>
    cases h
    simp only [kvUnregister]
    split
    · exact sound
    · exact sound_unlink sound
  | reclaimOwned lo hi =>
    cases h
    simp only [kvReclaimOwned]
    split
    · exact sound
    · exact sound_db (sound_unlinkAll sound _)
  | load =>
    cases h
    exact sound.inPlace inPlace_load
  | flush =>
    cases h
    exact sound.inPlace inPlace_flush

end Kept

def Present (r : Decl) (s : Store F D) : Prop :=
  (findLocked r.key s).map identity = some (r.key, r.ownerPc)

theorem Present.exists (present : Present r s) : kvExists r.key s = true := by
  obtain ⟨e, found, _⟩ := Option.map_eq_some_iff.mp present
  rw [kvExists, found]
  rfl

theorem Present.inPlace (present : Present r s) (inPlace : InPlace s u) :
    Present r u := (inPlace.find r.key).trans present

theorem present_register (short : r.key.length < kvKeySz)
    (done : (kvRegisterOwned w r s).1 = .success) : Present r (kvRegisterOwned w r s).2 := by
  simp only [kvRegisterOwned] at done ⊢
  split at done
  · cases done
  next v parsed =>
    split at done
    next => cases done
    next absent =>
      have inserted : Present r (insertEntry r v s) := by
        rw [Present, findLocked_insertEntry short, if_pos rfl, Option.map_some, identity]
        exact congrArg (fun key => some (key, r.ownerPc)) (bounded_of_lt short)
      exact inserted.inPlace (inPlace_rehydrate _)

theorem Present.register {q : Decl} (present : Present r s) (short : q.key.length < kvKeySz) :
    Present r (kvRegisterOwned w q s).2 := by
  simp only [kvRegisterOwned]
  split
  · exact present
  · split
    · exact present
    next v _ _ absent =>
      have other : q.key ≠ r.key := by
        intro same
        rw [same] at absent
        have := present.exists
        rw [kvExists, absent] at this
        cases this
      have inserted : Present r (insertEntry q v s) := by
        rw [Present, findLocked_insertEntry short, if_neg other]
        exact present
      exact inserted.inPlace (inPlace_rehydrate _)

variable (sound : Sound s)
include sound

theorem sound_run (run : Run (step w) Meets s labels u) : Sound u :=
  run.invariant (fun sound => sound_step sound) sound

variable (present : Present r s)
include present

theorem present_unlink {key : Bytes} (other : key ≠ r.key) :
    Present r (unlink key s).2 := by
  simp only [unlink]
  split
  · exact present
  · rw [Present, ← present]
    congr 1
    refine (find_remove sound.placed).trans ?_
    exact if_neg other.symm

theorem present_unlinkAll {test : Entry F → Bool}
    (misses : ∀ e : Entry F, identity e = (r.key, r.ownerPc) → test e = false) :
    Present r (unlinkAll test s).2 := by
  obtain ⟨e, found, shown⟩ := Option.map_eq_some_iff.mp present
  have kept : findLocked r.key (unlinkAll test s).2 = some e := by
    refine (find_sift sound.placed).trans ?_
    rw [show find (scheme F) r.key s.table = some e from found, Option.filter_some,
      if_pos (by simp [misses e shown])]
  rw [Present, kept, Option.map_some, shown]

theorem present_deletePrefix {start : Bytes}
    (spared : ¬ (start ≠ [] ∧ start <+: r.key)) : Present r (kvDeletePrefix w start s).2 := by
  simp only [kvDeletePrefix]
  split
  · exact present
  next nonempty =>
    have sifted : Present r (unlinkAll (fun e : Entry F => start.isPrefixOf e.key) s).2 := by
      refine present_unlinkAll sound present fun e shown => ?_
      have key : e.key = r.key := congrArg Prod.fst shown
      rw [key, ← Bool.not_eq_true, isPrefixOf_iff_prefix]
      exact fun starts => spared ⟨nonempty, starts⟩
    split
    · exact sifted
    · split <;> exact sifted

theorem present_reclaimOwned {lo hi : ℕ}
    (spared : ¬ (lo ≤ r.ownerPc ∧ r.ownerPc < hi)) : Present r (kvReclaimOwned w lo hi s).2 := by
  simp only [kvReclaimOwned]
  split
  · exact present
  · refine present_unlinkAll sound present fun e shown => ?_
    have owner : e.ownerPc = r.ownerPc := congrArg Prod.snd shown
    simp only [ownedBy, owner]
    by_contra hit
    simp only [Bool.not_eq_false, Bool.and_eq_true, decide_eq_true_eq] at hit
    exact spared hit

theorem present_step (meets : Meets s op)
    (spared : ¬ Names r op) (h : step w s op = some u) : Present r u := by
  cases op with
  | register q =>
    cases h
    exact present.register meets.1
  | set key text | setInt key v | setUint key v | setFloat key x =>
    cases h
    exact present.inPlace (inPlace_setWith _)
  | reset key =>
    cases h
    exact present.inPlace inPlace_reset
  | delete key =>
    cases h
    simp only [kvDelete]
    split
    · exact present
    · exact present_unlink sound present spared
  | deletePrefix start =>
    cases h
    exact present_deletePrefix sound present spared
  | unregister key =>
    cases h
    simp only [kvUnregister]
    split
    · exact present
    · exact present_unlink sound present spared
  | reclaimOwned lo hi =>
    cases h
    exact present_reclaimOwned sound present spared
  | load =>
    cases h
    exact present.inPlace inPlace_load
  | flush =>
    cases h
    exact present.inPlace inPlace_flush

theorem present_run
    (run : Run (step w) Meets s labels u) (spared : ∀ op ∈ labels, ¬ Names r op) : Present r u := by
  induction run with
  | nil _ => exact present
  | cons meets head _ ih =>
    have here := spared _ mem_cons_self
    exact ih (sound_step sound meets head) (present_step sound present meets here head)
      fun op mem => spared op (.tail _ mem)

omit present

omit sound

theorem register_again (here : kvExists r.key s = true) : kvRegisterOwned w r s = (.fail, s) := by
  obtain ⟨e, found⟩ := Option.isSome_iff_exists.mp here
  simp only [kvRegisterOwned, found]
  split <;> rfl

theorem kv_table_invariant {d : D} {labels : List (KvOp F)} {s : Store F D}
    (run : Run (step w) Meets (emptyStore d) labels s) :
    TableOk s ∧
      (∀ r, Meets (F := F) s (.register r) → (kvRegisterOwned w r s).1 = .success →
        ∀ later u, Run (step w) Meets (kvRegisterOwned w r s).2 later u →
          (∀ op ∈ later, ¬ Names r op) → kvExists r.key u = true) ∧
      ∀ r, kvExists r.key s = true → kvRegisterOwned w r s = (.fail, s) := by
  have sound := sound_run (sound_empty d) run
  refine ⟨sound.tableOk, ?_, fun r => register_again⟩
  intro r meets done later u after spared
  have present := present_register meets.1 done
  exact (present_run (sound_register sound meets) present after spared).exists

theorem kv_table_invariant_sample : ∃ s, Run (step blankWorld) Meets (emptyStore ())
    [.register (sampleDecl (ascii "n") .int8)] s ∧ TableOk s ∧ s.kvCount = 1 := by
  have run : Run (step blankWorld) Meets (emptyStore ())
      [.register (sampleDecl (ascii "n") .int8)] _ :=
    .cons ⟨by decide, by decide⟩ rfl (.nil _)
  exact ⟨_, run, (kv_table_invariant run).1, rfl⟩

theorem not_found_of_long (long : kvKeySz ≤ r.key.length) (v : Val F) :
    findLocked r.key (insertEntry r v (emptyStore d)) = none := by
  have cut : (declared r v).key ≠ r.key := by
    intro same
    have shorter : (declared r v).key.length < kvKeySz := length_bounded_lt (by decide) r.key
    rw [same] at shorter
    omega
  exact (find_push_of_ne (c := scheme F) (e := declared r v) cut).trans rfl

/-- A key one byte too long is registered with success and then does not exist. -/
theorem not_kv_table_invariant_long : ¬ ∀ labels s, Run (step blankWorld) Any (emptyStore ()) labels s →
    ∀ r, (kvRegisterOwned blankWorld r s).1 = .success →
      kvExists r.key (kvRegisterOwned blankWorld r s).2 = true := by
  intro all
  have found := all [] _ (.nil _) (sampleDecl (replicate 192 97) .int8) rfl
  have inserted : (kvRegisterOwned blankWorld (sampleDecl (replicate 192 97) .int8)
      (emptyStore ())).2 = insertEntry (sampleDecl (replicate 192 97) .int8) (.int 0)
        (emptyStore ()) := rfl
  have long : kvKeySz ≤ (sampleDecl (replicate 192 97) .int8).key.length :=
    (length_replicate (n := 192) (a := (97 : UInt8))).ge
  rw [inserted, kvExists, not_found_of_long long] at found
  cases found

end BotManager.KvInvariant
