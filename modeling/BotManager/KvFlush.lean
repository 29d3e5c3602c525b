import BotManager.KvInvariant

/-! `kv_flush` interleaved with the setters. The flush finds the next dirty entry under
`kv_mutex`, releases the lock, serialises the value and writes the row, and takes the
lock again to clear the flag. Setters run whole, under the lock, in between. Any number
of flushes may be under way.

The upsert stores the text it is given; an entry is named by its key. A value set between
the serialisation and the clearing of the flag is lost: the row has the old text and the
entry is clean. -/

namespace BotManager.KvFlush
open List StepRun CText ChainedTable KvValue KvTable

variable {F D : Type} {w : World F D}

inductive Phase
  | picked (key : Bytes)
  | serialised (key : Bytes) (type : ℕ) (text : Bytes)
  | stored (key : Bytes)
  deriving DecidableEq

def Phase.key : Phase → Bytes
  | .picked key => key
  | .serialised key _ _ => key
  | .stored key => key

structure Flush where
  phase : Phase
  todo : List Bytes
  deriving DecidableEq

structure Sys (F D : Type) where
  store : Store F D
  /-- The rows of the kv table, by key: type id and text. -/
  row : Bytes → Option (ℕ × Bytes)
  flushes : List Flush
  /-- The keys whose entry some setter has set with success. -/
  wasSet : List Bytes

/-- The entries a flush finds dirty, from where its walk stands. -/
def nextDirty (s : Store F D) : List Bytes → Option (Bytes × List Bytes)
  | [] => none
  | key :: rest =>
    match findLocked key s with
    | some e => if e.dirty then some (key, rest) else nextDirty s rest
    | none => nextDirty s rest

/-- Walk on under the lock: release it for the next dirty entry, or finish. -/
def resume (todo : List Bytes) (s : Sys F D) : Sys F D :=
  match nextDirty s.store todo with
  | some (key, rest) => { s with flushes := ⟨.picked key, rest⟩ :: s.flushes }
  | none => s

structure Setter (F : Type) where
  key : Bytes
  convert : KvType → Option (Val F)

def Setter.text (w : World F D) (key text : Bytes) : Setter F :=
  ⟨key, fun t => strToVal w.floats t text⟩

inductive Op (F : Type)
  | set (c : Setter F)
  | flush
  | serialise (f : Flush)
  | write (f : Flush)
  | clear (f : Flush)

def Op.isFlush : Op F → Bool
  | .set _ => false
  | _ => true

def setStep (w : World F D) (c : Setter F) (s : Sys F D) : Sys F D :=
  let (status, store) := setWith w c.key c.convert s.store
  { s with store, wasSet := if status = .success then c.key :: s.wasSet else s.wasSet }

def flushStep (s : Sys F D) : Sys F D :=
  if s.store.kvLoaded then resume ((entries s.store.table).map (·.key)) s else s

def serialiseStep (w : World F D) (f : Flush) (s : Sys F D) : Option (Sys F D) :=
  match f.phase with
  | .picked key =>
    (findLocked key s.store).map fun e =>
      let text := valToStr w.floats e.type e.val kvValBuf
      { s with flushes := ⟨.serialised key e.type.id text, f.todo⟩ :: s.flushes.erase f }
  | _ => none

def writeStep (f : Flush) (s : Sys F D) : Option (Sys F D) :=
  match f.phase with
  | .serialised key type text =>
    some { s with
      row := Function.update s.row key (some (type, text))
      flushes := ⟨.stored key, f.todo⟩ :: s.flushes.erase f }
  | _ => none

def clearStep (f : Flush) (s : Sys F D) : Option (Sys F D) :=
  match f.phase with
  | .stored key =>
    let s := { s with
      store := s.store.update key Entry.clean
      flushes := s.flushes.erase f }
    some (resume f.todo s)
  | _ => none

def step (w : World F D) (s : Sys F D) : Op F → Option (Sys F D)
  | .set c => some (setStep w c s)
  | .flush => some (flushStep s)
  | .serialise f => if f ∈ s.flushes then serialiseStep w f s else none
  | .write f => if f ∈ s.flushes then writeStep f s else none
  | .clear f => if f ∈ s.flushes then clearStep f s else none

/-- The row has the type of the entry, and a text that the value prints as or that is
read back as the value. -/
def Holds (fl : Floats F) (row : Option (ℕ × Bytes)) (e : Entry F) : Prop :=
  ∃ text, row = some (e.type.id, text) ∧
    (text = valToStr fl e.type e.val kvValBuf ∨ strToVal fl e.type text = some e.val)

def Sys.inFlight (key : Bytes) (s : Sys F D) : Prop :=
  ∃ f ∈ s.flushes, f.phase.key = key ∧ f.phase ≠ .picked key

/-- The entry of the key is dirty or its row holds it. After `kv_load` this fails of an entry
whose row was declined. -/
def Agrees (w : World F D) (s : Sys F D) (key : Bytes) : Prop :=
  ∀ e, findLocked key s.store = some e → e.dirty = true ∨ Holds w.floats (s.row key) e

/-- A value that changes is not in flight; one that does not change was set before, or agreed with
its row at the boot. -/
def Quiet (w : World F D) (boot s : Sys F D) : Op F → Prop
  | .set c => ∀ e new, findLocked c.key s.store = some e → c.convert e.type = some new →
      if valChanged w.floats e.type e.val new then ¬ s.inFlight c.key
      else c.key ∈ s.wasSet ∨ Agrees w boot c.key
  | _ => True

structure Kept (w : World F D) (boot s : Sys F D) : Prop where
  safe : ∀ key, key ∈ s.wasSet ∨ Agrees w boot key → Agrees w s key
  current : ∀ key e, findLocked key s.store = some e → ∀ f ∈ s.flushes, ∀ type text,
    f.phase = .serialised key type text →
      type = e.type.id ∧ text = valToStr w.floats e.type e.val kvValBuf
  written : ∀ key e, findLocked key s.store = some e → ∀ f ∈ s.flushes,
    f.phase = .stored key → Holds w.floats (s.row key) e

variable {todo rest : List Bytes} {f : Flush} {boot s u : Sys F D} {op : Op F} {labels : List (Op F)}

theorem resume_frame :
    (resume todo s).store = s.store ∧ (resume todo s).row = s.row ∧
      (resume todo s).wasSet = s.wasSet := by
  simp only [resume]
  split <;> exact ⟨rfl, rfl, rfl⟩

theorem setStep_cases (c : Setter F) (s : Sys F D) :
    (∃ e new, findLocked c.key s.store = some e ∧ c.convert e.type = some new ∧
      (setStep w c s).wasSet = c.key :: s.wasSet ∧
      (setStep w c s).store = if valChanged w.floats e.type e.val new then
        s.store.update c.key (fun e => { e with val := new, dirty := true }) else s.store) ∨
      setStep w c s = s := by
  rcases setWith_outcome w c.key c.convert s.store with refused | ⟨e, new, found, converted, done⟩
  · exact .inr (by simp [setStep, refused])
  · exact .inl ⟨e, new, found, converted, by simp [setStep, done], by simp [setStep, done]⟩

variable {g : Flush} {key : Bytes}

theorem mem_replaced {h : Flush} {l : List Flush} (mem : g ∈ h :: l.erase f) : g = h ∨ g ∈ l := by
  rcases mem_cons.mp mem with rfl | old
  · exact .inl rfl
  · exact .inr (mem_of_mem_erase old)

variable (kept : Kept w boot s)
include kept

theorem Kept.flushes {flushes : List Flush} (sub : ∀ f ∈ flushes, f = g ∨ f ∈ s.flushes)
    (fresh : ∀ key, g.phase ≠ .stored key)
    (current : ∀ key e, findLocked key s.store = some e → ∀ type text,
      g.phase = .serialised key type text →
        type = e.type.id ∧ text = valToStr w.floats e.type e.val kvValBuf) :
    Kept w boot { s with flushes } where
  safe := kept.safe
  current key e found f mem := by
    rcases sub f mem with rfl | old
    · exact current key e found
    · exact kept.current key e found f old
  written key e found f mem := by
    rcases sub f mem with rfl | old
    · exact fun phase => absurd phase (fresh key)
    · exact kept.written key e found f old

theorem Kept.resume (todo : List Bytes) : Kept w boot (resume todo s) := by
  unfold KvFlush.resume
  split
  · exact kept.flushes (fun _ => mem_cons.mp) nofun fun _ _ _ _ _ => nofun
  · exact kept

theorem kept_set {c : Setter F} (quiet : Quiet w boot s (.set c)) :
    Kept w boot (setStep w c s) := by
  have row : (setStep w c s).row = s.row := rfl
  have flushes : (setStep w c s).flushes = s.flushes := rfl
  rcases setStep_cases (w := w) c s with ⟨e, new, found, converted, wasSet, store⟩ | same
  · have quiet := quiet e new found converted
    by_cases changed : valChanged w.floats e.type e.val new = true
    · rw [if_pos changed] at quiet store
      have lookup := findLocked_update c.key
        (g := fun e => { e with val := new, dirty := true }) (fun _ => rfl) s.store
      refine ⟨fun k safe e' found' => ?_, fun k e' found' f mem type text phase => ?_,
        fun k e' found' f mem phase => ?_⟩
      · rw [store, lookup] at found'
        split at found'
        next here =>
          rw [found] at found'
          obtain rfl := Option.some.inj found'
          exact .inl rfl
        next other =>
          rw [wasSet, mem_cons, or_iff_right other] at safe
          exact kept.safe k safe e' found'
      · rw [store, lookup] at found'
        split at found'
        next here => exact absurd ⟨f, mem, by rw [phase, here]; rfl, by rw [phase]; simp⟩ quiet
        next other => exact kept.current k e' found' f mem type text phase
      · rw [store, lookup] at found'
        split at found'
        next here => exact absurd ⟨f, mem, by rw [phase, here]; rfl, by rw [phase]; simp⟩ quiet
        next other => exact kept.written k e' found' f mem phase
    · rw [if_neg changed] at quiet store
      refine ⟨fun k safe e' found' => ?_, by rw [store]; exact kept.current,
        by rw [store]; exact kept.written⟩
      rw [store] at found'
      rw [wasSet, mem_cons] at safe
      rcases safe with (rfl | old) | agrees
      · exact kept.safe _ quiet e' found'
      · exact kept.safe k (.inl old) e' found'
      · exact kept.safe k (.inr agrees) e' found'
  · rwa [same]

theorem kept_serialise (h : serialiseStep w f s = some u) : Kept w boot u := by
  revert h
  fun_cases serialiseStep w f s with
  | case1 key phase =>
    intro h
    obtain ⟨e, found, rfl⟩ := Option.map_eq_some_iff.mp h
    refine kept.flushes (fun _ => mem_replaced) nofun fun k e' found' type text serialised => ?_
    cases serialised
    cases found.symm.trans found'
    exact ⟨rfl, rfl⟩
  | case2 => nofun

theorem kept_write (mem : f ∈ s.flushes) (h : writeStep f s = some u) :
    Kept w boot u := by
  simp only [writeStep] at h
  split at h
  next key type text phase =>
    cases h
    -- the text about to be stored is the current value, so the new row holds it
    have now : ∀ e, findLocked key s.store = some e →
        Holds w.floats (Function.update s.row key (some (type, text)) key) e := by
      intro e found
      obtain ⟨rfl, rfl⟩ := kept.current key e found f mem type text phase
      exact ⟨_, Function.update_self .., .inl rfl⟩
    refine ⟨fun k safe e found => ?_, fun k e found g memg => ?_, fun k e found g memg stored => ?_⟩
    · by_cases here : k = key
      · subst here
        exact .inr (now e found)
      · simp only [Function.update_of_ne here]
        exact kept.safe k safe e found
    · intro type' text' serialised
      rcases mem_replaced memg with rfl | old
      · cases serialised
      · exact kept.current k e found g old type' text' serialised
    · by_cases here : k = key
      · subst here
        exact now e found
      · simp only [Function.update_of_ne here]
        rcases mem_replaced memg with rfl | old
        · cases stored
          exact absurd rfl here
        · exact kept.written k e found g old stored
  next => cases h

theorem kept_clear (mem : f ∈ s.flushes) (h : clearStep f s = some u) :
    Kept w boot u := by
  simp only [clearStep] at h
  split at h
  next key phase =>
    cases h
    apply Kept.resume
    have lookup := findLocked_update key (g := Entry.clean) (fun _ => rfl) s.store
    have before : ∀ k e, findLocked k (s.store.update key Entry.clean) = some e →
        ∃ old, findLocked k s.store = some old ∧ e.type = old.type ∧ e.val = old.val ∧
          (k ≠ key → e = old) := by
      intro k e found
      rw [lookup] at found
      split at found
      next here =>
        obtain ⟨old, oldFound, rfl⟩ := Option.map_eq_some_iff.mp found
        exact ⟨old, here ▸ oldFound, rfl, rfl, fun other => absurd here other⟩
      next => exact ⟨e, found, rfl, rfl, fun _ => rfl⟩
    refine ⟨fun k safe e found => ?_, fun k e found g memg type text serialised => ?_,
      fun k e found g memg stored => ?_⟩
    · obtain ⟨old, oldFound, type, val, same⟩ := before k e found
      by_cases here : k = key
      · have written := kept.written k old oldFound f mem (here ▸ phase)
        exact .inr (by simpa only [Holds, type, val] using written)
      · rw [same here]
        exact kept.safe k safe old oldFound
    · obtain ⟨old, oldFound, type', val, _⟩ := before k e found
      rw [type', val]
      exact kept.current k old oldFound g (mem_of_mem_erase memg) type text serialised
    · obtain ⟨old, oldFound, type', val, _⟩ := before k e found
      have written := kept.written k old oldFound g (mem_of_mem_erase memg) stored
      simpa only [Holds, type', val] using written
  next => cases h

theorem kept_step (quiet : Quiet w boot s op) (h : step w s op = some u) :
    Kept w boot u := by
  revert quiet h
  fun_cases step w s op with
  | case1 c =>
    rintro quiet ⟨⟩
    exact kept_set kept quiet
  | case2 =>
    rintro - ⟨⟩
    simp only [flushStep]
    split
    · exact kept.resume _
    · exact kept
  | case3 f => exact fun _ => kept_serialise kept
  | case5 f mem => exact fun _ => kept_write kept mem
  | case7 f mem => exact fun _ => kept_clear kept mem
  | case4 | case6 | case8 => nofun

omit kept

theorem step_store (h : step w s op = some u) :
    KvInvariant.InPlace s.store u.store ∧ u.store.kvLoaded = s.store.kvLoaded := by
  revert h
  fun_cases step w s op with
  | case1 c =>
    rintro ⟨⟩
    refine ⟨KvInvariant.inPlace_setWith c.convert, ?_⟩
    rcases setStep_cases (w := w) c s with ⟨e, new, _, _, _, store⟩ | same
    · rw [store]
      split <;> rfl
    · rw [same]
  | case2 =>
    rintro ⟨⟩
    simp only [flushStep]
    split
    · rw [resume_frame.1]
      exact ⟨.rfl _, rfl⟩
    · exact ⟨.rfl _, rfl⟩
  | case3 f =>
    fun_cases serialiseStep w f s with
    | case1 =>
      intro h
      obtain ⟨e, _, rfl⟩ := Option.map_eq_some_iff.mp h
      exact ⟨.rfl _, rfl⟩
    | case2 => nofun
  | case5 f =>
    fun_cases writeStep f s with
    | case1 =>
      rintro ⟨⟩
      exact ⟨.rfl _, rfl⟩
    | case2 => nofun
  | case7 f =>
    fun_cases clearStep f s with
    | case1 =>
      rintro ⟨⟩
      rw [resume_frame.1]
      refine ⟨KvInvariant.inPlace_update ?_ _, rfl⟩
      exact fun _ => rfl
    | case2 => nofun
  | case4 | case6 | case8 => nofun

theorem nextDirty_some {s : Store F D} {rest : List Bytes}
    (h : nextDirty s todo = some (key, rest)) :
    (∃ e, findLocked key s = some e ∧ e.dirty = true) ∧ rest.length < todo.length ∧
      ∀ k ∈ todo, ∀ e, findLocked k s = some e → e.dirty = true → k ∈ key :: rest := by
  revert h
  fun_induction nextDirty s todo with
  | case1 => nofun
  | case2 first more e found isDirty =>
    rintro ⟨⟩
    exact ⟨⟨e, found, isDirty⟩, Nat.lt_succ_self _, fun k mem _ _ _ => mem⟩
  | case3 first more _ found _ ih | case4 first more found ih =>
    intro later
    obtain ⟨dirty, shorter, all⟩ := ih later
    refine ⟨dirty, Nat.lt_succ_of_lt shorter, fun k mem e found' isDirty => ?_⟩
    rcases mem_cons.mp mem with rfl | mem
    · simp_all
    · exact all k mem e found' isDirty

theorem nextDirty_none {s : Store F D} (h : nextDirty s todo = none) :
    ∀ k ∈ todo, ∀ e, findLocked k s = some e → e.dirty = false := by
  revert h
  fun_induction nextDirty s todo with
  | case1 => simp
  | case2 => nofun
  | case3 first more _ found _ ih | case4 first more found ih =>
    intro done k mem e found'
    rcases mem_cons.mp mem with rfl | later
    · simp_all
    · exact ih done k later e found'

def Covered (s : Sys F D) : Prop := ∀ key e, findLocked key s.store = some e → e.dirty = true →
  ∃ f ∈ s.flushes, key ∈ f.phase.key :: f.todo

theorem covered_resume (before : ∀ key e, findLocked key s.store = some e → e.dirty = true →
      key ∈ todo ∨ ∃ f ∈ s.flushes, key ∈ f.phase.key :: f.todo) : Covered (resume todo s) := by
  intro key e found dirty
  rw [resume_frame.1] at found
  simp only [resume]
  split
  next picked rest next =>
    rcases before key e found dirty with mem | ⟨f, memf, mem⟩
    · exact ⟨_, mem_cons_self, (nextDirty_some next).2.2 key mem e found dirty⟩
    · exact ⟨f, .tail _ memf, mem⟩
  next done =>
    rcases before key e found dirty with mem | covered
    · rw [nextDirty_none done key mem e found] at dirty
      cases dirty
    · exact covered

theorem covered_flush (loaded : s.store.kvLoaded = true) : Covered (flushStep s) := by
  rw [flushStep, if_pos loaded]
  refine covered_resume fun key e found _ => .inl ?_
  have mem := mem_of_find found
  exact mem_map.mpr ⟨e, mem, key_of_find found⟩

variable (covered : Covered s)
include covered

theorem covered_replaced (store : u.store = s.store)
    (flushes : u.flushes = g :: s.flushes.erase f) (key : g.phase.key = f.phase.key)
    (todo : g.todo = f.todo) : Covered u := by
  intro k e found dirty
  rw [store] at found
  obtain ⟨h, memh, mem⟩ := covered k e found dirty
  rw [flushes]
  by_cases same : h = f
  · subst same
    exact ⟨g, mem_cons_self, by rwa [key, todo]⟩
  · exact ⟨h, .tail _ ((mem_erase_of_ne same).mpr memh), mem⟩

theorem covered_clear (h : clearStep f s = some u) : Covered u := by
  simp only [clearStep] at h
  split at h
  next key phase =>
    cases h
    refine covered_resume fun k e found dirty => ?_
    rw [findLocked_update key (g := Entry.clean) (fun _ => rfl)] at found
    split at found
    next here =>
      obtain ⟨old, _, rfl⟩ := Option.map_eq_some_iff.mp found
      cases dirty
    next other =>
      obtain ⟨g, memg, mem⟩ := covered k e found dirty
      by_cases same : g = f
      · subst same
        rw [phase] at mem
        rcases mem_cons.mp mem with here | later
        · exact absurd here other
        · exact .inl later
      · exact .inr ⟨g, (mem_erase_of_ne same).mpr memg, mem⟩
  next => cases h

theorem covered_step (loaded : s.store.kvLoaded = true)
    (flush : op.isFlush = true) (h : step w s op = some u) : Covered u ∧ u.wasSet = s.wasSet := by
  revert flush h
  fun_cases step w s op with
  | case1 c => nofun
  | case2 =>
    rintro - ⟨⟩
    refine ⟨covered_flush loaded, ?_⟩
    rw [flushStep, if_pos loaded]
    exact resume_frame.2.2
  | case3 f =>
    fun_cases serialiseStep w f s with
    | case1 key phase =>
      intro _ h
      obtain ⟨e, _, rfl⟩ := Option.map_eq_some_iff.mp h
      exact ⟨covered_replaced covered rfl rfl (by rw [phase]; rfl) rfl, rfl⟩
    | case2 => nofun
  | case5 f =>
    fun_cases writeStep f s with
    | case1 key type text phase =>
      rintro - ⟨⟩
      exact ⟨covered_replaced covered rfl rfl (by rw [phase]; rfl) rfl, rfl⟩
    | case2 => nofun
  | case7 f =>
    intro _ h
    refine ⟨covered_clear covered h, ?_⟩
    revert h
    fun_cases clearStep f s with
    | case1 =>
      rintro ⟨⟩
      exact resume_frame.2.2
    | case2 => nofun
  | case4 | case6 | case8 => nofun

theorem covered_run (loaded : s.store.kvLoaded = true)
    (flush : ∀ op ∈ labels, op.isFlush = true) (run : Run (step w) (Quiet w boot) s labels u) :
    Covered u ∧ u.wasSet = s.wasSet := by
  induction run with
  | nil _ => exact ⟨covered, rfl⟩
  | cons _ head _ ih =>
    obtain ⟨next, same⟩ := covered_step covered loaded (flush _ mem_cons_self) head
    have still := (step_store head).2.trans loaded
    obtain ⟨last, same'⟩ := ih next still fun op mem => flush op (.tail _ mem)
    exact ⟨last, same'.trans same⟩

omit covered

def storeAlone (w : World F D) (key : Bytes) (e : Entry F) (s : Sys F D) : Sys F D :=
  { s with
    store := s.store.update key Entry.clean
    row := Function.update s.row key (some (e.type.id, valToStr w.floats e.type e.val kvValBuf))
    flushes := [] }

def entrySteps (w : World F D) (key : Bytes) (e : Entry F) (rest : List Bytes) : List (Op F) :=
  [.serialise ⟨.picked key, rest⟩,
    .write ⟨.serialised key e.type.id (valToStr w.floats e.type e.val kvValBuf), rest⟩,
    .clear ⟨.stored key, rest⟩]

theorem run_entrySteps {e : Entry F}
    (found : findLocked key s.store = some e) :
    Run (step w) (Quiet w boot) { s with flushes := [⟨.picked key, rest⟩] } (entrySteps w key e rest)
      (resume rest (storeAlone w key e s)) := by
  let text := valToStr w.floats e.type e.val kvValBuf
  have serialise : step w { s with flushes := [⟨.picked key, rest⟩] }
      (.serialise ⟨.picked key, rest⟩) =
        some { s with flushes := [⟨.serialised key e.type.id text, rest⟩] } := by
    simp [step, serialiseStep, found, text]
  have write : step w { s with flushes := [⟨.serialised key e.type.id text, rest⟩] }
      (.write ⟨.serialised key e.type.id text, rest⟩) = some
        { s with
          row := Function.update s.row key (some (e.type.id, text))
          flushes := [⟨.stored key, rest⟩] } := by
    simp [step, writeStep]
  have clear : step w { s with
        row := Function.update s.row key (some (e.type.id, text))
        flushes := [⟨.stored key, rest⟩] } (.clear ⟨.stored key, rest⟩) =
      some (resume rest (storeAlone w key e s)) := by
    simp [step, clearStep, storeAlone, text]
  exact .cons trivial serialise (.cons trivial write (.cons trivial clear (.nil _)))

theorem resume_ends (w : World F D) (todo : List Bytes) (s : Sys F D) (alone : s.flushes = []) :
    ∃ more u, (∀ op ∈ more, Op.isFlush op = true) ∧ Run (step w) (Quiet w boot) (resume todo s) more u ∧
      u.flushes = [] := by
  induction length : todo.length using Nat.strong_induction_on generalizing todo s with
  | _ n ih =>
    cases next : nextDirty s.store todo with
    | none =>
      have same : resume todo s = s := by simp only [resume, next]
      refine ⟨[], s, by simp, ?_, alone⟩
      rw [same]
      exact .nil s
    | some picked =>
      obtain ⟨key, rest⟩ := picked
      obtain ⟨⟨e, found, _⟩, shorter, _⟩ := nextDirty_some next
      obtain ⟨more, u, flush, run, ends⟩ :=
        ih rest.length (length ▸ shorter) rest (storeAlone w key e s) rfl rfl
      have start : resume todo s = { s with flushes := [⟨.picked key, rest⟩] } := by
        simp only [resume, next, alone]
      refine ⟨entrySteps w key e rest ++ more, u, fun op mem => ?_, ?_, ends⟩
      · rcases mem_append.mp mem with first | later
        · simp only [entrySteps, mem_cons, not_mem_nil, or_false] at first
          rcases first with rfl | rfl | rfl <;> rfl
        · exact flush op later
      · rw [start]
        exact (run_entrySteps found).append run

def start (store : Store F D) (row : Bytes → Option (ℕ × Bytes)) : Sys F D := ⟨store, row, [], []⟩

theorem kept_run {store : Store F D} {row : Bytes → Option (ℕ × Bytes)}
    (run : Run (step w) (Quiet w (start store row)) (start store row) labels s) :
    Kept w (start store row) s := by
  refine run.invariant kept_step ⟨?_, ?_, ?_⟩
  · rintro key (mem | agrees)
    · cases mem
    · exact agrees
  · intro key e _ f mem
    cases mem
  · intro key e _ f mem
    cases mem

theorem store_run (run : Run (step w) (Quiet w boot) s labels u) :
    KvInvariant.InPlace s.store u.store ∧ u.store.kvLoaded = s.store.kvLoaded := by
  induction run with
  | nil _ => exact ⟨.rfl _, rfl⟩
  | cons _ head _ ih =>
    obtain ⟨first, loaded⟩ := step_store head
    exact ⟨first.trans ih.1, ih.2.trans loaded⟩

def Persisted (w : World F D) (s : Sys F D) : Prop := ∀ e ∈ entries s.store.table,
  e.key ∈ s.wasSet → e.dirty = false ∧ Holds w.floats (s.row e.key) e

theorem no_update_lost {d : D} {history : List (KvInvariant.KvOp F)} {store : Store F D}
    (booted : Run (KvInvariant.step w) KvInvariant.Meets (emptyStore d) history store)
    (loaded : store.kvLoaded = true) {row : Bytes → Option (ℕ × Bytes)} {labels : List (Op F)}
    {s : Sys F D} (run : Run (step w) (Quiet w (start store row)) (start store row) labels s) :
    (∀ e ∈ entries s.store.table, e.key ∈ s.wasSet →
      e.dirty = true ∨ Holds w.floats (s.row e.key) e) ∧
    (s.flushes = [] → (∃ more u, (∀ op ∈ more, Op.isFlush op = true) ∧
        Run (step w) (Quiet w (start store row)) s (.flush :: more) u ∧ u.flushes = []) ∧
      ∀ more u, (∀ op ∈ more, Op.isFlush op = true) →
        Run (step w) (Quiet w (start store row)) s (.flush :: more) u → u.flushes = [] → Persisted w u) := by
  have placed := (KvInvariant.sound_run (KvInvariant.sound_empty d) booted).placed
  have table {u : Sys F D} {all : List (Op F)}
      (whole : Run (step w) (Quiet w (start store row)) (start store row) all u)
      {e : Entry F} (mem : e ∈ entries u.store.table) : findLocked e.key u.store = some e :=
    ((store_run whole).1.placed placed).find_iff.mpr ⟨mem, rfl⟩
  have ready : s.store.kvLoaded = true := (store_run run).2.trans loaded
  refine ⟨fun e mem set => (kept_run run).safe e.key (.inl set) e (table run mem), fun idle => ⟨?_, ?_⟩⟩
  · obtain ⟨more, u, flush, after, ends⟩ :=
      resume_ends w ((entries s.store.table).map (·.key)) s idle
    have begin : step w s .flush = some (resume ((entries s.store.table).map (·.key)) s) := by
      simp only [step, flushStep, if_pos ready]
    exact ⟨more, u, flush, .cons trivial begin after, ends⟩
  · intro more u flush after ends e mem set
    have whole := run.append after
    have found := table whole mem
    have covered : Covered u := by
      cases after with
      | cons _ head tail =>
        obtain rfl := Option.some.inj head
        exact (covered_run (covered_flush ready) ((step_store head).2.trans ready) flush tail).1
    have clean : e.dirty = false := by
      by_contra dirty
      obtain ⟨f, memf, _⟩ := covered e.key e found (by simpa using dirty)
      rw [ends] at memf
      cases memf
    refine ⟨clean, ?_⟩
    rcases (kept_run whole).safe e.key (.inl set) e found with dirty | holds
    · rw [clean] at dirty
      cases dirty
    · exact holds

def sampleStart : Store Unit Unit :=
  { insertEntry (sampleDecl (ascii "n") .int8) (.int 0) (emptyStore ()) with kvLoaded := true }

theorem booted_sample : Run (KvInvariant.step blankWorld) KvInvariant.Meets (emptyStore ())
    [.register (sampleDecl (ascii "n") .int8), .load] sampleStart :=
  .cons ⟨by decide, by decide⟩ rfl (.cons trivial rfl (.nil _))

theorem found_sample : findLocked (ascii "n") sampleStart =
    some (declared (sampleDecl (ascii "n") .int8) (.int 0)) := by
  have short : (sampleDecl (ascii "n") .int8).key.length < kvKeySz := by decide
  exact (findLocked_insertEntry short (emptyStore ()) (ascii "n")).trans (if_pos rfl)

def sampleSys : Sys Unit Unit := start sampleStart fun _ => none

theorem no_update_lost_sample : ∃ s more u, s.flushes = [] ∧
    Run (step blankWorld) (Quiet blankWorld sampleSys) sampleSys
      [.set (.text blankWorld (ascii "n") (ascii "1"))] s ∧
    Run (step blankWorld) (Quiet blankWorld sampleSys) s (.flush :: more) u ∧
      Persisted blankWorld u := by
  have quiet : Quiet blankWorld sampleSys sampleSys
      (.set (.text blankWorld (ascii "n") (ascii "1"))) := by
    intro e new found converted
    cases found_sample.symm.trans found
    obtain rfl : Val.int 1 = new := Option.some.inj converted
    rw [if_pos (by decide)]
    rintro ⟨f, mem, _⟩
    cases mem
  have run : Run (step blankWorld) (Quiet blankWorld sampleSys) sampleSys
      [.set (.text blankWorld (ascii "n") (ascii "1"))] _ := .cons quiet rfl (.nil _)
  obtain ⟨_, later⟩ := no_update_lost booted_sample rfl run
  obtain ⟨⟨more, u, flush, after, ends⟩, final⟩ := later rfl
  exact ⟨_, more, u, rfl, run, after, final more u flush after ends⟩

/-- The value 2 is set after the flush has serialised 1 and before it clears the flag. -/
theorem not_no_update_lost : ¬ ∀ (history : List (KvInvariant.KvOp Unit)) (store : Store Unit Unit),
    Run (KvInvariant.step blankWorld) KvInvariant.Meets (emptyStore ()) history store →
      store.kvLoaded = true → ∀ row labels s,
        Run (step blankWorld) Any (start store row) labels s → s.flushes = [] →
          ∀ e ∈ entries s.store.table, e.key ∈ s.wasSet →
            e.dirty = true ∨ Holds blankWorld.floats (s.row e.key) e := by
  intro all
  have run : Run (step blankWorld) Any sampleSys
      [.set (.text blankWorld (ascii "n") (ascii "1")), .flush,
        .serialise ⟨.picked (ascii "n"), []⟩,
        .set (.text blankWorld (ascii "n") (ascii "2")),
        .write ⟨.serialised (ascii "n") 0 (ascii "1"), []⟩,
        .clear ⟨.stored (ascii "n"), []⟩] _ := run_of_exec rfl
  have lost := all _ _ booted_sample rfl _ _ _ run rfl
    { declared (sampleDecl (ascii "n") .int8) (.int 2) with defaultVal := .int 0, dirty := false }
    (mem_of_find (c := scheme Unit) (k := ascii "n") rfl) (by decide)
  rcases lost with dirty | ⟨text, row, value⟩
  · cases dirty
  · have old : some (0, ascii "1") = some (0, text) := row
    obtain rfl : ascii "1" = text := (Prod.mk.inj (Option.some.inj old)).2
    revert value
    decide

end BotManager.KvFlush
