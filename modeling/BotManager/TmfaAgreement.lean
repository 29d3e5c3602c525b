import Mathlib.Data.List.Perm.Basic
import BotManager.TmfaModel

/-! Cache and table hold the same logins as long as every identification spells kind and
key as the cache has them and no key is shared by two kinds. The agreement is kept as a
permutation of the logins on both sides, which every statement changes along with the
cache: a removal cancels one login, an identification replaces or adds one, and a stamp
changes none. -/

namespace BotManager.TmfaAgreement
open List CText StepRun FirstMatch TmfaModel
open MfaPattern (usernsMfaPatternSz)

structure Login where
  userId : ℕ
  bot : Bytes
  kind : Bytes
  key : Bytes
  deriving DecidableEq

def Login.id (l : Login) : ℕ × Bytes := (l.userId, l.key)

def Login.triple (l : Login) : ℕ × Bytes × Bytes := (l.userId, l.kind, l.key)

def ofEntry (e : Entry) : Login := ⟨e.userId, e.bot, e.kind, e.key⟩

def ofRow (r : Row) : Login := ⟨r.userId, r.botName, r.methodKind, r.metadata⟩

def logins (es : List Entry) : List Login := es.map ofEntry

theorem id_ofRow : (ofRow r).id = r.id := rfl

structure Agrees (ls : List Login) (t : Table) : Prop where
  same : ls.Perm (t.rows.map ofRow)
  capped : ∀ u, ls.countP (·.userId = u) ≤ usernsTmfaMax
  fits : ∀ l ∈ ls, Fits l.bot l.kind l.key

variable {userId : ℕ} {e : Entry} {post pre es : List Entry} {s s' : Sys}

section Statements

variable {ls : List Login} {t : Table}

theorem Agrees.perm {ms : List Login} (agrees : Agrees ls t) (p : ms.Perm ls) : Agrees ms t where
  same := p.trans agrees.same
  capped u := (p.countP_eq _).trans_le (agrees.capped u)
  fits l mem := agrees.fits l (p.mem_iff.mp mem)

theorem Agrees.of_rows {t' : Table} (agrees : Agrees ls t)
    (same : t'.rows.map ofRow = t.rows.map ofRow) : Agrees ls t' where
  same := same ▸ agrees.same
  __ := agrees

theorem ofRow_touchRow : ofRow (touchRow userId key lastSeen r) = ofRow r := by
  unfold touchRow
  split <;> rfl

theorem Agrees.touch (agrees : Agrees ls t) (userId : ℕ) (key : Bytes) (lastSeen : ℤ) :
    Agrees ls (tmfaDbTouch t userId key lastSeen) := by
  apply agrees.of_rows
  simp only [tmfaDbTouch, map_map]
  exact map_congr_left fun r _ => ofRow_touchRow

theorem perm_cons_filter {rows : List Row} (unique : (rows.map Row.id).Nodup) {r : Row}
    (mem : r ∈ rows) : rows.Perm (r :: rows.filter (·.id ≠ r.id)) := by
  induction rows with
  | nil => cases mem
  | cons head rest ih =>
    rw [map_cons, nodup_cons] at unique
    rcases mem_cons.mp mem with rfl | later
    · have others : rest.filter (·.id ≠ r.id) = rest := by
        rw [filter_eq_self]
        intro x inside
        exact decide_eq_true fun same => unique.1 (same ▸ mem_map_of_mem inside)
      rw [filter_cons_of_neg (by simp), others]
    · have other : head.id ≠ r.id := fun same => unique.1 (same ▸ mem_map_of_mem later)
      rw [filter_cons_of_pos (by simpa using other)]
      exact ((ih unique.2 later).cons head).trans (List.Perm.swap r head _)

theorem rows_delete :
    (tmfaDbDelete t userId key).rows = t.rows.filter (·.id ≠ (userId, key)) := rfl

variable {l : Login} {key : Bytes} {now : ℤ}

theorem Agrees.remove (agrees : Agrees (l :: ls) t) :
    Agrees ls (tmfaDbDelete t l.userId l.key) := by
  obtain ⟨r, mem, same⟩ := mem_map.mp (agrees.same.mem_iff.mp mem_cons_self)
  have here : (l.userId, l.key) = r.id := by rw [← id_ofRow, same]; rfl
  have rows := (perm_cons_filter t.unique mem).map ofRow
  rw [map_cons, same] at rows
  refine ⟨?_, fun u => ?_, fun m inside => agrees.fits m (mem_cons_of_mem l inside)⟩
  · rw [rows_delete, here]
    exact (agrees.same.trans rows).cons_inv
  · exact (List.Sublist.countP_le (sublist_cons_self l ls)).trans (agrees.capped u)

theorem Agrees.delete_other (agrees : Agrees ls t)
    (other : ∀ l ∈ ls, l.id ≠ (userId, key)) : Agrees ls (tmfaDbDelete t userId key) := by
  apply agrees.of_rows
  have all : t.rows.filter (·.id ≠ (userId, key)) = t.rows := by
    rw [filter_eq_self]
    intro r mem
    have stored := agrees.same.mem_iff.mpr (mem_map_of_mem (f := ofRow) mem)
    exact decide_eq_true (other _ stored)
  rw [rows_delete, all]

theorem Agrees.insert (agrees : Agrees ls (tmfaDbDelete t l.userId l.key))
    (room : ls.countP (·.userId = l.userId) < usernsTmfaMax) (fits : Fits l.bot l.kind l.key) :
    Agrees (l :: ls) (tmfaDbUpsert t l.userId l.bot l.kind l.key now) where
  same := agrees.same.cons l
  capped u := by
    by_cases here : l.userId = u
    · rw [countP_cons_of_pos (by simpa using here), ← here]
      exact room
    · rw [countP_cons_of_neg (by simpa using here)]
      exact agrees.capped u
  fits := forall_mem_cons.mpr ⟨fits, agrees.fits⟩

theorem Agrees.room (agrees : Agrees (l :: ls) t) :
    ls.countP (·.userId = l.userId) < usernsTmfaMax := by
  have := agrees.capped l.userId
  rw [countP_cons_of_pos (by simp)] at this
  omega

end Statements

section Operations

variable {t : Table}

theorem perm_front (pre post : List Entry) (e : Entry) :
    (logins (pre ++ e :: post)).Perm (ofEntry e :: logins (pre ++ post)) :=
  perm_middle.map ofEntry

theorem agrees_remove (agrees : Agrees (logins (pre ++ e :: post)) t) :
    Agrees (logins (pre ++ post)) (tmfaDbDelete t e.userId e.key) :=
  (agrees.perm (perm_front pre post e).symm).remove

theorem logins_replace {e' : Entry} (same : ofEntry e' = ofEntry e) :
    logins (pre ++ e' :: post) = logins (pre ++ e :: post) := by
  simp [logins, same]

theorem ofEntry_stamp : ofEntry (tmfaStamp e now).1 = ofEntry e := by
  unfold tmfaStamp
  split <;> rfl

theorem agrees_stamp (agrees : Agrees (logins (pre ++ e :: post)) t) :
    Agrees (logins (pre ++ (tmfaStamp e now).1 :: post))
      (if (tmfaStamp e now).2 then tmfaDbTouch t userId key now else t) := by
  rw [logins_replace ofEntry_stamp]
  split
  · exact agrees.touch userId key now
  · exact agrees

theorem agrees_removeAll (p : Entry → Bool) (pre : List Entry)
    (agrees : Agrees (logins (pre ++ es)) t) :
    Agrees (logins (pre ++ es.filter (!p ·)))
      ((es.filter p).foldl (fun t e => tmfaDbDelete t e.userId e.key) t) := by
  induction es generalizing pre t with
  | nil => exact agrees
  | cons e rest ih =>
    by_cases dead : p e = true
    · rw [filter_cons_of_neg (by simp [dead]), filter_cons_of_pos dead,
        foldl_cons]
      exact ih pre (agrees_remove agrees)
    · have kept : pre ++ e :: rest = (pre ++ [e]) ++ rest := by simp
      rw [filter_cons_of_pos (by simp [dead]), filter_cons_of_neg dead]
      rw [kept] at agrees
      simpa using ih (pre ++ [e]) agrees

theorem agrees_del (agrees : Agrees (logins es) t) :
    Agrees (logins (usernsTmfaDel es t userId key).1) (usernsTmfaDel es t userId key).2 := by
  have owned : ∀ e ∈ es.filter (deletes userId key), e.userId = userId := by
    intro e mem
    have dead := (mem_filter.mp mem).2
    simp only [deletes, Bool.and_eq_true, decide_eq_true_eq] at dead
    exact dead.1
  have few : ((es.filter (deletes userId key)).map (·.key)).length ≤ usernsTmfaMax := by
    refine le_trans ?_ (agrees.capped userId)
    rw [length_map, ← countP_eq_length_filter, logins, countP_map]
    apply countP_mono_left
    intro e mem dead
    exact decide_eq_true (owned e (mem_filter.mpr ⟨mem, dead⟩))
  have together := agrees_removeAll (deletes userId key) [] agrees
  unfold usernsTmfaDel
  simp only [take_of_length_le few, foldl_map]
  have statements : (es.filter (deletes userId key)).foldl
      (fun t e => tmfaDbDelete t userId e.key) t =
        (es.filter (deletes userId key)).foldl (fun t e => tmfaDbDelete t e.userId e.key) t := by
    apply foldl_ext
    intro t e mem
    rw [owned e mem]
  rw [statements]
  exact together

variable (env : Env)

theorem agrees_resolve (agrees : Agrees (logins es) t) :
    Agrees (logins (usernsTmfaResolve env es t kind key now).1)
      (usernsTmfaResolve env es t kind key now).2.1 := by
  unfold usernsTmfaResolve
  split
  next => exact agrees
  next pre e post found =>
    rw [(splitFirst_some found).1] at agrees
    split
    · exact agrees_remove agrees
    · exact agrees_stamp agrees

theorem agrees_reread (agrees : Agrees (logins es) t) :
    Agrees (logins (reread env es t a).1) (reread env es t a).2 := by
  unfold reread
  split
  next => exact agrees
  next pre e post found =>
    obtain ⟨whole, row, -⟩ := splitFirst_some found
    simp only [sameRow, Bool.and_eq_true, decide_eq_true_eq] at row
    split
    · rw [← row.1, ← row.2]
      exact agrees_remove (whole ▸ agrees)
    · split
      · exact agrees_stamp (whole ▸ agrees)
      · exact agrees

theorem logins_seenPass (now : ℤ) (n : ℕ) :
    logins (seenPass env kind key now n es).1 = logins es := by
  induction es generalizing n with
  | nil => rfl
  | cons e rest ih =>
    have later (m : ℕ) {e' : Entry} (same : ofEntry e' = ofEntry e) :
        logins (e' :: (seenPass env kind key now m rest).1) = logins (e :: rest) := by
      have := ih m
      simp only [logins, map_cons, same] at this ⊢
      rw [this]
    rw [seenPass]
    split_ifs
    · exact later n rfl
    · exact later n rfl
    · exact later (n + 1) ofEntry_stamp
    · exact later n ofEntry_stamp

theorem agrees_seen (agrees : Agrees (logins es) t) :
    Agrees (logins (usernsTmfaSeen env es t kind key now).1)
      (usernsTmfaSeen env es t kind key now).2 := by
  simp only [usernsTmfaSeen, logins_seenPass]
  generalize (seenPass env kind key now 0 es).2 = due
  induction due generalizing t with
  | nil => exact agrees
  | cons id rest ih => exact ih (agrees.touch id.1 id.2 now)

end Operations

variable {t : Table} {username bot kind : Bytes}

section Identification

structure Spelled (es : List Entry) (userId : ℕ) (kind key : Bytes) : Prop where
  alike : ∀ e ∈ es, e.userId = userId → tmfaMatches e kind key = true → e.kind = kind ∧ e.key = key
  apart : ∀ e ∈ es, e.userId = userId → e.key = key → e.kind = kind

instance (es : List Entry) (userId : ℕ) (kind key : Bytes) : Decidable (Spelled es userId kind key) :=
  decidable_of_iff ((∀ e ∈ es, e.userId = userId → tmfaMatches e kind key = true →
      e.kind = kind ∧ e.key = key) ∧ ∀ e ∈ es, e.userId = userId → e.key = key → e.kind = kind)
    ⟨fun ⟨alike, apart⟩ => ⟨alike, apart⟩, fun ⟨alike, apart⟩ => ⟨alike, apart⟩⟩

theorem agrees_add {fits : Fits bot kind key}
    (spelled : Spelled es userId kind key) (agrees : Agrees (logins es) t) :
    Agrees (logins (usernsTmfaAdd es t userId username bot kind key now fits).1)
      (usernsTmfaAdd es t userId username bot kind key now fits).2 := by
  unfold usernsTmfaAdd
  split
  next pre e post found =>
    obtain ⟨whole, same, -⟩ := splitFirst_some found
    simp only [Bool.and_eq_true, decide_eq_true_eq] at same
    obtain ⟨rfl, rfl⟩ := spelled.alike e (whole ▸ by simp) same.1 same.2
    obtain rfl := same.1
    rw [whole] at agrees
    have front := agrees.perm (perm_front pre post e).symm
    exact (Agrees.insert (l := ⟨e.userId, bot, e.kind, e.key⟩) (agrees_remove agrees) front.room
      fits).perm (perm_front pre post _)
  next missing =>
    have fresh : ∀ e ∈ es, (ofEntry e).id ≠ (userId, key) := by
      intro e mem same
      obtain ⟨mine, alike⟩ := Prod.mk.inj same
      have other := splitFirst_none missing e mem
      have kind := spelled.apart e mem mine alike
      change e.userId = userId at mine
      change e.key = key at alike
      rw [← kind, ← alike, matches_self, mine] at other
      simp at other
    split
    next pre old post evicted =>
      obtain ⟨whole, mine⟩ := evicts_some evicted
      rw [whole] at agrees fresh
      have kept := agrees_remove agrees
      have front := agrees.perm (perm_front pre post old).symm
      refine Agrees.insert (l := ⟨userId, bot, kind, key⟩) (kept.delete_other ?_) ?_ fits
      · intro l mem
        obtain ⟨e, inside, rfl⟩ := mem_map.mp mem
        rcases mem_append.mp inside with before | after
        · exact fresh e (by simp [before])
        · exact fresh e (by simp [after])
      · have := front.room
        rwa [show (ofEntry old).userId = userId from mine] at this
    next all =>
      have room := evicts_none all
      refine Agrees.insert (l := ⟨userId, bot, kind, key⟩) (agrees.delete_other ?_) ?_ fits
      · intro l mem
        obtain ⟨e, inside, rfl⟩ := mem_map.mp mem
        exact fresh e inside
      · rw [countP_map]
        exact room

end Identification

section Restart

theorem agrees_flush (es : List Entry) (agrees : Agrees ls t) : Agrees ls (es.foldl flush t) := by
  induction es generalizing t with
  | nil => exact agrees
  | cons e rest ih =>
    rw [foldl_cons]
    apply ih
    unfold flush
    split
    · exact agrees.touch e.userId e.key e.lastSeen
    · exact agrees

theorem logins_load (env : Env) (agrees : Agrees ls t) : (logins (load env t)).Perm ls := by
  have whole : t.rows.map (fun r => ofEntry (entryOfRow env r)) = t.rows.map ofRow := by
    apply map_congr_left
    intro r mem
    have fits : Fits r.botName r.methodKind r.metadata :=
      agrees.fits _ (agrees.same.mem_iff.mpr (mem_map_of_mem mem))
    simp only [ofEntry, entryOfRow, ofRow, bounded_of_lt fits.key, bounded_of_lt fits.bot,
      bounded_of_lt fits.kind]
  rw [logins, load, map_reverse, map_map]
  refine (reverse_perm _).trans ?_
  change (t.rows.map fun r => ofEntry (entryOfRow env r)).Perm ls
  rw [whole]
  exact agrees.same.symm

variable {env : Env}

def InStep (env : Env) (s : Sys) : Prop := Agrees (logins (ensured env s)) s.table

/-- An identification that is carried out is spelled as the entries are. -/
def Keeps (env : Env) (s : Sys) : LifeOp → Prop
  | .live (.add _ username _ kind key) =>
    Spelled (ensured env s) (env.usernsGetUserId username) kind key
  | _ => True

instance (env : Env) (s : Sys) (op : LifeOp) : Decidable (Keeps env s op) := by
  unfold Keeps
  split <;> infer_instance

theorem inStep_onCache {f : List Entry → Table → List Entry × Table}
    (kept : ∀ es t, Agrees (logins es) t → Agrees (logins (f es t).1) (f es t).2)
    (inv : InStep env s) : InStep env (onCache s f) := by
  unfold onCache
  split
  next => exact inv
  next es some =>
    unfold InStep ensured at inv
    rw [some] at inv
    exact kept es s.table inv

theorem inStep_tick {u : Sys} (ticked : tick s now = some u) (inv : InStep env s) :
    InStep env u := by
  obtain ⟨-, rfl⟩ := fired ticked
  exact inv

theorem inStep_add
    (spelled : Spelled (ensured env s) (env.usernsGetUserId username) kind key) (inv : InStep env s) :
    InStep env (stepAdd env s username bot kind key now) := by
  simp only [stepAdd]
  split_ifs
  · exact inv
  · exact inv
  · exact agrees_add spelled inv
  · exact inv

theorem inStep_step {op : Op} (inv : InStep env s) (keeps : Keeps env s (.live op))
    (moved : step env s op = some s') : InStep env s' := by
  cases op with
  | add now username bot kind key =>
    obtain ⟨u, ticked, rfl⟩ := Option.map_eq_some_iff.mp moved
    have same : ensured env u = ensured env s := by
      obtain ⟨-, rfl⟩ := fired ticked
      rfl
    exact inStep_add (same ▸ keeps) (inStep_tick ticked inv)
  | resolve now kind key =>
    obtain ⟨u, ticked, rfl⟩ := Option.map_eq_some_iff.mp moved
    dsimp only
    split
    · exact inStep_tick ticked inv
    · exact inStep_onCache (fun es t => agrees_resolve env) (inStep_tick ticked inv)
  | seen now kind key =>
    obtain ⟨u, ticked, rfl⟩ := Option.map_eq_some_iff.mp moved
    split
    · exact inStep_tick ticked inv
    · exact inStep_onCache (fun es t => agrees_seen env) (inStep_tick ticked inv)
  | drop kind key =>
    cases moved
    split
    · exact inv
    · refine inStep_onCache (fun es t agrees => ?_) inv
      rw [drop_eq]
      exact agrees_removeAll (tmfaMatches · kind key) [] agrees
  | del username key =>
    cases moved
    split
    · exact inv
    · exact inStep_onCache (fun es t => agrees_del) inv
  | sweepBegin =>
    rw [step] at moved
    split at moved <;> cases moved <;> exact inv
  | sweepLook now i presence =>
    rw [step] at moved
    split at moved
    · obtain ⟨u, ticked, rfl⟩ := Option.map_eq_some_iff.mp moved
      have kept : InStep env u := inStep_tick ticked inv
      exact kept
    · cases moved
  | sweepReread i =>
    rw [step] at moved
    split at moved
    next rest a pending =>
      cases moved
      exact inStep_onCache (fun es t => agrees_reread env) inv
    · cases moved

theorem inStep_lifeStep {op : LifeOp} (inv : InStep env s) (keeps : Keeps env s op)
    (moved : lifeStep env s op = some s') : InStep env s' := by
  cases op with
  | live op => exact inStep_step inv keeps moved
  | destroy =>
    rw [lifeStep, usernsTmfaDestroy] at moved
    split at moved
    · split at moved
      next => cases moved; exact inv
      next es some =>
        cases moved
        have flushed := agrees_flush es inv
        exact flushed.perm (logins_load env flushed)
    · cases moved
  | ensure =>
    cases moved
    exact inv

theorem inStep_start : InStep env (start clock) where
  same := List.Perm.nil
  capped _ := Nat.zero_le _
  fits _ mem := by cases mem

def cached (es : List Entry) : List (ℕ × Bytes × Bytes) := (logins es).map Login.triple

def stored (t : Table) : List (ℕ × Bytes × Bytes) := t.rows.map fun r => (ofRow r).triple

theorem mem_cached_iff (agrees : Agrees (logins es) t) (login : ℕ × Bytes × Bytes) :
    login ∈ cached es ↔ login ∈ stored t := by
  have both := (agrees.same.map Login.triple).mem_iff (a := login)
  rw [map_map] at both
  exact both

theorem logins_agree {clock : ℤ} {ops : List LifeOp} {s : Sys}
    (run : Run (lifeStep env) (Keeps env) (start clock) ops s) {es : List Entry}
    (cache : s.cache = some es) :
    (∀ login, login ∈ cached es ↔ login ∈ stored s.table) ∧
      ∀ login, login ∈ cached (load env (es.foldl flush s.table)) ↔ login ∈ cached es := by
  have inv : InStep env s :=
    run.invariant inStep_lifeStep inStep_start
  unfold InStep ensured at inv
  rw [cache] at inv
  refine ⟨mem_cached_iff inv, fun login => ?_⟩
  have reloaded := logins_load env (agrees_flush es inv)
  exact (reloaded.map Login.triple).mem_iff

def sampleEnv : Env :=
  ⟨fun name => if name = ascii "bob" then 7 else 0, fun _ => ascii "bob", fun _ _ => 3600⟩

theorem logins_agree_sample : ∃ (s : Sys) (es : List Entry),
    s.cache = some es ∧ es ≠ [] ∧ ∀ login, login ∈ cached es ↔ login ∈ stored s.table := by
  have run : Run (lifeStep sampleEnv) (Keeps sampleEnv) (start 0)
      [.live (.add 1 (ascii "bob") (ascii "b") (ascii "irc") (ascii "K")),
        .live (.add 2 (ascii "bob") (ascii "c") (ascii "irc") (ascii "K")),
        .destroy, .ensure] _ :=
    .cons (by decide) rfl (.cons (by decide) rfl (.cons trivial rfl (.cons trivial rfl (.nil _))))
  exact ⟨_, _, rfl, cons_ne_nil _ _, (logins_agree run rfl).1⟩

/-- A key in another letter case leaves a second row, which the end of the login does not
reach and a restart turns into a login again. -/
theorem not_logins_agree :
    ∃ held ended restarted,
      exec (lifeStep sampleEnv) (start 0)
          [.live (.add 1 (ascii "bob") (ascii "b") (ascii "irc") (ascii "A")),
            .live (.add 2 (ascii "bob") (ascii "b") (ascii "irc") (ascii "a"))] = some held ∧
        held.cache.map cached = some [(7, ascii "irc", ascii "A")] ∧
        stored held.table = [(7, ascii "irc", ascii "a"), (7, ascii "irc", ascii "A")] ∧
        exec (lifeStep sampleEnv) held [.live (.drop (ascii "irc") (ascii "a"))] = some ended ∧
        ended.cache.map cached = some [] ∧
        exec (lifeStep sampleEnv) ended [.destroy, .ensure] = some restarted ∧
        restarted.cache.map cached = some [(7, ascii "irc", ascii "a")] :=
  ⟨_, _, _, rfl, by decide, by decide, rfl, by decide, rfl, by decide⟩

end Restart

end BotManager.TmfaAgreement
