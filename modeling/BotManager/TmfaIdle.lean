import Mathlib.Data.List.Nodup
import BotManager.TmfaModel

/-! The idle window of a temporary login over whole runs. The log of a run holds what the
operations did to entries; a login is vouched for by an identification followed by signs of
activity of its own kind and key, no two further apart than its window. An entry's stamp is
always backed by such a chain, except that a sweep looks an entry up by user and key alone
and can stamp a login of another kind than the one whose presence it asked about. -/

namespace BotManager.TmfaIdle
open List CText StepRun FirstMatch TmfaModel
open MfaPattern (usernsMfaPatternSz)

inductive Cause
  | resolved
  | seen
  | present
  deriving DecidableEq

/-- What an operation does: an identification, a stamp on an entry with the kind and key
that showed activity, or the end of an entry that `userns_tmfa_resolve` reports. -/
inductive Event
  | added (userId : ℕ) (bot kind key : Bytes) (now : ℤ)
  | stamped (cause : Cause) (e : Entry) (kind key : Bytes) (now : ℤ)
  | expired (e : Entry) (now : ℤ)

def ident (userId : ℕ) (kind key : Bytes) : ℕ × Bytes × Bytes :=
  (userId, kind.map toLower, key.map toLower)

def identOf (e : Entry) : ℕ × Bytes × Bytes := ident e.userId e.kind e.key

section Log

variable (env : Env) (es : List Entry)

def resolveEvents (kind key : Bytes) (now : ℤ) : List Event :=
  match splitFirst (tmfaMatches · kind key) es with
  | none => []
  | some (_, e, _) =>
    if tmfaIdledOut env e.bot e.kind e.lastSeen now then [.expired e now]
    else [.stamped .resolved e kind key now]

def seenEvents (kind key : Bytes) (now : ℤ) : List Event :=
  ((es.filter fun e => tmfaMatches e kind key && !tmfaIdledOut env e.bot e.kind e.lastSeen now).map
    fun e => .stamped .seen e kind key now).reverse

def rereadEvents (a : Asked) : List Event :=
  match splitFirst (sameRow a.entry) es with
  | none => []
  | some (_, e, _) =>
    if a.presence = .orphan || tmfaIdledOut env e.bot e.kind e.lastSeen a.now then []
    else if a.presence = .present then
      [.stamped .present e a.entry.kind a.entry.key a.now]
    else []

def addEvents (username bot kind key : Bytes) (now : ℤ) : List Event :=
  if key = [] then []
  else if Fits bot kind key then
    if env.usernsGetUserId username = 0 then []
    else [.added (env.usernsGetUserId username) bot kind key now]
  else []

def events (s : Sys) : Op → List Event
  | .add now username bot kind key => addEvents env username bot kind key now
  | .resolve now kind key =>
    if key = [] then [] else resolveEvents env (s.cache.getD []) kind key now
  | .seen now kind key => if key = [] then [] else seenEvents env (s.cache.getD []) kind key now
  | .sweepReread i =>
    match s.sweeps[i]? with
    | some ⟨_, some a⟩ => rereadEvents env (s.cache.getD []) a
    | _ => []
  | _ => []

def loggedStep (x : Sys × List Event) (op : Op) : Option (Sys × List Event) :=
  (step env x.1 op).map fun s => (s, events env x.1 op ++ x.2)

/-- An identification of the user under a matching kind and key, followed by signs of
activity of that kind and key, each within the window of the one before. -/
inductive Chain (userId : ℕ) (kind key : Bytes) : List Event → Bytes → ℤ → Prop
  | added {bot kind' key' : Bytes} {t : ℤ} {past : List Event}
      (same : ident userId kind' key' = ident userId kind key) :
      Chain userId kind key (.added userId bot kind' key' t :: past) bot t
  | stamped {bot kind' key' : Bytes} {cause : Cause} {e : Entry} {last t : ℤ} {past : List Event}
      (before : Chain userId kind key past bot last)
      (same : ident e.userId kind' key' = ident userId kind key) (order : last ≤ t)
      (gap : t - last ≤ env.identtimeout bot kind) :
      Chain userId kind key (.stamped cause e kind' key' t :: past) bot t
  | skip {bot : Bytes} {last : ℤ} {past : List Event} (ev : Event)
      (before : Chain userId kind key past bot last) : Chain userId kind key (ev :: past) bot last

def Ended (i : ℕ × Bytes × Bytes) : List Event → Prop
  | [] => False
  | .added userId _ kind key _ :: past => ident userId kind key ≠ i ∧ Ended i past
  | .stamped .. :: past => Ended i past
  | .expired e _ :: past => identOf e = i ∨ Ended i past

/-- A stamp finds its entry inside the window, a successful resolve ends a chain, and no
login expires twice without an identification in between. -/
def Justified : Event → List Event → Prop
  | .added .., _ => True
  | .stamped cause e kind key t, past =>
    t - e.lastSeen ≤ env.identtimeout e.bot e.kind ∧
      (cause = .resolved → tmfaMatches e kind key = true ∧
        ∃ last, last ≤ t ∧ t - last ≤ env.identtimeout e.bot e.kind ∧
          Chain env e.userId e.kind e.key past e.bot last)
  | .expired e _, past => ¬ Ended (identOf e) past

def Sound : List Event → Prop
  | [] => True
  | ev :: past => Justified env ev past ∧ Sound past

end Log

variable {e' : Entry} {pre : List Entry} {a : Asked} {username : Bytes} {s u : Sys} {op : Op}

section Entries

variable {env : Env} {es : List Entry} {log : List Event} {clock : ℤ}

structure Live (env : Env) (es : List Entry) (log : List Event) (clock : ℤ) : Prop where
  backed : ∀ e ∈ es, ∃ last, e.lastSeen ≤ last ∧ last ≤ clock ∧
    Chain env e.userId e.kind e.key log e.bot last
  distinct : (es.map identOf).Nodup
  going : ∀ e ∈ es, ¬ Ended (identOf e) log
  sound : Sound env log

theorem Live.sublist {es' : List Entry} (live : Live env es log clock) (sub : es'.Sublist es) :
    Live env es' log clock where
  backed e mem := live.backed e (sub.subset mem)
  distinct := live.distinct.sublist (sub.map _)
  going e mem := live.going e (sub.subset mem)
  sound := live.sound

variable {now : ℤ} {e : Entry} {key kind bot : Bytes} {post : List Entry}

theorem Live.later (live : Live env es log clock) (order : clock ≤ now) : Live env es log now where
  backed e mem := by
    obtain ⟨last, seen, past, chain⟩ := live.backed e mem
    exact ⟨last, seen, past.trans order, chain⟩
  __ := live

theorem matches_iff : tmfaMatches e kind key = true ↔ ident e.userId kind key = identOf e := by
  rw [tmfaMatches, Bool.and_eq_true, strncasecmp_iff e.keyFits, strcasecmp, decide_eq_true_iff]
  simp only [ident, identOf, Prod.mk.injEq, true_and]
  exact and_congr eq_comm eq_comm

variable (nonzero : ∀ bot kind, env.identtimeout bot kind ≠ 0)

include nonzero in
theorem gap_of_not_idle {last : ℤ} (inside : ¬ tmfaIdledOut env bot kind last now = true) :
    now - last ≤ env.identtimeout bot kind := by
  simpa [tmfaIdledOut, nonzero] using inside

structure Stamped (e e' : Entry) (now : ℤ) : Prop where
  userId : e'.userId = e.userId
  bot : e'.bot = e.bot
  kind : e'.kind = e.kind
  key : e'.key = e.key
  lastSeen : e'.lastSeen = now

theorem stamped_stamp : Stamped e (tmfaStamp e now).1 now := by
  unfold tmfaStamp
  split <;> exact ⟨rfl, rfl, rfl, rfl, rfl⟩

theorem Stamped.ident (h : Stamped e e' now) : identOf e' = identOf e := by
  rw [identOf, identOf, h.userId, h.kind, h.key]

include nonzero in
/-- A stamp on one entry, with the activity it stands for. A stamp may be older than the
one before it, if a sweep took its time; the chain then ends where it did. -/
theorem Live.stamp (cause : Cause)
    (live : Live env (pre ++ e :: post) log clock) (found : tmfaMatches e kind key = true)
    (inside : ¬ tmfaIdledOut env e.bot e.kind e.lastSeen now = true) (past : now ≤ clock)
    (current : cause = .resolved → clock ≤ now) (stamped : Stamped e e' now) :
    Live env (pre ++ e' :: post) (.stamped cause e kind key now :: log) clock := by
  have gap := gap_of_not_idle nonzero inside
  obtain ⟨last, seen, before, chain⟩ := live.backed e (by simp)
  have idents : (pre ++ e' :: post).map identOf = (pre ++ e :: post).map identOf := by
    simp [stamped.ident]
  have unchanged : ∀ x ∈ pre ++ e' :: post, x = e' ∨ x ∈ pre ++ e :: post := by
    intro x mem
    rcases mem_append.mp mem with inPre | inPost
    · exact .inr (by simp [inPre])
    · rcases mem_cons.mp inPost with here | after
      · exact .inl here
      · exact .inr (by simp [after])
  constructor
  · intro x mem
    rcases unchanged x mem with rfl | old
    · rw [stamped.userId, stamped.bot, stamped.kind, stamped.key, stamped.lastSeen]
      rcases le_or_gt last now with ahead | behind
      · exact ⟨now, le_rfl, past, .stamped chain (matches_iff.mp found) ahead (by omega)⟩
      · exact ⟨last, behind.le, before, chain.skip _⟩
    · obtain ⟨last, seen, before, chain⟩ := live.backed x old
      exact ⟨last, seen, before, chain.skip _⟩
  · rw [idents]
    exact live.distinct
  · intro x mem
    have old := mem_map_of_mem (f := identOf) mem
    rw [idents] at old
    obtain ⟨y, inside, same⟩ := mem_map.mp old
    rw [← same]
    exact live.going y inside
  · refine ⟨⟨gap, fun resolved => ⟨found, last, ?_, ?_, chain⟩⟩, live.sound⟩
    · exact before.trans (current resolved)
    · omega

theorem Live.expire (live : Live env (pre ++ e :: post) log clock) :
    Live env (pre ++ post) (.expired e now :: log) clock := by
  have sub : (pre ++ post).Sublist (pre ++ e :: post) := by simp
  have once : identOf e ∉ (pre ++ post).map identOf := by
    have distinct := live.distinct
    rw [map_append, map_cons, nodup_middle, nodup_cons] at distinct
    rw [map_append]
    exact distinct.1
  constructor
  · intro x mem
    obtain ⟨last, seen, before, chain⟩ := live.backed x (sub.subset mem)
    exact ⟨last, seen, before, chain.skip _⟩
  · exact live.distinct.sublist (sub.map _)
  · intro x mem gone
    rcases gone with here | earlier
    · exact once (here ▸ mem_map_of_mem mem)
    · exact live.going x (sub.subset mem) earlier
  · exact ⟨live.going e (by simp), live.sound⟩

theorem Live.extend (pre : List Entry) (live : Live env (pre ++ post) log clock)
    (order : clock ≤ now) (same : ident e.userId kind key = identOf e)
    (fresh : e.bot = bot ∧ e.lastSeen = now) (alone : identOf e ∉ (pre ++ post).map identOf) :
    Live env (pre ++ e :: post) (.added e.userId bot kind key now :: log) now := by
  have members : ∀ x ∈ pre ++ e :: post, x = e ∨ x ∈ pre ++ post := by
    intro x mem
    have := perm_middle.mem_iff.mp mem
    exact mem_cons.mp this
  constructor
  · intro x mem
    rcases members x mem with rfl | old
    · refine ⟨now, fresh.2.le, le_rfl, ?_⟩
      rw [fresh.1]
      exact .added same
    · obtain ⟨last, seen, before, chain⟩ := live.backed x old
      exact ⟨last, seen, before.trans order, chain.skip _⟩
  · rw [map_append, map_cons, nodup_middle, nodup_cons, ← map_append]
    exact ⟨alone, live.distinct⟩
  · intro x mem gone
    rcases members x mem with rfl | old
    · exact gone.1 same
    · exact live.going x old gone.2
  · exact ⟨trivial, live.sound⟩

include nonzero

theorem live_resolve (live : Live env es log now) :
    Live env (usernsTmfaResolve env es t kind key now).1
      (resolveEvents env es kind key now ++ log) now := by
  unfold usernsTmfaResolve resolveEvents
  cases found : splitFirst (tmfaMatches · kind key) es with
  | none => exact live
  | some parts =>
    obtain ⟨pre, e, post⟩ := parts
    obtain ⟨whole, same, -⟩ := splitFirst_some found
    rw [whole] at live
    dsimp only
    split
    · exact live.expire
    next inside =>
      exact live.stamp nonzero .resolved same inside le_rfl (fun _ => le_rfl) stamped_stamp

theorem live_seenPass (n : ℕ) (pre : List Entry)
    (live : Live env (pre ++ es) log now) :
    Live env (pre ++ (seenPass env kind key now n es).1)
      (seenEvents env es kind key now ++ log) now := by
  induction es generalizing n pre log with
  | nil => exact live
  | cons e rest ih =>
    have shift (x : Entry) (l : List Entry) : pre ++ x :: l = (pre ++ [x]) ++ l := by simp
    by_cases stays : tmfaMatches e kind key = true ∧
        ¬ tmfaIdledOut env e.bot e.kind e.lastSeen now = true
    · obtain ⟨same, inside⟩ := stays
      have first : seenEvents env (e :: rest) kind key now =
          seenEvents env rest kind key now ++ [.stamped .seen e kind key now] := by
        simp [seenEvents, same, inside]
      have after (m : ℕ) {e' : Entry} (stamped : Stamped e e' now) :
          Live env (pre ++ e' :: (seenPass env kind key now m rest).1)
            (seenEvents env (e :: rest) kind key now ++ log) now := by
        have live := live.stamp nonzero .seen same inside le_rfl (by simp) stamped
        rw [shift] at live
        rw [first, shift]
        simpa using ih m (pre ++ [e']) live
      rw [seenPass, if_neg (by simp [same, inside])]
      split_ifs
      · exact after n ⟨rfl, rfl, rfl, rfl, rfl⟩
      · exact after (n + 1) stamped_stamp
      · exact after n stamped_stamp
    · have none : seenEvents env (e :: rest) kind key now = seenEvents env rest kind key now := by
        rw [seenEvents, seenEvents, filter_cons_of_neg (by simpa using stays)]
      rw [seenPass, if_pos (by simpa [imp_iff_not_or] using stays), none, shift]
      rw [shift] at live
      exact ih n (pre ++ [e]) live

def AsksFor (es : List Entry) (a : Asked) : Prop :=
  ∀ pre e post, splitFirst (sameRow a.entry) es = some (pre, e, post) →
    a.presence = .present → strcasecmp e.kind a.entry.kind = true

theorem live_reread (live : Live env es log clock) (past : a.now ≤ clock)
    (asks : AsksFor es a) :
    Live env (reread env es t a).1 (rereadEvents env es a ++ log) clock := by
  unfold reread rereadEvents
  cases found : splitFirst (sameRow a.entry) es with
  | none => exact live
  | some parts =>
    obtain ⟨pre, e, post⟩ := parts
    obtain ⟨whole, row, -⟩ := splitFirst_some found
    dsimp only
    split
    · rw [whole] at live
      exact live.sublist (by simp)
    next inside =>
      rw [Bool.or_eq_true, not_or] at inside
      split
      next present =>
        have kinds := asks pre e post found present
        simp only [sameRow, Bool.and_eq_true, decide_eq_true_eq] at row
        have same : tmfaMatches e a.entry.kind a.entry.key = true := by
          rw [tmfaMatches, kinds, ← row.2]
          simp [strncasecmp, strcasecmp]
        rw [whole] at live
        exact live.stamp nonzero .present same inside.2 past (by simp) stamped_stamp
      next => exact live

omit nonzero in
theorem live_add {userId : ℕ} {fits : Fits bot kind key} (t : Table)
    (live : Live env es log clock) (order : clock ≤ now) :
    Live env (usernsTmfaAdd es t userId username bot kind key now fits).1
      (.added userId bot kind key now :: log) now := by
  unfold usernsTmfaAdd
  split
  next pre e post found =>
    obtain ⟨whole, same, -⟩ := splitFirst_some found
    simp only [Bool.and_eq_true, decide_eq_true_eq] at same
    obtain ⟨rfl, same⟩ := same
    rw [whole] at live
    have distinct := live.distinct
    rw [map_append, map_cons, nodup_middle, nodup_cons, ← map_append]
      at distinct
    have others : Live env (pre ++ post) log clock := live.sublist (by simp)
    exact others.extend pre (e := { e with
      bot := bot, botFits := fits.bot, lastSeen := now, persistedAt := now })
      order (matches_iff.mp same) ⟨rfl, rfl⟩ distinct.1
  next missing =>
    have alone : ident userId kind key ∉ es.map identOf := by
      intro mem
      obtain ⟨e, inside, same⟩ := mem_map.mp mem
      have mine : e.userId = userId := congrArg Prod.fst same
      have other := splitFirst_none missing e inside
      subst mine
      rw [matches_iff.mpr same.symm] at other
      simp at other
    have mint {l : List Entry} (sub : l.Sublist es) :
        Live env (minted userId username bot kind key now fits :: l)
          (.added userId bot kind key now :: log) now :=
      (live.sublist sub).extend [] (e := minted userId username bot kind key now fits)
        order rfl ⟨rfl, rfl⟩ fun mem => alone ((sub.map identOf).subset mem)
    split
    next pre old post evicted =>
      refine mint ?_
      rw [(evicts_some evicted).1]
      simp
    next => exact mint (List.Sublist.refl es)

end Entries

section Runs

variable {env : Env}

/-- A sweep that was told of a presence finds an entry of the kind it asked about. -/
def Keeps (x : Sys × List Event) : Op → Prop
  | .sweepReread i => ∀ rest a, x.1.sweeps[i]? = some ⟨rest, some a⟩ →
      AsksFor (x.1.cache.getD []) a
  | _ => True

structure Inv (env : Env) (x : Sys × List Event) : Prop where
  live : Live env (x.1.cache.getD []) x.2 x.1.clock
  asked : ∀ w ∈ x.1.sweeps, ∀ a, w.asked = some a → a.now ≤ x.1.clock
  unused : x.1.cache = none → x.1.table.rows = []

variable {log : List Event}

theorem Inv.later (inv : Inv env (s, log))
    (ticked : tick s now = some u) : Inv env (u, log) ∧ u.clock = now := by
  obtain ⟨order, rfl⟩ := fired ticked
  refine ⟨⟨inv.live.later order, fun w mem a pending => ?_, inv.unused⟩, rfl⟩
  exact (inv.asked w mem a pending).trans order

theorem cache_tick (ticked : tick s now = some u) : u.cache = s.cache := by
  obtain ⟨-, rfl⟩ := fired ticked
  rfl

theorem Inv.onCache (evs : List Event)
    {f : List Entry → Table → List Entry × Table} (inv : Inv env (s, log))
    (none : s.cache = none → evs = [])
    (moves : ∀ es, s.cache = some es → Live env es log s.clock →
      Live env (f es s.table).1 (evs ++ log) s.clock) :
    Inv env (TmfaModel.onCache s f, evs ++ log) := by
  have live := inv.live
  unfold TmfaModel.onCache
  cases cache : s.cache with
  | none =>
    rw [none cache]
    exact inv
  | some es =>
    simp only [cache, Option.getD_some] at live
    exact ⟨moves es cache live, inv.asked, by simp⟩

theorem Inv.add (inv : Inv env (s, log))
    (clock : s.clock = now) :
    Inv env (stepAdd env s username bot kind key now,
      addEvents env username bot kind key now ++ log) := by
  have entries : ensured env s = s.cache.getD [] := by
    unfold ensured
    cases cache : s.cache with
    | none =>
      have none := inv.unused cache
      simp only at none
      simp [load, none]
    | some es => rfl
  simp only [stepAdd, addEvents]
  split_ifs
  · exact inv
  · exact inv
  · rw [entries]
    refine ⟨?_, inv.asked, by simp⟩
    rw [clock]
    exact live_add s.table inv.live clock.le
  · exact inv

theorem now_look {presence : TmfaPresence} (asked : look env e presence now = some a) :
    a.now = now := by
  unfold look at asked
  split_ifs at asked <;> cases asked <;> rfl

variable (nonzero : ∀ bot kind, env.identtimeout bot kind ≠ 0)

include nonzero

theorem inv_step {s' : Sys} (inv : Inv env (s, log))
    (keeps : Keeps (s, log) op) (moved : step env s op = some s') :
    Inv env (s', events env s op ++ log) := by
  cases op with
  | add now username bot kind key =>
    obtain ⟨u, ticked, rfl⟩ := Option.map_eq_some_iff.mp moved
    obtain ⟨inv, clock⟩ := inv.later ticked
    exact inv.add clock
  | resolve now kind key =>
    obtain ⟨u, ticked, rfl⟩ := Option.map_eq_some_iff.mp moved
    obtain ⟨inv, clock⟩ := inv.later ticked
    simp only [events]
    split_ifs
    · exact inv
    · rw [← cache_tick ticked]
      refine inv.onCache _ (fun none => by simp [none, resolveEvents, splitFirst])
        fun es cache live => ?_
      simp only [cache, Option.getD_some, clock] at live ⊢
      exact live_resolve nonzero live
  | seen now kind key =>
    obtain ⟨u, ticked, rfl⟩ := Option.map_eq_some_iff.mp moved
    obtain ⟨inv, clock⟩ := inv.later ticked
    simp only [events]
    split_ifs
    · exact inv
    · rw [← cache_tick ticked]
      refine inv.onCache _ (fun none => by simp [none, seenEvents]) fun es cache live => ?_
      simp only [cache, Option.getD_some, clock] at live ⊢
      exact live_seenPass nonzero 0 [] live
  | drop kind key =>
    cases moved
    simp only [events, nil_append]
    split
    · exact inv
    · refine inv.onCache [] (fun _ => rfl) fun es cache live => ?_
      rw [drop_eq]
      exact live.sublist filter_sublist
  | del username key =>
    cases moved
    simp only [events, nil_append]
    split
    · exact inv
    · refine inv.onCache [] (fun _ => rfl) fun es cache live => ?_
      exact live.sublist filter_sublist
  | sweepBegin =>
    rw [step] at moved
    split at moved <;> cases moved
    · exact inv
    · refine ⟨inv.live, fun w mem a pending => ?_, inv.unused⟩
      rcases mem_cons.mp mem with rfl | old
      · cases pending
      · exact inv.asked w old a pending
  | sweepLook now i presence =>
    rw [step] at moved
    split at moved
    next e rest turn =>
      obtain ⟨u, ticked, rfl⟩ := Option.map_eq_some_iff.mp moved
      obtain ⟨inv, clock⟩ := inv.later ticked
      refine ⟨inv.live, fun w mem a pending => ?_, inv.unused⟩
      rcases mem_or_eq_of_mem_set mem with old | rfl
      · exact inv.asked w old a pending
      · exact ((now_look pending).trans clock.symm).le
    · cases moved
  | sweepReread i =>
    rw [step] at moved
    split at moved <;> cases moved
    next rest a turn =>
      have logged : events env s (.sweepReread i) = rereadEvents env (s.cache.getD []) a := by
        simp [events, turn]
      have past : a.now ≤ s.clock := inv.asked _ (mem_of_getElem? turn) a rfl
      have asks := keeps rest a turn
      have idle : Inv env ({ s with sweeps := s.sweeps.set i ⟨rest, none⟩ }, log) := by
        refine ⟨inv.live, fun w mem b pending => ?_, inv.unused⟩
        rcases mem_or_eq_of_mem_set mem with old | rfl
        · exact inv.asked w old b pending
        · cases pending
      rw [logged]
      refine idle.onCache _ (fun none => ?_) fun es cache live => ?_
      · have none : s.cache = Option.none := none
        simp [none, rereadEvents, splitFirst]
      · have cache : s.cache = some es := cache
        simp only [cache, Option.getD_some] at asks ⊢
        exact live_reread nonzero live past asks

theorem inv_loggedStep {x y : Sys × List Event} (inv : Inv env x) (keeps : Keeps x op)
    (moved : loggedStep env x op = some y) : Inv env y := by
  obtain ⟨s, head, rfl⟩ := Option.map_eq_some_iff.mp moved
  exact inv_step nonzero inv keeps head

omit nonzero in
theorem inv_start (clock : ℤ) : Inv env (start clock, []) where
  live := by constructor <;> simp [start, Sound]
  asked w mem := by cases mem
  unused _ := rfl

theorem log_sound {clock : ℤ} {ops : List Op} {s : Sys} {log : List Event}
    (run : Run (loggedStep env) Keeps (start clock, []) ops (s, log)) : Sound env log := by
  have inv := run.invariant (inv_loggedStep nonzero) (inv_start clock)
  exact inv.live.sound

end Runs

section Samples

def hourEnv : Env :=
  ⟨fun name => if name = ascii "bob" then 7 else 0, fun _ => ascii "bob", fun _ _ => 3600⟩

def sampleOps : List Op :=
  [.add 1 (ascii "bob") (ascii "b") (ascii "irc") (ascii "K"), .sweepBegin,
    .sweepLook 600 0 .present, .sweepReread 0, .resolve 4000 (ascii "irc") (ascii "k")]

theorem log_sound_sample : ∃ x, Run (loggedStep hourEnv) Keeps (start 0, []) sampleOps x ∧
    x.2.length = 3 ∧ Sound hourEnv x.2 := by
  have run : Run (loggedStep hourEnv) Keeps (start 0, []) sampleOps (_, _) :=
    .cons trivial rfl (.cons trivial rfl (.cons trivial rfl (.cons
      (fun rest a turn pre e post found present => by
        cases turn
        cases found
        decide)
      rfl (.cons trivial rfl (.nil _)))))
  exact ⟨_, run, rfl, log_sound (fun _ _ => Nat.succ_ne_zero _) run⟩

def sampleEntry (kind : Bytes) (lastSeen : ℤ) (fits : Fits (ascii "b") kind (ascii "K")) : Entry :=
  minted 7 (ascii "bob") (ascii "b") kind (ascii "K") lastSeen fits

def sampleLog : List Event :=
  [.stamped .resolved (sampleEntry (ascii "y") 3000 (by decide)) (ascii "y") (ascii "K") 5000,
    .stamped .present (sampleEntry (ascii "y") 1 (by decide)) (ascii "x") (ascii "K") 3000,
    .added 7 (ascii "b") (ascii "y") (ascii "K") 1,
    .added 7 (ascii "b") (ascii "x") (ascii "K") 1]

/-- Two logins share a key. The presence of one keeps the other alive, which nothing has
vouched for in over an hour when it authenticates. -/
theorem not_log_sound :
    (∃ s, exec (loggedStep hourEnv) (start 0, [])
      [.add 1 (ascii "bob") (ascii "b") (ascii "x") (ascii "K"),
        .add 1 (ascii "bob") (ascii "b") (ascii "y") (ascii "K"),
        .sweepBegin, .sweepLook 3000 0 .absent, .sweepLook 3000 0 .present, .sweepReread 0,
        .resolve 5000 (ascii "y") (ascii "K")] = some (s, sampleLog)) ∧
      ¬ Sound hourEnv sampleLog := by
  refine ⟨⟨_, rfl⟩, fun sound => ?_⟩
  obtain ⟨-, last, -, gap, chain⟩ := sound.1.2 rfl
  have first : last = 1 := by
    cases chain with
    | stamped _ same => exact absurd same (by decide)
    | skip _ before =>
      cases before with
      | added => rfl
      | skip _ before =>
        cases before with
        | added same => exact absurd same (by decide)
        | skip _ before => cases before
  subst first
  exact absurd gap (by decide)

end Samples

end BotManager.TmfaIdle
