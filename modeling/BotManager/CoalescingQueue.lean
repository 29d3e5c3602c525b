import Mathlib.Data.List.Nodup
import Mathlib.Data.List.Flatten
import BotManager.FirstMatch

/-! A write-behind queue that keeps one statement per key. A statement replaces the one of
its key while that is still queued. A drainer detaches the whole queue at once and then runs
the statements one by one, so that several drainers can be at work on batches of different
age. `last` and `ran` are histories: the last statement enqueued for a key, and the
statements that were run, newest first. -/

namespace BotManager.CoalescingQueue
open List FirstMatch

variable {K S R : Type*} [DecidableEq K]

structure Entry (K S : Type*) where
  key : K
  stmt : S
  seq : ℕ
  deriving DecidableEq

structure State (K S R : Type*) where
  queue : List (Entry K S)
  batches : List (List (Entry K S))
  rows : K → R
  last : K → Option (Entry K S)
  ran : List (Entry K S)
  seq : ℕ

def put (queue : List (Entry K S)) (e : Entry K S) : List (Entry K S) :=
  match splitFirst (fun x => decide (x.key = e.key)) queue with
  | some (pre, _, post) => pre ++ e :: post
  | none => e :: queue

variable (s : State K S R)

def enqueue (key : K) (stmt : S) : State K S R :=
  let e := ⟨key, stmt, s.seq⟩
  { s with queue := put s.queue e, last := Function.update s.last key (some e), seq := s.seq + 1 }

def drain : State K S R :=
  { s with queue := [], batches := s.batches ++ [s.queue] }

def runHead (apply : S → R → R) (s : State K S R) (i : ℕ) : Option (State K S R) :=
  match s.batches[i]? with
  | some (e :: rest) => some { s with
      batches := s.batches.set i rest
      rows := Function.update s.rows e.key (apply e.stmt (s.rows e.key))
      ran := e :: s.ran }
  | _ => none

def start (rows : K → R) : State K S R := ⟨[], [], rows, fun _ => none, [], 0⟩

def inHand : List (Entry K S) := s.batches.flatten

def keys (entries : List (Entry K S)) : List K := entries.map Entry.key

/-- No drainer has a statement in hand for a key that is queued. -/
def Apart : Prop := ∀ e ∈ inHand s, e.key ∉ keys s.queue

instance (s : State K S R) : Decidable (Apart s) := inferInstanceAs (Decidable (∀ e ∈ _, _))

def Idle (s : State K S R) : Prop := s.queue = [] ∧ ∀ batch ∈ s.batches, batch = []

instance (s : State K S R) [DecidableEq S] : Decidable (Idle s) :=
  inferInstanceAs (Decidable (_ ∧ _))

def Landed (apply : S → R → R) (s : State K S R) (e : Entry K S) : Prop :=
  s.ran.find? (fun x => decide (x.key = e.key)) = some e ∧ ∃ row, s.rows e.key = apply e.stmt row

section Put

variable {queue : List (Entry K S)} {e : Entry K S}

omit [DecidableEq K] in
theorem keys_append : keys (a ++ b) = keys a ++ keys b :=
  map_append

variable (distinct : (keys queue).Nodup)
include distinct

theorem mem_put {x : Entry K S} :
    x ∈ put queue e ↔ x = e ∨ x ∈ queue ∧ x.key ≠ e.key := by
  unfold put
  cases found : splitFirst (fun x => decide (x.key = e.key)) queue with
  | none =>
    have others : ∀ x ∈ queue, x.key ≠ e.key := fun x mem =>
      of_decide_eq_false (splitFirst_none found x mem)
    rw [mem_cons]
    exact or_congr_right ⟨fun mem => ⟨mem, others x mem⟩, And.left⟩
  | some parts =>
    obtain ⟨pre, old, post⟩ := parts
    obtain ⟨whole, same, -⟩ := splitFirst_some found
    have same : old.key = e.key := of_decide_eq_true same
    rw [whole, keys, map_append, map_cons, nodup_middle, nodup_cons,
      mem_append, not_or] at distinct
    have others : ∀ x, x ∈ pre ∨ x ∈ post → x.key ≠ e.key := by
      rintro x (before | behind) equal
      · exact distinct.1.1 (mem_map.mpr ⟨x, before, equal.trans same.symm⟩)
      · exact distinct.1.2 (mem_map.mpr ⟨x, behind, equal.trans same.symm⟩)
    rw [whole]
    simp only [mem_append, mem_cons]
    constructor
    · rintro (before | rfl | behind)
      · exact .inr ⟨.inl before, others x (.inl before)⟩
      · exact .inl rfl
      · exact .inr ⟨.inr (.inr behind), others x (.inr behind)⟩
    · rintro (rfl | ⟨before | rfl | behind, other⟩)
      · exact .inr (.inl rfl)
      · exact .inl before
      · exact absurd same other
      · exact .inr (.inr behind)

theorem nodup_put : (keys (put queue e)).Nodup := by
  unfold put
  cases found : splitFirst (fun x => decide (x.key = e.key)) queue with
  | none =>
    refine nodup_cons.mpr ⟨fun mem => ?_, distinct⟩
    obtain ⟨x, mem, same⟩ := mem_map.mp mem
    exact of_decide_eq_false (splitFirst_none found x mem) same
  | some parts =>
    obtain ⟨pre, old, post⟩ := parts
    obtain ⟨whole, same, -⟩ := splitFirst_some found
    have same : old.key = e.key := of_decide_eq_true same
    rw [whole, keys, map_append, map_cons, same] at distinct
    dsimp only
    rw [keys, map_append, map_cons]
    exact distinct

theorem mem_keys_put {key : K} :
    key ∈ keys (put queue e) ↔ key = e.key ∨ key ∈ keys queue := by
  simp only [keys, mem_map, mem_put distinct]
  constructor
  · rintro ⟨x, rfl | ⟨mem, -⟩, rfl⟩
    · exact .inl rfl
    · exact .inr ⟨x, mem, rfl⟩
  · rintro (rfl | ⟨x, mem, rfl⟩)
    · exact ⟨e, .inl rfl, rfl⟩
    · by_cases same : x.key = e.key
      · exact ⟨e, .inl rfl, same.symm⟩
      · exact ⟨x, .inr ⟨mem, same⟩, rfl⟩

end Put

section Invariant

variable {apply : S → R → R} {s t : State K S R}

structure Inv (apply : S → R → R) (s : State K S R) : Prop where
  queueKeys : (keys s.queue).Nodup
  handKeys : (keys (inHand s)).Nodup
  named : ∀ k e, s.last k = some e → e.key = k
  queued : ∀ e ∈ s.queue, s.last e.key = some e
  held : ∀ e ∈ inHand s, e.key ∉ keys s.queue → s.last e.key = some e
  landed : ∀ k e, s.last k = some e → k ∉ keys s.queue → k ∉ keys (inHand s) → Landed apply s e

theorem inv_start (rows : K → R) : Inv apply (start rows : State K S R) where
  queueKeys := nodup_nil
  handKeys := nodup_nil
  named := nofun
  queued := nofun
  held := nofun
  landed := nofun

theorem enqueue_last :
    (enqueue s key stmt).last k = if k = key then some ⟨key, stmt, s.seq⟩ else s.last k :=
  Function.update_apply _ _ _ _

theorem Inv.enqueue (inv : Inv apply s) (key : K) (stmt : S) : Inv apply (enqueue s key stmt) := by
  have distinct := inv.queueKeys
  refine ⟨nodup_put distinct, inv.handKeys, ?_, ?_, ?_, ?_⟩
  · intro k e found
    rw [enqueue_last] at found
    split at found
    next same => rw [same, ← Option.some.inj found]
    next => exact inv.named k e found
  · intro e mem
    rw [enqueue_last]
    rcases (mem_put distinct).mp mem with rfl | ⟨old, other⟩
    · exact if_pos rfl
    · exact (if_neg other).trans (inv.queued e old)
  · intro e mem absent
    have outside := fun key => absent ((mem_keys_put distinct).mpr key)
    rw [enqueue_last, if_neg fun same => outside (.inl same)]
    exact inv.held e mem fun queued => outside (.inr queued)
  · intro k e found unqueued unheld
    have outside := fun key => unqueued ((mem_keys_put distinct).mpr key)
    rw [enqueue_last, if_neg fun same => outside (.inl same)] at found
    exact inv.landed k e found (fun queued => outside (.inr queued)) unheld

omit [DecidableEq K] in
theorem inHand_drain : inHand (drain s) = inHand s ++ s.queue := by
  simp [inHand, drain]

theorem Inv.drain (inv : Inv apply s) (apart : Apart s) : Inv apply (drain s) := by
  refine ⟨nodup_nil, ?_, inv.named, nofun, ?_, ?_⟩
  · rw [inHand_drain, keys_append, nodup_append]
    refine ⟨inv.handKeys, inv.queueKeys, ?_⟩
    rintro a held b queued rfl
    obtain ⟨e, mem, rfl⟩ := mem_map.mp held
    exact apart e mem queued
  · intro e mem _
    rw [inHand_drain, mem_append] at mem
    rcases mem with held | queued
    · exact inv.held e held (apart e held)
    · exact inv.queued e queued
  · intro k e found _ unheld
    rw [inHand_drain, keys_append, mem_append, not_or] at unheld
    exact inv.landed k e found unheld.2 unheld.1

theorem runHead_cases {i : ℕ} (moved : runHead apply s i = some t) :
    ∃ pre e rest post, s.batches = pre ++ (e :: rest) :: post ∧
      t = { s with batches := pre ++ rest :: post
                   rows := Function.update s.rows e.key (apply e.stmt (s.rows e.key))
                   ran := e :: s.ran } := by
  unfold runHead at moved
  split at moved
  next e rest found =>
    obtain ⟨inside, here⟩ := List.getElem?_eq_some_iff.mp found
    refine ⟨s.batches.take i, e, rest, s.batches.drop (i + 1), ?_, ?_⟩
    · rw [← here, getElem_cons_drop, take_append_drop]
    · rw [← Option.some.inj moved, set_eq_take_append_cons_drop, if_pos inside]
  next => cases moved

theorem Inv.run (inv : Inv apply s) {i : ℕ} (moved : runHead apply s i = some t) :
    Inv apply t := by
  obtain ⟨pre, e, rest, post, batches, rfl⟩ := runHead_cases moved
  have before : inHand s = pre.flatten ++ e :: (rest ++ post.flatten) := by
    rw [inHand, batches]
    simp
  have after : ∀ x, x ∈ (pre ++ rest :: post).flatten ↔ x ∈ pre.flatten ++ (rest ++ post.flatten) := by
    simp
  have distinct := inv.handKeys
  rw [before, keys, map_append, map_cons, nodup_middle, nodup_cons,
    ← map_append] at distinct
  obtain ⟨absent, distinct⟩ := distinct
  have others : ∀ x ∈ (pre ++ rest :: post).flatten, x ∈ inHand s ∧ x.key ≠ e.key := by
    intro x mem
    have mem := (after x).mp mem
    constructor
    · rw [before]
      simp only [mem_append, mem_cons] at mem ⊢
      tauto
    · exact fun same => absent (mem_map.mpr ⟨x, mem, same⟩)
  refine ⟨inv.queueKeys, ?_, inv.named, inv.queued, ?_, ?_⟩
  · simpa [inHand, keys] using distinct
  · intro x mem unqueued
    exact inv.held x (others x mem).1 unqueued
  · intro k x found unqueued unheld
    have named := inv.named k x found
    subst named
    by_cases same : x.key = e.key
    · have last := inv.held e (by rw [before]; simp) (same ▸ unqueued)
      rw [← same, found] at last
      obtain rfl := Option.some.inj last
      refine ⟨?_, s.rows x.key, Function.update_self _ _ _⟩
      simp
    · have unheld : x.key ∉ keys (inHand s) := by
        intro held
        obtain ⟨y, mem, equal⟩ := mem_map.mp held
        rw [before, mem_append, mem_cons] at mem
        refine unheld (mem_map.mpr ⟨y, (after y).mpr ?_, equal⟩)
        rcases mem with mem | rfl | mem
        · exact mem_append_left _ mem
        · exact absurd equal.symm same
        · exact mem_append_right _ mem
      obtain ⟨newest, row, rows⟩ := inv.landed x.key x found unqueued unheld
      refine ⟨?_, row, (Function.update_of_ne same _ _).trans rows⟩
      rw [find?_cons_of_neg (by simpa using Ne.symm same)]
      exact newest

theorem Inv.settled (inv : Inv apply s) (idle : Idle s) {k : K} {e : Entry K S}
    (found : s.last k = some e) : Landed apply s e := by
  have empty : inHand s = [] := flatten_eq_nil_iff.mpr idle.2
  refine inv.landed k e found ?_ ?_
  · rw [idle.1]
    exact not_mem_nil
  · rw [empty]
    exact not_mem_nil

end Invariant

end BotManager.CoalescingQueue
