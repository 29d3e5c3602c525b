import BotManager.CText
import Mathlib.Data.Fintype.Basic

/-!
The chat plugin's dossiers: who was seen under which signature, the facts known about them, and
what they asked the bot to leave them out of.

A statement is one function on the tables. The merge checks its arguments and then runs its
statements in one transaction, which is one function as well. First and last sighting are left
out: nothing here reads them.
-/

namespace BotManager.DossierModel
open List CText

structure Signature where
  methodKind : Bytes
  nickname : Bytes
  username : Bytes
  hostname : Bytes
  verifiedId : Bytes
  deriving DecidableEq

/-- A row of `dossier`. The serial column starts at one. -/
structure Dossier where
  id : ℕ
  positive : 0 < id
  ns : ℕ
  label : Bytes
  messageCount : ℕ
  deriving DecidableEq

/-- A row of a table whose `dossier_id` references `dossier` with ON DELETE CASCADE. -/
structure Owned (α : Type) where
  dossier : ℕ
  item : α
  deriving DecidableEq

structure Sighting where
  sig : Signature
  seenCount : ℕ
  deriving DecidableEq

structure Fact where
  kind : ℕ
  factKey : Bytes
  value : Bytes
  deriving DecidableEq

/-- The chores a person can refuse: the keys of `optout_chores`, in its order. -/
inductive Chore
  | weather
  | occasions
  | followups
  | pricewatch
  deriving DecidableEq

def optoutChores : List Chore := [.weather, .occasions, .followups, .pricewatch]

instance : Fintype Chore where
  elems := {.weather, .occasions, .followups, .pricewatch}
  complete chore := by cases chore <;> decide

/-- What `dossier_optout.chore` holds: a chore, or DOSSIER_OPTOUT_ALL. -/
inductive Refusal
  | one (chore : Chore)
  | all
  deriving DecidableEq

def Refusal.covers (chore : Chore) (refusal : Refusal) : Bool :=
  refusal = .one chore || refusal = .all

structure Store where
  dossiers : List Dossier
  signatures : List (Owned Sighting)
  facts : List (Owned Fact)
  optouts : List (Owned Refusal)
  /-- The last id the serial of `dossier` gave out. -/
  serial : ℕ
  deriving DecidableEq

def Store.empty : Store := ⟨[], [], [], [], 0⟩

def dossierGet (store : Store) (id : ℕ) : Option Dossier := store.dossiers.find? fun p => p.id = id

/-- `dossier_create`. A fresh id cannot conflict. -/
def dossierCreate (store : Store) (ns : ℕ) (sig : Signature) (label : Bytes) : Store × ℕ :=
  ({ store with
      dossiers := store.dossiers ++ [⟨store.serial + 1, Nat.succ_pos _, ns, label, 1⟩]
      signatures := store.signatures ++ [⟨store.serial + 1, sig, 1⟩]
      serial := store.serial + 1 }, store.serial + 1)

/-- `dossier_record_sighting`: the signature is inserted, or counted once more. -/
def dossierRecordSighting (store : Store) (id : ℕ) (sig : Signature) : Store :=
  { store with
    signatures :=
      if store.signatures.any fun r => r.dossier = id && r.item.sig = sig then
        store.signatures.map fun r =>
          if r.dossier = id && r.item.sig = sig then
            { r with item := { r.item with seenCount := r.item.seenCount + 1 } }
          else r
      else store.signatures ++ [⟨id, sig, 1⟩]
    dossiers := store.dossiers.map fun p =>
      if p.id = id then { p with messageCount := p.messageCount + 1 } else p }

/-! ## Merging -/

section Cascade

variable {α : Type}

/-- The rows of `source` go to `survivor`, except where it has the same one. -/
def reassign (same : α → α → Bool) (survivor source : ℕ) (rows : List (Owned α)) :
    List (Owned α) :=
  rows.map fun r =>
    if r.dossier = source && !rows.any fun o => o.dossier = survivor && same o.item r.item then
      { r with dossier := survivor }
    else r

def dropOwned (source : ℕ) (rows : List (Owned α)) : List (Owned α) :=
  rows.filter fun r => r.dossier ≠ source

end Cascade

/-- The refusals of `source` are copied to `survivor`, ON CONFLICT DO NOTHING. -/
def uniteOptouts (survivor source : ℕ) (rows : List (Owned Refusal)) : List (Owned Refusal) :=
  rows ++ (rows.filter fun r => r.dossier = source && !rows.contains ⟨survivor, r.item⟩).map
    fun r => ⟨survivor, r.item⟩

/-- The counters are added up where both rows exist. -/
def unifyCounters (survivor source : ℕ) (rows : List Dossier) : List Dossier :=
  match rows.find? fun p => p.id = source with
  | none => rows
  | some gone => rows.map fun p =>
    if p.id = survivor then { p with messageCount := p.messageCount + gone.messageCount } else p

def dossierMergeOne (survivor : ℕ) (store : Store) (source : ℕ) : Store :=
  { store with
    signatures := dropOwned source
      (reassign (fun o r => o.sig = r.sig) survivor source store.signatures)
    facts := dropOwned source
      (reassign (fun o r => o.kind = r.kind && o.factKey = r.factKey) survivor source store.facts)
    optouts := dropOwned source (uniteOptouts survivor source store.optouts)
    dossiers := (unifyCounters survivor source store.dossiers).filter fun p => p.id ≠ source }

variable (store : Store)

def mayAbsorb (survivor : Dossier) (id : ℕ) : Bool :=
  id ≠ survivor.id && (dossierGet store id).any fun p => p.ns = survivor.ns

def dossierMerge (survivor : ℕ) (absorbed : List ℕ) : Option Store :=
  match dossierGet store survivor with
  | none => none
  | some row =>
    if absorbed ≠ [] ∧ absorbed.all (mayAbsorb store row) then
      some (absorbed.foldl (dossierMergeOne survivor) store)
    else none

/-! ## Refusals -/

/-- `chatbot_optout_has`: an id that names nobody has refused nothing. -/
def chatbotOptoutHas (id : ℕ) (chore : Chore) : Bool :=
  0 < id && store.optouts.any fun r => r.dossier = id && r.item.covers chore

/-- The mask of optout.c: OPTOUT_ALL_BIT beside one bit for each chore. -/
structure Mask where
  all : Bool
  chores : Finset Chore
  deriving DecidableEq

def optoutLoad (id : ℕ) : Mask where
  all := store.optouts.contains ⟨id, .all⟩
  chores := Finset.univ.filter fun c => store.optouts.contains ⟨id, .one c⟩

def Mask.rows (mask : Mask) : List Refusal :=
  if mask.all then [.all] else (optoutChores.filter (· ∈ mask.chores)).map .one

/-- `optout_store`: the person's whole set is replaced. -/
def optoutStore (id : ℕ) (mask : Mask) : Store :=
  { store with optouts := dropOwned id store.optouts ++ mask.rows.map fun refusal => ⟨id, refusal⟩ }

/-- What `optout_apply` stores for a request; `out` tells /optout from /optin. -/
def Mask.next (out : Bool) (req cur : Mask) : Mask :=
  if out then
    if req.all then ⟨true, ∅⟩ else if cur.all then cur else ⟨false, cur.chores ∪ req.chores⟩
  else
    if req.all then ⟨false, ∅⟩
    else if cur.all then ⟨false, Finset.univ \ req.chores⟩ else ⟨false, cur.chores \ req.chores⟩

def optoutApply (id : ℕ) (out : Bool) (req : Mask) : Store :=
  let next := req.next out (optoutLoad store id)
  if next ≠ optoutLoad store id then optoutStore store id next else store

/-! ## What the statements do to who is there and who refused what -/

def Live (id : ℕ) : Prop := ∃ p ∈ store.dossiers, p.id = id

variable {id source survivor : ℕ} {store : Store} {chore : Chore} {absorbed : List ℕ}

theorem live_iff : (dossierGet store id).isSome = true ↔ Live store id := by
  rw [dossierGet, find?_isSome]
  simp only [Live, decide_eq_true_eq]

theorem Live.positive (live : Live store id) : 0 < id := by
  obtain ⟨p, -, rfl⟩ := live
  exact p.positive

def Refused (store : Store) (id : ℕ) (chore : Chore) : Prop :=
  ∃ refusal, ⟨id, refusal⟩ ∈ store.optouts ∧ refusal.covers chore = true

theorem optoutHas_iff :
    chatbotOptoutHas store id chore = true ↔ 0 < id ∧ Refused store id chore := by
  rw [chatbotOptoutHas, Bool.and_eq_true, decide_eq_true_eq, any_eq_true]
  refine and_congr_right fun _ => ⟨?_, ?_⟩
  · rintro ⟨⟨owner, refusal⟩, mem, same⟩
    obtain ⟨rfl, covers⟩ : owner = id ∧ refusal.covers chore = true := by simpa using same
    exact ⟨refusal, mem, covers⟩
  · rintro ⟨refusal, mem, covers⟩
    exact ⟨_, mem, by simpa using covers⟩

theorem live_dossierCreate {ns : ℕ} {sig : Signature} {label : Bytes} :
    Live (dossierCreate store ns sig label).1 id ↔ Live store id ∨ id = store.serial + 1 := by
  simp only [Live, dossierCreate, mem_append, mem_singleton]
  constructor
  · rintro ⟨p, old | rfl, rfl⟩
    · exact .inl ⟨p, old, rfl⟩
    · exact .inr rfl
  · rintro (⟨p, old, rfl⟩ | rfl)
    · exact ⟨p, .inl old, rfl⟩
    · exact ⟨_, .inr rfl, rfl⟩

theorem mem_dropOwned {α : Type} {rows : List (Owned α)} {r : Owned α} :
    r ∈ dropOwned source rows ↔ r ∈ rows ∧ r.dossier ≠ source := by
  rw [dropOwned, mem_filter, decide_eq_true_eq]

theorem live_unifyCounters {rows : List Dossier} :
    (∃ p ∈ unifyCounters survivor source rows, p.id = id) ↔ ∃ p ∈ rows, p.id = id := by
  unfold unifyCounters
  split
  next => exact Iff.rfl
  next gone _ =>
    have same (p : Dossier) : (if p.id = survivor then
        { p with messageCount := p.messageCount + gone.messageCount } else p).id = p.id := by
      split <;> rfl
    constructor
    · rintro ⟨q, mem, rfl⟩
      obtain ⟨p, there, rfl⟩ := mem_map.mp mem
      exact ⟨p, there, (same p).symm⟩
    · rintro ⟨p, there, rfl⟩
      exact ⟨_, mem_map_of_mem there, same p⟩

theorem live_mergeOne {id : ℕ} :
    Live (dossierMergeOne survivor store source) id ↔ Live store id ∧ id ≠ source := by
  simp only [Live, dossierMergeOne, mem_filter, decide_eq_true_eq]
  constructor
  · rintro ⟨p, ⟨mem, other⟩, rfl⟩
    exact ⟨live_unifyCounters.mp ⟨p, mem, rfl⟩, other⟩
  · rintro ⟨there, other⟩
    obtain ⟨p, mem, rfl⟩ := live_unifyCounters.mpr there
    exact ⟨p, ⟨mem, other⟩, rfl⟩

theorem refused_mergeOne (refused : Refused (dossierMergeOne survivor store source) id chore) :
    Refused store id chore ∨ (id = survivor ∧ Refused store source chore) := by
  obtain ⟨refusal, mem, covers⟩ := refused
  rcases mem_append.mp (mem_dropOwned.mp mem).1 with old | copied
  · exact .inl ⟨refusal, old, covers⟩
  · obtain ⟨⟨owner, item⟩, there, same⟩ := mem_map.mp copied
    obtain ⟨rfl, rfl⟩ := Owned.mk.inj same
    obtain ⟨held, holds⟩ := mem_filter.mp there
    have named : owner = source := by simpa using (Bool.and_eq_true_iff.mp holds).1
    subst named
    exact .inr ⟨rfl, item, held, covers⟩

theorem live_mergeAll :
    Live (absorbed.foldl (dossierMergeOne survivor) store) id ↔ Live store id ∧ id ∉ absorbed := by
  induction absorbed generalizing store with
  | nil => simp
  | cons source absorbed ih =>
    rw [foldl_cons, ih, live_mergeOne, mem_cons, not_or, and_assoc]

theorem refused_mergeAll
    (refused : Refused (absorbed.foldl (dossierMergeOne survivor) store) id chore) :
    Refused store id chore ∨ (id = survivor ∧ ∃ a ∈ absorbed, Refused store a chore) := by
  induction absorbed generalizing store with
  | nil => exact .inl refused
  | cons source absorbed ih =>
    rcases ih refused with there | ⟨rfl, a, mem, there⟩
    · rcases refused_mergeOne there with old | ⟨rfl, gone⟩
      · exact .inl old
      · exact .inr ⟨rfl, source, .head _, gone⟩
    · rcases refused_mergeOne there with old | ⟨rfl, gone⟩
      · exact .inr ⟨rfl, a, .tail _ mem, old⟩
      · exact .inr ⟨rfl, source, .head _, gone⟩

theorem dossierMerge_some {merged : Store}
    (done : dossierMerge store survivor absorbed = some merged) :
    (∀ a ∈ absorbed, Live store a) ∧ merged = absorbed.foldl (dossierMergeOne survivor) store := by
  revert done
  fun_cases dossierMerge store survivor absorbed with
  | case2 row _ checked =>
    intro done
    refine ⟨fun a mem => ?_, (Option.some.inj done).symm⟩
    have may := all_eq_true.mp checked.2 a mem
    obtain ⟨p, found, -⟩ := (Option.any_eq_true _ _).mp (Bool.and_eq_true_iff.mp may).2
    exact live_iff.mp (by rw [found]; rfl)
  | _ => nofun

theorem serial_mergeAll :
    (absorbed.foldl (dossierMergeOne survivor) store).serial = store.serial := by
  induction absorbed generalizing store with
  | nil => rfl
  | cons source absorbed ih => rw [foldl_cons, ih]; rfl

theorem optoutApply_dossiers (store : Store) (id : ℕ) (out : Bool) (req : Mask) :
    (optoutApply store id out req).dossiers = store.dossiers ∧
      (optoutApply store id out req).serial = store.serial := by
  unfold optoutApply
  dsimp only
  split
  · exact ⟨rfl, rfl⟩
  · exact ⟨rfl, rfl⟩

variable {d : ℕ} {mask req : Mask}

theorem refused_optoutStore (refused : Refused (optoutStore store id mask) d chore) :
    Refused store d chore ∨ (d = id ∧ ∃ refusal ∈ mask.rows, refusal.covers chore = true) := by
  obtain ⟨refusal, mem, covers⟩ := refused
  rcases mem_append.mp mem with old | new
  · exact .inl ⟨refusal, (mem_dropOwned.mp old).1, covers⟩
  · obtain ⟨item, there, same⟩ := mem_map.mp new
    obtain ⟨rfl, rfl⟩ := Owned.mk.inj same
    exact .inr ⟨rfl, item, there, covers⟩

theorem covered_rows :
    (∃ refusal ∈ mask.rows, refusal.covers chore = true) → mask.all = true ∨ chore ∈ mask.chores := by
  rintro ⟨refusal, mem, covers⟩
  unfold Mask.rows at mem
  split at mem
  next every => exact .inl every
  next =>
    obtain ⟨c, there, rfl⟩ := mem_map.mp mem
    have named : c = chore := by simpa [Refusal.covers] using covers
    subst named
    exact .inr (by simpa using (mem_filter.mp there).2)

theorem covered_optin {cur : Mask}
    (covered : (req.next false cur).all = true ∨ chore ∈ (req.next false cur).chores) :
    cur.all = true ∨ chore ∈ cur.chores := by
  unfold Mask.next at covered
  rw [if_neg (by simp)] at covered
  split at covered
  next => simp at covered
  next =>
    split at covered
    next every => exact .inl every
    next =>
      rcases covered with every | mem
      · cases every
      · exact .inr (Finset.mem_sdiff.mp mem).1

theorem refused_of_load
    (covered : (optoutLoad store id).all = true ∨ chore ∈ (optoutLoad store id).chores) :
    Refused store id chore := by
  rcases covered with every | named
  · exact ⟨.all, by simpa [optoutLoad] using every, by simp [Refusal.covers]⟩
  · exact ⟨.one chore, by simpa [optoutLoad] using named, by simp [Refusal.covers]⟩

theorem refused_optoutApply {out : Bool}
    (refused : Refused (optoutApply store id out req) d chore) :
    Refused store d chore ∨ (d = id ∧ out = true) := by
  unfold optoutApply at refused
  dsimp only at refused
  split at refused
  next =>
    rcases refused_optoutStore refused with old | ⟨rfl, rows⟩
    · exact .inl old
    · cases out with
      | true => exact .inr ⟨rfl, rfl⟩
      | false => exact .inl (refused_of_load (covered_optin (covered_rows rows)))
  next => exact .inl refused

end BotManager.DossierModel
