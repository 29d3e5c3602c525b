import Mathlib.Algebra.BigOperators.Fin
import BotManager.StableInsert

/-! Hash tables with chaining: a fixed array of lists, in which an entry is looked for
in the one chain its key hashes to. An entry can be pushed onto any chain; `Placed`
says that all are where the lookup looks and that no key occurs twice, and under it
the operations have their meaning on the set of entries. -/

namespace BotManager.ChainedTable

open List

variable {K E : Type*} [DecidableEq K] {n : ℕ}

structure Scheme (K E : Type*) (n : ℕ) where
  hash : K → Fin n
  key : E → K

abbrev Chains (E : Type*) (n : ℕ) := Fin n → List E

@[simp] def modifyFirst (p : E → Bool) (f : E → E) : List E → List E
  | [] => []
  | e :: rest => if p e then f e :: rest else e :: modifyFirst p f rest

variable (c : Scheme K E n)

def find (k : K) (t : Chains E n) : Option E :=
  (t (c.hash k)).find? (c.key · = k)

def push (b : Fin n) (e : E) (t : Chains E n) : Chains E n := Function.update t b (e :: t b)

def modify (k : K) (f : E → E) (t : Chains E n) : Chains E n :=
  Function.update t (c.hash k) (modifyFirst (c.key · = k) f (t (c.hash k)))

def remove (k : K) (t : Chains E n) : Chains E n :=
  Function.update t (c.hash k) ((t (c.hash k)).eraseP (c.key · = k))

def sift (p : E → Bool) (t : Chains E n) : Chains E n := fun b => (t b).filter p

def entries (t : Chains E n) : List E := (finRange n).flatMap t

def walkChain {σ : Type*} (f : E → σ → E × σ) : List E → σ → List E × σ
  | [], s => ([], s)
  | e :: rest, s =>
    let (e, s) := f e s
    let (rest, s) := walkChain f rest s
    (e :: rest, s)

def walkFrom {σ : Type*} (f : E → σ → E × σ) : List (Fin n) → Chains E n → σ → Chains E n × σ
  | [], t, s => (t, s)
  | b :: rest, t, s =>
    let (chain, s) := walkChain f (t b) s
    walkFrom f rest (Function.update t b chain) s

def walk {σ : Type*} (f : E → σ → E × σ) (t : Chains E n) (s : σ) : Chains E n × σ :=
  walkFrom f (finRange n) t s

structure Placed (t : Chains E n) : Prop where
  bucket : ∀ b, ∀ e ∈ t b, c.hash (c.key e) = b
  distinct : ∀ b, ((t b).map c.key).Nodup

variable {c : Scheme K E n} {t : Chains E n} {k : K} {e : E}

theorem mem_entries : e ∈ entries t ↔ ∃ b, e ∈ t b := by
  simp [entries]

omit [DecidableEq K] in
theorem placed_empty : Placed c (fun _ => [] : Chains E n) :=
  ⟨fun b e mem => by simp at mem, fun b => nodup_nil⟩

omit [DecidableEq K] in
theorem Placed.mem_iff (placed : Placed c t) : e ∈ entries t ↔ e ∈ t (c.hash (c.key e)) := by
  rw [mem_entries]
  constructor
  · rintro ⟨b, mem⟩
    rwa [placed.bucket b e mem]
  · intro mem
    exact ⟨_, mem⟩

theorem find?_key {l : List E} (nodup : (l.map c.key).Nodup) :
    l.find? (c.key · = k) = some e ↔ e ∈ l ∧ c.key e = k := by
  induction l with
  | nil => simp
  | cons x rest ih =>
    rw [map_cons, nodup_cons] at nodup
    by_cases hit : c.key x = k
    · rw [find?_cons_of_pos (by simpa using hit)]
      constructor
      · intro same
        cases same
        exact ⟨mem_cons_self, hit⟩
      · rintro ⟨mem, keyed⟩
        rcases mem_cons.mp mem with rfl | later
        · rfl
        · have : c.key x ∈ rest.map c.key := by
            rw [hit, ← keyed]
            exact mem_map_of_mem later
          exact absurd this nodup.1
    · rw [find?_cons_of_neg (by simpa using hit), ih nodup.2]
      constructor
      · rintro ⟨mem, keyed⟩
        exact ⟨.tail _ mem, keyed⟩
      · rintro ⟨mem, keyed⟩
        rcases mem_cons.mp mem with rfl | later
        · exact absurd keyed hit
        · exact ⟨later, keyed⟩

theorem Placed.find_iff (placed : Placed c t) : find c k t = some e ↔ e ∈ entries t ∧ c.key e = k := by
  rw [find, find?_key (placed.distinct _), placed.mem_iff]
  constructor
  · rintro ⟨mem, rfl⟩
    exact ⟨mem, rfl⟩
  · rintro ⟨mem, rfl⟩
    exact ⟨mem, rfl⟩

theorem key_of_find (found : find c k t = some e) : c.key e = k := by
  simpa using find?_some found

theorem mem_of_find (found : find c k t = some e) : e ∈ entries t :=
  mem_entries.mpr ⟨_, mem_of_find?_eq_some found⟩

omit [DecidableEq K] in
theorem Placed.nodup (placed : Placed c t) : ((entries t).map c.key).Nodup := by
  rw [entries, map_flatMap, nodup_flatMap]
  refine ⟨fun b _ => placed.distinct b, ?_⟩
  refine (nodup_finRange n).imp fun {a b} apart => ?_
  intro x left right
  obtain ⟨e, mem, rfl⟩ := mem_map.mp left
  obtain ⟨e', mem', same⟩ := mem_map.mp right
  apply apart
  rw [← placed.bucket a e mem, ← placed.bucket b e' mem', same]

omit [DecidableEq K] in
theorem Placed.of_keys (placed : Placed c t) {u : Chains E n}
    (keys : ∀ b, (u b).map c.key = (t b).map c.key) : Placed c u := by
  refine ⟨fun b x mem => ?_, fun b => keys b ▸ placed.distinct b⟩
  have keyed : c.key x ∈ (t b).map c.key := keys b ▸ mem_map_of_mem mem
  obtain ⟨y, memy, same⟩ := mem_map.mp keyed
  rw [← same]
  exact placed.bucket b y memy

variable {T : Type*} {shown : E → T} {g : E → E}

theorem find_map_of_eq {u : Chains E n} (keyOf : T → K)
    (keyed : ∀ e, keyOf (shown e) = c.key e)
    (same : ∀ b, (u b).map shown = (t b).map shown) :
    (find c k u).map shown = (find c k t).map shown := by
  have through (l : List E) : (l.find? (c.key · = k)).map shown =
      (l.map shown).find? (fun x => keyOf x = k) := by
    rw [find?_map]
    congr 2
    funext e
    simp [keyed]
  rw [find, find, through, through, same]

variable {f : E → E}

theorem find_mapped (keeps : ∀ e, c.key (f e) = c.key e) :
    find c k (fun b => (t b).map f) = (find c k t).map f := by
  have keyed : (fun e => decide (c.key e = k)) ∘ f = fun e => decide (c.key e = k) := by
    funext e
    rw [Function.comp_apply, keeps]
  rw [find, find?_map, keyed, find]

theorem length_of_map_eq {u : Chains E n}
    (same : ∀ b, (u b).map shown = (t b).map shown) :
    (entries u).length = (entries t).length := by
  have lengths : (fun b => (u b).length) = fun b => (t b).length := by
    funext b
    simpa using congrArg length (same b)
  rw [entries, entries, length_flatMap, length_flatMap, lengths]

section Push

theorem find_push_of_ne {b : Fin n} (other : c.key e ≠ k) : find c k (push b e t) = find c k t := by
  rw [find, push]
  by_cases here : c.hash k = b
  · rw [← here, Function.update_self, find?_cons_of_neg (by simpa using other)]
    rfl
  · rw [Function.update_of_ne here]
    rfl

theorem find_push_self : find c (c.key e) (push (c.hash (c.key e)) e t) = some e := by
  rw [find, push, Function.update_self, find?_cons_of_pos (by simp)]

theorem find_push (k : K) : find c k (push (c.hash (c.key e)) e t) =
    if c.key e = k then some e else find c k t := by
  split
  next same => rw [← same, find_push_self]
  next other => exact find_push_of_ne other

theorem Placed.push (placed : Placed c t) (absent : find c (c.key e) t = none) :
    Placed c (push (c.hash (c.key e)) e t) := by
  have fresh : ∀ x ∈ t (c.hash (c.key e)), c.key x ≠ c.key e := by
    simpa [find] using absent
  refine ⟨fun b x mem => ?_, fun b => ?_⟩
  · by_cases here : b = c.hash (c.key e)
    · subst here
      rw [ChainedTable.push, Function.update_self] at mem
      rcases mem_cons.mp mem with rfl | old
      · rfl
      · exact placed.bucket _ x old
    · rw [ChainedTable.push, Function.update_of_ne here] at mem
      exact placed.bucket b x mem
  · by_cases here : b = c.hash (c.key e)
    · subst here
      rw [ChainedTable.push, Function.update_self, map_cons, nodup_cons]
      refine ⟨fun mem => ?_, placed.distinct _⟩
      obtain ⟨x, memx, same⟩ := mem_map.mp mem
      exact fresh x memx same
    · rw [ChainedTable.push, Function.update_of_ne here]
      exact placed.distinct b

end Push

section Modify

theorem map_modifyFirst (keeps : ∀ e, shown (f e) = shown e) :
    (modifyFirst p f l).map shown = l.map shown := by
  induction l with
  | nil => rfl
  | cons x rest ih =>
    simp only [modifyFirst]
    split
    · simp [keeps]
    · simp [ih]

theorem map_modify (keeps : ∀ e, shown (f e) = shown e)
    (b : Fin n) : (modify c k f t b).map shown = (t b).map shown := by
  by_cases here : b = c.hash k
  · subst here
    rw [modify, Function.update_self]
    exact map_modifyFirst keeps
  · rw [modify, Function.update_of_ne here]

variable (keeps : ∀ e, c.key (f e) = c.key e)
include keeps

theorem find?_modifyFirst_self :
    (modifyFirst (c.key · = k) f l).find? (c.key · = k) = (l.find? (c.key · = k)).map f := by
  induction l with
  | nil => rfl
  | cons x rest ih =>
    by_cases hit : c.key x = k
    · simp [hit, keeps]
    · simp [hit, ih]

theorem find?_modifyFirst_of_ne {j : K}
    (other : j ≠ k) :
    (modifyFirst (c.key · = k) f l).find? (c.key · = j) = l.find? (c.key · = j) := by
  induction l with
  | nil => rfl
  | cons x rest ih =>
    by_cases hit : c.key x = k
    · have miss : c.key x ≠ j := fun same => other (same.symm.trans hit)
      simp [hit, keeps, Ne.symm other]
    · simp [hit, find?_cons, ih]

theorem find_modify :
    find c j (modify c k f t) = if j = k then (find c k t).map f else find c j t := by
  rw [find, modify]
  by_cases here : c.hash j = c.hash k
  · rw [here, Function.update_self]
    split
    next same =>
      subst same
      exact find?_modifyFirst_self keeps
    next other =>
      rw [find, here]
      exact find?_modifyFirst_of_ne keeps other
  · have other : j ≠ k := fun same => here (by rw [same])
    rw [Function.update_of_ne here, if_neg other]
    rfl

theorem Placed.modify (placed : Placed c t) :
    Placed c (modify c k f t) := placed.of_keys (map_modify keeps)

end Modify

section Remove

theorem find_remove (placed : Placed c t) :
    find c j (remove c k t) = if j = k then none else find c j t := by
  rw [find, remove]
  by_cases here : c.hash j = c.hash k
  · rw [here, Function.update_self]
    have nodup := placed.distinct (c.hash k)
    have nodup' : (((t (c.hash k)).eraseP (c.key · = k)).map c.key).Nodup :=
      nodup.sublist (eraseP_sublist.map _)
    split
    next same =>
      subst same
      rw [find?_eq_none]
      intro x mem
      simp only [decide_eq_true_eq]
      intro keyed
      have old : x ∈ t (c.hash j) := mem_of_mem_eraseP mem
      have found := (find?_key nodup).mpr ⟨old, keyed⟩
      obtain ⟨before, after, whole, rest⟩ := StableInsert.eraseP_split found
      rw [rest] at mem
      rw [whole, map_append, map_cons, nodup_append'] at nodup
      rcases mem_append.mp mem with left | right
      · exact nodup.2.2 (mem_map_of_mem left) mem_cons_self
      · exact (nodup_cons.mp nodup.2.1).1 (mem_map_of_mem right)
    next other =>
      apply Option.ext
      intro x
      rw [find, here, find?_key nodup', find?_key nodup]
      constructor
      · rintro ⟨mem, keyed⟩
        exact ⟨mem_of_mem_eraseP mem, keyed⟩
      · rintro ⟨mem, keyed⟩
        refine ⟨(mem_eraseP_of_neg ?_).mpr mem, keyed⟩
        simpa [keyed] using other
  · have other : j ≠ k := fun same => here (by rw [same])
    rw [Function.update_of_ne here, if_neg other]
    rfl

omit [DecidableEq K] in
theorem Placed.sublist (placed : Placed c t) {u : Chains E n} (sub : ∀ b, (u b).Sublist (t b)) :
    Placed c u :=
  ⟨fun b x mem => placed.bucket b x ((sub b).subset mem),
    fun b => (placed.distinct b).sublist ((sub b).map _)⟩

theorem Placed.remove (placed : Placed c t) : Placed c (remove c k t) := by
  refine placed.sublist fun b => ?_
  by_cases here : b = c.hash k
  · subst here
    rw [ChainedTable.remove, Function.update_self]
    exact eraseP_sublist
  · rw [ChainedTable.remove, Function.update_of_ne here]

omit [DecidableEq K] in
theorem Placed.sift (placed : Placed c t) (p : E → Bool) : Placed c (sift p t) :=
  placed.sublist fun _ => filter_sublist

theorem find_sift (placed : Placed c t) : find c k (sift p t) = (find c k t).filter p := by
  apply Option.ext
  intro x
  rw [(placed.sift p).find_iff, Option.filter_eq_some_iff, placed.find_iff]
  simp only [mem_entries, sift, mem_filter]
  constructor
  · rintro ⟨⟨b, mem, holds⟩, keyed⟩
    exact ⟨⟨⟨b, mem⟩, keyed⟩, holds⟩
  · rintro ⟨⟨⟨b, mem⟩, keyed⟩, holds⟩
    exact ⟨⟨b, mem, holds⟩, keyed⟩

end Remove

section Size

theorem length_entries : (entries t).length = ∑ b, (t b).length := by
  rw [entries, length_flatMap, Fin.sum_univ_def]

theorem length_entries_update (b : Fin n) (l : List E) :
    (entries (Function.update t b l)).length + (t b).length = (entries t).length + l.length := by
  have commute : (fun a => (Function.update t b l a).length) =
      Function.update (fun a => (t a).length) b l.length := by
    funext a
    exact Function.apply_update (fun _ => length) t b l a
  rw [length_entries, length_entries, commute, Finset.sum_update_of_mem (Finset.mem_univ b),
    ← Finset.add_sum_erase _ _ (Finset.mem_univ b), Finset.sdiff_singleton_eq_erase]
  omega

theorem length_push : (entries (push b e t)).length = (entries t).length + 1 := by
  have := length_entries_update (t := t) b (e :: t b)
  rw [push]
  simp only [length_cons] at this
  omega

theorem length_remove : (entries (remove c k t)).length + (if (find c k t).isSome then 1 else 0) =
    (entries t).length := by
  have moved := length_entries_update (t := t) (c.hash k) ((t (c.hash k)).eraseP (c.key · = k))
  rw [remove]
  cases found : find c k t with
  | none =>
    have same : (t (c.hash k)).eraseP (c.key · = k) = t (c.hash k) := by
      apply eraseP_of_forall_not
      simpa [find] using found
    rw [same] at moved ⊢
    simp
  | some x =>
    have mem := mem_of_find?_eq_some found
    have length := length_eraseP_of_mem mem (find?_some found)
    have pos := length_pos_of_mem mem
    simp only [Option.isSome_some, if_true]
    omega

theorem entries_sift : entries (sift p t) = (entries t).filter p := by
  simp only [entries, filter_flatMap]
  rfl

end Size

section Walk

variable {σ : Type*} {f : E → σ → E × σ}

theorem walkChain_snd : (walkChain f l s).2 = l.foldl (fun s e => (f e s).2) s := by
  induction l generalizing s with
  | nil => rfl
  | cons e rest ih => simp only [walkChain, foldl_cons, ih]

theorem walkChain_fst {l : List E} (pure : ∀ e ∈ l, ∀ s, (f e s).1 = g e) (s : σ) :
    (walkChain f l s).1 = l.map g := by
  induction l generalizing s with
  | nil => rfl
  | cons e rest ih =>
    simp only [walkChain, map_cons, pure e mem_cons_self]
    rw [ih fun e mem => pure e (.tail _ mem)]

theorem walkFrom_snd (nodup : bs.Nodup) :
    (walkFrom f bs t s).2 = (bs.flatMap t).foldl (fun s e => (f e s).2) s := by
  induction bs generalizing t s with
  | nil => rfl
  | cons b rest ih =>
    obtain ⟨fresh, nodup⟩ := nodup_cons.mp nodup
    have same : rest.flatMap (Function.update t b (walkChain f (t b) s).1) = rest.flatMap t := by
      refine flatMap_congr fun a mem => Function.update_of_ne ?_ _ _
      rintro rfl
      exact fresh mem
    simp only [walkFrom]
    rw [ih nodup, same, walkChain_snd, flatMap_cons, foldl_append]

theorem walk_snd : (walk f t s).2 = (entries t).foldl (fun s e => (f e s).2) s :=
  walkFrom_snd (nodup_finRange n)

theorem walkFrom_fst (nodup : bs.Nodup) (t : Chains E n)
    (pure : ∀ b ∈ bs, ∀ e ∈ t b, ∀ s, (f e s).1 = g e) (b : Fin n) :
    (walkFrom f bs t s).1 b = if b ∈ bs then (t b).map g else t b := by
  induction bs generalizing t s with
  | nil => rfl
  | cons a rest ih =>
    obtain ⟨fresh, nodup⟩ := nodup_cons.mp nodup
    have chain := walkChain_fst (pure a mem_cons_self) s
    have still : ∀ b ∈ rest, Function.update t a (walkChain f (t a) s).1 b = t b := by
      intro b mem
      refine Function.update_of_ne ?_ _ _
      rintro rfl
      exact fresh mem
    simp only [walkFrom]
    rw [ih nodup _ fun b mem e meme => pure b (.tail _ mem) e (still b mem ▸ meme)]
    by_cases here : b = a
    · subst here
      simp [fresh, chain]
    · by_cases later : b ∈ rest
      · simp [later, here]
      · simp [later, here]

theorem walk_fst {t : Chains E n} (pure : ∀ e ∈ entries t, ∀ s, (f e s).1 = g e) :
    (walk f t s).1 = fun b => (t b).map g := by
  funext b
  rw [walk, walkFrom_fst (nodup_finRange n) t
    (fun b _ e mem => pure e (mem_entries.mpr ⟨b, mem⟩)), if_pos (mem_finRange b)]

theorem map_walkChain (keeps : ∀ e s, shown (f e s).1 = shown e) :
    (walkChain f l s).1.map shown = l.map shown := by
  induction l generalizing s with
  | nil => rfl
  | cons e rest ih => simp only [walkChain, map_cons, keeps, ih]

theorem map_walkFrom (keeps : ∀ e s, shown (f e s).1 = shown e) :
    ((walkFrom f bs t s).1 b).map shown = (t b).map shown := by
  induction bs generalizing t s with
  | nil => rfl
  | cons a rest ih =>
    simp only [walkFrom]
    rw [ih]
    by_cases here : b = a
    · subst here
      rw [Function.update_self, map_walkChain keeps]
    · rw [Function.update_of_ne here]

theorem map_walk (keeps : ∀ e s, shown (f e s).1 = shown e)
    (s : σ) (b : Fin n) : ((walk f t s).1 b).map shown = (t b).map shown :=
  map_walkFrom keeps

end Walk

end BotManager.ChainedTable
