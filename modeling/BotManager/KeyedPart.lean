import Mathlib.Data.List.Count
import Mathlib.Data.List.Nodup

/-! The part of a list that carries one key. A step that touches the elements of one key leaves
the parts of all other keys alone, so an invariant over the parts is checked at that key. -/

namespace BotManager.KeyedPart

open List

variable {α κ : Type*} [DecidableEq κ] {key : α → κ}

def part (key : α → κ) (c : κ) (l : List α) : List α := l.filter fun x => decide (key x = c)

def modifyKey (key : α → κ) (d : κ) (f : α → α) (l : List α) : List α :=
  l.map fun x => if key x = d then f x else x

def removeKey (key : α → κ) (d : κ) (l : List α) : List α := l.filter fun x => decide (key x ≠ d)

@[simp] theorem mem_part {c : κ} {l : List α} {x : α} :
    x ∈ part key c l ↔ x ∈ l ∧ key x = c := by
  simp [part]

variable (c : κ)

@[simp] theorem part_nil : part key c [] = [] := rfl

@[simp] theorem part_cons (l : List α) :
    part key c (x :: l) = if key x = c then x :: part key c l else part key c l := by
  simp [part, filter_cons]

@[simp] theorem part_append : part key c (l₁ ++ l₂) = part key c l₁ ++ part key c l₂ :=
  filter_append ..

variable (l : List α)

theorem part_erase [DecidableEq α] :
    part key c (l.erase x) = if key x = c then (part key c l).erase x else part key c l := by
  unfold part
  rw [← erase_filter]
  split_ifs with same
  · rfl
  · apply erase_of_not_mem
    simp [same]

theorem part_modify {f : α → α} (keeps : ∀ x, key (f x) = key x) :
    part key c (modifyKey key d f l) =
      if c = d then (part key c l).map f else part key c l := by
  induction l with
  | nil => simp [modifyKey]
  | cons x rest ih =>
    have tail : modifyKey key d f (x :: rest) =
        (if key x = d then f x else x) :: modifyKey key d f rest := rfl
    rw [tail, part_cons, ih, part_cons]
    by_cases same : key x = d <;> by_cases here : key x = c <;> by_cases cd : c = d <;>
      simp_all

theorem map_modify {f : α → α} (keeps : ∀ x, key (f x) = key x) (d : κ) :
    (modifyKey key d f l).map key = l.map key := by
  unfold modifyKey
  rw [map_map]
  apply map_congr_left
  intro x _
  show key (if key x = d then f x else x) = key x
  split_ifs
  · exact keeps x
  · rfl

theorem part_remove : part key c (removeKey key d l) = if c = d then [] else part key c l := by
  unfold part removeKey
  rw [filter_filter]
  split_ifs with same
  · apply filter_eq_nil_iff.mpr
    intro x _
    simp [same]
  · apply filter_congr
    intro x _
    by_cases here : key x = c <;> simp [here, same]

theorem count_map_key : (l.map key).count c = (part key c l).length := by
  induction l with
  | nil => rfl
  | cons x rest ih =>
    rw [map_cons, count_cons, part_cons, ih]
    by_cases same : key x = c <;> simp [same]

theorem eq_nil_of_parts {l : List α} (empty : ∀ c, part key c l = []) : l = [] := by
  apply eq_nil_iff_forall_not_mem.mpr
  intro x mem
  have there : x ∈ part key (key x) l := mem_part.mpr ⟨mem, rfl⟩
  rw [empty] at there
  cases there

section Values
variable {β : Type*}

def valuesAt (c : κ) (l : List (κ × β)) : List β := (part Prod.fst c l).map Prod.snd

@[simp] theorem valuesAt_nil : valuesAt c ([] : List (κ × β)) = [] := rfl

@[simp] theorem valuesAt_cons (x : κ × β) (l : List (κ × β)) :
    valuesAt c (x :: l) = if x.1 = c then x.2 :: valuesAt c l else valuesAt c l := by
  unfold valuesAt
  rw [part_cons]
  split_ifs <;> rfl

@[simp] theorem valuesAt_append : valuesAt c (l₁ ++ l₂) = valuesAt c l₁ ++ valuesAt c l₂ := by
  simp [valuesAt]

@[simp] theorem mem_valuesAt {c : κ} {l : List (κ × β)} {v : β} :
    v ∈ valuesAt c l ↔ (c, v) ∈ l := by
  constructor
  · intro mem
    obtain ⟨⟨d, w⟩, there, rfl⟩ := mem_map.mp mem
    obtain ⟨inside, rfl⟩ := mem_part.mp there
    exact inside
  · intro mem
    exact mem_map.mpr ⟨(c, v), mem_part.mpr ⟨mem, rfl⟩, rfl⟩

theorem valuesAt_perm (c : κ) {l₁ l₂ : List (κ × β)} (perm : l₁.Perm l₂) :
    (valuesAt c l₁).Perm (valuesAt c l₂) :=
  (perm.filter _).map _

theorem valuesAt_keyed (values : List β) :
    valuesAt c (values.map (Prod.mk d)) = if d = c then values else [] := by
  induction values with
  | nil => simp
  | cons v rest ih =>
    rw [map_cons, valuesAt_cons, ih]
    split_ifs <;> rfl

theorem valuesAt_map {keys : List κ} (distinct : keys.Nodup) (value : κ → β) (c : κ) :
    valuesAt c (keys.map fun k => (k, value k)) = if c ∈ keys then [value c] else [] := by
  induction keys with
  | nil => rfl
  | cons k rest ih =>
    obtain ⟨new, distinct⟩ := nodup_cons.mp distinct
    rw [map_cons, valuesAt_cons, ih distinct]
    by_cases same : k = c
    · subst same
      simp [new]
    · have other : c ≠ k := fun equal => same equal.symm
      simp [same, other]

end Values

end BotManager.KeyedPart
