import Mathlib.Data.List.Pairwise
import Mathlib.Algebra.Order.Group.Nat
import Mathlib.Algebra.GroupWithZero.Nat
import Mathlib.Algebra.BigOperators.Group.List.Basic

/-! Keyed insertion into a sorted linked list: walk past every element whose key
is not larger, then link the new one in. Ties keep their arrival order, which
is expressed with an arrival stamp: the list stays sorted by key and then stamp.
`load` sums a weight over a list; insertion and removal move exactly one term. -/

namespace BotManager.StableInsert

open List

variable {α κ : Type*}

def insertBy [LE κ] [DecidableLE κ] (key : α → κ) (x : α) : List α → List α
  | [] => [x]
  | y :: ys => if key y ≤ key x then y :: insertBy key x ys else x :: y :: ys

variable {l : List α}

section Membership
variable [LE κ] [DecidableLE κ] (key : α → κ) (x : α)

theorem insertBy_perm (l : List α) : (insertBy key x l).Perm (x :: l) := by
  induction l with
  | nil => exact .refl _
  | cons y ys ih =>
    rw [insertBy]
    split
    · exact (ih.cons y).trans (.swap x y ys)
    · exact .refl _

@[simp] theorem mem_insertBy {y : α} :
    y ∈ insertBy key x l ↔ y = x ∨ y ∈ l := by
  rw [(insertBy_perm key x l).mem_iff, mem_cons]

@[simp] theorem length_insertBy : (insertBy key x l).length = l.length + 1 := by
  rw [(insertBy_perm key x l).length_eq, length_cons]

theorem sublist_insertBy : l.Sublist (insertBy key x l) := by
  induction l with
  | nil => exact nil_sublist _
  | cons y ys ih =>
    rw [insertBy]
    split
    · exact ih.cons_cons y
    · exact sublist_cons_self x (y :: ys)

end Membership

def Before [LT κ] (key : α → κ) (stamp : α → ℕ) (a b : α) : Prop :=
  key a < key b ∨ key a = key b ∧ stamp a < stamp b

instance [LT κ] [DecidableLT κ] [DecidableEq κ] (key : α → κ) (stamp : α → ℕ) (a b : α) :
    Decidable (Before key stamp a b) :=
  inferInstanceAs (Decidable (_ ∨ _))

variable {x : α}

section Order
variable [LinearOrder κ] {key : α → κ} {stamp : α → ℕ}

theorem Before.trans {a b c : α} (first : Before key stamp a b) (second : Before key stamp b c) :
    Before key stamp a c := by
  rcases first with lt | ⟨eq, le⟩
  · rcases second with lt' | ⟨eq', _⟩
    · exact .inl (lt.trans lt')
    · exact .inl (eq' ▸ lt)
  · rcases second with lt' | ⟨eq', le'⟩
    · exact .inl (eq ▸ lt')
    · exact .inr ⟨eq.trans eq', le.trans le'⟩

theorem insertBy_pairwise (sorted : l.Pairwise (Before key stamp))
    (newest : ∀ y ∈ l, stamp y < stamp x) :
    (insertBy key x l).Pairwise (Before key stamp) := by
  induction l with
  | nil => exact pairwise_singleton _ _
  | cons y ys ih =>
    obtain ⟨first, rest⟩ := pairwise_cons.mp sorted
    have older : stamp y < stamp x := newest y mem_cons_self
    rw [insertBy]
    split
    next le =>
      refine pairwise_cons.mpr ⟨?_, ih rest fun z mem => newest z (.tail _ mem)⟩
      intro z mem
      rcases (mem_insertBy key x).mp mem with rfl | mem
      · rcases le.lt_or_eq with lt | eq
        · exact .inl lt
        · exact .inr ⟨eq, older⟩
      · exact first z mem
    next notLe =>
      refine pairwise_cons.mpr ⟨?_, sorted⟩
      have lt : Before key stamp x y := .inl (lt_of_not_ge notLe)
      intro z mem
      rcases mem_cons.mp mem with rfl | mem
      · exact lt
      · exact lt.trans (first z mem)

theorem insertBy_sorted (sorted : l.Pairwise (fun a b => key a ≤ key b)) :
    (insertBy key x l).Pairwise (fun a b => key a ≤ key b) := by
  induction l with
  | nil => exact pairwise_singleton _ _
  | cons y ys ih =>
    obtain ⟨first, rest⟩ := pairwise_cons.mp sorted
    rw [insertBy]
    split
    next le =>
      refine pairwise_cons.mpr ⟨fun z mem => ?_, ih rest⟩
      rcases (mem_insertBy key x).mp mem with rfl | mem
      · exact le
      · exact first z mem
    next above =>
      refine pairwise_cons.mpr ⟨fun z mem => (lt_of_not_ge above).le.trans ?_, sorted⟩
      rcases mem_cons.mp mem with rfl | mem
      · exact le_rfl
      · exact first z mem

theorem filter_insertBy (sorted : l.Pairwise (fun a b => key a ≤ key b)) :
    (insertBy key x l).filter (key · = k) =
      l.filter (key · = k) ++ [x].filter (key · = k) := by
  induction l with
  | nil => rfl
  | cons y ys ih =>
    obtain ⟨first, rest⟩ := pairwise_cons.mp sorted
    rw [insertBy]
    split
    next =>
      rw [← singleton_append, filter_append, ih rest, ← append_assoc, ← filter_append,
        singleton_append]
    next above =>
      by_cases here : key x = k
      · have none : (y :: ys).filter (key · = k) = [] := by
          refine filter_eq_nil_iff.mpr fun z mem same => ?_
          have : key y ≤ key z := by
            rcases mem_cons.mp mem with rfl | mem
            · exact le_rfl
            · exact first z mem
          exact above (this.trans_eq ((of_decide_eq_true same).trans here.symm))
        rw [none, filter_cons_of_pos (by simpa), none]
        simp [here]
      · simp [here]

theorem dropWhile_eq_filter (sorted : l.Pairwise (Before key stamp)) :
    l.dropWhile (fun y => key y ≤ bound) = l.filter (fun y => bound < key y) := by
  induction l with
  | nil => rfl
  | cons y ys ih =>
    obtain ⟨first, rest⟩ := pairwise_cons.mp sorted
    by_cases low : key y ≤ bound
    · simp [low, not_lt.mpr low, ih rest]
    · have high : bound < key y := lt_of_not_ge low
      have all : ∀ z ∈ ys, bound < key z := by
        intro z mem
        rcases first z mem with lt | ⟨eq, _⟩
        · exact high.trans lt
        · exact eq ▸ high
      rw [dropWhile_cons_of_neg (by simpa using high), filter_cons_of_pos (by simpa),
        filter_eq_self.mpr (by simpa using all)]

theorem first_of_find? {R : α → α → Prop} {p : α → Bool}
    (sorted : l.Pairwise R) (found : l.find? p = some x) :
    ∀ y ∈ l, p y = true → y = x ∨ R x y := by
  obtain ⟨-, before, after, rfl, missed⟩ := find?_eq_some_iff_append.mp found
  intro y mem hit
  rcases mem_append.mp mem with early | here
  · exact absurd hit (by simpa using missed y early)
  · refine (mem_cons.mp here).imp_right fun later => ?_
    exact (pairwise_cons.mp (pairwise_append.mp sorted).2.1).1 y later

end Order

variable {l : List α} {p : α → Bool}

theorem eraseP_split (found : l.find? p = some x) :
    ∃ before after, l = before ++ x :: after ∧ l.eraseP p = before ++ after := by
  obtain ⟨hit, before, after, rfl, missed⟩ := find?_eq_some_iff_append.mp found
  refine ⟨before, after, rfl, ?_⟩
  rw [eraseP_append_right _ (by simpa using missed), eraseP_cons_of_pos hit]

def load (w : α → ℕ) (l : List α) : ℕ := (l.map w).sum

variable (w : α → ℕ)

@[simp] theorem load_nil : load w [] = 0 := rfl

@[simp] theorem load_cons (x : α) :
    load w (x :: l) = w x + load w l := by simp [load]

theorem load_perm {m : List α} (h : l.Perm m) : load w l = load w m :=
  (h.map w).sum_eq

@[simp] theorem load_insertBy [LE κ] [DecidableLE κ] (key : α → κ)
    (l : List α) : load w (insertBy key x l) = w x + load w l := by
  rw [load_perm w (insertBy_perm key x l), load_cons]

theorem load_eraseP (found : l.find? p = some x) :
    load w l = w x + load w (l.eraseP p) := by
  induction l with
  | nil => simp at found
  | cons y ys ih =>
    by_cases hit : p y = true
    · rw [find?_cons_of_pos hit] at found
      cases found
      rw [eraseP_cons_of_pos hit, load_cons]
    · rw [find?_cons_of_neg hit] at found
      rw [eraseP_cons_of_neg hit, load_cons, load_cons, ih found]
      omega

theorem length_eraseP (found : l.find? p = some x) :
    l.length = (l.eraseP p).length + 1 := by
  have mem := mem_of_find?_eq_some found
  have pos := length_pos_of_mem mem
  rw [length_eraseP_of_mem mem (find?_some found)]
  omega

theorem le_load (mem : x ∈ l) : w x ≤ load w l := by
  induction l with
  | nil => simp at mem
  | cons y ys ih =>
    rw [load_cons]
    rcases mem_cons.mp mem with rfl | mem
    · omega
    · have := ih mem
      omega

theorem load_le_length (small : ∀ x, w x ≤ 1) (l : List α) : load w l ≤ l.length := by
  induction l with
  | nil => simp
  | cons x xs ih =>
    have := small x
    rw [load_cons, length_cons]
    omega

theorem find?_of_load_le_one (single : load w l ≤ 1)
    (heavy : ∀ y ∈ l, p y = true → 1 ≤ w y) (mem : x ∈ l) (hit : p x = true) :
    l.find? p = some x := by
  induction l with
  | nil => simp at mem
  | cons y ys ih =>
    rw [load_cons] at single
    by_cases first : p y = true
    · have wy := heavy y mem_cons_self first
      rw [find?_cons_of_pos first]
      rcases mem_cons.mp mem with rfl | later
      · rfl
      · have wx := heavy x (.tail _ later) hit
        have := le_load w later
        omega
    · rw [find?_cons_of_neg first]
      have later : x ∈ ys := by
        rcases mem_cons.mp mem with rfl | later
        · exact absurd hit first
        · exact later
      exact ih (by omega) (fun z mz => heavy z (.tail _ mz)) later

end BotManager.StableInsert
