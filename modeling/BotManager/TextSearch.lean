import Mathlib.Data.List.Infix

/-! Searching a text for a substring: the position of the first occurrence, as `strstr` and
(for a single element) `strchr` find it. An occurrence is located by an element it needs and
that the text before it does not have. -/

namespace BotManager.TextSearch

open List

variable {α : Type*} [DecidableEq α]

def find (needle : List α) : List α → Option ℕ
  | [] => if needle = [] then some 0 else none
  | x :: text => if needle <+: x :: text then some 0 else (find needle text).map (· + 1)

variable {needle text : List α} {c : α}

theorem find_here (here : needle <+: text) : find needle text = some 0 := by
  cases text with
  | nil => simp [find, prefix_nil.mp here]
  | cons x text => rw [find, if_pos here]

theorem find_later {x : α} (other : ¬needle <+: x :: text) :
    find needle (x :: text) = (find needle text).map (· + 1) := by
  rw [find, if_neg other]

theorem find_append {front : List α} (absent : c ∉ front) :
    find (c :: needle) (front ++ text) = (find (c :: needle) text).map (front.length + ·) := by
  induction front with
  | nil => simp
  | cons x front ih =>
    have other : ¬c :: needle <+: x :: (front ++ text) := by
      intro here
      exact absent (cons_prefix_cons.mp here |>.1 ▸ mem_cons_self)
    rw [cons_append, find_later other, ih fun mem => absent (.tail _ mem), Option.map_map]
    congr 1
    funext n
    simp only [Function.comp_apply, length_cons]
    omega

theorem find_first {front : List α} (absent : c ∉ front) :
    find (c :: needle) (front ++ c :: (needle ++ text)) = some front.length := by
  have here : c :: needle <+: c :: (needle ++ text) := ⟨text, rfl⟩
  rw [find_append absent, find_here here]
  rfl

theorem find_none (needed : c ∈ needle) (absent : c ∉ text) : find needle text = none := by
  induction text with
  | nil => rw [find, if_neg (ne_nil_of_mem needed)]
  | cons x text ih =>
    rw [find_later fun here => absent (here.subset needed), ih fun mem => absent (.tail _ mem)]
    rfl

theorem find_some {n : ℕ} (found : find needle text = some n) :
    n ≤ text.length ∧ needle <+: text.drop n := by
  induction text generalizing n with
  | nil =>
    rw [find] at found
    split at found
    next empty =>
      cases found
      simp [empty]
    next => cases found
  | cons x text ih =>
    rw [find] at found
    split at found
    next here =>
      cases found
      exact ⟨Nat.zero_le _, here⟩
    next =>
      obtain ⟨m, later, rfl⟩ := Option.map_eq_some_iff.mp found
      obtain ⟨bound, there⟩ := ih later
      exact ⟨Nat.succ_le_succ bound, there⟩

theorem find_none_of_not_infix (absent : ¬needle <:+: text) : find needle text = none := by
  rcases found : find needle text with _ | n
  · rfl
  · obtain ⟨-, rest, there⟩ := find_some found
    exact absurd ⟨text.take n, rest, by rw [append_assoc, there, take_append_drop]⟩ absent

theorem find_of_infix (inside : needle <:+: text) : find needle text ≠ none := by
  induction text with
  | nil =>
    rw [find, if_pos (infix_nil.mp inside)]
    exact Option.some_ne_none 0
  | cons x text ih =>
    rw [find]
    split
    next => exact Option.some_ne_none 0
    next other =>
      have later : needle <:+: text := (infix_cons_iff.mp inside).resolve_left other
      rw [Ne, Option.map_eq_none_iff]
      exact ih later

end BotManager.TextSearch
