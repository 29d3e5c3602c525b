import Mathlib.Data.List.Basic

/-! The element of a linked list that a scan stops at, with what lies before and behind
it. Unlinking the element keeps the two sides; changing it in place keeps its position. -/

namespace BotManager.FirstMatch

open List

variable {α : Type*}

def splitFirst (p : α → Bool) : List α → Option (List α × α × List α)
  | [] => none
  | a :: l =>
    if p a then some ([], a, l)
    else (splitFirst p l).map fun (pre, b, post) => (a :: pre, b, post)

variable {l : List α} {p : α → Bool} {pre post : List α} {a : α}

theorem splitFirst_some (found : splitFirst p l = some (pre, a, post)) :
    l = pre ++ a :: post ∧ p a = true ∧ ∀ b ∈ pre, p b = false := by
  induction l generalizing pre with
  | nil => cases found
  | cons c l ih =>
    rw [splitFirst] at found
    split at found
    next here =>
      cases found
      exact ⟨rfl, here, by simp⟩
    next past =>
      obtain ⟨⟨pre', b, post'⟩, later, same⟩ := Option.map_eq_some_iff.mp found
      cases same
      obtain ⟨whole, holds, before⟩ := ih later
      refine ⟨by rw [whole, cons_append], holds, ?_⟩
      exact forall_mem_cons.mpr ⟨Bool.eq_false_iff.mpr past, before⟩

theorem splitFirst_none (missing : splitFirst p l = none) : ∀ a ∈ l, p a = false := by
  induction l with
  | nil => simp
  | cons c l ih =>
    rw [splitFirst] at missing
    split at missing
    · cases missing
    next past =>
      have later := ih (Option.map_eq_none_iff.mp missing)
      exact forall_mem_cons.mpr ⟨Bool.eq_false_iff.mpr past, later⟩

theorem splitFirst_append (before : ∀ b ∈ pre, p b = false)
    (here : p a = true) : splitFirst p (pre ++ a :: post) = some (pre, a, post) := by
  induction pre with
  | nil => rw [nil_append, splitFirst, if_pos here]
  | cons c pre ih =>
    obtain ⟨past, before⟩ := forall_mem_cons.mp before
    rw [cons_append, splitFirst, if_neg (Bool.eq_false_iff.mp past), ih before]
    rfl

theorem splitFirst_eq_none (never : ∀ a ∈ l, p a = false) : splitFirst p l = none := by
  cases found : splitFirst p l with
  | none => rfl
  | some parts =>
    obtain ⟨whole, here, -⟩ := splitFirst_some found
    have missed := never parts.2.1 (by rw [whole]; simp)
    rw [here] at missed
    cases missed

end BotManager.FirstMatch
