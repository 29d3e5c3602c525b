import Mathlib.Data.Fintype.Card

/-! Saturation by passes over an array. Each pass visits the indices in order and takes
those not yet taken that are admitted by what has been taken so far, the current pass
included; passes repeat while one takes something. Topological sorts in the manner of
Kahn and fixpoints of monotone closures are of this form. -/

namespace BotManager.PassSaturation

open List

variable {n : ℕ} {admits : List (Fin n) → Fin n → Bool}

/-- The indices taken, in the order taken, whether the last pass took one, and the number
of passes that did. -/
structure Taken (n : ℕ) where
  order : List (Fin n)
  nodup : order.Nodup
  progress : Bool
  productive : ℕ

theorem Taken.length_le (s : Taken n) : s.order.length ≤ n := by
  simpa using s.nodup.length_le_card

variable {l seed : List (Fin n)} {s : Taken n}

theorem nodup_snoc (nodup : l.Nodup) {i : Fin n} (fresh : i ∉ l) : (l ++ [i]).Nodup := by
  rw [← concat_eq_append]
  exact nodup.concat fresh

def visit (admits : List (Fin n) → Fin n → Bool) (s : Taken n) (i : Fin n) : Taken n :=
  if taken : i ∈ s.order then s
  else if admits s.order i then
    { s with order := s.order ++ [i], nodup := nodup_snoc s.nodup taken, progress := true }
  else s

def pass (admits : List (Fin n) → Fin n → Bool) (s : Taken n) : Taken n :=
  let next := (finRange n).foldl (visit admits) { s with progress := false }
  { next with productive := next.productive + next.progress.toNat }

variable (admits)

theorem visit_cases (s : Taken n) (i : Fin n) :
    ((visit admits s i).order = s.order ++ [i] ∧ i ∉ s.order ∧ admits s.order i = true ∧
      (visit admits s i).progress = true ∧ (visit admits s i).productive = s.productive) ∨
      visit admits s i = s ∧ (i ∈ s.order ∨ admits s.order i = false) := by
  by_cases taken : i ∈ s.order
  · exact .inr ⟨by simp [visit, taken], .inl taken⟩
  · cases admitted : admits s.order i with
    | true => exact .inl (by simp [visit, taken, admitted])
    | false => exact .inr ⟨by simp [visit, taken, admitted], .inr rfl⟩

theorem visits_spec (l : List (Fin n)) (s : Taken n) :
    s.order.length ≤ (l.foldl (visit admits) s).order.length ∧
      ((l.foldl (visit admits) s).progress = true ↔
        s.progress = true ∨ s.order.length < (l.foldl (visit admits) s).order.length) ∧
      (l.foldl (visit admits) s).productive = s.productive := by
  induction l generalizing s with
  | nil => simp
  | cons i rest ih =>
    obtain ⟨grows, progress, productive⟩ := ih (visit admits s i)
    simp only [foldl_cons]
    rcases visit_cases admits s i with ⟨order, _, _, made, count⟩ | ⟨same, _⟩
    · have longer : (visit admits s i).order.length = s.order.length + 1 := by simp [order]
      refine ⟨by omega, ?_, productive.trans count⟩
      rw [progress, made]
      refine ⟨fun _ => .inr (by omega), fun _ => .inl rfl⟩
    · rw [same] at grows progress productive ⊢
      exact ⟨grows, progress, productive⟩

theorem visits_stalled (stalled : (l.foldl (visit admits) s).progress = false) :
    (l.foldl (visit admits) s).order = s.order ∧ ∀ i ∈ l, i ∈ s.order ∨ admits s.order i = false := by
  induction l generalizing s with
  | nil => simp
  | cons i rest ih =>
    simp only [foldl_cons] at stalled ⊢
    rcases visit_cases admits s i with ⟨_, _, _, made, _⟩ | ⟨same, here⟩
    · have kept := (visits_spec admits rest (visit admits s i)).2.1.mpr (.inl made)
      rw [stalled] at kept
      cases kept
    · rw [same] at stalled ⊢
      obtain ⟨order, others⟩ := ih stalled
      refine ⟨order, fun j mem => ?_⟩
      rcases mem_cons.mp mem with rfl | later
      · exact here
      · exact others j later

theorem pass_progress (s : Taken n) :
    (pass admits s).progress = true ↔ s.order.length < (pass admits s).order.length := by
  have spec := (visits_spec admits (finRange n) { s with progress := false }).2.1
  simp only [Bool.false_eq_true, false_or] at spec
  exact spec

theorem pass_productive (s : Taken n) :
    (pass admits s).productive = s.productive + (pass admits s).progress.toNat := by
  have spec := (visits_spec admits (finRange n) { s with progress := false }).2.2
  simp only [pass, spec]

theorem length_le_pass (s : Taken n) :
    s.order.length ≤ (pass admits s).order.length :=
  (visits_spec admits (finRange n) { s with progress := false }).1

variable {admits}

/-- The loop: `while(progress)`, with a further test on the number taken. -/
def saturate (admits : List (Fin n) → Fin n → Bool) (stop : ℕ → Bool) (s : Taken n) : Taken n :=
  if s.progress && !stop s.order.length then saturate admits stop (pass admits s) else s
termination_by 2 * (n - s.order.length) + s.progress.toNat
decreasing_by
  rename_i goes
  have started : s.progress = true := (Bool.and_eq_true_iff.mp goes).1
  have bound := (pass admits s).length_le
  have grows := length_le_pass admits s
  have progress := pass_progress admits s
  cases next : (pass admits s).progress with
  | true =>
    have longer := progress.mp next
    simp only [started, Bool.toNat_true]
    omega
  | false =>
    simp only [started, Bool.toNat_true, Bool.toNat_false]
    omega

/-- A list grown from the seed by taking, one at a time, what the list before it admits. -/
inductive Built (admits : List (Fin n) → Fin n → Bool) (seed : List (Fin n)) : List (Fin n) → Prop
  | seed : Built admits seed seed
  | snoc {l : List (Fin n)} {i : Fin n} (built : Built admits seed l) (fresh : i ∉ l)
      (admitted : admits l i = true) : Built admits seed (l ++ [i])

def Saturated (admits : List (Fin n) → Fin n → Bool) (l : List (Fin n)) : Prop :=
  ∀ i, i ∉ l → admits l i = false

theorem Built.all (built : Built admits seed l) {P : Fin n → Prop} (base : ∀ i ∈ seed, P i)
    (closed : ∀ l i, (∀ j ∈ l, P j) → admits l i = true → P i) : ∀ i ∈ l, P i := by
  induction built with
  | seed => exact base
  | @snoc l i _ _ admitted ih =>
    intro j mem
    rcases mem_append.mp mem with old | last
    · exact ih j old
    · obtain rfl := mem_singleton.mp last
      exact closed l j ih admitted

theorem Built.seed_subset (built : Built admits seed l) : seed ⊆ l := by
  induction built with
  | seed => exact List.Subset.refl _
  | snoc _ _ _ ih => exact fun i mem => mem_append_left _ (ih mem)

theorem built_visit (built : Built admits seed s.order) :
    Built admits seed (visit admits s i).order := by
  rcases visit_cases admits s i with ⟨order, fresh, admitted, _⟩ | ⟨same, _⟩
  · rw [order]
    exact built.snoc fresh admitted
  · rw [same]
    exact built

theorem built_pass (built : Built admits seed s.order) :
    Built admits seed (pass admits s).order := by
  have visits (l : List (Fin n)) : ∀ s : Taken n, Built admits seed s.order →
      Built admits seed (l.foldl (visit admits) s).order := by
    induction l with
    | nil => exact fun _ built => built
    | cons i rest ih => exact fun s built => ih _ (built_visit built)
  exact visits _ { s with progress := false } built

theorem saturated_of_pass (stalled : (pass admits s).progress = false) :
    Saturated admits (pass admits s).order := by
  obtain ⟨order, found⟩ := visits_stalled admits (s := { s with progress := false }) stalled
  have same : (pass admits s).order = s.order := order
  rw [same]
  intro i fresh
  exact (found i (mem_finRange i)).resolve_left fresh

section Saturate

variable {stop : ℕ → Bool}

theorem built_saturate (built : Built admits seed s.order) :
    Built admits seed (saturate admits stop s).order := by
  fun_induction saturate admits stop s with
  | case1 s _ ih => exact ih (built_pass built)
  | case2 s _ => exact built

variable (admits : List (Fin n) → Fin n → Bool)

theorem saturate_ends (stop : ℕ → Bool)
    (start : s.progress = false → Saturated admits s.order) :
    stop (saturate admits stop s).order.length = true ∨ Saturated admits (saturate admits stop s).order := by
  fun_induction saturate admits stop s with
  | case1 s _ ih => exact ih saturated_of_pass
  | case2 s ended =>
    cases progress : s.progress with
    | false => exact .inr (start progress)
    | true => exact .inl (by simpa [progress] using ended)

theorem productive_saturate (stop : ℕ → Bool) (s : Taken n) :
    (saturate admits stop s).productive + s.order.length ≤
      s.productive + (saturate admits stop s).order.length := by
  fun_induction saturate admits stop s with
  | case1 s _ ih =>
    have grows := length_le_pass admits s
    have progress := pass_progress admits s
    have productive := pass_productive admits s
    cases made : (pass admits s).progress with
    | true =>
      have longer := progress.mp made
      rw [made, Bool.toNat_true] at productive
      omega
    | false =>
      rw [made, Bool.toNat_false] at productive
      omega
  | case2 s _ => omega

end Saturate

end BotManager.PassSaturation
