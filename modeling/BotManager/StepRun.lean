import Mathlib.Data.List.Basic

/-! Finite runs of a partial labelled step function. A label that is not
enabled returns `none`. `ok` restricts the labels taken to those that meet a
condition in the state they start from; the unrestricted runs use `Any`. -/

namespace BotManager.StepRun

variable {σ α : Type*} {step : σ → α → Option σ} {ok : σ → α → Prop}

inductive Run (step : σ → α → Option σ) (ok : σ → α → Prop) : σ → List α → σ → Prop
  | nil (s : σ) : Run step ok s [] s
  | cons {s u t : σ} {a : α} {rest : List α} (meets : ok s a) (head : step s a = some u)
      (tail : Run step ok u rest t) : Run step ok s (a :: rest) t

def Any : σ → α → Prop := fun _ _ => True

def exec (step : σ → α → Option σ) : σ → List α → Option σ
  | s, [] => some s
  | s, a :: rest => (step s a).bind fun u => exec step u rest

variable {s t : σ} {labels : List α} {I : σ → Prop}

theorem fired {p : Prop} [Decidable p] (h : (if p then some s else none) = some t) : p ∧ s = t := by
  split at h
  next holds => exact ⟨holds, Option.some.inj h⟩
  next => cases h

theorem run_of_exec (h : exec step s labels = some t) : Run step Any s labels t := by
  induction labels generalizing s with
  | nil =>
    cases h
    exact .nil _
  | cons a rest ih =>
    obtain ⟨u, head, tail⟩ := Option.bind_eq_some_iff.mp h
    exact .cons trivial head (ih tail)

def execWhen (step : σ → α → Option σ) (ok : σ → α → Prop) [∀ s a, Decidable (ok s a)] :
    σ → List α → Option σ
  | s, [] => some s
  | s, a :: rest => if ok s a then (step s a).bind fun u => execWhen step ok u rest else none

theorem run_of_execWhen [∀ s a, Decidable (ok s a)] (h : execWhen step ok s labels = some t) :
    Run step ok s labels t := by
  induction labels generalizing s with
  | nil =>
    cases h
    exact .nil _
  | cons a rest ih =>
    rw [execWhen] at h
    split at h
    next meets =>
      obtain ⟨u, head, tail⟩ := Option.bind_eq_some_iff.mp h
      exact .cons meets head (ih tail)
    next => cases h

theorem run_get (ran : (exec step s labels).isSome = true) :
    Run step Any s labels ((exec step s labels).get ran) :=
  run_of_exec (Option.some_get ran).symm

theorem runWhen_get [∀ s a, Decidable (ok s a)] (ran : (execWhen step ok s labels).isSome = true) :
    Run step ok s labels ((execWhen step ok s labels).get ran) :=
  run_of_execWhen (Option.some_get ran).symm

theorem Run.mono {ok' : σ → α → Prop} (weaker : ∀ s a, ok s a → ok' s a)
    (run : Run step ok s labels t) : Run step ok' s labels t := by
  induction run with
  | nil s => exact .nil s
  | cons meets head _ ih => exact .cons (weaker _ _ meets) head ih

theorem Run.append {u : σ} {first second : List α} (left : Run step ok s first u)
    (right : Run step ok u second t) : Run step ok s (first ++ second) t := by
  induction left with
  | nil _ => exact right
  | cons meets head _ ih => exact .cons meets head (ih right)

variable (run : Run step ok s labels t)
include run

theorem Run.invariant (preserved : ∀ {s a t}, I s → ok s a → step s a = some t → I t) (start : I s) : I t := by
  induction run with
  | nil _ => exact start
  | cons meets head _ ih => exact ih (preserved start meets head)

def Along (step : σ → α → Option σ) (P : σ → Prop) : σ → List α → Prop
  | s, [] => P s
  | s, a :: rest => P s ∧ ∀ u, step s a = some u → Along step P u rest

theorem Run.along (holds : ∀ {s}, I s → P s)
    (preserved : ∀ {s a t}, I s → ok s a → step s a = some t → I t)
    (start : I s) : Along step P s labels := by
  induction run with
  | nil s => exact holds start
  | cons meets head _ ih =>
    refine ⟨holds start, fun u moved => ?_⟩
    cases head.symm.trans moved
    exact ih (preserved start meets head)

/-- Where an invariant gives the property, and the property after a step its condition, the
property holds throughout a run exactly when every step meets the condition. -/
theorem Run.along_iff {meets : σ → α → Prop} (holds : ∀ {s}, I s → P s)
    (preserved : ∀ {s a t}, I s → ok s a → meets s a → step s a = some t → I t)
    (needed : ∀ {s a t}, I s → ok s a → step s a = some t → P t → meets s a) (start : I s) :
    Along step P s labels ↔ Run step (fun s a => ok s a ∧ meets s a) s labels t := by
  induction run with
  | nil s => exact ⟨fun _ => .nil s, fun _ => holds start⟩
  | @cons s u t a rest allowed head tail ih =>
    constructor
    · rintro ⟨-, later⟩
      have later := later u head
      have here : P u := by
        cases rest with
        | nil => exact later
        | cons b rest => exact later.1
      have met := needed start allowed head here
      exact .cons ⟨allowed, met⟩ head
        ((ih (preserved start allowed met head)).mp later)
    · rintro (_ | ⟨⟨_, met⟩, head', tail'⟩)
      cases head.symm.trans head'
      refine ⟨holds start, fun v moved => ?_⟩
      cases head.symm.trans moved
      exact (ih (preserved start allowed met head)).mpr tail'

def Steps (step : σ → α → Option σ) (R : σ → σ → Prop) : σ → List α → Prop
  | _, [] => True
  | s, a :: rest => ∀ u, step s a = some u → R s u ∧ Steps step R u rest

theorem Run.steps {R : σ → σ → Prop}
    (each : ∀ {s a t}, I s → ok s a → step s a = some t → R s t ∧ I t)
    (start : I s) : Steps step R s labels := by
  induction run with
  | nil _ => exact trivial
  | cons meets head _ ih =>
    intro u moved
    cases head.symm.trans moved
    obtain ⟨here, kept⟩ := each start meets head
    exact ⟨here, ih kept⟩

omit run

def Reachable (step : σ → α → Option σ) (init t : σ) : Prop :=
  ∃ labels, Run step Any init labels t

theorem Reachable.invariant {init : σ} (reached : Reachable step init t) (start : I init)
    (preserved : ∀ {s a t}, I s → step s a = some t → I t) : I t := by
  obtain ⟨labels, run⟩ := reached
  exact run.invariant (fun inv _ head => preserved inv head) start

end BotManager.StepRun
