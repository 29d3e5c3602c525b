import Mathlib.Algebra.GroupWithZero.Nat
import Mathlib.Data.List.Perm.Basic

/-! A pool of threads, each the list of the frames it still has to run, the one on top first.
A turn takes the top frame of a thread and puts the frames it calls in its place; what is
counted or collected over all frames then changes by those alone. -/

namespace BotManager.FramePool

open List

variable {F : Type*}

def top (pool : List (List F)) (i : ℕ) : Option (F × List F) :=
  (pool[i]?).bind fun
    | [] => none
    | f :: rest => some (f, rest)

variable {f : F} {i : ℕ} {pool : List (List F)} {rest frames : List F}

theorem exists_top (some : pool.flatten ≠ []) : ∃ i f rest, top pool i = .some (f, rest) := by
  induction pool with
  | nil => exact absurd rfl some
  | cons frames pool ih =>
    cases frames with
    | nil =>
      obtain ⟨i, f, rest, found⟩ := ih some
      exact ⟨i + 1, f, rest, found⟩
    | cons f rest => exact ⟨0, f, rest, rfl⟩

section Turn

variable (found : top pool i = some (f, rest))
include found

theorem flatten_turn :
    ∃ before after, pool.flatten = before ++ f :: after ∧
      ∀ calls, (pool.set i (calls ++ rest)).flatten = before ++ (calls ++ after) := by
  induction pool generalizing i with
  | nil => cases found
  | cons frames pool ih =>
    cases i with
    | zero =>
      cases frames with
      | nil => cases found
      | cons g others =>
        obtain ⟨rfl, rfl⟩ := Prod.mk.inj (Option.some.inj found)
        refine ⟨[], others ++ pool.flatten, rfl, fun calls => ?_⟩
        rw [set_cons_zero, flatten_cons, nil_append, append_assoc]
    | succ i =>
      obtain ⟨before, after, split, turned⟩ := ih found
      refine ⟨frames ++ before, after, ?_, fun calls => ?_⟩
      · rw [flatten_cons, split, append_assoc]
      · rw [set_cons_succ, flatten_cons, turned, append_assoc]

theorem sum_turn (weight : F → ℕ) (calls : List F) :
    ((pool.set i (calls ++ rest)).flatten.map weight).sum + weight f =
      (pool.flatten.map weight).sum + (calls.map weight).sum := by
  obtain ⟨before, after, split, turned⟩ := flatten_turn found
  rw [turned, split]
  simp only [map_append, map_cons, sum_append, sum_cons]
  omega

theorem top_mem : f ∈ pool.flatten := by
  obtain ⟨before, after, split, -⟩ := flatten_turn found
  simp [split]

theorem mem_of_turn {g : F} {calls : List F} (mem : g ∈ (pool.set i (calls ++ rest)).flatten) :
    g ∈ calls ∨ g ∈ pool.flatten := by
  obtain ⟨before, after, split, turned⟩ := flatten_turn found
  rw [turned] at mem
  rw [split]
  simp only [mem_append, mem_cons] at mem ⊢
  tauto

theorem turn_perm :
    pool.flatten.Perm (f :: (pool.set i rest).flatten) ∧
      ∀ calls, (pool.set i (calls ++ rest)).flatten.Perm (calls ++ (pool.set i rest).flatten) := by
  obtain ⟨before, after, split, turned⟩ := flatten_turn found
  have others : (pool.set i rest).flatten = before ++ after := turned []
  refine ⟨?_, fun calls => ?_⟩
  · rw [split, others]
    exact perm_middle
  · rw [turned, others]
    exact perm_append_comm_assoc before calls after

end Turn

theorem flatten_spawn (pool : List (List F)) (frames : List F) :
    (pool ++ [frames]).flatten = pool.flatten ++ frames := by
  rw [flatten_append, flatten_cons, flatten_nil, append_nil]

theorem flatten_start (idle : pool.head? = some []) (frames : List F) :
    (pool.set 0 frames).flatten = frames ++ pool.flatten := by
  cases pool with
  | nil => cases idle
  | cons first others =>
    cases idle
    rfl

/-! Weights of frames, summed. -/

def weigh (weight : F → ℕ) (frames : List F) : ℕ := (frames.map weight).sum

variable (weight : F → ℕ)

@[simp] theorem weigh_nil : weigh weight [] = 0 := rfl

@[simp] theorem weigh_cons (f : F) (frames : List F) :
    weigh weight (f :: frames) = weight f + weigh weight frames := by
  rw [weigh, weigh, map_cons, sum_cons]

@[simp] theorem weigh_append (front frames : List F) :
    weigh weight (front ++ frames) = weigh weight front + weigh weight frames := by
  rw [weigh, weigh, weigh, map_append, sum_append]

theorem weigh_perm {others : List F} (same : frames.Perm others) :
    weigh weight frames = weigh weight others := by
  induction same with
  | nil => rfl
  | cons f _ ih => rw [weigh_cons, weigh_cons, ih]
  | swap f g frames =>
    simp only [weigh_cons]
    omega
  | trans _ _ first second => rw [first, second]

theorem weigh_eq_zero {weight : F → ℕ} : weigh weight frames = 0 ↔ ∀ f ∈ frames, weight f = 0 := by
  induction frames with
  | nil => simp
  | cons f frames ih => rw [weigh_cons, Nat.add_eq_zero_iff, ih, forall_mem_cons]

theorem le_weigh (mem : f ∈ frames) : weight f ≤ weigh weight frames := by
  induction mem with
  | head frames | tail g _ ih =>
    rw [weigh_cons]
    omega

end BotManager.FramePool
