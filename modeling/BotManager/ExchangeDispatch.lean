import BotManager.ExchangeModel
import Mathlib.Tactic.Linarith
import Mathlib.Tactic.Positivity
import Mathlib.Tactic.Ring

/-! The limiter over whole histories of takes, refunds and penalties, each at the clock reading
it was made at, and the order in which the queue gives its requests out. -/

namespace BotManager.ExchangeDispatch
open ExchangeModel StableInsert

section Bucket

inductive Use
  | take (prio : ℕ)
  | refund
  | penalty (extra : ℚ)
  deriving DecidableEq

def useAt (lim : Limiter) (now : ℕ) : Use → Limiter × Bool
  | .take prio => take lim now prio
  | .refund => (refund lim, false)
  | .penalty extra => (penalty lim extra, false)

def after (lim : Limiter) (uses : List (ℕ × Use)) : Limiter :=
  uses.foldl (fun lim u => (useAt lim u.1 u.2).1) lim

def grants (lim : Limiter) : List (ℕ × Use) → ℕ
  | [] => 0
  | (now, u) :: rest => (useAt lim now u).2.toNat + grants (useAt lim now u).1 rest

def refunds (uses : List (ℕ × Use)) : ℕ := uses.countP (·.2 = .refund)

def earned (lim : Limiter) (ns : ℕ) : ℚ := (ns : ℚ) / 1000000000 * lim.tokensPerSec

structure Bounded (lim : Limiter) : Prop where
  rate : 0 ≤ lim.tokensPerSec
  tokens_nonneg : 0 ≤ lim.tokens
  tokens_le : lim.tokens ≤ lim.tokensCap
  deficit_nonneg : 0 ≤ lim.deficit
  deficit_le : lim.deficit ≤ lim.tokensCap

variable {lim : Limiter} {now m n rps burst : ℕ} {u : ℕ × Use} {uses rest : List (ℕ × Use)}

theorem bounded_init : Bounded (limiterInit rps burst now) := by
  have full : (0 : ℚ) ≤ (limiterInit rps burst now).tokensCap := by
    unfold limiterInit
    dsimp only
    split_ifs <;> positivity
  refine ⟨?_, full, le_rfl, le_rfl, full⟩
  unfold limiterInit
  positivity

theorem earned_nonneg (b : Bounded lim) (ns : ℕ) : 0 ≤ earned lim ns := by
  have := b.rate
  unfold earned
  positivity

theorem earned_add : earned lim (m + n) = earned lim m + earned lim n := by
  unfold earned
  push_cast
  ring

theorem earned_mono (b : Bounded lim) {m n : ℕ} (le : m ≤ n) : earned lim m ≤ earned lim n := by
  obtain ⟨k, rfl⟩ := Nat.exists_eq_add_of_le le
  rw [earned_add]
  linarith [earned_nonneg b k]

def SameLimits (lim lim' : Limiter) : Prop :=
  lim'.tokensCap = lim.tokensCap ∧ lim'.tokensPerSec = lim.tokensPerSec ∧
    lim'.reserved = lim.reserved

theorem SameLimits.earned_eq {lim' : Limiter} (same : SameLimits lim lim') :
    earned lim' = earned lim := by
  funext ns
  rw [earned, earned, same.2.1]

theorem refill_limits (lim : Limiter) (now : ℕ) : SameLimits lim (refill lim now) := by
  unfold refill
  split <;> exact ⟨rfl, rfl, rfl⟩

theorem refill_lastRefill (lim : Limiter) (now : ℕ) :
    (refill lim now).lastRefill = max lim.lastRefill now := by
  unfold refill
  split
  next old => exact (max_eq_left old).symm
  next new => exact (max_eq_right (Nat.le_of_lt (Nat.lt_of_not_le new))).symm

theorem refill_again : refill (refill lim now) now = refill lim now :=
  if_pos (refill_lastRefill lim now ▸ le_max_right ..)

theorem refill_spec (b : Bounded lim) (now : ℕ) :
    Bounded (refill lim now) ∧ lim.tokens ≤ (refill lim now).tokens ∧
      (refill lim now).tokens ≤ lim.tokens + earned lim (now - lim.lastRefill) := by
  have ⟨rate, low, high, paid, owed⟩ := b
  have gain : 0 ≤ earned lim (now - lim.lastRefill) := earned_nonneg b _
  unfold refill
  change 0 ≤ ((now - lim.lastRefill : ℕ) : ℚ) / 1000000000 * lim.tokensPerSec at gain
  unfold earned
  generalize ((now - lim.lastRefill : ℕ) : ℚ) / 1000000000 * lim.tokensPerSec = gained at gain ⊢
  split
  · exact ⟨b, le_rfl, le_add_of_nonneg_right gain⟩
  · dsimp only
    refine ⟨⟨rate, ?_, ?_, ?_, ?_⟩, ?_, ?_⟩ <;> split_ifs <;> linarith

theorem take_cases (lim : Limiter) (now prio : ℕ) :
    (1 + (reservedAbove lim prio : ℚ) ≤ (refill lim now).tokens ∧
      take lim now prio =
        ({ refill lim now with tokens := (refill lim now).tokens - 1 }, true)) ∨
    ((refill lim now).tokens < 1 + (reservedAbove lim prio : ℚ) ∧
      take lim now prio = (refill lim now, false)) := by
  have above : reservedAbove (refill lim now) prio = reservedAbove lim prio := by
    unfold reservedAbove
    rw [(refill_limits lim now).2.2]
  unfold take
  dsimp only
  rw [above]
  by_cases enough : 1 + (reservedAbove lim prio : ℚ) ≤ (refill lim now).tokens
  · exact .inl ⟨enough, if_pos enough⟩
  · exact .inr ⟨lt_of_not_ge enough, if_neg enough⟩

theorem useAt_limits (lim : Limiter) (now : ℕ) (u : Use) :
    SameLimits lim (useAt lim now u).1 := by
  cases u with
  | take prio =>
    rw [useAt]
    rcases take_cases lim now prio with ⟨-, eq⟩ | ⟨-, eq⟩ <;> rw [eq] <;>
      exact refill_limits lim now
  | refund => exact ⟨rfl, rfl, rfl⟩
  | penalty extra =>
    rw [useAt, penalty]
    split_ifs <;> exact ⟨rfl, rfl, rfl⟩

theorem useAt_spec (b : Bounded lim) (now : ℕ) (u : Use) :
    Bounded (useAt lim now u).1 ∧ lim.lastRefill ≤ (useAt lim now u).1.lastRefill ∧
      (useAt lim now u).1.lastRefill ≤ max lim.lastRefill now ∧
      ((useAt lim now u).2.toNat : ℚ) + (useAt lim now u).1.tokens ≤ lim.tokens +
        earned lim ((useAt lim now u).1.lastRefill - lim.lastRefill) + refunds [(now, u)] := by
  have none : earned lim (lim.lastRefill - lim.lastRefill) = 0 := by simp [earned]
  have ⟨rate, low, high, paid, owed⟩ := b
  cases u with
  | take prio =>
    obtain ⟨b', -, gain⟩ := refill_spec b now
    have stamp := refill_lastRefill lim now
    have since : (refill lim now).lastRefill - lim.lastRefill = now - lim.lastRefill := by omega
    have count : refunds [(now, .take prio)] = 0 := rfl
    rw [useAt]
    rcases take_cases lim now prio with ⟨enough, eq⟩ | ⟨-, eq⟩ <;> rw [eq]
    · have some : (0 : ℚ) ≤ reservedAbove lim prio := by positivity
      have ⟨rate', low', high', paid', owed'⟩ := b'
      refine ⟨⟨rate', ?_, ?_, paid', owed'⟩, stamp ▸ le_max_left .., stamp.le, ?_⟩
      · dsimp only
        linarith
      · dsimp only
        linarith
      · simp only [since, count, Bool.toNat_true]
        push_cast
        linarith
    · refine ⟨b', stamp ▸ le_max_left .., stamp.le, ?_⟩
      simp only [since, count, Bool.toNat_false]
      push_cast
      linarith
  | refund =>
    have count : refunds [(now, .refund)] = 1 := rfl
    refine ⟨⟨rate, ?_, ?_, paid, owed⟩, le_rfl, le_max_left .., ?_⟩
    all_goals
      simp only [useAt, refund, none, count, Bool.toNat_false]
      split_ifs <;> push_cast <;> linarith
  | penalty extra =>
    have count : refunds [(now, .penalty extra)] = 0 := rfl
    rw [useAt]
    unfold penalty
    simp only [count, Bool.toNat_false]
    split_ifs with free covers beyond
    · refine ⟨b, le_rfl, le_max_left .., ?_⟩
      rw [none]
      simp
    · refine ⟨⟨rate, ?_, ?_, paid, owed⟩, le_rfl, le_max_left .., ?_⟩
      all_goals
        simp only [none]
        push_cast
        linarith
    all_goals
      refine ⟨⟨rate, le_rfl, ?_, ?_, ?_⟩, le_rfl, le_max_left .., ?_⟩
      all_goals
        simp only [none]
        push_cast
        linarith

theorem after_bounded (b : Bounded lim) : Bounded (after lim uses) := by
  induction uses generalizing lim with
  | nil => exact b
  | cons u rest ih => exact ih (useAt_spec b u.1 u.2).1

theorem refunds_cons : refunds (u :: rest) = refunds [u] + refunds rest := by
  unfold refunds
  rw [← List.countP_append, List.singleton_append]

theorem grants_le (b : Bounded lim) {stop : ℕ}
    (within : ∀ u ∈ uses, u.1 ≤ stop) :
    (grants lim uses : ℚ) ≤ lim.tokens + earned lim (stop - lim.lastRefill) + refunds uses := by
  induction uses generalizing lim with
  | nil =>
    have := b.tokens_nonneg
    have := earned_nonneg b (stop - lim.lastRefill)
    simp only [grants, refunds, List.countP_nil]
    push_cast
    linarith
  | cons u rest ih =>
    obtain ⟨now, u⟩ := u
    obtain ⟨b', since, upTo, spent⟩ := useAt_spec b now u
    have later := ih b' fun v mem => within v (.tail _ mem)
    have inside : now ≤ stop := within (now, u) (.head _)
    have time : (useAt lim now u).1.lastRefill - lim.lastRefill +
        (stop - (useAt lim now u).1.lastRefill) = stop - lim.lastRefill := by omega
    rw [(useAt_limits lim now u).earned_eq] at later
    rw [grants, refunds_cons, ← time, earned_add]
    push_cast
    linarith

theorem grants_window_le (b : Bounded lim) {opens d : ℕ}
    (within : ∀ u ∈ uses, opens ≤ u.1 ∧ u.1 ≤ opens + d) :
    (grants lim uses : ℚ) ≤ lim.tokensCap + earned lim d + refunds uses := by
  induction uses generalizing lim with
  | nil =>
    have := b.tokens_nonneg.trans b.tokens_le
    have := earned_nonneg b d
    simp only [grants, refunds, List.countP_nil]
    push_cast
    linarith
  | cons u rest ih =>
    obtain ⟨now, u⟩ := u
    have later := ih (useAt_spec b now u).1 fun v mem => within v (.tail _ mem)
    have limits := useAt_limits lim now u
    have more : (0 : ℚ) ≤ refunds [(now, u)] := by positivity
    rw [limits.1, limits.earned_eq] at later
    cases u with
    | take prio =>
      obtain ⟨b', -, -⟩ := refill_spec b now
      have limits := refill_limits lim now
      have same : grants lim ((now, .take prio) :: rest) =
          grants (refill lim now) ((now, .take prio) :: rest) := by
        rw [grants, grants, useAt, useAt, take, take, refill_again]
      have bound := grants_le b' fun v mem => (within v mem).2
      have opened : opens ≤ (refill lim now).lastRefill :=
        (within _ (.head _)).1.trans (refill_lastRefill lim now ▸ le_max_right ..)
      have time : earned lim (opens + d - (refill lim now).lastRefill) ≤ earned lim d :=
        earned_mono b (by omega)
      have full := b'.tokens_le
      rw [limits.1] at full
      rw [limits.earned_eq] at bound
      rw [same]
      linarith
    | refund | penalty _ =>
      rw [grants, refunds_cons]
      simp only [useAt, Bool.toNat_false] at later ⊢
      push_cast
      linarith

def Minor : Use → Prop
  | .take prio => 0 < prio
  | .refund => True
  | .penalty _ => False

theorem one_le_reservedAbove (kept : lim.reserved = [1, 0, 0]) {prio : ℕ} (low : 0 < prio) :
    (1 : ℚ) ≤ reservedAbove lim prio := by
  have tier : prioTier prio = 1 ∨ prioTier prio = 2 := by
    unfold prioTier
    rw [if_neg (by omega)]
    split
    · exact .inl rfl
    · exact .inr rfl
  unfold reservedAbove
  rcases tier with tier | tier <;> rw [tier, kept] <;> decide

theorem useAt_keeps_one (b : Bounded lim) (kept : lim.reserved = [1, 0, 0])
    (one : 1 ≤ lim.tokens) {u : Use} (minor : Minor u) :
    1 ≤ (useAt lim now u).1.tokens := by
  cases u with
  | take prio =>
    have held := one_le_reservedAbove kept minor
    have more := (refill_spec b now).2.1
    rw [useAt]
    rcases take_cases lim now prio with ⟨enough, eq⟩ | ⟨-, eq⟩ <;> rw [eq] <;> dsimp only <;>
      linarith
  | refund =>
    have := b.tokens_le
    simp only [useAt, refund]
    split_ifs <;> linarith
  | penalty extra => exact minor.elim

theorem transactional_take (b : Bounded lim) (kept : lim.reserved = [1, 0, 0])
    (one : 1 ≤ lim.tokens) (minor : ∀ u ∈ uses, Minor u.2) :
    (take (after lim uses) now 0).2 = true := by
  induction uses generalizing lim with
  | nil =>
    have more := (refill_spec b now).2.1
    rcases take_cases lim now 0 with ⟨-, eq⟩ | ⟨short, -⟩
    · exact congrArg Prod.snd eq
    · have free : reservedAbove lim 0 = 0 := rfl
      rw [free] at short
      push_cast at short
      linarith
  | cons u rest ih =>
    exact ih (useAt_spec b u.1 u.2).1 ((useAt_limits lim u.1 u.2).2.2.trans kept)
      (useAt_keeps_one b kept one (minor u (.head _))) fun v mem => minor v (.tail _ mem)

theorem after_reserved (lim : Limiter) : (after lim uses).reserved = lim.reserved := by
  induction uses generalizing lim with
  | nil => rfl
  | cons u rest ih => exact (ih _).trans (useAt_limits lim u.1 u.2).2.2

/-- The bucket stays within its bounds, no window grants more than a full bucket, its rate and
the refunds allow, and traffic of the lower tiers always leaves a transactional take its token. -/
theorem bucket_history (rps burst start : ℕ) (uses : List (ℕ × Use)) :
    let lim := after (limiterInit rps burst start) uses
    (0 ≤ lim.tokens ∧ lim.tokens ≤ lim.tokensCap ∧ 0 ≤ lim.deficit ∧
        lim.deficit ≤ lim.tokensCap) ∧
      (∀ (opens d : ℕ) (window : List (ℕ × Use)), (∀ u ∈ window, opens ≤ u.1 ∧ u.1 ≤ opens + d) →
        (grants lim window : ℚ) ≤
          lim.tokensCap + lim.tokensPerSec * ((d : ℚ) / 1000000000) + refunds window) ∧
      (1 ≤ lim.tokens → ∀ lower, (∀ u ∈ lower, Minor u.2) → ∀ now,
        (take (after lim lower) now 0).2 = true) := by
  intro lim
  have b : Bounded lim := after_bounded bounded_init
  refine ⟨⟨b.tokens_nonneg, b.tokens_le, b.deficit_nonneg, b.deficit_le⟩, ?_, ?_⟩
  · intro opens d window within
    have bound := grants_window_le b within
    rw [earned, mul_comm] at bound
    exact bound
  · intro one lower minor now
    exact transactional_take b (after_reserved _) one minor

end Bucket

section Order

variable {e : Exch} {lim lim' : Limiter} {now : ℕ} {queue rest : List Req} {r : Req}

theorem queue_ordered (empty : e.queue = []) (rs : List Req) :
    (rs.foldl push e).queue.Pairwise (fun x y => x.prio ≤ y.prio) ∧
      ∀ prio, (rs.foldl push e).queue.filter (·.prio = prio) = rs.filter (·.prio = prio) := by
  induction rs using List.reverseRecOn with
  | nil => simp [empty]
  | append_singleton rs r ih =>
    rw [List.foldl_append]
    refine ⟨insertBy_sorted ih.1, fun prio => ?_⟩
    rw [List.filter_append, ← ih.2 prio]
    exact filter_insertBy ih.1

theorem queue_perm (empty : e.queue = []) (rs : List Req) : (rs.foldl push e).queue.Perm rs := by
  induction rs using List.reverseRecOn with
  | nil => simp [empty]
  | append_singleton rs r ih =>
    rw [List.foldl_append]
    exact (insertBy_perm ..).trans ((ih.cons r).trans (List.perm_append_singleton r rs).symm)

theorem reservedAbove_mono {p q : ℕ} (le : p ≤ q) : reservedAbove lim p ≤ reservedAbove lim q := by
  have tier : prioTier p ≤ prioTier q := by
    unfold prioTier
    split_ifs <;> omega
  have part : lim.reserved.take (prioTier p) =
      (lim.reserved.take (prioTier q)).take (prioTier p) := by
    rw [List.take_take, min_eq_left tier]
  rw [reservedAbove, reservedAbove, part]
  exact (List.take_sublist _ _).sum_le_sum fun _ _ => Nat.zero_le _

/-- What a request needs is in the bucket at this reading of the clock. -/
def Affords (lim : Limiter) (now : ℕ) (r : Req) : Prop :=
  1 + (reservedAbove lim r.prio : ℚ) ≤ (refill lim now).tokens

/-- Some request of the queue finds its tokens at its own reading of the clock. -/
def Served : Limiter → (ℕ → ℕ) → List Req → Prop
  | _, _, [] => False
  | lim, clock, r :: rest =>
    Affords lim (clock 0) r ∨ Served (refill lim (clock 0)) (fun n => clock (n + 1)) rest

/-- Where a request of the queue finds its tokens, the first finds them at the first reading. -/
def HeadFirst (lim : Limiter) (clock : ℕ → ℕ) (queue : List Req) : Prop :=
  ∀ r ∈ queue.head?, Served lim clock queue → Affords lim (clock 0) r

theorem popWalk_head {clock : ℕ → ℕ} (affords : Affords lim (clock 0) r) (rest : List Req) :
    ∃ lim', popWalk lim clock (r :: rest) = (lim', some (r, rest)) := by
  rcases take_cases lim (clock 0) r.prio with ⟨-, eq⟩ | ⟨short, -⟩
  · exact ⟨_, by rw [popWalk, eq]⟩
  · exact absurd affords (not_le.mpr short)

theorem popWalk_later {clock : ℕ → ℕ} (short : ¬ Affords lim (clock 0) r) :
    (popWalk lim clock (r :: rest)).2 =
      (popWalk (refill lim (clock 0)) (fun n => clock (n + 1)) rest).2.map
        fun found => (found.1, r :: found.2) := by
  rcases take_cases lim (clock 0) r.prio with ⟨enough, -⟩ | ⟨-, eq⟩
  · exact absurd enough short
  · rw [popWalk, eq]
    dsimp only
    rcases popWalk (refill lim (clock 0)) (fun n => clock (n + 1)) rest with ⟨lim', _ | found⟩
    · rfl
    · rfl

theorem served_iff {clock : ℕ → ℕ} :
    Served lim clock queue ↔ (popWalk lim clock queue).2.isSome = true := by
  induction queue generalizing lim clock with
  | nil => simp [Served, popWalk]
  | cons r rest ih =>
    by_cases affords : Affords lim (clock 0) r
    · obtain ⟨lim', eq⟩ := popWalk_head affords rest
      exact iff_of_true (.inl affords) (by rw [eq]; rfl)
    · rw [Served, or_iff_right affords, ih, popWalk_later affords, Option.isSome_map]

theorem mem_of_popWalk {clock : ℕ → ℕ} (found : (popWalk lim clock queue).2 = some (r, rest)) :
    r ∈ queue := by
  induction queue generalizing lim clock rest with
  | nil => cases found
  | cons x xs ih =>
    by_cases affords : Affords lim (clock 0) x
    · obtain ⟨lim', eq⟩ := popWalk_head affords xs
      rw [eq] at found
      cases found
      exact List.mem_cons_self
    · rw [popWalk_later affords] at found
      obtain ⟨⟨y, others⟩, below, same⟩ := Option.map_eq_some_iff.mp found
      cases same
      exact .tail _ (ih below)

/-- The request that a scan gives out leaves none behind that is ahead of it and needs no more. -/
def InOrder (lim : Limiter) (queue : List Req) (r : Req) (rest : List Req) : Prop :=
  ∃ before behind, queue = before ++ r :: behind ∧ rest = before ++ behind ∧
    ∀ x ∈ before, ¬ reservedAbove lim x.prio ≤ reservedAbove lim r.prio

theorem popWalk_inOrder_iff (lim : Limiter) (clock : ℕ → ℕ)
    (sorted : queue.Pairwise fun x y => x.prio ≤ y.prio) (distinct : queue.Nodup) :
    (∀ r rest, (popWalk lim clock queue).2 = some (r, rest) → InOrder lim queue r rest) ↔
      HeadFirst lim clock queue := by
  cases queue with
  | nil => simp [popWalk, HeadFirst]
  | cons first queue =>
    have behind := (List.pairwise_cons.mp sorted).1
    have once := (List.nodup_cons.mp distinct).1
    by_cases affords : Affords lim (clock 0) first
    · obtain ⟨lim', eq⟩ := popWalk_head affords queue
      refine iff_of_true ?_ ?_
      · intro r rest found
        rw [eq] at found
        cases found
        exact ⟨[], queue, rfl, rfl, by simp⟩
      · rintro r ⟨⟩ -
        exact affords
    · constructor
      · rintro inOrder r ⟨⟩ served
        -- Another request is given out, and it needs no less than the first.
        obtain ⟨⟨r, rest⟩, found⟩ := Option.isSome_iff_exists.mp (served_iff.mp served)
        have later := found
        rw [popWalk_later affords] at later
        obtain ⟨⟨r, others⟩, below, same⟩ := Option.map_eq_some_iff.mp later
        cases same
        have mem := mem_of_popWalk below
        obtain ⟨before, rest, split, -, needs⟩ := inOrder _ _ found
        cases before with
        | nil =>
          obtain ⟨rfl, -⟩ := List.cons.inj split
          exact absurd mem once
        | cons x before =>
          obtain ⟨rfl, -⟩ := List.cons.inj split
          exact absurd (reservedAbove_mono (behind r mem)) (needs first List.mem_cons_self)
      · intro headFirst r rest found
        have served := served_iff.mpr (by rw [found]; rfl)
        exact absurd (headFirst first rfl served) affords

/-- The breaker refuses every request at this reading of the clock. -/
def Tripped (e : Exch) (clock : ℕ → ℕ) : Prop :=
  0 < e.breakerTrippedUntilMs ∧ nowMs (clock 0) < e.breakerTrippedUntilMs

theorem popEligible_some {e : Exch} {clock : ℕ → ℕ} :
    (∃ e', popEligible e clock = (e', some r) ∧ e'.queue = rest) ↔ ¬ Tripped e clock ∧
      (popWalk e.limiter (fun n => clock (n + 1)) e.queue).2 = some (r, rest) := by
  unfold popEligible Tripped
  split_ifs with tripped
  · simp [tripped]
  · rcases popWalk e.limiter (fun n => clock (n + 1)) e.queue with ⟨lim, _ | ⟨x, others⟩⟩
    · simp [tripped]
    · simp [tripped]

/-- The queue is in order of priority and arrival. A scan keeps to this order exactly if the
first request finds its tokens wherever one finds them, or the breaker is open. -/
theorem dispatch_in_order_iff (e : Exch) (rs : List Req) (clock : ℕ → ℕ) (empty : e.queue = [])
    (distinct : rs.Nodup) :
    let queued := rs.foldl push e
    queued.queue.Pairwise (fun x y => x.prio ≤ y.prio) ∧
      (∀ prio, queued.queue.filter (·.prio = prio) = rs.filter (·.prio = prio)) ∧
      ((∀ e' r, popEligible queued clock = (e', some r) →
          InOrder queued.limiter queued.queue r e'.queue) ↔
        Tripped queued clock ∨
          HeadFirst queued.limiter (fun n => clock (n + 1)) queued.queue) := by
  intro queued
  obtain ⟨sorted, arrival⟩ := queue_ordered empty rs
  refine ⟨sorted, arrival, ?_⟩
  have walk := popWalk_inOrder_iff queued.limiter (fun n => clock (n + 1)) sorted
    ((queue_perm empty rs).nodup_iff.mpr distinct)
  by_cases tripped : Tripped queued clock
  · refine iff_of_true (fun e' r popped => ?_) (.inl tripped)
    exact absurd tripped (popEligible_some.mp ⟨e', popped, rfl⟩).1
  · rw [or_iff_right tripped, ← walk]
    constructor
    · intro inOrder r rest found
      obtain ⟨e', popped, rfl⟩ := popEligible_some.mpr ⟨tripped, found⟩
      exact inOrder e' r popped
    · intro inOrder e' r popped
      exact inOrder r e'.queue (popEligible_some.mp ⟨e', popped, rfl⟩).2

def halfToken : Exch :=
  { fresh ⟨true, true, 1, 1⟩ 0 with limiter := { limiterInit 1 1 0 with tokens := 1 / 2 } }

def firstReq : Req := ⟨0, 0, 0, 0⟩

def secondReq : Req := ⟨1, 0, 0, 0⟩

def oneToken : Exch := fresh ⟨true, true, 1, 1⟩ 0

theorem dispatch_in_order_two :
    InOrder oneToken.limiter [firstReq, secondReq] firstReq [secondReq] := by
  have exactly := (dispatch_in_order_iff oneToken [firstReq, secondReq] (· * 1000000000) rfl
    (by decide)).2.2
  have affords : Affords oneToken.limiter 1000000000 firstReq := by
    unfold Affords
    decide +kernel
  have first : HeadFirst oneToken.limiter (fun n => (n + 1) * 1000000000)
      [firstReq, secondReq] := by
    rintro r ⟨⟩ -
    exact affords
  obtain ⟨e', popped, left⟩ : ∃ e', popEligible ([firstReq, secondReq].foldl push oneToken)
      (· * 1000000000) = (e', some firstReq) ∧ e'.queue = [secondReq] :=
    ⟨_, Prod.ext rfl (by decide +kernel), by decide +kernel⟩
  have inOrder := exactly.mpr (.inr first) e' firstReq popped
  rw [left] at inOrder
  exact inOrder

/-- The first request is refused, the second passes a second later, in the same scan. -/
theorem second_overtakes_first :
    let clock : ℕ → ℕ := fun n => if n ≤ 1 then 0 else 2000000000
    (∀ n, clock n ≤ clock (n + 1)) ∧
      (popEligible ([firstReq, secondReq].foldl push halfToken) clock).2 = some secondReq ∧
      (popEligible ([firstReq, secondReq].foldl push halfToken) clock).1.queue =
        [firstReq] := by
  refine ⟨fun n => ?_, by decide +kernel, by decide +kernel⟩
  dsimp only
  split_ifs <;> omega

end Order
end BotManager.ExchangeDispatch
