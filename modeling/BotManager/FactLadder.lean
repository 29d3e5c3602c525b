import BotManager.CText
import Mathlib.Algebra.Order.Ring.Unbundled.Rat
import Mathlib.Data.List.Induction

/-! The observations of a dossier fact: `memory_upsert_dossier_fact` of bot/chat/memory.c under
MEM_MERGE_OBSERVE, for the one row of a dossier, a kind and a key. The fragments of memory.h
compare the row that is proposed with the one that is stored. -/

namespace BotManager.FactLadder
open CText List

structure Fact where
  value : Bytes
  source : Bytes
  channel : Bytes
  confidence : ℚ

/-- A row of `dossier_facts`, with the clocks that NOW() sets. -/
structure Row extends Fact where
  observedAt : ℕ
  lastSeen : ℕ

/-- MEM_SRC_RANK. -/
def srcRank (source : Bytes) : ℕ :=
  if source = ascii "admin_seed" then 3 else if source = ascii "user_stated" then 2 else 1

section Statement

variable (row : Row) (excluded : Fact)

/-- MEM_FACT_AFFIRM. -/
def affirm : Bool := excluded.value = row.value

/-- MEM_FACT_REPLACES. -/
def replaces : Bool :=
  !affirm row excluded && (srcRank row.source < srcRank excluded.source ||
    srcRank excluded.source = srcRank row.source && row.confidence ≤ excluded.confidence)

/-- MEM_FACT_UPGRADES. -/
def upgrades : Bool := affirm row excluded && srcRank row.source < srcRank excluded.source

/-- The DO UPDATE of MEM_FACT_OBSERVE_SQL: what its WHERE leaves out is not written. -/
def onConflict (now : ℕ) : Row :=
  if affirm row excluded || replaces row excluded then
    { value := if replaces row excluded then excluded.value else row.value
      source :=
        if replaces row excluded || upgrades row excluded then excluded.source else row.source
      channel :=
        if replaces row excluded || upgrades row excluded then excluded.channel else row.channel
      confidence :=
        if replaces row excluded then excluded.confidence
        else max row.confidence excluded.confidence
      observedAt := now
      lastSeen := now }
  else row

end Statement

/-- A fact without a source counts as one the model extracted. -/
def attributed (fact : Fact) : Fact :=
  { fact with source := if fact.source = [] then ascii "llm_extract" else fact.source }

def upsertDossierFact (now : ℕ) (fact : Fact) : Option Row → Row
  | none => ⟨attributed fact, now, now⟩
  | some row => onConflict row (attributed fact) now

variable {row : Row} {excluded : Fact} {now : ℕ} {o : ℕ × Fact} (history : List (ℕ × Fact))

/-- The row after these observations, each with the time of its statement. -/
def stored : Option Row :=
  history.foldl (fun row o => some (upsertDossierFact o.1 o.2 row)) none

theorem stored_snoc :
    stored (history ++ [o]) = some (upsertDossierFact o.1 o.2 (stored history)) := by
  simp [stored]

theorem srcRank_attributed (fact : Fact) :
    srcRank (attributed fact).source = srcRank fact.source := by
  by_cases none : fact.source = []
  · simp only [attributed, none]
    decide
  · simp [attributed, none]

theorem onConflict_cases (row : Row) (excluded : Fact) (now : ℕ) :
    (srcRank row.source ≤ srcRank excluded.source ∧
      (onConflict row excluded now).source = excluded.source ∧
        (onConflict row excluded now).value = excluded.value) ∨
    (srcRank excluded.source ≤ srcRank row.source ∧
      (onConflict row excluded now).source = row.source ∧
        (onConflict row excluded now).value = row.value) := by
  by_cases same : excluded.value = row.value
  · by_cases higher : srcRank row.source < srcRank excluded.source
    · left
      simp [onConflict, affirm, replaces, upgrades, same, higher, higher.le]
    · right
      simp [onConflict, affirm, replaces, upgrades, same, higher, not_lt.mp higher]
  · by_cases wins : replaces row excluded = true
    · left
      have above := wins
      simp only [replaces, Bool.and_eq_true, Bool.or_eq_true, decide_eq_true_eq] at above
      simp only [onConflict, wins, Bool.or_true, Bool.true_or, if_true, and_self, and_true]
      omega
    · right
      have below := wins
      simp only [replaces, affirm, same, decide_false, Bool.not_false, Bool.true_and,
        Bool.or_eq_true, decide_eq_true_eq, not_or, not_lt] at below
      simp [onConflict, affirm, wins, same, below.1]

/-- The row states what an observation of the highest rank stated. -/
def Best : Option Row → Prop
  | none => history = []
  | some row => (∀ o ∈ history, srcRank o.2.source ≤ srcRank row.source) ∧
      ∃ o ∈ history, srcRank o.2.source = srcRank row.source ∧ o.2.value = row.value

theorem Best.upsert {history : List (ℕ × Fact)} {before : Option Row} (best : Best history before)
    (o : ℕ × Fact) : Best (history ++ [o]) (some (upsertDossierFact o.1 o.2 before)) := by
  have rank := srcRank_attributed o.2
  cases before with
  | none =>
    rw [show history = [] from best]
    have value : (attributed o.2).value = o.2.value := rfl
    simp [Best, upsertDossierFact, rank, value]
  | some row =>
    obtain ⟨top, x, mem, carried⟩ := best
    simp only [Best, upsertDossierFact, forall_mem_append, forall_mem_singleton]
    rcases onConflict_cases row (attributed o.2) o.1 with ⟨above, source, value⟩ | ⟨below, source, value⟩
    · rw [source, value, rank]
      rw [rank] at above
      exact ⟨⟨fun x mem => (top x mem).trans above, le_rfl⟩, o, by simp, rfl, rfl⟩
    · rw [source, value]
      rw [rank] at below
      exact ⟨⟨top, below⟩, x, by simp [mem], carried⟩

theorem stored_best : Best history (stored history) := by
  induction history using reverseRecOn with
  | nil => rfl
  | append_singleton history o ih =>
    rw [stored_snoc]
    exact ih.upsert o

theorem onConflict_rejects
    (lower : srcRank excluded.source < srcRank row.source) (differs : excluded.value ≠ row.value) :
    onConflict row excluded now = row := by
  simp [onConflict, affirm, replaces, differs, lower.le, lower.ne]

theorem onConflict_confidence (fell : (onConflict row excluded now).confidence < row.confidence) :
    (onConflict row excluded now).value ≠ row.value := by
  by_cases replaced : replaces row excluded = true
  · have differs : excluded.value ≠ row.value := by
      simp only [replaces, affirm, Bool.and_eq_true, Bool.not_eq_true', decide_eq_false_iff_not]
        at replaced
      exact replaced.1
    simpa [onConflict, replaced] using differs
  · refine absurd fell (not_lt.mpr ?_)
    unfold onConflict
    split
    · simp
    · exact le_rfl

/-- After every observation the row is the best statement so far; a lower rank changes nothing
of a row that differs, and the confidence falls only with the value. -/
theorem observed_ladder (o : ℕ × Fact) :
    ∃ row, stored (history ++ [o]) = some row ∧ Best (history ++ [o]) (some row) ∧
      ∀ before, stored history = some before →
        (srcRank o.2.source < srcRank before.source → o.2.value ≠ before.value → row = before) ∧
          (row.confidence < before.confidence → row.value ≠ before.value) := by
  refine ⟨_, stored_snoc history, (stored_best history).upsert o, ?_⟩
  intro before found
  rw [found]
  refine ⟨fun lower differs => ?_, onConflict_confidence⟩
  rw [← srcRank_attributed] at lower
  exact onConflict_rejects lower differs

end BotManager.FactLadder
