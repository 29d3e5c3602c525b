import BotManager.EmbedModel
import Mathlib.Data.List.Count

/-!
Where the chunks of an embedding batch are.

While every flush hands its texts over before the callback of its request runs, the text of a
chunk is in one place: the batch, the context of a request, or a singles task, until it is freed,
and it is freed in the turn in which its chunk is written or reported. The other conditions are
on the environment: a model was resolved, the submit call of a flush is accepted, and the
database takes the rows.
-/

namespace BotManager.EmbedAccount
open List FramePool StepRun EmbedModel

variable {s t : Sys} {ctx : Ctx} {p : Ctx → Bool} {k : ℕ}
    {after : After} {accepted : Bool} {resp : Response}

/-! Lists of chunks with their texts. -/

variable (chunks : List ℕ)

theorem count_map_some : (chunks.map some).count (some k) = chunks.count k :=
  count_map_of_injective chunks some (fun _ _ same => Option.some.inj same) k

theorem count_map_item : (chunks.map fun k => (k, some k)).count (k, some k) = chunks.count k :=
  count_map_of_injective chunks (fun k => (k, some k)) (fun _ _ same => congrArg Prod.fst same) k

theorem filterMap_map_some : (chunks.map some).filterMap id = chunks := by
  rw [filterMap_map]
  exact filterMap_some

/-! One turn of the callback, on a context that has its texts. -/

structure Served (ctx : Ctx) (s t : Sys) (written reported kept : List ℕ) : Prop where
  state : ∃ spawned, spawned.flatten = kept.map (fun k => (k, some k)) ∧
    t = { s with
      freed := s.freed ++ (written ++ reported), written := s.written ++ written
      reported := s.reported ++ reported, tasks := s.tasks ++ spawned }
  chunks : ctx.chunks = written ++ reported ++ kept
  retries : kept = [] ∨ ctx.retryOnFail = true

theorem doneCb_full (full : ctx.texts = ctx.chunks.map some) (taken : resp.refused = []) :
    ∃ written reported kept, Served ctx s (doneCb ctx resp s) written reported kept := by
  have unrefused (chunks : List ℕ) :
      (chunks.filter fun k => !resp.refused.contains k) = chunks := by
    rw [taken]
    exact filter_eq_self.mpr fun _ _ => rfl
  have owned (chunks : List ℕ) (s : Sys) :
      resultFree (chunks.map some) s = { s with freed := s.freed ++ chunks } := by
    rw [resultFree, filterMap_map_some]
  simp only [doneCb, unrefused, full, owned, ← map_prod_left_eq_zip, ← map_take, ← map_drop]
  generalize min resp.vectors ctx.chunks.length = count
  have parts := take_append_drop count ctx.chunks
  split
  next =>
    split
    next short =>
      split
      next retry =>
        refine ⟨ctx.chunks.take count, [], ctx.chunks.drop count,
          ⟨[_], flatten_singleton, ?_⟩, ?_, .inr retry⟩
        · simp only [append_nil]
        · rw [append_nil, parts]
      next =>
        refine ⟨ctx.chunks.take count, ctx.chunks.drop count, [], ⟨[], rfl, ?_⟩, ?_, .inl rfl⟩
        · rw [append_nil, parts]
        · rw [append_nil, parts]
    next all =>
      refine ⟨ctx.chunks, [], [], ⟨[], rfl, ?_⟩, ?_, .inl rfl⟩
      · simp only [take_of_length_le (Nat.not_lt.mp all), append_nil]
      · simp only [append_nil]
  next =>
    split
    next retry =>
      refine ⟨[], [], ctx.chunks, ⟨[_], flatten_singleton, ?_⟩, rfl,
        .inr (Bool.and_eq_true_iff.mp retry).1⟩
      simp only [append_nil]
    next =>
      refine ⟨[], ctx.chunks, [], ⟨[], rfl, ?_⟩, ?_, .inl rfl⟩
      · simp only [append_nil, nil_append]
      · rw [append_nil, nil_append]

/-! The invariant. -/

/-- The conditions on a turn: a model was resolved, the submit call of a flush is accepted, and
a callback finds the database willing and its context handed over. -/
def Careful (s : Sys) : Op → Prop
  | .add _ => s.model = true
  | .ingest accepted => s.phase.flushing = true → s.pending ≠ [] → accepted = true
  | .complete _ resp => resp.refused = []
  | .early _ => False
  | .free | .single _ _ => True

instance (s : Sys) (op : Op) : Decidable (Careful s op) := by
  unfold Careful
  split <;> infer_instance

def inHand (p : Ctx → Bool) (s : Sys) (k : ℕ) : ℕ :=
  s.pending.count k + weigh (fun ctx => if p ctx then ctx.texts.count (some k) else 0) s.requests +
    s.tasks.flatten.count (k, some k)

def one (s : Sys) (k : ℕ) : ℕ := if k < s.added then 1 else 0

def InStep (s : Sys) : Prop :=
  match s.phase with
  | .handOver _ => s.served =
      some ⟨s.pending, s.pending.map fun _ => none, decide (1 < s.pending.length)⟩
  | .finish .drop => s.served = none ∧ s.pending = []
  | _ => s.served = none

structure Inv (s : Sys) : Prop where
  untouched : s.touched = 0
  going : s.aborted = false
  inStep : InStep s
  full : ∀ ctx ∈ s.requests, ctx.texts = ctx.chunks.map some
  items : ∀ item ∈ s.tasks.flatten, item.2 = some item.1
  texts : ∀ k, inHand (fun _ => true) s k + s.freed.count k = one s k
  fates : ∀ k, s.freed.count k = s.written.count k + s.reported.count k
  /-- what was submitted alone is in no place from which it could be submitted alone again -/
  alone : ∀ k, inHand Ctx.retryOnFail s k + s.alone.count k ≤ one s k

theorem Inv.created (model : Bool) (maxFill : ℕ) : Inv (created model maxFill) where
  untouched := rfl
  going := rfl
  inStep := rfl
  full _ held := nomatch held
  items _ held := nomatch held
  texts _ := rfl
  fates _ := rfl
  alone _ := Nat.le_refl 0

theorem inHand_append :
    inHand p (finish .append s) k = inHand p s k + if s.added = k then 1 else 0 := by
  simp only [inHand, finish, count_append, count_singleton, beq_iff_eq]
  omega

theorem one_append : one (finish .append s) k = one s k + if s.added = k then 1 else 0 := by
  simp only [one, finish]
  grind

variable {task : ℕ} {written reported kept : List ℕ} {rest : List (ℕ × Option ℕ)} {op : Op}

theorem count_turn (found : top s.tasks task = some ((k, some k), rest)) (j : ℕ) :
    (s.tasks.set task rest).flatten.count (j, some j) + [k].count j =
      s.tasks.flatten.count (j, some j) := by
  have turn := (turn_perm found).1.count_eq (j, some j)
  have item : [(k, some k)].count (j, some j) = [k].count j := count_map_item [k]
  change _ = ([(k, some k)] ++ (s.tasks.set task rest).flatten).count (j, some j) at turn
  rw [count_append, item] at turn
  omega

variable (inv : Inv s)
include inv

theorem Inv.move (touched : t.touched = s.touched) (aborted : t.aborted = s.aborted)
    (inStep : InStep t) (full : ∀ ctx ∈ t.requests, ctx.texts = ctx.chunks.map some)
    (items : ∀ item ∈ t.tasks.flatten, item.2 = some item.1)
    (counts : ∀ k, inHand (fun _ => true) t k + t.freed.count k + one s k =
        inHand (fun _ => true) s k + s.freed.count k + one t k ∧
      t.freed.count k + s.written.count k + s.reported.count k =
        s.freed.count k + t.written.count k + t.reported.count k ∧
      inHand Ctx.retryOnFail t k + t.alone.count k + one s k ≤
        inHand Ctx.retryOnFail s k + s.alone.count k + one t k) : Inv t := by
  refine ⟨touched.trans inv.untouched, aborted.trans inv.going, inStep, full, items,
    fun k => ?_, fun k => ?_, fun k => ?_⟩
  all_goals
    have counts := counts k
    have texts := inv.texts k
    have fates := inv.fates k
    have alone := inv.alone k
    omega

theorem Inv.rephase {phase : Phase} {served : Option Ctx}
    (inStep : InStep { s with phase := phase, served := served }) :
    Inv { s with phase := phase, served := served } :=
  { inv with inStep := inStep }

theorem Inv.unserved (other : ∀ after, s.phase ≠ .handOver after) :
    s.served = none := by
  have inStep := inv.inStep
  rw [InStep] at inStep
  split at inStep
  next after same => exact absurd same (other after)
  next => exact inStep.1
  next => exact inStep

theorem Inv.add (idle : s.phase = .idle) (model : s.model = true) (empty : Bool) :
    Inv (batchAdd empty s) := by
  have unserved := inv.unserved (by rw [idle]; exact nofun)
  have resolved : ¬ (!s.model) = true := by rw [model]; decide
  have going : ¬ s.aborted = true := by rw [inv.going]; decide
  rw [batchAdd, if_neg resolved, if_neg going]
  split
  next => exact inv
  next =>
    refine inv.rephase ?_
    split <;> exact unserved

theorem Inv.free (idle : s.phase = .idle) : Inv (batchFree s) := by
  have going : ¬ s.aborted = true := by rw [inv.going]; decide
  rw [batchFree, if_neg going]
  exact inv.rephase (inv.unserved (by rw [idle]; exact nofun))

theorem Inv.flush (phase : s.phase = .flush after)
    (careful : s.pending ≠ [] → accepted = true) : Inv (batchFlush accepted after s) := by
  rw [batchFlush]
  split
  next empty =>
    have unserved := inv.unserved (by rw [phase]; exact nofun)
    refine inv.rephase ?_
    cases after with
    | append => exact unserved
    | drop => exact ⟨unserved, empty⟩
  next more =>
    rw [careful more, if_pos rfl]
    exact inv.rephase rfl

theorem Inv.finish (phase : s.phase = .finish after) : Inv (finish after s) := by
  have unserved := inv.unserved (by rw [phase]; exact nofun)
  cases after with
  | append =>
    refine inv.move rfl rfl unserved inv.full inv.items fun k => ?_
    rw [inHand_append, inHand_append, one_append]
    simp only [finish, true_and]
    omega
  | drop =>
    have inStep := inv.inStep
    rw [InStep, phase] at inStep
    have same : finish .drop s = { s with phase := .idle } := by
      simp only [finish, inStep.2, append_nil]
    rw [same]
    exact inv.rephase unserved

theorem Inv.handOver (phase : s.phase = .handOver after) : Inv (handOver after s) := by
  have inStep := inv.inStep
  rw [InStep, phase] at inStep
  simp only [EmbedModel.handOver, inStep]
  refine inv.move rfl rfl ?_ (forall_mem_cons.mpr ⟨rfl, inv.full⟩) inv.items fun k => ?_
  · cases after with
    | append => rfl
    | drop => exact ⟨rfl, rfl⟩
  · simp only [inHand, one, weigh_cons, count_map_some, count_nil, if_true, true_and]
    split_ifs <;> omega

theorem Inv.complete (held : ctx ∈ s.requests)
    (served : Served ctx { s with requests := s.requests.erase ctx } t written reported kept) :
    Inv t := by
  have full := inv.full ctx held
  obtain ⟨⟨spawned, tasks, rfl⟩, chunks, retries⟩ := served
  -- the texts of the context are freed or go to a task
  have size (k : ℕ) :
      ctx.texts.count (some k) = written.count k + reported.count k + kept.count k := by
    rw [full, count_map_some, chunks, count_append, count_append]
  refine inv.move rfl rfl inv.inStep (fun other mem => inv.full other (mem_of_mem_erase mem)) ?_
    fun k => ?_
  · rw [flatten_append, tasks, forall_mem_append]
    refine ⟨inv.items, fun item inTask => ?_⟩
    obtain ⟨k, -, rfl⟩ := mem_map.mp inTask
    rfl
  · simp only [inHand, one, weigh_perm _ (perm_cons_erase held), weigh_cons, size, if_true,
      flatten_append, tasks, count_append, count_map_item]
    rcases retries with rfl | retry
    · rw [count_nil]
      omega
    · rw [if_pos retry]
      omega

theorem Inv.single {text : Option ℕ}
    (found : top s.tasks task = some ((k, text), rest)) (accepted : Bool) :
    Inv { resubmit accepted k text s with tasks := s.tasks.set task rest } := by
  obtain rfl : text = some k := inv.items _ (top_mem found)
  have turn := count_turn found
  have items : ∀ item ∈ (s.tasks.set task rest).flatten, item.2 = some item.1 := fun item inTask =>
    inv.items item ((turn_perm found).1.symm.subset (mem_cons_of_mem _ inTask))
  have text (j : ℕ) : [some k].count (some j) = [k].count j := count_map_some [k]
  cases accepted with
  | true =>
    refine inv.move rfl rfl inv.inStep (forall_mem_cons.mpr ⟨rfl, inv.full⟩) items fun j => ?_
    have turn := turn j
    simp only [inHand, one, resubmit, if_true, weigh_cons, text, Bool.false_eq_true, if_false,
      count_append, true_and]
    omega
  | false =>
    have freed (j : ℕ) : (s.freed ++ [some k].filterMap id).count j =
        s.freed.count j + [k].count j := count_append
    refine inv.move rfl rfl inv.inStep inv.full items fun j => ?_
    have turn := turn j
    simp only [inHand, one, resubmit, resultFree, Bool.false_eq_true, if_false, freed, count_append]
    omega

theorem Inv.step (careful : Careful s op) (moved : step s op = some t) : Inv t := by
  cases op with
  | add empty =>
    obtain ⟨idle, rfl⟩ := fired moved
    exact inv.add idle careful empty
  | free =>
    obtain ⟨idle, rfl⟩ := fired moved
    exact inv.free idle
  | ingest accepted =>
    obtain ⟨after, ⟨phase, rfl⟩ | ⟨phase, rfl⟩ | ⟨phase, rfl⟩⟩ := step_ingest moved
    · exact inv.flush phase (careful (by rw [phase]; rfl))
    · exact inv.handOver phase
    · exact inv.finish phase
  | single task accepted =>
    obtain ⟨k, text, rest, found, rfl⟩ := step_single moved
    exact inv.single found accepted
  | complete ctx resp =>
    obtain ⟨held, rfl⟩ := fired moved
    obtain ⟨_, _, _, served⟩ := doneCb_full (inv.full ctx held) careful
    exact inv.complete held served
  | early resp => exact careful.elim

omit inv

/-! Every run without further calls comes to an end. -/

def phaseWork (pending : ℕ) : Phase → ℕ
  | .idle => 0
  | .finish _ => 1
  | .handOver _ => 2 * pending + 3
  | .flush _ => 2 * pending + 4

def ctxWork (ctx : Ctx) : ℕ := if ctx.retryOnFail then 2 * ctx.chunks.length + 1 else 1

def work (s : Sys) : ℕ :=
  phaseWork s.pending.length s.phase + weigh ctxWork s.requests + 2 * s.tasks.flatten.length

def AtRest (s : Sys) : Prop := s.phase = .idle ∧ s.requests = [] ∧ s.tasks.flatten = []

theorem work_complete (held : ctx ∈ s.requests)
    (served : Served ctx { s with requests := s.requests.erase ctx } t written reported kept) :
    work t < work s := by
  obtain ⟨⟨spawned, tasks, rfl⟩, chunks, retries⟩ := served
  have weight : 2 * kept.length < ctxWork ctx := by
    rcases retries with rfl | retry
    · rw [ctxWork]
      split <;> exact Nat.succ_pos _
    · rw [ctxWork, if_pos retry, chunks, length_append]
      omega
  simp only [work, weigh_perm _ (perm_cons_erase held), weigh_cons, flatten_append,
    tasks, length_append, length_map]
  omega

include inv

theorem work_single {text : Option ℕ}
    (found : top s.tasks task = some ((k, text), rest)) :
    work { resubmit accepted k text s with tasks := s.tasks.set task rest } < work s := by
  obtain rfl : text = some k := inv.items _ (top_mem found)
  have turn := (turn_perm found).1.length_eq
  rw [length_cons] at turn
  cases accepted with
  | true =>
    have weight : ctxWork ⟨[k], [some k], false⟩ = 1 := rfl
    simp only [work, resubmit, if_true, weigh_cons, weight]
    omega
  | false =>
    simp only [work, resubmit, resultFree, Bool.false_eq_true, if_false]
    omega

theorem work_ingest (careful : Careful s (.ingest accepted))
    (moved : step s (.ingest accepted) = some t) : work t < work s := by
  obtain ⟨after, ⟨phase, rfl⟩ | ⟨phase, rfl⟩ | ⟨phase, rfl⟩⟩ := step_ingest moved
  · have careful := careful (by rw [phase]; rfl)
    rw [work, work, phase, batchFlush]
    split
    next empty =>
      simp only [phaseWork]
      omega
    next more =>
      rw [careful more, if_pos rfl]
      simp only [phaseWork]
      omega
  · have inStep := inv.inStep
    rw [InStep, phase] at inStep
    have weight : ctxWork ⟨s.pending, s.pending.map some, decide (1 < s.pending.length)⟩ ≤
        2 * s.pending.length + 1 := by
      simp only [ctxWork]
      split <;> omega
    simp only [work, phase, EmbedModel.handOver, inStep, phaseWork, weigh_cons]
    omega
  · rw [work, work, phase]
    cases after <;> simp only [finish, phaseWork] <;> omega

theorem work_step (careful : Careful s op) (inner : op.inner = true)
    (moved : step s op = some t) : work t < work s := by
  cases op with
  | add empty | free => cases inner
  | ingest accepted => exact work_ingest inv careful moved
  | single task accepted =>
    obtain ⟨k, text, rest, found, rfl⟩ := step_single moved
    exact work_single inv found
  | complete ctx resp =>
    obtain ⟨held, rfl⟩ := fired moved
    obtain ⟨_, _, _, served⟩ := doneCb_full (inv.full ctx held) careful
    exact work_complete held served
  | early resp => exact careful.elim

omit inv

theorem exists_turn (busy : ¬ AtRest s) :
    ∃ op t, Careful s op ∧ op.inner = true ∧ step s op = some t := by
  cases phase : s.phase with
  | flush after =>
    refine ⟨.ingest true, batchFlush true after s, fun _ _ => rfl, rfl, ?_⟩
    rw [step, phase]
  | handOver after =>
    refine ⟨.ingest true, handOver after s, fun _ _ => rfl, rfl, ?_⟩
    rw [step, phase]
  | finish after =>
    refine ⟨.ingest true, finish after s, fun _ _ => rfl, rfl, ?_⟩
    rw [step, phase]
  | idle =>
    by_cases quiet : s.requests = []
    · have items : s.tasks.flatten ≠ [] := fun empty => busy ⟨phase, quiet, empty⟩
      obtain ⟨task, item, rest, found⟩ := exists_top items
      exact ⟨.single task true, _, trivial, rfl, Option.map_eq_some_iff.mpr ⟨_, found, rfl⟩⟩
    · obtain ⟨ctx, held⟩ := exists_mem_of_ne_nil _ quiet
      exact ⟨.complete ctx ⟨true, 1, 1, []⟩, _, rfl, rfl, if_pos held⟩

theorem length_le_work {rest : List Op} (inv : Inv s)
    (run : Run step (fun s op => Careful s op ∧ op.inner = true) s rest t) :
    rest.length + work t ≤ work s := by
  induction run with
  | nil => exact Nat.le_of_eq (Nat.zero_add _)
  | cons meets head _ ih =>
    have later := ih (inv.step meets.1 head)
    have less := work_step inv meets.1 meets.2 head
    rw [length_cons]
    omega

/-! What a batch that was freed leaves. -/

def Closing (s : Sys) : Prop :=
  match s.phase with
  | .idle | .finish .drop => s.pending = []
  | .flush .drop | .handOver .drop => True
  | .flush .append | .handOver .append | .finish .append => False

theorem Closing.congr (closing : Closing s) (phase : t.phase = s.phase)
    (pending : t.pending = s.pending) : Closing t := by
  rw [Closing, phase, pending]
  exact closing

theorem Closing.step (inv : Inv s) (closing : Closing s) (careful : Careful s op)
    (inner : op.inner = true) (moved : step s op = some t) : Closing t := by
  cases op with
  | add empty | free => cases inner
  | ingest accepted =>
    obtain ⟨after, ⟨phase, rfl⟩ | ⟨phase, rfl⟩ | ⟨phase, rfl⟩⟩ := step_ingest moved
    all_goals
      rw [Closing, phase] at closing
      cases after with
      | append => exact closing.elim
      | drop => ?_
    · have careful := careful (by rw [phase]; rfl)
      rw [batchFlush]
      split
      next empty => exact empty
      next more =>
        rw [careful more, if_pos rfl]
        exact trivial
    · have inStep := inv.inStep
      rw [InStep, phase] at inStep
      simp only [EmbedModel.handOver, inStep]
      rfl
    · rfl
  | single task accepted =>
    obtain ⟨k, text, rest, found, rfl⟩ := step_single moved
    obtain rfl : text = some k := inv.items _ (top_mem found)
    cases accepted <;> exact closing.congr rfl rfl
  | complete ctx resp =>
    obtain ⟨held, rfl⟩ := fired moved
    obtain ⟨_, _, _, ⟨spawned, -, result⟩, -, -⟩ :=
      doneCb_full (s := { s with requests := s.requests.erase ctx }) (inv.full ctx held) careful
    rw [result]
    exact closing.congr rfl rfl
  | early resp => exact careful.elim

/-! The account. -/

def Held (s : Sys) (k : ℕ) : Prop :=
  k ∈ s.pending ∨ (∃ ctx ∈ s.requests, k ∈ ctx.chunks) ∨ ∃ item ∈ s.tasks.flatten, item.1 = k

theorem Inv.not_held_iff (inv : Inv s) : ¬ Held s k ↔ inHand (fun _ => true) s k = 0 := by
  have requests : (¬ ∃ ctx ∈ s.requests, k ∈ ctx.chunks) ↔
      weigh (fun ctx => if true then ctx.texts.count (some k) else 0) s.requests = 0 := by
    rw [weigh_eq_zero, not_exists]
    refine forall_congr' fun ctx => ?_
    rw [not_and]
    refine forall_congr' fun mem => ?_
    rw [if_pos rfl, inv.full ctx mem, count_map_some]
    exact count_eq_zero.symm
  have tasks : (¬ ∃ item ∈ s.tasks.flatten, item.1 = k) ↔
      s.tasks.flatten.count (k, some k) = 0 := by
    rw [count_eq_zero]
    refine not_congr ⟨fun ⟨item, mem, same⟩ => ?_, fun mem => ⟨_, mem, rfl⟩⟩
    rw [← same, ← inv.items item mem]
    exact mem
  rw [Held, not_or, not_or, requests, tasks, ← count_eq_zero, inHand]
  omega

structure Accounted (s : Sys) : Prop where
  untouched : s.touched = 0
  freed : ∀ k, s.freed.count k ≤ 1
  alone : ∀ k, s.alone.count k ≤ 1
  places : ∀ k < s.added, Held s k ∧ s.freed.count k = 0 ∨
    ¬ Held s k ∧ s.freed.count k = 1 ∧ s.written.count k + s.reported.count k = 1

/-- Every chunk that was added was written or reported, and its text freed. -/
def Settled (s : Sys) : Prop :=
  ∀ k < s.added, s.freed.count k = 1 ∧ s.written.count k + s.reported.count k = 1

theorem Inv.accounted (inv : Inv s) : Accounted s := by
  have bound (k : ℕ) : one s k ≤ 1 := by
    rw [one]
    split <;> omega
  refine ⟨inv.untouched, fun k => ?_, fun k => ?_, fun k early => ?_⟩
  · have here := inv.texts k
    have bound := bound k
    omega
  · have here := inv.alone k
    have bound := bound k
    omega
  · have here := inv.texts k
    have fate := inv.fates k
    rw [one, if_pos early] at here
    by_cases held : Held s k
    · have some := mt inv.not_held_iff.mpr (not_not_intro held)
      exact .inl ⟨held, by omega⟩
    · have none := inv.not_held_iff.mp held
      exact .inr ⟨held, by omega, by omega⟩

theorem Inv.settled (inv : Inv s) (closing : Closing s) (rest : AtRest s) : Settled s := by
  intro k early
  obtain ⟨phase, requests, tasks⟩ := rest
  rw [Closing, phase] at closing
  rcases inv.accounted.places k early with ⟨held, -⟩ | ⟨-, settled⟩
  · rw [Held, closing, requests, tasks] at held
    simp at held
  · exact settled

theorem chunks_accounted {model : Bool} {maxFill : ℕ} {labels : List Op} {s : Sys}
    (run : Run step Careful (created model maxFill) labels s) :
    Accounted s ∧
      ∀ u rest t, step s .free = some u →
        Run step (fun s op => Careful s op ∧ op.inner = true) u rest t →
        rest.length ≤ work u ∧
          (AtRest t ∧ Settled t ∨
            ∃ op v, Careful t op ∧ op.inner = true ∧ step t op = some v) := by
  have inv : Inv s := run.invariant Inv.step (Inv.created model maxFill)
  refine ⟨inv.accounted, fun u rest t freed after => ?_⟩
  have invU := inv.step (show Careful s .free from trivial) freed
  have closingU : Closing u := by
    obtain ⟨-, rfl⟩ := fired freed
    rw [Closing, batchFree, inv.going]
    exact trivial
  obtain ⟨invT, closingT⟩ : Inv t ∧ Closing t :=
    after.invariant (I := fun s => Inv s ∧ Closing s)
      (fun both meets moved => ⟨both.1.step meets.1 moved,
        both.2.step both.1 meets.1 meets.2 moved⟩) ⟨invU, closingU⟩
  have bound := length_le_work invU after
  refine ⟨by omega, ?_⟩
  by_cases done : AtRest t
  · exact .inl ⟨done, invT.settled closingT done⟩
  · exact .inr (exists_turn done)

theorem chunks_accounted_partial :
    ∃ labels s, Run step Careful (created true 2) labels s ∧ Accounted s ∧ AtRest s ∧
      s.written = [0, 2] ∧ s.alone = [1] ∧ s.reported = [1] ∧ s.freed = [0, 1, 2] := by
  have run : Run step Careful (created true 2)
      [.add false, .ingest true, .add false, .ingest true,
        .add false, .ingest true, .ingest true, .ingest true,
        .complete ⟨[0, 1], [some 0, some 1], true⟩ ⟨true, 4, 1, []⟩, .single 0 true,
        .free, .ingest true, .ingest true, .ingest true,
        .complete ⟨[1], [some 1], false⟩ ⟨false, 0, 0, []⟩,
        .complete ⟨[2], [some 2], false⟩ ⟨true, 4, 3, []⟩] _ :=
    runWhen_get (by decide +kernel)
  refine ⟨_, _, run, (chunks_accounted run).1, ⟨?_, ?_, ?_⟩, ?_⟩
  all_goals decide +kernel

/-- The callback of a failed request runs before the flush has handed its texts over. The task it
spawns finds no texts and skips both chunks; the flush then writes the texts into the released
context, where nobody frees them. -/
theorem early_callback_drops_chunks :
    ∃ labels s, Run step Any (created true 2) labels s ∧ AtRest s ∧ s.pending = [] ∧
      s.added = 2 ∧ s.written = [] ∧ s.alone = [] ∧ s.reported = [] ∧ s.freed = [] ∧
      s.touched = 1 :=
  ⟨[.add false, .ingest true, .add false, .ingest true,
        .free, .ingest true, .early ⟨false, 0, 0, []⟩, .ingest true, .ingest true,
        .single 0 true, .single 0 true], _,
    run_get (by decide +kernel), ⟨by decide +kernel, by decide +kernel, by decide +kernel⟩,
    by decide +kernel⟩

end BotManager.EmbedAccount
