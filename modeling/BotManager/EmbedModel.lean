import BotManager.FramePool
import BotManager.StepRun

/-!
The embedding batches of the knowledge store: `knowledge_batch_add`, `knowledge_batch_free`, the
completion callback of an embed request and the task that submits chunks again one by one.

A chunk is named by its place in the order in which chunks were added, and its copied text by the
same number. Three kinds of threads take turns: the ingest thread that owns the batch, the worker
that runs the callbacks, one turn a callback, and the singles tasks, one turn a chunk. A result
context belongs to its callback, which releases it, once the submit call has returned and nobody
else has it; a flush goes on to use its context after that call. The callback of a request may run
in any turn after the request was accepted, in particular before the flush takes the one turn in
which it hands its texts to the context.
-/

namespace BotManager.EmbedModel
open FramePool StepRun

def batchMax : ℕ := 128

structure Ctx where
  chunks : List ℕ
  texts : List (Option ℕ)
  retryOnFail : Bool
  deriving DecidableEq

/-- What an embed request comes to. `refused` are the chunks whose row the database does not
take; the callback does not look at that. -/
structure Response where
  ok : Bool
  dim : ℕ
  vectors : ℕ
  refused : List ℕ

def Response.usable (resp : Response) : Bool :=
  resp.ok && resp.dim != 0 && resp.vectors != 0

/-- What the ingest thread does after a flush: append the chunk of `knowledge_batch_add`, or drop
what is left, in `knowledge_batch_free`. -/
inductive After
  | append
  | drop
  deriving DecidableEq

inductive Phase
  | idle
  | flush (after : After)
  | handOver (after : After)
  | finish (after : After)
  deriving DecidableEq

def Phase.flushing : Phase → Bool
  | .flush _ => true
  | _ => false

structure Sys where
  /-- a model was resolved for the batch -/
  model : Bool
  maxFill : ℕ
  pending : List ℕ
  aborted : Bool
  phase : Phase
  /-- the context of a flush whose request was accepted, until one of the two is through with it -/
  served : Option Ctx
  /-- the contexts of the other accepted requests -/
  requests : List Ctx
  /-- the singles tasks: chunks with their texts -/
  tasks : List (List (ℕ × Option ℕ))
  added : ℕ
  freed : List ℕ
  written : List ℕ
  alone : List ℕ
  reported : List ℕ
  /-- accesses to a context after its release -/
  touched : ℕ

def created (model : Bool) (maxFill : ℕ) : Sys :=
  { model, maxFill := min (max maxFill 1) batchMax, pending := [], aborted := false
    phase := .idle, served := none, requests := [], tasks := []
    added := 0, freed := [], written := [], alone := [], reported := [], touched := 0 }

def resultFree (texts : List (Option ℕ)) (s : Sys) : Sys :=
  { s with freed := s.freed ++ texts.filterMap id }

/-- `knowledge_batch_done_cb`. The chunks from `count` on go to `knowledge_spawn_singles_retry`
with their texts, and the texts of those before it are freed. -/
def doneCb (ctx : Ctx) (resp : Response) (s : Sys) : Sys :=
  if resp.usable then
    let count := min resp.vectors ctx.chunks.length
    let s := { s with
      written := s.written ++ (ctx.chunks.take count).filter fun k => !resp.refused.contains k }
    if count < ctx.chunks.length then
      if ctx.retryOnFail then
        let s := resultFree (ctx.texts.take count) s
        { s with tasks := s.tasks ++ [(ctx.chunks.zip ctx.texts).drop count] }
      else
        resultFree ctx.texts { s with reported := s.reported ++ ctx.chunks.drop count }
    else
      resultFree ctx.texts s
  else if ctx.retryOnFail && decide (1 < ctx.chunks.length) then
    { s with tasks := s.tasks ++ [ctx.chunks.zip ctx.texts] }
  else
    resultFree ctx.texts { s with reported := s.reported ++ ctx.chunks }

/-- One chunk of `knowledge_singles_retry_task`; `accepted` is what `llm_embed_submit_wait` says. -/
def resubmit (accepted : Bool) (k : ℕ) (text : Option ℕ) (s : Sys) : Sys :=
  match text with
  | none => s
  | some text =>
    if accepted then
      { s with requests := ⟨[k], [some text], false⟩ :: s.requests, alone := s.alone ++ [k] }
    else
      resultFree [some text] { s with reported := s.reported ++ [k] }

/-- After a flush that failed `knowledge_batch_add` returns. -/
def After.failed : After → Phase
  | .append => .idle
  | .drop => .finish .drop

/-- The part of `knowledge_batch_flush` up to the answer of `llm_embed_submit_wait`, with the
whole of its failing branch. -/
def batchFlush (accepted : Bool) (after : After) (s : Sys) : Sys :=
  if s.pending = [] then
    { s with phase := .finish after }
  else if accepted then
    { s with
      served := some ⟨s.pending, s.pending.map fun _ => none, decide (1 < s.pending.length)⟩
      phase := .handOver after }
  else
    { s with
      aborted := true, freed := s.freed ++ s.pending, pending := [], phase := after.failed }

/-- The rest of an accepted flush, in one turn: the texts go into the context, or into what was its
memory. The reads of `ctx->n` for the counters, right behind, meet the same of the two. -/
def handOver (after : After) (s : Sys) : Sys :=
  let s' := { s with pending := [], served := none, phase := .finish after }
  match s.served with
  | some ctx => { s' with requests := { ctx with texts := s.pending.map some } :: s.requests }
  | none => { s' with touched := s.touched + 1 }

/-- The end of `knowledge_batch_add`, and `knowledge_batch_drop_pending` at the end of
`knowledge_batch_free`. -/
def finish (after : After) (s : Sys) : Sys :=
  match after with
  | .append => { s with pending := s.pending ++ [s.added], added := s.added + 1, phase := .idle }
  | .drop => { s with freed := s.freed ++ s.pending, pending := [], phase := .idle }

/-- `knowledge_batch_add` up to its flush. Without a model the chunk is counted and no more. -/
def batchAdd (empty : Bool) (s : Sys) : Sys :=
  if empty then s
  else if !s.model then { s with added := s.added + 1 }
  else if s.aborted then s
  else { s with phase := if s.maxFill ≤ s.pending.length then .flush .append else .finish .append }

def batchFree (s : Sys) : Sys :=
  { s with phase := if s.aborted then .finish .drop else .flush .drop }

inductive Op
  | add (empty : Bool)
  | free
  | ingest (accepted : Bool)
  | single (task : ℕ) (accepted : Bool)
  | complete (ctx : Ctx) (resp : Response)
  /-- the callback of the flush under way -/
  | early (resp : Response)

def step (s : Sys) : Op → Option Sys
  | .add empty => if s.phase = .idle then some (batchAdd empty s) else none
  | .free => if s.phase = .idle then some (batchFree s) else none
  | .ingest accepted =>
    match s.phase with
    | .idle => none
    | .flush after => some (batchFlush accepted after s)
    | .handOver after => some (handOver after s)
    | .finish after => some (finish after s)
  | .single task accepted =>
    (top s.tasks task).map fun ((k, text), rest) =>
      { resubmit accepted k text s with tasks := s.tasks.set task rest }
  | .complete ctx resp =>
    if ctx ∈ s.requests then some (doneCb ctx resp { s with requests := s.requests.erase ctx })
    else none
  | .early resp => s.served.map fun ctx => doneCb ctx resp { s with served := none }

def Op.inner : Op → Bool
  | .add _ | .free => false
  | _ => true

variable {s t : Sys} {accepted : Bool}

theorem step_ingest (moved : step s (.ingest accepted) = some t) :
    ∃ after, (s.phase = .flush after ∧ t = batchFlush accepted after s) ∨
      (s.phase = .handOver after ∧ t = handOver after s) ∨
      s.phase = .finish after ∧ t = finish after s := by
  rw [step] at moved
  cases phase : s.phase with
  | idle => rw [phase] at moved; cases moved
  | flush after | handOver after | finish after =>
    rw [phase] at moved
    cases moved
    exact ⟨after, by simp⟩

theorem step_single {task : ℕ}
    (moved : step s (.single task accepted) = some t) :
    ∃ k text rest, top s.tasks task = some ((k, text), rest) ∧
      t = { resubmit accepted k text s with tasks := s.tasks.set task rest } := by
  obtain ⟨⟨⟨k, text⟩, rest⟩, found, rfl⟩ := Option.map_eq_some_iff.mp moved
  exact ⟨k, text, rest, found, rfl⟩

end BotManager.EmbedModel
