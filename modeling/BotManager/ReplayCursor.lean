import BotManager.BacktestLive
import BotManager.StepRun

/-! The replay cursor of an attachment and the last signal its market's session has acted on,
for one market of whenmoon. `wm_strategy_attach` publishes the attachment under `reg->lock` and
seeds its cursor later under `mk->lock`. A pass of `wm_strategy_seed_replay_cursors` reads the
session under `mk->lock` and writes the cursor later under `reg->lock`. A dispatch has both. -/

namespace BotManager.ReplayCursor
open List Aggregator MarketModel BacktestLive StepRun

section Model
variable (S I : Type*)

structure Attachment where
  id : ℕ
  owner : Strategy S I
  ctx : Ctx S

inductive Pass
  | due
  | taken (snap : Option Signal)
  deriving DecidableEq

structure Played where
  bar : Candle I
  acted : Option Signal
  deriving DecidableEq

/-- `attaching` are the attachments whose `wm_strategy_attach` has not come to its seed. -/
structure Sys where
  lastActed : Option Signal
  att : Option (Attachment S I)
  nextId : ℕ
  attaching : List ℕ
  passes : List Pass
  calls : List (Played I)

/-- `restore` is the hydration of the session, with the row that was read; `wm_strategy_reload`
is a detach and an attach. -/
inductive Op
  | publish (owner : Strategy S I)
  | seed (id : ℕ)
  | detach
  | restore (row : Option Signal)
  | reseed
  | turn (i : ℕ)
  | dispatch (g : Gran) (bar : Candle I)

variable {S I}

def start (acted : Option Signal) : Sys S I := ⟨acted, none, 0, [], [], []⟩

/-- `wm_strategy_seed_cursor_from_session`. -/
def Attachment.seeded (a : Attachment S I) (acted : Option Signal) : Attachment S I :=
  { a with ctx := { a.ctx with lastSignal := acted } }

/-- `wm_market_engine_on_signal_with_mk`, which ignores a mark that is no price. -/
def acted (px : ℚ) (before : Option Signal) (sigs : List Signal) : Option Signal :=
  if 0 < px then sigs.foldl (fun _ sig => some sig) before else before

def dispatch (s : Sys S I) (a : Attachment S I) (g : Gran) (bar : Candle I) : Sys S I :=
  let (ctx, calls) := dispatchBar a.owner (a.ctx, []) (g, bar)
  { s with
    att := some { a with ctx := ctx }
    lastActed := acted bar.close s.lastActed (calls.flatMap Call.signals)
    calls := s.calls ++ calls.map fun c => ⟨c.bar, s.lastActed⟩ }

/-- The seed of an attachment that is gone is not followed. -/
def step (s : Sys S I) : Op S I → Option (Sys S I)
  | .publish owner =>
    if s.att.isNone then
      some { s with
        att := some ⟨s.nextId, owner, fresh owner⟩
        nextId := s.nextId + 1
        attaching := s.nextId :: s.attaching }
    else none
  | .seed id =>
    if id ∈ s.attaching then
      some { s with
        att := s.att.map fun a => if a.id = id then a.seeded s.lastActed else a
        attaching := s.attaching.erase id }
    else none
  | .detach => some { s with att := none }
  | .restore row => some { s with lastActed := row, passes := .due :: s.passes }
  | .reseed => some { s with passes := .taken s.lastActed :: s.passes }
  | .turn i =>
    match s.passes[i]? with
    | none => none
    | some .due => some { s with passes := s.passes.set i (.taken s.lastActed) }
    | some (.taken snap) =>
      some { s with att := s.att.map (·.seeded snap), passes := s.passes.eraseIdx i }
  | .dispatch g bar => some (s.att.elim s fun a => dispatch s a g bar)

/-- A bar is dispatched, at a price, while no pass is under way and the attachment has been
seeded; and a session is hydrated while no pass has read it. -/
def Keeps (s : Sys S I) : Op S I → Prop
  | .dispatch _ bar => s.passes = [] ∧ (∀ a, s.att = some a → a.id ∉ s.attaching) ∧ 0 < bar.close
  | .restore _ => ∀ p ∈ s.passes, p = .due
  | _ => True

end Model

variable {S I : Type*} {s t : Sys S I}

def Covers (acted cursor : Option Signal) : Prop :=
  ∀ sig ∈ acted, ∃ last ∈ cursor, sig.tsMs ≤ last.tsMs

theorem Covers.refl (acted : Option Signal) : Covers acted acted :=
  fun sig mem => ⟨sig, mem, le_rfl⟩

structure Inv (s : Sys S I) : Prop where
  taken : ∀ snap, .taken snap ∈ s.passes → snap = s.lastActed
  covered : ∀ a, s.att = some a → a.id ∉ s.attaching → s.passes = [] →
    Covers s.lastActed a.ctx.lastSignal
  calls : ∀ c ∈ s.calls, ∀ sig ∈ c.acted, sig.tsMs < c.bar.tsCloseMs

theorem foldl_emit (sigs : List Signal) (ctx : Ctx S) :
    (sigs.foldl emitSignal ctx).lastSignal = sigs.foldl (fun _ sig => some sig) ctx.lastSignal := by
  induction sigs generalizing ctx with
  | nil => rfl
  | cons sig rest ih => exact ih _

theorem covers_emitted {before cursor : Option Signal} (covers : Covers before cursor)
    (sigs : List Signal) : Covers (sigs.foldl (fun _ sig => some sig) before)
      (sigs.foldl (fun _ sig => some sig) cursor) := by
  cases sigs with
  | nil => exact covers
  | cons sig rest => exact .refl _

theorem Inv.dispatch (inv : Inv s) {a : Attachment S I} (here : s.att = some a) {g : Gran}
    {bar : Candle I} (idle : s.passes = []) (seeded : a.id ∉ s.attaching) (price : 0 < bar.close) :
    Inv (dispatch s a g bar) := by
  have covers := inv.covered a here seeded idle
  by_cases runs : a.owner.grains g = true ∧ gated a.ctx bar = false
  · have played : dispatchBar a.owner (a.ctx, []) (g, bar) = call a.owner (a.ctx, []) g bar := by
      simp [dispatchBar, runs.1, runs.2]
    simp only [ReplayCursor.dispatch, played, call, acted, if_pos price, nil_append,
      flatMap_singleton, map_singleton]
    constructor
    case taken =>
      intro snap mem
      exact absurd (idle ▸ mem) not_mem_nil
    case covered =>
      intro b same _ _
      obtain rfl := Option.some.inj same
      rw [foldl_emit]
      exact covers_emitted covers _
    case calls =>
      intro c mem sig old
      rcases mem_append.mp mem with before | new
      · exact inv.calls c before sig old
      · obtain rfl := mem_singleton.mp new
        obtain ⟨last, cursor, le⟩ := covers sig old
        have opened := runs.2
        rw [gated, cursor, Option.any_some, decide_eq_false_iff_not] at opened
        dsimp only
        omega
  · have dropped : dispatchBar a.owner (a.ctx, []) (g, bar) = (a.ctx, []) := by
      unfold dispatchBar
      split_ifs with wanted shut
      · rfl
      · exact absurd ⟨wanted, Bool.eq_false_iff.mpr shut⟩ runs
      · rfl
    have same : ReplayCursor.dispatch s a g bar = s := by
      simp [ReplayCursor.dispatch, dropped, acted, ← here]
    rwa [same]

theorem Inv.step (inv : Inv s) {op : Op S I} (keeps : Keeps s op) (h : step s op = some t) :
    Inv t := by
  cases op with
  | publish owner =>
    obtain ⟨-, rfl⟩ := fired h
    refine ⟨inv.taken, fun a same fresh _ => ?_, inv.calls⟩
    obtain rfl := Option.some.inj same
    exact absurd mem_cons_self fresh
  | seed id =>
    obtain ⟨-, rfl⟩ := fired h
    refine ⟨inv.taken, fun b same seeded idle => ?_, inv.calls⟩
    obtain ⟨a, here, rfl⟩ := Option.map_eq_some_iff.mp same
    by_cases own : a.id = id
    · rw [if_pos own]
      exact .refl _
    · rw [if_neg own] at seeded ⊢
      exact inv.covered a here (fun mem => seeded ((mem_erase_of_ne own).mpr mem)) idle
  | detach =>
    cases h
    exact ⟨inv.taken, nofun, inv.calls⟩
  | restore row =>
    cases h
    refine ⟨fun snap mem => ?_, fun _ _ _ idle => (cons_ne_nil _ _ idle).elim, inv.calls⟩
    rcases mem_cons.mp mem with new | old
    · cases new
    · cases keeps _ old
  | reseed =>
    cases h
    refine ⟨fun snap mem => ?_, fun _ _ _ idle => (cons_ne_nil _ _ idle).elim, inv.calls⟩
    rcases mem_cons.mp mem with new | old
    · exact Pass.taken.inj new
    · exact inv.taken snap old
  | turn i =>
    rw [ReplayCursor.step] at h
    split at h
    next => cases h
    next found =>
      cases h
      refine ⟨fun snap mem => ?_, fun a _ _ idle => ?_, inv.calls⟩
      · rcases mem_or_eq_of_mem_set mem with old | new
        · exact inv.taken snap old
        · exact Pass.taken.inj new
      · have none : s.passes = [] := by simpa using idle
        rw [none] at found
        cases found
    next snap found =>
      cases h
      refine ⟨fun other mem => inv.taken other (mem_of_mem_eraseIdx mem), fun b same _ _ => ?_,
        inv.calls⟩
      obtain ⟨a, -, rfl⟩ := Option.map_eq_some_iff.mp same
      obtain rfl := inv.taken snap (mem_of_getElem? found)
      exact .refl _
  | dispatch g bar =>
    obtain ⟨idle, seeded, price⟩ := keeps
    cases h
    cases here : s.att with
    | none => exact inv
    | some a => exact inv.dispatch here idle (seeded a here) price

theorem bars_not_replayed {acted : Option Signal} {ops : List (Op S I)}
    (run : Run step Keeps (start acted) ops t) :
    ∀ c ∈ t.calls, ∀ sig ∈ c.acted, sig.tsMs < c.bar.tsCloseMs := by
  have begun : Inv (start acted : Sys S I) := ⟨nofun, nofun, nofun⟩
  exact (run.invariant (fun inv => inv.step) begun).calls

def onMinutes : Strategy Unit Unit := talker (· = .m1)

instance (s : Sys Unit Unit) (op : Op Unit Unit) : Decidable (Keeps s op) := by
  unfold Keeps
  split <;> infer_instance

def minute (ms : ℤ) : Op Unit Unit := .dispatch .m1 (sampleBar ms)

def restarted : List (Op Unit Unit) := [.publish onMinutes, .seed 0,
  .restore (some ⟨1, 120000, []⟩), .turn 0, .turn 0, minute 120000, minute 180000]

theorem bars_not_replayed_restart : ∃ t, Run step Keeps (start none) restarted t ∧
    (t.calls.map fun c => c.bar.tsCloseMs) = [180000] ∧
    ∀ c ∈ t.calls, ∀ sig ∈ c.acted, sig.tsMs < c.bar.tsCloseMs := by
  have run : Run step Keeps (start none) restarted _ := runWhen_get (by decide +kernel)
  exact ⟨_, run, by decide +kernel, bars_not_replayed run⟩

def putBack : List (Op Unit Unit) :=
  [.publish onMinutes, .seed 0, .reseed, minute 120000, .turn 0, minute 120000]

theorem stale_seed_replays : ∃ t, Run step Any (start (some ⟨1, 60000, []⟩)) putBack t ∧
    t.calls.map (fun c => (c.bar.tsCloseMs, c.acted.map (·.tsMs))) =
      [(120000, some 60000), (120000, some 120000)] :=
  ⟨_, run_get (by decide +kernel), by decide +kernel⟩

end BotManager.ReplayCursor
