import BotManager.ExchangeOwner

/-! What wakes the queue of an exchange. A queue that is not empty needs a later event that calls
the dispatch again: an armed pump, a request at the driver or one on a retry timer. -/

namespace BotManager.ExchangePump
open List ExchangeModel ExchangeOwner FramePool StableInsert StepRun

section Wakes

def inDispatch : Frame → Bool
  | .dispatch => true
  | .submit _ _ => true
  | .refund => true
  | _ => false

def PumpArmed (s : Sys) : Prop := s.pumps ≠ [] ∨ ∃ h, Frame.pump h ∈ s.threads.flatten

/-- The queue of a registered exchange is not left alone by the threads that are not inside the
dispatch. -/
def NotStranded (s : Sys) : Prop :=
  (∀ f ∈ s.threads.flatten, inDispatch f = false) → s.exch.vt ≠ none → s.exch.queue ≠ [] →
    PumpArmed s ∨ requestsAt s .driver ≠ [] ∨ requestsAt s .waiting ≠ []

def wakes : Frame → Bool
  | .dispatch => true
  | .submit _ _ => true
  | .respond _ _ => true
  | .settle _ _ => true
  | .retry _ => true
  | .pump _ => true
  | _ => false

/-- Something is on the way to the dispatch: a timer, a request at the driver, or a frame. -/
def Woken (sh : Shared) (frames : List Frame) : Prop :=
  sh.pumps ≠ [] ∨ sh.driver ≠ [] ∨ sh.retries ≠ [] ∨ ∃ f ∈ frames, wakes f = true

instance (sh : Shared) (frames : List Frame) : Decidable (Woken sh frames) :=
  inferInstanceAs (Decidable (_ ∨ _ ∨ _ ∨ _))

/-- A request cannot be built, or the driver's table lacks an entry, only where nothing else is
queued or something else is on the way to the dispatch; and so for a pump that cannot be set. -/
def Fits (sh : Shared) (others : List Frame) (c : Choice) : Frame → Prop
  | .submit _ vt => (vt.buildRequest = true ∧ vt.submit = true ∧ c.built = true) ∨
      sh.exch.queue = [] ∨ Woken sh others
  | .dispatch => c.deferred = true ∨ sh.exch.queue = [] ∨ Woken sh others
  | _ => True

def Keeps (s : Sys) : Op → Prop
  | .turn i c => ∀ r ∈ top s.threads i, Fits s.toShared (s.threads.set i r.2).flatten c r.1
  | _ => True

instance (sh : Shared) (others : List Frame) (c : Choice) (f : Frame) :
    Decidable (Fits sh others c f) := by
  unfold Fits
  split <;> infer_instance

instance (s : Sys) (op : Op) : Decidable (Keeps s op) := by
  unfold Keeps
  split <;> infer_instance

end Wakes

variable {sh' : Shared} {vt : Vtable}

section Awake

structure Awake (sh : Shared) (frames : List Frame) : Prop where
  woken : sh.exch.vt ≠ none → sh.exch.queue ≠ [] → Woken sh frames
  armed : ∀ h, sh.exch.pumpHandle = some h → h ∈ sh.pumps ∨ Frame.pump h ∈ frames
  dead : sh.exch.dead = true ↔ sh.exch.vt = none
  tombstone : sh.exch.vt = none → sh.exch.queue = []

variable {sh : Shared} {frames others calls : List Frame} {c : Choice}

theorem Woken.mono (woken : Woken sh frames) (more : ∀ f ∈ frames, wakes f = true → f ∈ others) :
    Woken sh others := by
  rcases woken with pumps | driver | retries | ⟨f, mem, wake⟩
  · exact .inl pumps
  · exact .inr (.inl driver)
  · exact .inr (.inr (.inl retries))
  · exact .inr (.inr (.inr ⟨f, more f mem wake, wake⟩))

variable {f : Frame}

theorem Woken.of_frame (mem : f ∈ frames) (wake : wakes f = true) : Woken sh frames :=
  .inr (.inr (.inr ⟨f, mem, wake⟩))

theorem Awake.congr (awake : Awake sh frames) (same : frames.Perm others) : Awake sh others where
  woken := fun registered queued =>
    (awake.woken registered queued).mono fun _ mem _ => same.mem_iff.mp mem
  armed := fun h handle => (awake.armed h handle).imp_right same.mem_iff.mp
  __ := awake

theorem Awake.calling (awake : Awake sh frames) (mem : f ∈ others)
    (wake : wakes f = true) (armed : ∀ h, sh'.exch.pumpHandle = some h →
      h ∈ sh'.pumps ∨ Frame.pump h ∈ others) (vt : sh'.exch.vt = sh.exch.vt)
    (dead : sh'.exch.dead = sh.exch.dead) (tombstone : sh'.exch.vt = none → sh'.exch.queue = []) :
    Awake sh' others where
  woken := fun _ _ => .of_frame mem wake
  armed := armed
  dead := by rw [vt, dead]; exact awake.dead
  tombstone := tombstone

theorem Awake.quiet (awake : Awake sh (f :: others)) (calm : wakes f = false)
    (exch : sh'.exch.vt = sh.exch.vt ∧ sh'.exch.dead = sh.exch.dead ∧
      sh'.exch.queue = sh.exch.queue ∧ sh'.exch.pumpHandle = sh.exch.pumpHandle)
    (timers : sh'.pumps = sh.pumps ∧ sh'.driver = sh.driver ∧ sh'.retries = sh.retries) :
    Awake sh' (calls ++ others) := by
  obtain ⟨vt, dead, queue, handle⟩ := exch
  obtain ⟨pumps, driver, retries⟩ := timers
  have there : ∀ g ∈ f :: others, wakes g = true → g ∈ calls ++ others := by
    intro g mem wake
    rcases mem_cons.mp mem with rfl | other
    · rw [calm] at wake
      cases wake
    · exact mem_append_right _ other
  constructor
  case woken =>
    intro registered queued
    rw [vt] at registered
    rw [queue] at queued
    have woken := (awake.woken registered queued).mono there
    rwa [Woken, pumps, driver, retries]
  case armed =>
    intro h set
    rw [handle] at set
    rw [pumps]
    exact (awake.armed h set).imp_right fun mem => there _ mem rfl
  case dead => rw [vt, dead]; exact awake.dead
  case tombstone => rw [vt, queue]; exact awake.tombstone

theorem Awake.armed_others (awake : Awake sh (f :: others)) (other : ∀ h, Frame.pump h ≠ f)
    (calls : List Frame) :
    ∀ h, sh.exch.pumpHandle = some h → h ∈ sh.pumps ∨ Frame.pump h ∈ calls ++ others := by
  intro h set
  rcases awake.armed h set with timer | mem
  · exact .inl timer
  · rcases mem_cons.mp mem with same | mem
    · exact absurd same (other h)
    · exact .inr (mem_append_right _ mem)

theorem Awake.dispatch (awake : Awake sh (.dispatch :: others))
    (registered : sh.exch.vt = some vt) (fits : Fits sh others c .dispatch) :
    Awake (dispatch sh vt c).1 ((dispatch sh vt c).2 ++ others) := by
  have live : sh.exch.vt ≠ none := by simp [registered]
  have armed := awake.armed_others (by simp)
  unfold ExchangeModel.dispatch
  obtain ⟨lim, r, rest, -, popped⟩ | ⟨lim, popped⟩ := popEligible_cases sh.exch c.clock
  · rw [popped]
    refine awake.calling (mem_append_left _ (.head _)) rfl (armed _) rfl rfl ?_
    intro none
    exact absurd none live
  · rw [popped]
    dsimp only
    split_ifs with empty kept
    · refine ⟨fun _ queued => absurd empty queued, armed [], awake.dead, awake.tombstone⟩
    · refine ⟨fun _ queued => ?_, ?_, ?_, ?_⟩
      · rcases kept with dead | set | failed
        · exact absurd (awake.dead.mp dead) live
        · obtain ⟨h, set⟩ := Option.ne_none_iff_exists'.mp set
          rcases armed [] h set with timer | mem
          · exact .inl (ne_nil_of_mem timer)
          · exact .of_frame mem rfl
        · rcases fits with added | none | woken
          · rw [added] at failed
            cases failed
          · exact absurd none empty
          · exact woken
      · intro h set
        rw [armPump_none] at set
        exact armed [] h set
      · simpa using awake.dead
      · simpa using awake.tombstone
    · rw [not_or, not_or, not_not] at kept
      obtain ⟨alive, unset, -⟩ := kept
      refine ⟨fun _ _ => .inl (by simp), ?_, ?_, ?_⟩
      · intro h set
        rw [armPump, if_neg (by simp [alive, unset])] at set
        cases set
        exact .inl (mem_append_right _ (.head _))
      · simpa using awake.dead
      · simpa using awake.tombstone

theorem Awake.submit {r : Req} (awake : Awake sh (.submit r vt :: others))
    (fits : Fits sh others c (.submit r vt)) :
    Awake (act sh c (.submit r vt)).1 ((act sh c (.submit r vt)).2 ++ others) := by
  have armed := awake.armed_others (by simp)
  -- the two exits that do not come back to the dispatch
  have left : ∀ d, (vt.buildRequest = false ∨ vt.submit = false) ∨ c.built = false →
      Awake (deliver sh r d) ([Frame.refund] ++ others) := by
    intro d failed
    refine ⟨fun registered queued => ?_, armed _, awake.dead, awake.tombstone⟩
    rcases fits with ⟨build, submit, built⟩ | empty | woken
    · rw [build, submit, built] at failed
      simp at failed
    · exact absurd empty queued
    · have woken : Woken (deliver sh r d) others := woken
      exact woken.mono fun _ mem _ => mem_append_right _ mem
  simp only [act]
  split_ifs with invalid unbuilt refused
  · exact left _ (.inl invalid)
  · exact left _ (.inr unbuilt)
  · exact awake.calling (mem_append_left _ (.tail _ (.head _))) rfl (armed _) rfl rfl
      awake.tombstone
  · exact awake.calling (mem_append_left _ (.head _)) rfl (armed _) rfl rfl awake.tombstone

theorem Awake.act (awake : Awake sh (f :: others)) (fits : Fits sh others c f) :
    Awake (act sh c f).1 ((act sh c f).2 ++ others) := by
  cases f with
  | request r =>
    cases registered : sh.exch.vt with
    | none =>
      simp only [act, registered]
      exact awake.quiet rfl ⟨rfl, rfl, rfl, rfl⟩ ⟨rfl, rfl, rfl⟩
    | some vt =>
      simp only [act, registered]
      refine awake.calling (mem_append_left _ (.head _)) rfl
        (awake.armed_others (by simp) _) rfl rfl ?_
      intro none
      rw [push_vt, registered] at none
      cases none
  | dispatch =>
    cases registered : sh.exch.vt with
    | none =>
      simp only [act, registered]
      refine ⟨fun live => absurd registered live, awake.armed_others (by simp) _, awake.dead,
        awake.tombstone⟩
    | some vt =>
      simp only [act, registered]
      exact awake.dispatch registered fits
  | submit r vt => exact awake.submit fits
  | refund | register vt => exact awake.quiet rfl ⟨rfl, rfl, rfl, rfl⟩ ⟨rfl, rfl, rfl⟩
  | respond r status =>
    simp only [act]
    refine awake.calling (mem_append_left _ (.head _)) rfl ?_ (account_vt ..)
      (account_dead ..) (by simpa using awake.tombstone)
    simpa using awake.armed_others (by simp) [.settle r status]
  | settle r status =>
    have armed := awake.armed_others (by simp) [.dispatch]
    cases outcome : classifyStatus status with
    | ok | fail =>
      simp only [act, outcome]
      exact awake.calling (mem_append_left _ (.head _)) rfl armed rfl rfl awake.tombstone
    | retry =>
      simp only [act, outcome]
      obtain ⟨d, failed⟩ | ⟨-, set⟩ := armRetry_cases sh r c
      · rw [failed]
        exact awake.calling (mem_append_left _ (.head _)) rfl armed rfl rfl
          awake.tombstone
      · rw [set]
        exact awake.calling (mem_append_left _ (.head _)) rfl armed rfl rfl
          awake.tombstone
  | retry r =>
    have armed := awake.armed_others (by simp)
    cases registered : sh.exch.vt with
    | none =>
      simp only [act, registered]
      exact ⟨fun live => absurd registered live, armed [], awake.dead, awake.tombstone⟩
    | some vt =>
      simp only [act, registered]
      refine awake.calling (mem_append_left _ (.head _)) rfl (armed _) rfl rfl ?_
      intro none
      rw [push_vt, registered] at none
      cases none
  | pump h =>
    refine awake.calling (mem_append_left _ (.head _)) rfl ?_ rfl rfl awake.tombstone
    intro g set
    cases set
  | drain rs =>
    cases rs with
    | nil | cons r rest => exact awake.quiet rfl ⟨rfl, rfl, rfl, rfl⟩ ⟨rfl, rfl, rfl⟩
  | revive vt =>
    have armed := awake.armed_others (by simp) []
    refine ⟨fun _ queued => ?_, armed, by simp [act, revive],
      fun none => by cases none⟩
    by_cases registered : sh.exch.vt = none
    · exact absurd (awake.tombstone registered) queued
    · refine Woken.mono (awake.woken registered queued) fun g mem wake => ?_
      rcases mem_cons.mp mem with rfl | mem
      · cases wake
      · exact mem_append_right _ mem

end Awake

section Runs
variable {s t : Sys}

theorem start_awake (vt : Vtable) (now : ℕ) :
    Awake (start vt now).toShared (start vt now).threads.flatten where
  woken := fun _ queued => absurd rfl queued
  armed := nofun
  dead := by simp [start, fresh]
  tombstone := fun _ => rfl

theorem mem_eraseIdx_or {l : List ℕ} {i h : ℕ} (found : l[i]? = some h) :
    ∀ g ∈ l, g ∈ l.eraseIdx i ∨ g = h := by
  intro g mem
  obtain ⟨j, there⟩ := mem_iff_getElem?.mp mem
  by_cases same : j = i
  · exact .inr (Option.some.inj (there.symm.trans (same ▸ found)))
  · exact .inl (mem_eraseIdx_iff_getElem?.mpr ⟨j, same, there⟩)

variable (awake : Awake s.toShared s.threads.flatten)
include awake

theorem Awake.spawned (frames : List Frame) :
    Awake s.toShared (s.threads ++ [frames]).flatten := by
  rw [flatten_spawn]
  exact ⟨fun registered queued => (awake.woken registered queued).mono
      fun _ mem _ => mem_append_left _ mem,
    fun h set => (awake.armed h set).imp_right (mem_append_left _), awake.dead,
    awake.tombstone⟩

theorem Awake.handed {sh : Shared}
    (wake : wakes f = true) (exch : sh.exch = s.exch)
    (pumps : ∀ h ∈ s.pumps, h ∈ sh.pumps ∨ f = .pump h) :
    Awake sh (s.threads ++ [[f]]).flatten := by
  rw [flatten_spawn]
  refine awake.calling (mem_append_right _ (.head _)) wake ?_ (by rw [exch]) (by rw [exch])
    (by rw [exch]; exact awake.tombstone)
  intro h set
  rw [exch] at set
  rcases awake.armed h set with timer | mem
  · rcases pumps h timer with same | rfl
    · exact .inl same
    · exact .inr (mem_append_right _ (.head _))
  · exact .inr (mem_append_left _ mem)

theorem Awake.step {op : Op} (keeps : Keeps s op)
    (moved : step s op = some t) : Awake t.toShared t.threads.flatten := by
  cases op with
  | request cb path prio =>
    simp only [ExchangeModel.step] at moved
    split_ifs at moved
    · cases moved
      exact { awake with }
    · cases moved
      exact awake.spawned _
  | dispatch | register vt =>
    cases moved
    exact awake.spawned _
  | complete i status | fireRetry i =>
    simp only [ExchangeModel.step] at moved
    split at moved
    next => cases moved
    next r found =>
      cases moved
      exact awake.handed rfl rfl fun h mem => .inl mem
  | firePump i =>
    simp only [ExchangeModel.step] at moved
    split at moved
    next => cases moved
    next h found =>
      cases moved
      refine awake.handed rfl rfl fun g mem => ?_
      rcases mem_eraseIdx_or found g mem with left | rfl
      · exact .inl left
      · exact .inr rfl
  | unregister cancelled =>
    cases moved
    refine ⟨fun live => absurd rfl live, fun h set => ?_, by simp [ExchangeModel.tombstone],
      fun _ => rfl⟩
    cases set
  | turn i c =>
    simp only [ExchangeModel.step] at moved
    split at moved
    next => cases moved
    next f rest found =>
      cases moved
      obtain ⟨before, after⟩ := turn_perm found
      have fits : Fits s.toShared (s.threads.set i rest).flatten c f := keeps (f, rest) found
      exact ((awake.congr before).act fits).congr (after _).symm

theorem Awake.notStranded : NotStranded s := by
  intro outside registered queued
  have held : ∀ {p : Place} {f : Frame} {r : Req}, f ∈ s.threads.flatten → inHand p f = [r] →
      requestsAt s p ≠ [] := by
    intro p f r mem hand
    have there : r ∈ inHand p f := by simp [hand]
    apply ne_nil_of_mem
    exact mem_append_right _ (mem_flatMap.mpr ⟨f, mem, there⟩)
  rcases awake.woken registered queued with pumps | driver | retries | ⟨f, mem, wake⟩
  · exact .inl (.inl pumps)
  · exact .inr (.inl (append_ne_nil_of_left_ne_nil driver _))
  · exact .inr (.inr (append_ne_nil_of_left_ne_nil retries _))
  · have calm := outside f mem
    cases f with
    | respond r status | settle r status => exact .inr (.inl (held mem rfl))
    | retry r => exact .inr (.inr (held mem rfl))
    | pump h => exact .inl (.inr ⟨h, mem⟩)
    | dispatch | submit r vt | refund => cases calm
    | request r | drain rs | register vt | revive vt => cases wake

omit awake

theorem exchange_queue_woken (vt : Vtable) (now : ℕ) (ops : List Op) (s : Sys)
    (run : Run step Keeps (start vt now) ops s) : NotStranded s := by
  have awake := run.invariant (I := fun s => Awake s.toShared s.threads.flatten)
    (fun awake => awake.step) (start_awake vt now)
  exact awake.notStranded

theorem exchange_queue_woken_pump :
    ∃ s, s.exch.vt ≠ none ∧ s.exch.queue = [⟨2, 0, 0, 0⟩] ∧ s.threads.flatten = [] ∧
      s.pumps = [0] ∧ NotStranded s := by
  have run : Run step Keeps (start ⟨true, true, 3, 2⟩ 0)
      (.request true "/a" 0 :: turns 0 3 0 ++ .request true "/b" 0 :: turns 1 1 0 ++
        turns 0 1 0 ++ .turn 0 { granted 0 with built := false } :: turns 0 1 0 ++ turns 1 1 0 ++
        .complete 0 429 :: turns 2 1 0 ++ .turn 2 { granted 0 with deferred := false } ::
        turns 2 1 0 ++ .request true "/c" 0 :: turns 3 2 0) _ :=
    runWhen_get (by decide +kernel)
  refine ⟨_, ?_, ?_, ?_, ?_, exchange_queue_woken _ _ _ _ run⟩
  all_goals decide +kernel

/-- The pump fires for two requests, the first cannot be built, and the second stays queued with
no pump, no request at the driver and no retry. -/
theorem exchange_queue_stranded :
    ∃ ops s, Run step Any (start ⟨true, true, 3, 1⟩ 0) ops s ∧ ¬ NotStranded s := by
  refine ⟨(.request true "/a" 0 :: turns 0 4 0 ++ .request true "/b" 0 :: turns 1 2 0 ++
        .request true "/c" 0 :: turns 2 2 0 ++ .complete 0 200 :: turns 3 3 0 ++
        .firePump 0 :: turns 4 1 0 ++ turns 4 1 1000000000 ++
        .turn 4 { granted 1000000000 with built := false } :: turns 4 1 1000000000), _,
    run_get (by decide +kernel), fun fine => ?_⟩
  rcases fine (by decide +kernel) (by decide +kernel) (by decide +kernel) with
    (timer | ⟨h, mem⟩) | out | waiting
  · exact timer (by decide +kernel)
  · exact eq_nil_iff_forall_not_mem.mp (by decide +kernel) _ mem
  · exact absurd out (by decide +kernel)
  · exact absurd waiting (by decide +kernel)

end Runs

end BotManager.ExchangePump
