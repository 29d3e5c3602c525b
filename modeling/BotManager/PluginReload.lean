import BotManager.PluginClosure

/-! `plugin_reload_locked`: suspend the closure of a plugin from its end, unload it from its
end, load it back and resume it, with a rollback at each refusal. The calls to the suspend
and resume hooks and to `plugin_detach_bots` and `plugin_reattach_bots` are logged.

A refusal to unload resumes the whole closure but for the plugin that refused. That is
right for a zombie. A plugin that was refused while still running has been suspended like
the others, and stays so. -/

namespace BotManager.PluginReload
open List CText PluginRegistry PluginClosure

inductive Call
  | suspend (accepted : Bool) | detach | reattach | resume
  deriving DecidableEq, Repr

structure Sys where
  reg : Registry
  log : List (Bytes × Call)

def Sys.note (name : Bytes) (calls : List Call) (s : Sys) : Sys :=
  { s with log := s.log ++ calls.map fun c => (name, c) }

/-- The plugin lets go, then core takes its bots away. -/
def suspendCalls (d : Desc) : List Call :=
  if d.hasSuspend then [.suspend true, .detach] else [.detach]

/-- Core gives the bots back, then the plugin restores its state. What `resume()` returns
is only logged. -/
def resumeCalls (d : Desc) : List Call :=
  if d.hasResume then [.reattach, .resume] else [.reattach]

def pluginResumeRange (skip : Option Bytes) : List Snap → Sys → Sys
  | [], s => s
  | x :: rest, s =>
    if skip = some x.name then pluginResumeRange skip rest s
    else match findByName x.name s.reg.plugins with
      | none => pluginResumeRange skip rest s
      | some p => pluginResumeRange skip rest (s.note x.name (resumeCalls p.desc))

/-- The snapshots still to suspend, last first, and those done, which a refusal resumes. -/
def pluginSuspendRange (env : Env) : List Snap → List Snap → Sys → Bool × Sys
  | [], _, s => (true, s)
  | x :: rest, done, s =>
    match findByName x.name s.reg.plugins with
    | none => pluginSuspendRange env rest (x :: done) s
    | some p =>
      if p.desc.hasSuspend && !env.suspend x.name then
        (false, pluginResumeRange none done (s.note x.name [.suspend false]))
      else pluginSuspendRange env rest (x :: done) (s.note x.name (suspendCalls p.desc))

def loadRange (env : Env) : List Snap → Registry → ℕ × Registry
  | [], reg => (0, reg)
  | x :: rest, reg =>
    match pluginLoadLocked env x.path reg with
    | (true, reg) => ((loadRange env rest reg).1 + 1, (loadRange env rest reg).2)
    | (false, reg) => loadRange env rest reg

def pluginRestore (env : Env) (snaps : List Snap) (reg : Registry) : ℕ × Registry :=
  let (loaded, reg) := loadRange env snaps reg
  if loaded = 0 then (0, reg)
  else match pluginResolveLocked reg with
    | (false, reg) => (loaded, reg)
    | (true, reg) =>
      match pluginInitAll env reg with
      | (false, reg) => (loaded, reg)
      | (true, reg) => (loaded, (pluginStartAll env reg).2)

def pluginReloadMaxClosure : ℕ := 64

def pluginReloadLocked (env : Env) (name : Bytes) (reg : Registry) : Bool × Sys :=
  if !reg.pluginReady then (false, ⟨reg, []⟩)
  else match reg.plugins.findFinIdx? (·.name = name) with
    | none => (false, ⟨reg, []⟩)
    | some target =>
      let snap := pluginClosure reg.plugins target pluginReloadMaxClosure
      if !(reg.plugins.get target).handle || snap.isEmpty || snap.any (·.path = []) then
        (false, ⟨reg, []⟩)
      else match pluginSuspendRange env snap.reverse [] ⟨reg, []⟩ with
        | (false, s) => (false, s)
        | (true, s) =>
          match unloadDown env snap.reverse [] s.reg with
          | (some refused, down, reg) =>
            let (_, reg) := pluginRestore env down reg
            (false, pluginResumeRange (some refused.name) snap ⟨reg, s.log⟩)
          | (none, _, reg) =>
            let (cycled, reg) := pluginRestore env snap reg
            (snap.length ≤ cycled, pluginResumeRange none snap ⟨reg, s.log⟩)

variable {log : List (Bytes × Call)} {name x : Bytes} {c : Call}

section Counting

def Owes (n : ℕ) (log : List (Bytes × Call)) (d : Desc) : Prop :=
  log.count (d.name, .detach) = log.count (d.name, .reattach) + n ∧
    (d.hasSuspend = true → d.hasResume = true →
      log.count (d.name, .suspend true) = log.count (d.name, .resume) + n)

theorem Owes.unique {n m : ℕ} {d : Desc} (first : Owes n log d)
    (second : Owes m log d) : n = m := by
  have eq := first.1.symm.trans second.1
  omega

theorem count_note (s : Sys) (calls : List Call) :
    (s.note name calls).log.count (x, c) = s.log.count (x, c) +
      if x = name then calls.count c else 0 := by
  simp only [Sys.note, count_append]
  congr 1
  split
  next here =>
    subst here
    exact count_map_of_injective calls _ (fun _ _ same => (Prod.mk.inj same).2) c
  next other =>
    refine count_eq_zero.mpr fun mem => ?_
    obtain ⟨_, _, same⟩ := mem_map.mp mem
    exact other (Prod.mk.inj same).1.symm

variable {s : Sys} {d : Desc} {n : ℕ}

theorem owes_resumed (owes : Owes (n + 1) s.log d) :
    Owes n (s.note d.name (resumeCalls d)).log d := by
  obtain ⟨bots, hooks⟩ := owes
  refine ⟨?_, fun hasSuspend hasResume => ?_⟩
  · have calls : (resumeCalls d).count .detach = 0 ∧ (resumeCalls d).count .reattach = 1 := by
      simp only [resumeCalls]
      split <;> decide
    simp only [count_note, if_true, calls]
    omega
  · have eq := hooks hasSuspend hasResume
    have calls : (resumeCalls d).count (.suspend true) = 0 ∧ (resumeCalls d).count .resume = 1 := by
      simp only [resumeCalls, hasResume, if_true]
      decide
    simp only [count_note, if_true, calls]
    omega

variable (owes : Owes n s.log d)
include owes

theorem owes_suspended :
    Owes (n + 1) (s.note d.name (suspendCalls d)).log d := by
  obtain ⟨bots, hooks⟩ := owes
  refine ⟨?_, fun hasSuspend hasResume => ?_⟩
  · have calls : (suspendCalls d).count .detach = 1 ∧ (suspendCalls d).count .reattach = 0 := by
      simp only [suspendCalls]
      split <;> decide
    simp only [count_note, if_true, calls]
    omega
  · have eq := hooks hasSuspend hasResume
    have calls : (suspendCalls d).count (.suspend true) = 1 ∧ (suspendCalls d).count .resume = 0 := by
      simp only [suspendCalls, hasSuspend, if_true]
      decide
    simp only [count_note, if_true, calls]
    omega

theorem owes_other {name : Bytes} (other : d.name ≠ name) (calls : List Call) :
    Owes n (s.note name calls).log d := by
  simp only [Owes, count_note, if_neg other, Nat.add_zero]
  exact owes

theorem owes_refused (name : Bytes) :
    Owes n (s.note name [.suspend false]).log d := by
  have calls (c : Call) (kept : c ≠ .suspend false) : [Call.suspend false].count c = 0 := by
    exact count_eq_zero.mpr (by simpa using kept)
  simp only [Owes, count_note, calls .detach (by decide), calls .reattach (by decide),
    calls (.suspend true) (by decide), calls .resume (by decide), ite_self, Nat.add_zero]
  exact owes

end Counting

variable {plugins recs : List Rec} {snaps : List Snap} {mid : Registry} {e : Desc}
    {o : Rec} {k' : Bytes → ℕ} {new : Registry}

section Ranges

def Pending (recs : List Rec) (k : Bytes → ℕ) (log : List (Bytes × Call)) : Prop :=
  ∀ o ∈ recs, Owes (k o.name) log o.desc

def Stems (recs plugins : List Rec) : Prop := ∀ p ∈ plugins, ∃ o ∈ recs, p.desc = o.desc

def mentions (l : List Snap) (x : Bytes) : ℕ := (l.map Snap.name).count x

theorem mentions_cons : mentions (y :: l) x = mentions l x + if x = y.name then 1 else 0 := by
  simp only [mentions, map_cons, count_cons, beq_iff_eq]
  congr 2
  exact propext eq_comm

def Passed (skip : Option Bytes) (plugins : List Rec) (x : Bytes) : Prop :=
  skip = some x ∨ findByName x plugins = none

instance (skip : Option Bytes) (plugins : List Rec) (x : Bytes) : Decidable (Passed skip plugins x) :=
  inferInstanceAs (Decidable (_ ∨ _))

def unpaid (skip : Option Bytes) (plugins : List Rec) (l : List Snap) (x : Bytes) : ℕ :=
  if Passed skip plugins x then mentions l x else 0

theorem unpaid_cons :
    unpaid skip plugins (y :: l) x =
      unpaid skip plugins l x + if Passed skip plugins y.name ∧ x = y.name then 1 else 0 := by
  simp only [unpaid, mentions_cons]
  by_cases here : x = y.name
  · subst here
    by_cases passed : Passed skip plugins y.name <;> simp [passed]
  · simp [here]

theorem passed_of_skip_none (named : WellNamed plugins)
    (mem : o ∈ plugins) : ¬ Passed none plugins o.name := by
  rw [Passed, named.find mem]
  simp

variable {l : List Snap} {env : Env} {old : Registry}

theorem unpaid_eq_zero (named : WellNamed plugins)
    (loaded : ∀ x ∈ l, ∃ o ∈ plugins, o.name = x.name) :
    unpaid none plugins l y = 0 := by
  simp only [unpaid]
  split
  next passed =>
    refine count_eq_zero.mpr fun mention => ?_
    obtain ⟨z, mem, rfl⟩ := mem_map.mp mention
    obtain ⟨o, memo, same⟩ := loaded z mem
    exact passed_of_skip_none named memo (same ▸ passed)
  next => rfl

theorem Pending.congr {k : Bytes → ℕ}
    (pending : Pending recs k log) (same : ∀ x, k x = k' x) : Pending recs k' log := by
  intro o mem
  rw [← same]
  exact pending o mem

variable {recs : List Rec} {s : Sys} {k : Bytes → ℕ}

theorem pending_note (named : WellNamed recs) (mem : o ∈ recs)
    {calls : List Call} (pending : Pending recs k s.log)
    (here : Owes (k o.name) s.log o.desc → Owes (k' o.name) (s.note o.name calls).log o.desc)
    (others : ∀ x, x ≠ o.name → k' x = k x) : Pending recs k' (s.note o.name calls).log := by
  intro r memr
  by_cases same : r.name = o.name
  · obtain rfl := inj_on_of_nodup_map named memr mem same
    exact here (pending r memr)
  · rw [others r.name same]
    exact owes_other (pending r memr) same calls

theorem reg_resumeRange (s : Sys) : (pluginResumeRange skip l s).reg = s.reg := by
  induction l generalizing s with
  | nil => rfl
  | cons x rest ih =>
    simp only [pluginResumeRange]
    split
    · exact ih s
    · split
      · exact ih s
      · exact ih _

theorem pending_resumeRange (named : WellNamed recs) (stems : Stems recs s.reg.plugins)
    (skip : Option Bytes) (pending : Pending recs (fun x => mentions l x + k x) s.log) :
    Pending recs (fun x => k x + unpaid skip s.reg.plugins l x) (pluginResumeRange skip l s).log := by
  induction l generalizing s k with
  | nil => exact pending.congr fun x => by simp [mentions, unpaid]
  | cons y rest ih =>
    -- A snapshot that is passed over stays owed: it moves from the range to the rest.
    have passes (passed : Passed skip s.reg.plugins y.name) :
        Pending recs (fun x => k x + unpaid skip s.reg.plugins (y :: rest) x)
          (pluginResumeRange skip rest s).log := by
      have moved : Pending recs (fun x => mentions rest x + (k x + if x = y.name then 1 else 0)) s.log :=
        pending.congr fun x => by rw [mentions_cons]; omega
      refine (ih stems moved).congr fun x => ?_
      simp only [unpaid_cons, passed, true_and]
      omega
    simp only [pluginResumeRange]
    split
    next skipped => exact passes (.inl skipped)
    next kept =>
      split
      next missing => exact passes (.inr missing)
      next p found =>
        obtain ⟨memp, namep⟩ := name_of_find found
        obtain ⟨o, memo, desc⟩ := stems p memp
        have name : o.name = y.name := by rw [← namep, Rec.name, Rec.name, desc]
        have paid : Pending recs (fun x => mentions rest x + k x)
            (s.note y.name (resumeCalls p.desc)).log := by
          rw [← name, desc]
          refine pending_note named memo pending (fun owes => owes_resumed ?_) fun x other => ?_
          · simp only [mentions_cons, name, if_true] at owes
            rwa [Nat.add_right_comm, ← name] at owes
          · simp only [mentions_cons, ← name, if_neg other, Nat.add_zero]
        have stems' : Stems recs (s.note y.name (resumeCalls p.desc)).reg.plugins := stems
        refine (ih stems' paid).congr fun x => ?_
        have loaded : ¬ Passed skip s.reg.plugins y.name := by
          rw [Passed, found]
          simpa using kept
        simp only [unpaid_cons, loaded, false_and, if_false, Nat.add_zero]
        rfl

theorem pending_suspendRange (env : Env) (named : WellNamed s.reg.plugins)
    {done : List Snap}
    (loaded : ∀ x ∈ done, ∃ o ∈ s.reg.plugins, o.name = x.name)
    (loaded' : ∀ x ∈ todo, ∃ o ∈ s.reg.plugins, o.name = x.name)
    (pending : Pending s.reg.plugins (mentions done) s.log) :
    (pluginSuspendRange env todo done s).2.reg = s.reg ∧
      Pending s.reg.plugins (if (pluginSuspendRange env todo done s).1 then
        mentions (todo.reverse ++ done) else fun _ => 0) (pluginSuspendRange env todo done s).2.log := by
  induction todo generalizing done s with
  | nil => exact ⟨rfl, pending⟩
  | cons x rest ih =>
    obtain ⟨o, mem, name⟩ := loaded' x mem_cons_self
    have found : findByName x.name s.reg.plugins = some o := name ▸ named.find mem
    simp only [pluginSuspendRange, found]
    split
    next refused =>
      have noted : Pending s.reg.plugins (fun y => mentions done y + 0)
          (s.note x.name [.suspend false]).log := fun r memr => owes_refused (pending r memr) x.name
      have stems : Stems s.reg.plugins (s.note x.name [.suspend false]).reg.plugins :=
        fun p memp => ⟨p, memp, rfl⟩
      refine ⟨reg_resumeRange _, (pending_resumeRange named stems none noted).congr fun y => ?_⟩
      have nothing : unpaid none (s.note x.name [.suspend false]).reg.plugins done y = 0 :=
        unpaid_eq_zero named loaded
      rw [nothing]
      rfl
    next accepted =>
      have noted : Pending s.reg.plugins (mentions (x :: done))
          (s.note x.name (suspendCalls o.desc)).log := by
        rw [← name]
        refine pending_note named mem pending (fun owes => ?_) fun y other => ?_
        · rw [mentions_cons, name, if_pos rfl, ← name]
          exact owes_suspended owes
        · rw [mentions_cons, ← name, if_neg other, Nat.add_zero]
      have loaded'' : ∀ y ∈ x :: done, ∃ r ∈ s.reg.plugins, r.name = y.name := by
        intro y memy
        rcases mem_cons.mp memy with rfl | old
        · exact ⟨o, mem, name⟩
        · exact loaded y old
      have next := ih (s := s.note x.name (suspendCalls o.desc)) named loaded''
        (fun y memy => loaded' y (.tail _ memy)) noted
      rw [reverse_cons, append_assoc]
      exact next

end Ranges

section Restore

def shadow (p : Rec) : Desc × Bool := (p.desc, p.state = .zombie)

theorem shadow_sweep {source target : PluginState} (alive : source ≠ .zombie)
    (alive' : target ≠ .zombie) :
    (sweep source target hook plugins).2.map shadow = plugins.map shadow := by
  induction plugins with
  | nil => rfl
  | cons p rest ih =>
    simp only [sweep]
    split
    next here =>
      split
      · have same : shadow { p with state := target } = shadow p := by
          simp [shadow, here, alive, alive']
        simp only [map_cons, ih, same]
      · rfl
    next => simp only [map_cons, ih]

structure Restores (env : Env) (snaps : List Snap) (old new : Registry) : Prop where
  kept : ∀ p ∈ old.plugins, shadow p ∈ new.plugins.map shadow
  origin : ∀ p ∈ new.plugins, shadow p ∈ old.plugins.map shadow ∨
    (p.desc.name ∉ old.plugins.map Rec.name ∧ ∃ x ∈ snaps, env.dlopen x.path = some p.desc)

theorem Restores.refl (env : Env) (snaps : List Snap) (reg : Registry) : Restores env snaps reg reg :=
  ⟨fun _ mem => mem_map_of_mem mem, fun _ mem => .inl (mem_map_of_mem mem)⟩

theorem Restores.shadows (restores : Restores env snaps old mid)
    (same : (new.plugins.map shadow).Perm (mid.plugins.map shadow)) :
    Restores env snaps old new := by
  refine ⟨fun p mem => same.mem_iff.mpr (restores.kept p mem), fun p mem => ?_⟩
  obtain ⟨q, memq, eq⟩ := mem_map.mp (same.mem_iff.mp (mem_map_of_mem mem))
  have desc : q.desc = p.desc := (Prod.mk.inj eq).1
  rw [← eq, ← desc]
  exact restores.origin q memq

theorem Restores.load {x : Snap} (restores : Restores env snaps old mid) (mem : x ∈ snaps) :
    Restores env snaps old (pluginLoadLocked env x.path mid).2 := by
  rcases pluginLoadLocked_cases env x.path mid with same | ⟨desc, opened, fresh, result⟩
  · rw [same]
    exact restores
  · rw [result]
    refine ⟨fun p memp => mem_cons_of_mem _ (restores.kept p memp), fun p memp => ?_⟩
    rcases mem_cons.mp memp with rfl | old
    · refine .inr ⟨fun known => ?_, x, mem, opened⟩
      obtain ⟨q, memq, name⟩ := mem_map.mp known
      obtain ⟨r, memr, eq⟩ := mem_map.mp (restores.kept q memq)
      have named : r.name = desc.name := by
        rw [Rec.name, (Prod.mk.inj eq).1]
        exact name
      exact absurd (find?_eq_none.mp fresh r memr) (by simp [named])
    · exact restores.origin p old

theorem Restores.loadRange (sub : l ⊆ snaps) (restores : Restores env snaps old mid) :
    Restores env snaps old (loadRange env l mid).2 := by
  induction l generalizing mid with
  | nil => exact restores
  | cons x rest ih =>
    have loaded := restores.load (sub mem_cons_self)
    have rest_sub : rest ⊆ snaps := fun y mem => sub (.tail _ mem)
    simp only [PluginReload.loadRange]
    split
    next reg result =>
      rw [result] at loaded
      exact ih rest_sub loaded
    next reg result =>
      rw [result] at loaded
      exact ih rest_sub loaded

theorem restores_initAll (restores : Restores env snaps old mid) :
    Restores env snaps old (pluginInitAll env mid).2 := by
  refine restores.shadows (List.Perm.of_eq ?_)
  simp only [pluginInitAll]
  split
  · rfl
  · exact shadow_sweep (by decide) (by decide)

theorem restores_startAll (restores : Restores env snaps old mid) :
    Restores env snaps old (pluginStartAll env mid).2 := by
  refine restores.shadows (List.Perm.of_eq ?_)
  simp only [pluginStartAll]
  split
  · rfl
  · exact shadow_sweep (by decide) (by decide)

theorem restores_pluginRestore (env : Env) (snaps : List Snap) (reg : Registry) :
    Restores env snaps reg (pluginRestore env snaps reg).2 := by
  have loaded := (Restores.refl env snaps reg).loadRange (List.Subset.refl snaps)
  have resolved := loaded.shadows (PluginResolve.perm_resolve.map shadow)
  have started := restores_startAll (restores_initAll resolved)
  have initialised := restores_initAll resolved
  simp only [pluginRestore]
  split
  · exact loaded
  · split
    next result =>
      rw [result] at resolved
      exact resolved
    next result =>
      rw [result] at initialised started
      split
      next result' =>
        rw [result'] at initialised
        exact initialised
      next result' =>
        rw [result'] at started
        exact started

theorem Restores.stems (restores : Restores env snaps old new)
    (stems : Stems recs old.plugins)
    (disk : ∀ p ∈ recs, ∀ d, env.dlopen p.path = some d → d = p.desc)
    (source : ∀ x ∈ snaps, ∃ o ∈ recs, x = snapOf o) : Stems recs new.plugins := by
  intro p mem
  rcases restores.origin p mem with old | ⟨_, x, memx, opened⟩
  · obtain ⟨q, memq, eq⟩ := mem_map.mp old
    obtain ⟨o, memo, desc⟩ := stems q memq
    exact ⟨o, memo, (Prod.mk.inj eq).1.symm.trans desc⟩
  · obtain ⟨o, memo, rfl⟩ := source x memx
    exact ⟨o, memo, disk o memo _ opened⟩

end Restore

end BotManager.PluginReload
