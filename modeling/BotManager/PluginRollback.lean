import BotManager.PluginReload

/-! Whether a reload that fails leaves something suspended. Two rollbacks are balanced: the
one after a refused suspend, and the one after an unload that ends in a zombie. An unload
refused before anything was torn down leaves the plugin running, suspended once and never
resumed; so the reload is balanced exactly when that is not how it stops. -/

namespace BotManager.PluginRollback
open List CText PluginRegistry PluginClosure PluginReload

def remaining (plugins : List Rec) (after : List Snap) : List Rec :=
  plugins.filter (·.name ∉ after.map Snap.name)

abbrev without (reg : Registry) (after : List Snap) : Registry :=
  { reg with plugins := remaining reg.plugins after }

/-- The member is refused without being touched, and is not a zombie already. -/
def Intact (env : Env) (plugins : List Rec) (x : Snap) (after : List Snap) : Prop :=
  ∃ target, findByName x.name plugins = some target ∧ target.state ≠ .zombie ∧
    refusesIntact env target (remaining plugins after) = true

def Stops (env : Env) (plugins : List Rec) (x : Snap) (after : List Snap) : Prop :=
  ∃ target, findByName x.name plugins = some target ∧
    (refusesIntact env target (remaining plugins after) = true ∨ 0 < env.pluginAudit x.name)

structure Reaches (env : Env) (name : Bytes) (reg : Registry) (target : Fin reg.plugins.length) :
    Prop where
  ready : reg.pluginReady = true
  found : reg.plugins.findFinIdx? (·.name = name) = some target
  loadable : (reg.plugins.get target).handle = true
  within : pluginClosure reg.plugins target pluginReloadMaxClosure ≠ []
  paths : ∀ x ∈ pluginClosure reg.plugins target pluginReloadMaxClosure, x.path ≠ []
  suspends : ∀ x ∈ pluginClosure reg.plugins target pluginReloadMaxClosure, ∀ o,
    findByName x.name reg.plugins = some o → o.desc.hasSuspend = true → env.suspend x.name = true

/-- Whatever the teardown would find intact, it is stopped before by another. -/
def Spared (env : Env) (name : Bytes) (reg : Registry) : Prop :=
  ∀ target, Reaches env name reg target → ∀ before x after,
    pluginClosure reg.plugins target pluginReloadMaxClosure = before ++ x :: after →
      Intact env reg.plugins x after → ∃ a y b, after = a ++ y :: b ∧ Stops env reg.plugins y b

/-- A failed reload has resumed whatever it suspended of what is loaded and no zombie. -/
def NothingLeftSuspended (result : Bool × Sys) : Prop :=
  result.1 = false → ∀ p ∈ result.2.reg.plugins, p.state ≠ .zombie → Owes 0 result.2.log p.desc

structure Drawn (plugins : List Rec) (c : List Snap) : Prop where
  nodup : (c.map Snap.name).Nodup
  source : ∀ x ∈ c, ∃ o ∈ plugins, x = snapOf o

variable {plugins : List Rec} {c after down before : List Snap} {target : Rec} {x : Snap}
    {next : Registry}

theorem drawn_pluginClosure (named : WellNamed plugins) (target : Fin plugins.length) (cap : ℕ) :
    Drawn plugins (pluginClosure plugins target cap) := by
  simp only [pluginClosure]
  split
  · exact ⟨nodup_nil, fun x mem => by cases mem⟩
  · refine ⟨?_, fun x mem => ?_⟩
    · rw [map_map]
      refine List.Nodup.map (fun i j same => named.index same) ?_
      exact (lists_marked target).sorted.imp ne_of_lt
    · obtain ⟨i, _, rfl⟩ := mem_map.mp mem
      exact ⟨_, get_mem _ i, rfl⟩

theorem Drawn.loaded (drawn : Drawn plugins c) : ∀ x ∈ c, ∃ o ∈ plugins, o.name = x.name := by
  intro x mem
  obtain ⟨o, memo, rfl⟩ := drawn.source x mem
  exact ⟨o, memo, rfl⟩

section Teardown

variable {env : Env} {reg : Registry}

theorem find_remaining (named : WellNamed plugins) (found : findByName x.name plugins = some target)
    (here : x.name ∉ after.map Snap.name) :
    findByName x.name (remaining plugins after) = some target := by
  obtain ⟨mem, name⟩ := name_of_find found
  have there : target ∈ remaining plugins after :=
    mem_filter.mpr ⟨mem, by simpa [name] using here⟩
  have still := (named.sublist filter_sublist).find there
  rwa [name] at still

theorem Drawn.split (named : WellNamed plugins) {a b : List Snap}
    (drawn : Drawn plugins (a ++ x :: b)) : Drawn plugins b ∧ x.name ∉ b.map Snap.name ∧
      ∃ target, findByName x.name plugins = some target := by
  have names := drawn.nodup
  rw [map_append, map_cons, nodup_append] at names
  obtain ⟨here, later⟩ := nodup_cons.mp names.2.1
  obtain ⟨o, mem, eq⟩ := drawn.source x (by simp)
  refine ⟨⟨later, fun y memy => drawn.source y (by simp [memy])⟩, here, o, ?_⟩
  rw [eq]
  exact named.find mem

theorem unloadDown_refused {l down' : List Snap} {reg : Registry}
    (h : unloadDown env l down reg = (some x, down', next)) :
    ∃ first rest mid, l = first ++ x :: rest ∧ unloadDown env first down reg = (none, down', mid) ∧
      pluginUnloadLocked env x.name mid = (false, next) := by
  induction l generalizing down reg with
  | nil => cases h
  | cons y rest ih =>
    simp only [unloadDown] at h
    split at h
    next mid result =>
      obtain ⟨first, tail, mid', rfl, passed, refused⟩ := ih h
      refine ⟨y :: first, tail, mid', rfl, ?_, refused⟩
      simp only [unloadDown, result]
      exact passed
    next mid result =>
      obtain ⟨same, rest_eq⟩ := Prod.mk.inj h
      cases rest_eq
      cases same
      exact ⟨[], rest, reg, rfl, rfl, result⟩

variable (ready : reg.pluginReady = true) (named : WellNamed reg.plugins)
include ready named

theorem unloadDown_remaining
    (h : unloadDown env after.reverse [] reg = (none, down, next)) :
    down = after ∧ next = without reg after := by
  obtain ⟨rfl, rfl⟩ := unloadDown_success ready named h
  refine ⟨by simp, ?_⟩
  simp only [without, remaining, map_reverse, mem_reverse]

theorem unload_remaining (env : Env) (found : findByName x.name reg.plugins = some target)
    (here : x.name ∉ after.map Snap.name) :
    (refusesIntact env target (remaining reg.plugins after) = true ∧
      pluginUnloadLocked env x.name (without reg after) = (false, without reg after)) ∨
    (refusesIntact env target (remaining reg.plugins after) = false ∧ 0 < env.pluginAudit x.name ∧
      pluginUnloadLocked env x.name (without reg after) =
        (false, { reg with plugins := (remaining reg.plugins after).map fun p =>
          if p.name = x.name then { p with state := .zombie } else p })) ∨
    (¬ Stops env reg.plugins x after ∧
      ∃ next, pluginUnloadLocked env x.name (without reg after) = (true, next)) := by
  have there := find_remaining named found here
  have ready' : (without reg after).pluginReady = true := ready
  rcases pluginUnloadLocked_cases env x.name ready' with
    ⟨missing, _⟩ | ⟨q, foundq, ⟨refused, result⟩ | ⟨passed, audit, result⟩ | ⟨passed, audit, result⟩⟩
  · rw [show findByName x.name _ = some target from there] at missing
    cases missing
  · cases there.symm.trans foundq
    exact .inl ⟨refused, result⟩
  · cases there.symm.trans foundq
    exact .inr (.inl ⟨passed, audit, result⟩)
  · cases there.symm.trans foundq
    refine .inr (.inr ⟨?_, _, result⟩)
    rintro ⟨r, foundr, stops⟩
    cases found.symm.trans foundr
    rcases stops with refused | residual
    · rw [show refusesIntact env target _ = false from passed] at refused
      cases refused
    · omega

theorem unloadDown_cons {mid : Registry}
    (h : unloadDown env after.reverse [] reg = (none, down, mid)) :
    unloadDown env (x :: after).reverse [] reg =
      match pluginUnloadLocked env x.name (without reg after) with
      | (true, next) => (none, x :: after, next)
      | (false, next) => (some x, after, next) := by
  obtain ⟨rfl, rfl⟩ := unloadDown_remaining ready named h
  rw [reverse_cons, unloadDown_append, h]
  rfl

theorem unloadDown_of_not_stops (drawn : Drawn reg.plugins after)
    (free : ∀ a x b, after = a ++ x :: b → ¬ Stops env reg.plugins x b) :
    ∃ down next, unloadDown env after.reverse [] reg = (none, down, next) := by
  induction after with
  | nil => exact ⟨[], reg, rfl⟩
  | cons x rest ih =>
    obtain ⟨drawn', here, target, found⟩ := Drawn.split named (a := []) drawn
    obtain ⟨down, mid, unloaded⟩ := ih drawn' fun a y b split => free (x :: a) y b (by rw [split]; rfl)
    have clear := free [] x rest rfl
    rw [unloadDown_cons ready named unloaded]
    rcases unload_remaining ready named env found here with
      ⟨refused, _⟩ | ⟨_, audit, _⟩ | ⟨_, next, result⟩
    · exact absurd ⟨target, found, .inl refused⟩ clear
    · exact absurd ⟨target, found, .inr audit⟩ clear
    · exact ⟨x :: rest, next, by rw [result]⟩

theorem not_stops_of_unloadDown (drawn : Drawn reg.plugins after)
    (h : unloadDown env after.reverse [] reg = (none, down, next)) :
    ∀ a x b, after = a ++ x :: b → ¬ Stops env reg.plugins x b := by
  rintro a x b rfl
  obtain ⟨_, here, target, found⟩ := drawn.split named
  have order : (a ++ x :: b).reverse = (x :: b).reverse ++ a.reverse := by simp
  rw [order, unloadDown_append] at h
  cases first : unloadDown env b.reverse [] reg with
  | mk stopped rest =>
    cases stopped with
    | some y =>
      rw [reverse_cons, unloadDown_append, first] at h
      cases h
    | none =>
      rw [unloadDown_cons ready named first] at h
      rcases unload_remaining ready named env found here with
        ⟨_, result⟩ | ⟨_, _, result⟩ | ⟨clear, _⟩
      · rw [result] at h
        cases h
      · rw [result] at h
        cases h
      · exact clear

end Teardown

section Reload

variable {env : Env} {name : Bytes} {reg : Registry}

theorem suspendRange_iff {todo done : List Snap} {s : Sys} :
    (pluginSuspendRange env todo done s).1 = true ↔ ∀ x ∈ todo, ∀ o,
      findByName x.name s.reg.plugins = some o → o.desc.hasSuspend = true → env.suspend x.name = true := by
  induction todo generalizing done s with
  | nil => simp [pluginSuspendRange]
  | cons x rest ih =>
    simp only [pluginSuspendRange, forall_mem_cons]
    cases found : findByName x.name s.reg.plugins with
    | none => simp [ih]
    | some o =>
      by_cases refused : (o.desc.hasSuspend && !env.suspend x.name) = true
      · simp only [if_pos refused, Bool.false_eq_true, false_iff]
        simp only [Bool.and_eq_true, Bool.not_eq_true'] at refused
        intro all
        rw [all.1 o rfl refused.1] at refused
        cases refused.2
      · simp only [if_neg refused, ih]
        have accepted : ∀ p, some o = some p → p.desc.hasSuspend = true → env.suspend x.name = true := by
          intro p same has
          cases same
          simpa [has] using refused
        exact ⟨fun later => ⟨accepted, later⟩, fun all => all.2⟩

theorem pending_nil (recs : List Rec) : Pending recs (fun _ => 0) [] :=
  fun _ _ => ⟨rfl, fun _ _ => rfl⟩

variable {log : List (Bytes × Call)}

theorem owes_after {recs : List Rec} (named : WellNamed recs) (stems : Stems recs next.plugins)
    (pending : Pending recs (mentions c) log) (skip : Option Bytes)
    {p : Rec} (mem : p ∈ next.plugins) :
    Owes (if skip = some p.name then mentions c p.name else 0)
      (pluginResumeRange skip c ⟨next, log⟩).log p.desc := by
  obtain ⟨o, memo, desc⟩ := stems p mem
  have name : o.name = p.name := by rw [Rec.name, Rec.name, desc]
  have paid := pending_resumeRange (s := ⟨next, log⟩) (k := fun _ => 0) named stems skip pending o memo
  have there : findByName p.name next.plugins ≠ none := by
    intro missing
    exact absurd (find?_eq_none.mp missing p mem) (by simp)
  simp only [unpaid, Passed, there, or_false, Nat.zero_add, name] at paid
  rw [desc]
  exact paid

theorem stems_remaining : Stems plugins (remaining plugins after) :=
  fun p mem => ⟨p, mem_of_mem_filter mem, rfl⟩

theorem mentions_member (drawn : Drawn plugins (before ++ x :: after)) :
    mentions (before ++ x :: after) x.name = 1 :=
  count_eq_one_of_mem drawn.nodup (by simp)

variable (named : WellNamed reg.plugins)
include named

theorem suspend_closure (env : Env) (drawn : Drawn reg.plugins c) :
    (pluginSuspendRange env c.reverse [] ⟨reg, []⟩).2.reg = reg ∧
      Pending reg.plugins (if (pluginSuspendRange env c.reverse [] ⟨reg, []⟩).1 then mentions c
        else fun _ => 0) (pluginSuspendRange env c.reverse [] ⟨reg, []⟩).2.log := by
  have none : ∀ x ∈ ([] : List Snap), ∃ o ∈ reg.plugins, o.name = x.name := nofun
  have spec := pending_suspendRange (s := ⟨reg, []⟩) env named none
    (fun x mem => drawn.loaded x (mem_reverse.mp mem)) (pending_nil reg.plugins)
  simpa using spec

theorem reload_stopped (stopped : ¬ ∃ target, Reaches env name reg target) :
    ∃ s, pluginReloadLocked env name reg = (false, s) ∧ s.reg = reg ∧
      Pending reg.plugins (fun _ => 0) s.log := by
  simp only [pluginReloadLocked]
  split
  · exact ⟨_, rfl, rfl, pending_nil _⟩
  next ready =>
    split
    · exact ⟨_, rfl, rfl, pending_nil _⟩
    next target found =>
      split
      · exact ⟨_, rfl, rfl, pending_nil _⟩
      next checks =>
        have suspended := suspend_closure named env (drawn_pluginClosure named target pluginReloadMaxClosure)
        split
        next s refused =>
          rw [refused] at suspended
          exact ⟨s, rfl, suspended⟩
        next s accepted =>
          simp only [Bool.or_eq_true, not_or, Bool.not_eq_true, Bool.not_eq_false', any_eq_false,
            decide_eq_true_eq, isEmpty_eq_false_iff] at checks
          refine absurd ⟨target, by simpa using ready, found, checks.1.1, checks.1.2, checks.2, ?_⟩ stopped
          have all := congrArg Prod.fst accepted
          exact fun x mem => suspendRange_iff.mp all x (mem_reverse.mpr mem)

theorem reload_reached {target : Fin reg.plugins.length} (reaches : Reaches env name reg target)
    (closure : pluginClosure reg.plugins target pluginReloadMaxClosure = c) :
    ∃ log, Pending reg.plugins (mentions c) log ∧ pluginReloadLocked env name reg =
      match unloadDown env c.reverse [] reg with
      | (some refused, down, next) =>
        (false, pluginResumeRange (some refused.name) c ⟨(pluginRestore env down next).2, log⟩)
      | (none, _, next) => (decide (c.length ≤ (pluginRestore env c next).1),
          pluginResumeRange none c ⟨(pluginRestore env c next).2, log⟩) := by
  obtain ⟨ready, found, loadable, within, paths, suspends⟩ := reaches
  have drawn := drawn_pluginClosure named target pluginReloadMaxClosure
  rw [closure] at within paths suspends drawn
  obtain ⟨same, pending⟩ := suspend_closure named env drawn
  cases result : pluginSuspendRange env c.reverse [] ⟨reg, []⟩ with
  | mk ok s =>
    have accepted : ok = true := by
      have all : (pluginSuspendRange env c.reverse [] ⟨reg, []⟩).1 = true :=
        suspendRange_iff.mpr fun x mem => suspends x (mem_reverse.mp mem)
      exact (congrArg Prod.fst result).symm.trans all
    subst accepted
    rw [result] at same pending
    refine ⟨s.log, pending, ?_⟩
    have checks : (!(reg.plugins.get target).handle || c.isEmpty || c.any (·.path = [])) = false := by
      simp only [Bool.or_eq_false_iff, Bool.not_eq_false', any_eq_false, decide_eq_true_eq,
        isEmpty_eq_false_iff]
      exact ⟨⟨loadable, within⟩, paths⟩
    simp only [pluginReloadLocked, ready, found, closure, checks, result, Bool.not_true,
      Bool.false_eq_true, if_false]
    have reg_eq : s.reg = reg := same
    cases down : unloadDown env c.reverse [] reg with
    | mk stopped rest =>
      cases stopped with
      | none | some refused => simp only [reg_eq, down]

theorem refused_leaves (ready : reg.pluginReady = true)
    (found : findByName x.name reg.plugins = some target) (here : x.name ∉ after.map Snap.name)
    (refused : pluginUnloadLocked env x.name (without reg after) = (false, next)) :
    x.name ∈ next.plugins.map Rec.name ∧ Stems reg.plugins next.plugins ∧
      ∀ q ∈ next.plugins, q.name = x.name → q.state ≠ .zombie → Intact env reg.plugins x after := by
  obtain ⟨mem, name⟩ := name_of_find (find_remaining named found here)
  rcases unload_remaining ready named env found here with
    ⟨refuses, result⟩ | ⟨_, _, result⟩ | ⟨_, _, result⟩
  · obtain rfl := (Prod.mk.inj (result.symm.trans refused)).2
    refine ⟨mem_map.mpr ⟨target, mem, name⟩, stems_remaining, fun q memq same alive => ?_⟩
    have eq : q = target := inj_on_of_nodup_map named (mem_of_mem_filter memq)
      (mem_of_mem_filter mem) (same.trans name.symm)
    exact ⟨target, found, eq ▸ alive, refuses⟩
  · obtain rfl := (Prod.mk.inj (result.symm.trans refused)).2
    refine ⟨?_, fun p memp => ?_, fun q memq same alive => ?_⟩
    · refine mem_map.mpr ⟨{ target with state := .zombie }, mem_map.mpr ⟨target, mem, ?_⟩, name⟩
      rw [if_pos name]
    · obtain ⟨r, memr, rfl⟩ := mem_map.mp memp
      refine ⟨r, mem_of_mem_filter memr, ?_⟩
      split <;> rfl
    · obtain ⟨r, _, rfl⟩ := mem_map.mp memq
      by_cases other : r.name = x.name
      · rw [if_pos other] at alive
        exact absurd rfl alive
      · rw [if_neg other] at same
        exact absurd same other
  · rw [result] at refused
    cases refused

theorem unloadDown_intact (ready : reg.pluginReady = true)
    (drawn : Drawn reg.plugins (before ++ x :: after))
    (free : ∀ a y b, after = a ++ y :: b → ¬ Stops env reg.plugins y b)
    (found : findByName x.name reg.plugins = some target)
    (refuses : refusesIntact env target (remaining reg.plugins after) = true) :
    unloadDown env (before ++ x :: after).reverse [] reg =
      (some x, after, without reg after) := by
  obtain ⟨drawn', here, _⟩ := drawn.split named
  obtain ⟨down, mid, unloaded⟩ := unloadDown_of_not_stops ready named drawn' free
  have order : (before ++ x :: after).reverse = (x :: after).reverse ++ before.reverse := by simp
  rw [order, unloadDown_append, unloadDown_cons ready named unloaded]
  rcases unload_remaining ready named env found here with ⟨_, result⟩ | ⟨passed, _⟩ | ⟨clear, _⟩
  · rw [result]
  · rw [refuses] at passed
    cases passed
  · exact absurd ⟨target, found, .inl refuses⟩ clear

variable (disk : ∀ p ∈ reg.plugins, ∀ d, env.dlopen p.path = some d → d = p.desc)
include disk

theorem owes_after_refused (ready : reg.pluginReady = true)
    (drawn : Drawn reg.plugins (before ++ x :: after))
    (pending : Pending reg.plugins (mentions (before ++ x :: after)) log)
    (refused : pluginUnloadLocked env x.name (without reg after) = (false, next))
    {p : Rec} (mem : p ∈ (pluginRestore env after next).2.plugins)
    (alive : p.state ≠ .zombie) (touched : ¬ Intact env reg.plugins x after) :
    Owes 0 (pluginResumeRange (some x.name) (before ++ x :: after)
      ⟨(pluginRestore env after next).2, log⟩).log p.desc := by
  obtain ⟨drawn', here, o, found⟩ := drawn.split named
  obtain ⟨there, stems, live⟩ := refused_leaves named ready found here refused
  have restores := restores_pluginRestore env after next
  have owes := owes_after named (restores.stems stems disk drawn'.source) pending (some x.name) mem
  have other : x.name ≠ p.name := by
    intro same
    rcases restores.origin p mem with old | ⟨fresh, _⟩
    · obtain ⟨q, memq, eq⟩ := mem_map.mp old
      have desc : q.desc = p.desc := (Prod.mk.inj eq).1
      refine touched (live q memq (by rw [Rec.name, desc, same]; rfl) fun dead => alive ?_)
      simpa [dead] using (Prod.mk.inj eq).2
    · rw [same] at there
      exact fresh there
  rwa [if_neg (fun eq => other (Option.some.inj eq))] at owes

theorem spared_of_balanced
    (balanced : NothingLeftSuspended (pluginReloadLocked env name reg)) : Spared env name reg := by
  intro target reaches before x after split intact
  by_contra unstopped
  have free : ∀ a y b, after = a ++ y :: b → ¬ Stops env reg.plugins y b :=
    fun a y b eq stops => unstopped ⟨a, y, b, eq, stops⟩
  have drawn := drawn_pluginClosure named target pluginReloadMaxClosure
  rw [split] at drawn
  obtain ⟨o, found, alive, refuses⟩ := intact
  obtain ⟨drawn', here, _⟩ := drawn.split named
  obtain ⟨log, pending, reload⟩ := reload_reached named reaches split
  rw [unloadDown_intact named reaches.ready drawn free found refuses] at reload
  -- The refused plugin is still loaded after the restore, and alive.
  obtain ⟨mem, nameo⟩ := name_of_find (find_remaining named found here)
  have restores := restores_pluginRestore env after (without reg after)
  obtain ⟨p, memp, eq⟩ := mem_map.mp (restores.kept o mem)
  have desc : p.desc = o.desc := (Prod.mk.inj eq).1
  have namep : p.name = x.name := by
    rw [Rec.name, desc]
    exact nameo
  have alive' : p.state ≠ .zombie := by
    have same := (Prod.mk.inj eq).2
    simpa [alive] using same
  have stems := restores.stems stems_remaining disk drawn'.source
  have owes := owes_after named stems pending (some x.name) memp
  rw [if_pos (by rw [namep]), namep, mentions_member drawn] at owes
  have paid := balanced (by rw [reload]) p (by rw [reload, reg_resumeRange]; exact memp) alive'
  rw [reload] at paid
  cases owes.unique paid

theorem balanced_of_spared (spared : Spared env name reg) :
    NothingLeftSuspended (pluginReloadLocked env name reg) := by
  intro failed p mem alive
  by_cases reached : ∃ target, Reaches env name reg target
  · obtain ⟨target, reaches⟩ := reached
    obtain ⟨c, closure⟩ : ∃ c, pluginClosure reg.plugins target pluginReloadMaxClosure = c := ⟨_, rfl⟩
    have drawn := drawn_pluginClosure named target pluginReloadMaxClosure
    rw [closure] at drawn
    obtain ⟨log, pending, reload⟩ := reload_reached named reaches closure
    cases result : unloadDown env c.reverse [] reg with
    | mk stopped rest =>
      obtain ⟨down, next⟩ := rest
      rw [result] at reload
      cases stopped with
      | none =>
        obtain ⟨rfl, rfl⟩ := unloadDown_remaining reaches.ready named result
        have restores := restores_pluginRestore env down (without reg down)
        have stems := restores.stems stems_remaining disk drawn.source
        rw [reload, reg_resumeRange] at mem
        rw [reload]
        exact owes_after named stems pending none mem
      | some x =>
        obtain ⟨first, tail, mid, order, passed, refused⟩ := unloadDown_refused result
        obtain rfl : c = tail.reverse ++ x :: first.reverse := by
          rw [← reverse_reverse c, order]
          simp
        rw [← reverse_reverse first] at passed
        obtain ⟨rfl, rfl⟩ := unloadDown_remaining reaches.ready named passed
        rw [reload, reg_resumeRange] at mem
        rw [reload]
        refine owes_after_refused named disk reaches.ready drawn pending refused mem alive ?_
        -- Were it intact, something after it would have stopped the teardown before.
        intro intact
        obtain ⟨a, y, b, eq, stops⟩ := spared target reaches _ x _ closure intact
        exact not_stops_of_unloadDown reaches.ready named (drawn.split named).1 passed a y b eq stops
  · obtain ⟨s, result, same, pending⟩ := reload_stopped named reached
    rw [result] at mem ⊢
    rw [same] at mem
    exact pending p mem

end Reload

/-- A failed reload leaves nothing suspended exactly when the first refusal of its teardown,
if it gets there, does not leave the plugin as it was. -/
theorem reload_balanced_iff (env : Env) {reg : Registry} (named : WellNamed reg.plugins)
    (disk : ∀ p ∈ reg.plugins, ∀ d, env.dlopen p.path = some d → d = p.desc) (name : Bytes) :
    NothingLeftSuspended (pluginReloadLocked env name reg) ↔ Spared env name reg :=
  ⟨spared_of_balanced named disk, balanced_of_spared named disk⟩

def samplePair : Registry where
  plugins := [samplePlugin "sqlite" ["db"] [], samplePlugin "quotes" ["quotes"] ["db"]]
  pluginReady := true

instance : NeZero samplePair.plugins.length := ⟨by decide⟩

def sampleEnv (stop : Bytes → Bool) (pluginAudit : Bytes → ℕ) : Env :=
  { willing with
    dlopen := fun path => (samplePair.plugins.find? (·.path = path)).map Rec.desc
    stop
    pluginAudit }

theorem lists_samplePair : Lists samplePair.plugins 0 [0, 1] := by
  refine ⟨by decide, fun i => ⟨fun mem => ?_, fun _ => ?_⟩⟩
  · rcases mem_cons.mp mem with rfl | mem
    · exact .target
    · obtain rfl := mem_singleton.mp mem
      exact .requires .target (show ascii "db" ∈ _ by decide) (by decide)
  · have all : ∀ i : Fin samplePair.plugins.length, i ∈ [0, 1] := by decide
    exact all i

theorem closure_samplePair : pluginClosure samplePair.plugins 0 pluginReloadMaxClosure =
    [⟨ascii "sqlite", ascii "sqlite.so"⟩, ⟨ascii "quotes", ascii "quotes.so"⟩] := by
  rw [pluginClosure_of_lists lists_samplePair (by decide)]
  decide

theorem disk_sampleEnv (stop : Bytes → Bool) (pluginAudit : Bytes → ℕ) :
    ∀ p ∈ samplePair.plugins, (sampleEnv stop pluginAudit).dlopen p.path = some p.desc := by
  have same : ∀ p ∈ samplePair.plugins,
      (samplePair.plugins.find? (·.path = p.path)).map Rec.desc = some p.desc := by decide
  exact same

theorem same_sampleEnv : ∀ p ∈ samplePair.plugins,
    ∀ d, (sampleEnv stop pluginAudit).dlopen p.path = some d → d = p.desc := by
  intro p mem d opened
  exact Option.some.inj (opened.symm.trans (disk_sampleEnv stop pluginAudit p mem))

theorem split_samplePair
    (split : [⟨ascii "sqlite", ascii "sqlite.so"⟩, ⟨ascii "quotes", ascii "quotes.so"⟩] =
      before ++ x :: after) :
    (x = ⟨ascii "sqlite", ascii "sqlite.so"⟩ ∧ after = [⟨ascii "quotes", ascii "quotes.so"⟩]) ∨
      (x = ⟨ascii "quotes", ascii "quotes.so"⟩ ∧ after = []) := by
  rcases before with _ | ⟨y, _ | ⟨z, rest⟩⟩
  · obtain ⟨rfl, rfl⟩ := cons.inj split
    exact .inl ⟨rfl, rfl⟩
  · obtain ⟨rfl, rfl⟩ := cons.inj (cons.inj split).2
    exact .inr ⟨rfl, rfl⟩
  · simp at split

theorem target_samplePair {target : Fin samplePair.plugins.length}
    (found : samplePair.plugins.findFinIdx? (·.name = ascii "sqlite") = some target) : target = 0 :=
  Option.some.inj (found.symm.trans (by decide))

theorem reload_balanced_zombie : NothingLeftSuspended (pluginReloadLocked
    (sampleEnv (fun _ => true) fun name => if name = ascii "quotes" then 1 else 0)
    (ascii "sqlite") samplePair) := by
  refine (reload_balanced_iff _ (by decide) same_sampleEnv _).mpr ?_
  intro target reaches before x after closure intact
  obtain rfl := target_samplePair reaches.found
  rw [closure_samplePair] at closure
  rcases split_samplePair closure with ⟨rfl, rfl⟩ | ⟨rfl, rfl⟩
  · exact ⟨[], _, [], rfl, samplePlugin "quotes" ["quotes"] ["db"], by decide, .inr (by decide)⟩
  · obtain ⟨o, found, _, refuses⟩ := intact
    obtain rfl := Option.some.inj (found.symm.trans (by decide :
      _ = some (samplePlugin "quotes" ["quotes"] ["db"])))
    cases refuses.symm.trans (by decide : _ = false)

/-- The dependent goes down; then the target refuses to stop, and stays suspended. -/
theorem not_reload_balanced : ¬ ∀ (env : Env) (reg : Registry) (name : Bytes), WellNamed reg.plugins →
    Resolved reg.plugins → (∀ p ∈ reg.plugins, env.dlopen p.path = some p.desc) →
      NothingLeftSuspended (pluginReloadLocked env name reg) := by
  intro all
  have resolved : Resolved samplePair.plugins :=
    PluginResolve.resolved_of_check PluginResolve.resolved_nil (by decide)
  have disk := disk_sampleEnv (fun name => name ≠ ascii "sqlite") fun _ => 0
  have balanced := all (sampleEnv (fun name => name ≠ ascii "sqlite") fun _ => 0) samplePair
    (ascii "sqlite") (by decide) resolved disk
  have spared := spared_of_balanced (by decide) same_sampleEnv balanced
  have reaches : Reaches (sampleEnv (fun name => name ≠ ascii "sqlite") fun _ => 0) (ascii "sqlite")
      samplePair 0 := by
    refine ⟨rfl, by decide, rfl, ?_, ?_, fun _ _ _ _ _ => rfl⟩
    · rw [closure_samplePair]
      decide
    · rw [closure_samplePair]
      decide
  obtain ⟨a, y, b, split, o, found, stops⟩ := spared 0 reaches [] _ _ closure_samplePair
    ⟨samplePlugin "sqlite" ["db"] [], by decide, by decide, by decide⟩
  rcases a with _ | ⟨_, _ | ⟨_, _⟩⟩
  · obtain ⟨rfl, rfl⟩ := cons.inj split
    obtain rfl := Option.some.inj (found.symm.trans (by decide :
      _ = some (samplePlugin "quotes" ["quotes"] ["db"])))
    rcases stops with refuses | residual
    · cases refuses.symm.trans (by decide : _ = false)
    · cases residual
  · simp at split
  · simp at split

end BotManager.PluginRollback
