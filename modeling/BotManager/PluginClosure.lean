import BotManager.PluginResolve

/-! `plugin_closure`, the plugins a reload takes down with its target, and the loop that
takes them down in reverse order. The closure is exactly the transitive dependents. The
teardown is not always let through: where a feature has two providers in the closure, the
one later in the list cannot be unloaded while a member between them still requires the
feature. -/

namespace BotManager.PluginClosure
open List CText PassSaturation PluginRegistry

structure Snap where
  name : Bytes
  path : Bytes
  deriving DecidableEq

def snapOf (p : Rec) : Snap := ⟨p.name, p.path⟩

def joins {n : ℕ} (arr : Fin n → Rec) (members : List (Fin n)) (i : Fin n) : Bool :=
  (arr i).desc.requires.any fun need => resolveFeatureIn need arr members

section Dependents

variable (plugins : List Rec) (target : Fin plugins.length)

def members : Taken plugins.length :=
  saturate (joins plugins.get) (fun _ => false) ⟨[target], nodup_singleton _, true, 0⟩

def marked : List (Fin plugins.length) :=
  (finRange plugins.length).filter (· ∈ (members plugins target).order)

/-- The snapshots of the closure; empty, for the 0 that is returned, when there are more
than `cap`. -/
def pluginClosure (cap : ℕ) : List Snap :=
  if cap < (marked plugins target).length then []
  else (marked plugins target).map fun i => snapOf (plugins.get i)

/-- The teardown loop: the plugin that refused, if one did, and what was taken down before
it, in list order. -/
def unloadDown (env : Env) : List Snap → List Snap → Registry → Option Snap × List Snap × Registry
  | [], down, reg => (none, down, reg)
  | s :: rest, down, reg =>
    match pluginUnloadLocked env s.name reg with
    | (true, reg) => unloadDown env rest (s :: down) reg
    | (false, reg) => (some s, down, reg)

/-- The least set that contains the target and whatever requires a feature of a member. -/
inductive Dependent : Fin plugins.length → Prop
  | target : Dependent target
  | requires {i j : Fin plugins.length} {need : Bytes} (member : Dependent j)
      (wants : need ∈ (plugins.get i).desc.requires) (offers : need ∈ (plugins.get j).desc.provides) :
      Dependent i

theorem joins_iff {n : ℕ} {arr : Fin n → Rec} {l : List (Fin n)} {i : Fin n} :
    joins arr l i = true ↔
      ∃ need ∈ (arr i).desc.requires, ∃ j ∈ l, need ∈ (arr j).desc.provides := by
  simp [joins, resolveFeatureIn]

theorem built_members : Built (joins plugins.get) [target] (members plugins target).order :=
  built_saturate .seed

theorem saturated_members : Saturated (joins plugins.get) (members plugins target).order := by
  have ended := saturate_ends (joins plugins.get) (fun _ => false)
    (s := ⟨[target], nodup_singleton _, true, 0⟩) (nofun)
  exact ended.resolve_left (by simp)

structure Lists (idx : List (Fin plugins.length)) : Prop where
  sorted : idx.Pairwise (· < ·)
  exact : ∀ i, i ∈ idx ↔ Dependent plugins target i

variable {plugins target}

theorem mem_members {i : Fin plugins.length} :
    i ∈ (members plugins target).order ↔ Dependent plugins target i := by
  constructor
  · refine fun mem => (built_members plugins target).all (fun j seed => ?_) (fun l j all joined => ?_) i mem
    · obtain rfl := mem_singleton.mp seed
      exact .target
    · obtain ⟨need, wants, k, memk, offers⟩ := joins_iff.mp joined
      exact .requires (all k memk) wants offers
  · intro dependent
    induction dependent with
    | target => exact (built_members plugins target).seed_subset (mem_singleton_self _)
    | @requires i j need _ wants offers ih =>
      by_contra missing
      have refused := saturated_members plugins target i missing
      rw [joins_iff.mpr ⟨need, wants, j, ih, offers⟩] at refused
      cases refused

theorem lists_marked (target : Fin plugins.length) :
    Lists plugins target (marked plugins target) := by
  refine ⟨(pairwise_lt_finRange _).filter _, fun i => ?_⟩
  simp [marked, mem_members]

theorem Lists.unique {idx idx' : List (Fin plugins.length)} (lists : Lists plugins target idx)
    (lists' : Lists plugins target idx') : idx = idx' := by
  have perm : idx.Perm idx' :=
    (perm_ext_iff_of_nodup (lists.sorted.imp ne_of_lt) (lists'.sorted.imp ne_of_lt)).mpr
      fun i => (lists.exact i).trans (lists'.exact i).symm
  exact perm.eq_of_pairwise (fun a b _ _ ab ba => absurd ab (lt_asymm ba)) lists.sorted lists'.sorted

theorem pluginClosure_of_lists {idx : List (Fin plugins.length)} (lists : Lists plugins target idx)
    {cap : ℕ} (room : idx.length ≤ cap) :
    pluginClosure plugins target cap = idx.map fun i => snapOf (plugins.get i) := by
  obtain rfl := (lists_marked target).unique lists
  rw [pluginClosure, if_neg (not_lt.mpr room)]

end Dependents

def without (plugins : List Rec) (gone : List (Fin plugins.length)) : List Rec :=
  plugins.filter (·.name ∉ gone.map fun i => (plugins.get i).name)

section Without

variable {plugins : List Rec} {target m : Fin plugins.length}
  {gone first later : List (Fin plugins.length)} (named : WellNamed plugins)
include named

theorem mem_without {k : Fin plugins.length} : plugins.get k ∈ without plugins gone ↔ k ∉ gone := by
  have names : (plugins.get k).name ∈ gone.map (fun i => (plugins.get i).name) ↔ k ∈ gone := by
    constructor
    · intro mem
      obtain ⟨i, memi, same⟩ := mem_map.mp mem
      exact named.index same ▸ memi
    · exact fun mem => mem_map.mpr ⟨k, mem, rfl⟩
  simp only [without, mem_filter, get_mem, true_and, decide_eq_true_eq, names]

theorem dependedOn_without :
    dependedOn (plugins.get m) (without plugins gone) = true ↔
      ∃ k, k ∉ gone ∧ k ≠ m ∧ ∃ need ∈ (plugins.get k).desc.requires, need ∈ (plugins.get m).desc.provides := by
  simp only [dependedOn, any_eq_true, Bool.and_eq_true, decide_eq_true_eq, pluginProvides_iff]
  constructor
  · rintro ⟨q, mem, other, need, wants, offers⟩
    obtain ⟨k, rfl⟩ := mem_iff_get.mp (mem_of_mem_filter mem)
    refine ⟨k, (mem_without named).mp mem, ?_, need, wants, offers⟩
    rintro rfl
    exact other rfl
  · rintro ⟨k, left, other, need, wants, offers⟩
    refine ⟨plugins.get k, (mem_without named).mpr left, ?_, need, wants, offers⟩
    exact fun same => other (named.index same)

theorem dependedOn_iff (lists : Lists plugins target (first ++ m :: later)) :
    dependedOn (plugins.get m) (without plugins later) = true ↔ ∃ q ∈ first ++ m :: later, q < m ∧
      ∃ need ∈ (plugins.get q).desc.requires, need ∈ (plugins.get m).desc.provides := by
  obtain ⟨_, last, crossing⟩ := pairwise_append.mp lists.sorted
  have member := (lists.exact m).mp (by simp)
  rw [dependedOn_without named]
  constructor
  · rintro ⟨k, left, other, need, wants, offers⟩
    have joined := (lists.exact k).mpr (.requires member wants offers)
    rcases mem_append.mp joined with before | rest
    · exact ⟨k, joined, crossing k before m mem_cons_self, need, wants, offers⟩
    · exact absurd (mem_cons.mp rest) (not_or.mpr ⟨other, left⟩)
  · rintro ⟨q, _, less, need, wants, offers⟩
    refine ⟨q, fun gone => ?_, ne_of_lt less, need, wants, offers⟩
    exact lt_asymm less (rel_of_pairwise_cons last gone)

theorem find_without (lists : Lists plugins target (first ++ m :: later)) :
    findByName (plugins.get m).name (without plugins later) = some (plugins.get m) := by
  obtain ⟨_, last, _⟩ := pairwise_append.mp lists.sorted
  have left : m ∉ later := fun gone => lt_irrefl m (rel_of_pairwise_cons last gone)
  exact (named.sublist filter_sublist).find ((mem_without named).mpr left)

end Without

def willing : Env :=
  ⟨fun _ => none, fun _ => true, fun _ => true, fun _ => true, fun _ => true, fun _ => false,
    fun _ => 0, fun _ => 0⟩

theorem refusesIntact_willing :
    refusesIntact willing target plugins = dependedOn target plugins := by
  have free : pluginDriverBound willing target.desc = false := by
    simp only [pluginDriverBound]
    split
    · rfl
    · split
      · rfl
      · split <;> rfl
  simp only [refusesIntact, free]
  simp [willing]

section Teardown

variable {env : Env} {reg : Registry}

theorem unloadDown_append (first second down : List Snap) (reg : Registry) :
    unloadDown env (first ++ second) down reg = match unloadDown env first down reg with
      | (none, down, reg) => unloadDown env second down reg
      | refused => refused := by
  induction first generalizing down reg with
  | nil => rfl
  | cons s rest ih =>
    simp only [cons_append, unloadDown]
    split
    · exact ih _ _
    · rfl

/-- The teardown in reverse order never meets the dependency check: whatever the process
around it answers, wherever the loop gets to. -/
def NeverRefused (reg : Registry) (closure : List Snap) : Prop :=
  ∀ env before s after, closure = before ++ s :: after → ∀ down next,
    unloadDown env after.reverse [] reg = (none, down, next) → ∀ target,
      findByName s.name next.plugins = some target → dependedOn target next.plugins = false

/-- The closure is the list of dependents, or nothing when it is over the cap. -/
def Exact (plugins : List Rec) (target : Fin plugins.length) (cap : ℕ) (closure : List Snap) : Prop :=
  ∃ idx, Lists plugins target idx ∧
    closure = if cap < idx.length then [] else idx.map fun i => snapOf (plugins.get i)

/-- No member of the closure requires a feature that a member later in the list provides. -/
def NoLaterProvider (plugins : List Rec) (target : Fin plugins.length) (cap : ℕ) : Prop :=
  ∀ idx, Lists plugins target idx → idx.length ≤ cap → ∀ q ∈ idx, ∀ m ∈ idx, q < m →
    ∀ need ∈ (plugins.get q).desc.requires, need ∉ (plugins.get m).desc.provides

variable {target m : Fin reg.plugins.length} {first later : List (Fin reg.plugins.length)} {cap : ℕ}
  {down : List Snap} {next : Registry} (ready : reg.pluginReady = true)
  (named : WellNamed reg.plugins)
include ready named

theorem unload_success {name : Bytes} (h : pluginUnloadLocked env name reg = (true, next)) :
    next = { reg with plugins := reg.plugins.filter (·.name ≠ name) } := by
  rcases pluginUnloadLocked_cases env name ready with
    ⟨_, result⟩ | ⟨_, _, ⟨_, result⟩ | ⟨_, _, result⟩ | ⟨_, _, result⟩⟩
  · rw [h] at result
    cases result
  · rw [h] at result
    cases result
  · rw [h] at result
    cases result
  · rw [h, named.eraseP] at result
    exact (Prod.mk.inj result).2

theorem unloadDown_success {l down' : List Snap}
    (h : unloadDown env l down reg = (none, down', next)) : down' = l.reverse ++ down ∧
      next = { reg with plugins := reg.plugins.filter (·.name ∉ l.map Snap.name) } := by
  induction l generalizing down reg with
  | nil =>
    obtain ⟨_, same⟩ := Prod.mk.inj h
    cases same
    simp
  | cons s rest ih =>
    simp only [unloadDown] at h
    split at h
    next step unloaded =>
      obtain rfl := unload_success ready named unloaded
      have ready' : Registry.pluginReady { reg with plugins := reg.plugins.filter (·.name ≠ s.name) } =
          true := ready
      obtain ⟨rfl, rfl⟩ := ih ready' (named.sublist filter_sublist) h
      refine ⟨by simp, ?_⟩
      simp only [filter_filter, map_cons, mem_cons, not_or, Bool.decide_and,
        Bool.and_comm]
    next => cases h

theorem unloadDown_snaps {idx : List (Fin reg.plugins.length)}
    (h : unloadDown env (idx.map fun i => snapOf (reg.plugins.get i)).reverse [] reg = (none, down, next)) :
    next = { reg with plugins := without reg.plugins idx } := by
  rw [(unloadDown_success ready named h).2, without]
  congr 2
  funext p
  simp [snapOf]

theorem neverRefused_of_noLaterProvider (clear : NoLaterProvider reg.plugins target cap) :
    NeverRefused reg (pluginClosure reg.plugins target cap) := by
  intro env before s after split down next unloaded found there
  have lists := lists_marked target
  rw [pluginClosure] at split
  split at split
  · simp at split
  next room =>
    obtain ⟨first, rest, order, rfl, tail⟩ := map_eq_append_iff.mp split
    obtain ⟨m, later, rfl, rfl, rfl⟩ := map_eq_cons_iff.mp tail
    obtain rfl := unloadDown_snaps ready named unloaded
    have clear := clear _ lists (not_lt.mp room)
    rw [order] at lists clear
    obtain rfl := Option.some.inj ((find_without named lists).symm.trans there)
    rw [Bool.eq_false_iff]
    intro refused
    obtain ⟨q, memq, less, need, wants, offers⟩ := (dependedOn_iff named lists).mp refused
    exact clear q memq m (by simp) less need wants offers

theorem passes_of_neverRefused
    (never : NeverRefused reg ((first ++ m :: later).map fun i => snapOf (reg.plugins.get i)))
    (lists : Lists reg.plugins target (first ++ m :: later))
    (unloaded : unloadDown env (later.map fun i => snapOf (reg.plugins.get i)).reverse [] reg =
      (none, down, next)) : dependedOn (reg.plugins.get m) (without reg.plugins later) = false := by
  obtain rfl := unloadDown_snaps ready named unloaded
  refine never env (first.map fun i => snapOf (reg.plugins.get i)) (snapOf (reg.plugins.get m)) _ ?_
    down _ unloaded _ (find_without named lists)
  rw [map_append, map_cons]

theorem unloadDown_willing
    (lists : Lists reg.plugins target (first ++ later))
    (never : NeverRefused reg ((first ++ later).map fun i => snapOf (reg.plugins.get i))) :
    ∃ down next, unloadDown willing (later.map fun i => snapOf (reg.plugins.get i)).reverse [] reg =
      (none, down, next) := by
  induction later generalizing first with
  | nil => exact ⟨[], reg, rfl⟩
  | cons m rest ih =>
    have shift : first ++ m :: rest = (first ++ [m]) ++ rest := by simp
    obtain ⟨down, next, unloaded⟩ := ih (shift ▸ lists) (shift ▸ never)
    have whole := unloadDown_snaps ready named unloaded
    have there := find_without named lists
    have passes := passes_of_neverRefused ready named never lists unloaded
    obtain ⟨after, removed⟩ : ∃ after, pluginUnloadLocked willing (reg.plugins.get m).name next =
        (true, after) := by
      have ready' : next.pluginReady = true := by
        rw [whole]
        exact ready
      rcases pluginUnloadLocked_cases willing (reg.plugins.get m).name ready' with
        ⟨missing, _⟩ | ⟨x, found, ⟨refused, _⟩ | ⟨_, audit, _⟩ | ⟨_, _, result⟩⟩
      · rw [whole, there] at missing
        cases missing
      · rw [whole, there] at found
        cases found
        rw [refusesIntact_willing, whole, passes] at refused
        cases refused
      · cases audit
      · exact ⟨_, result⟩
    refine ⟨snapOf (reg.plugins.get m) :: down, after, ?_⟩
    rw [map_cons, reverse_cons, unloadDown_append, unloaded]
    simp only [unloadDown, snapOf, removed]

theorem noLaterProvider_of_neverRefused
    (never : NeverRefused reg (pluginClosure reg.plugins target cap)) :
    NoLaterProvider reg.plugins target cap := by
  intro idx lists room q memq m memm less need wants offers
  rw [pluginClosure_of_lists lists room] at never
  obtain ⟨first, later, split⟩ := append_of_mem memm
  rw [split] at lists never memq
  have shift : first ++ m :: later = (first ++ [m]) ++ later := by simp
  obtain ⟨down, next, unloaded⟩ := unloadDown_willing ready named (shift ▸ lists) (shift ▸ never)
  have refused := (dependedOn_iff named lists).mpr ⟨q, memq, less, need, wants, offers⟩
  rw [passes_of_neverRefused ready named never lists unloaded] at refused
  cases refused

end Teardown

theorem exact_pluginClosure : Exact plugins target cap (pluginClosure plugins target cap) :=
  ⟨marked plugins target, lists_marked target, rfl⟩

theorem closure_teardown_iff {reg : Registry} (ready : reg.pluginReady = true)
    (named : WellNamed reg.plugins) (target : Fin reg.plugins.length) (cap : ℕ) :
    (Exact reg.plugins target cap (pluginClosure reg.plugins target cap) ∧
      NeverRefused reg (pluginClosure reg.plugins target cap)) ↔ NoLaterProvider reg.plugins target cap :=
  ⟨fun h => noLaterProvider_of_neverRefused ready named h.2,
    fun clear => ⟨exact_pluginClosure, neverRefused_of_noLaterProvider ready named clear⟩⟩

def sampleChain : Registry where
  plugins := [samplePlugin "sqlite" ["db"] [], samplePlugin "quotes" ["quotes"] ["db"],
    samplePlugin "stats" ["stats"] ["quotes"]]
  pluginReady := true

instance : NeZero sampleChain.plugins.length := ⟨by decide⟩

theorem closure_teardown_sample :
    Exact sampleChain.plugins 0 64 (pluginClosure sampleChain.plugins 0 64) ∧
      NeverRefused sampleChain (pluginClosure sampleChain.plugins 0 64) := by
  have clear : ∀ q m : Fin sampleChain.plugins.length, q < m →
      ∀ need ∈ (sampleChain.plugins.get q).desc.requires,
        need ∉ (sampleChain.plugins.get m).desc.provides := by decide
  exact (closure_teardown_iff rfl (by decide) 0 64).mpr
    fun idx _ _ q _ m _ less need => clear q m less need

def sampleProviders : Registry where
  plugins := [samplePlugin "curl" ["http"] [], samplePlugin "sqlite" ["db"] [],
    samplePlugin "quotes" ["quotes"] ["http", "db"], samplePlugin "cache" ["http"] ["db"]]
  pluginReady := true

instance : NeZero sampleProviders.plugins.length := ⟨by decide⟩

theorem lists_sampleProviders : Lists sampleProviders.plugins 1 [1, 2, 3] := by
  have closed : ∀ i j : Fin sampleProviders.plugins.length, j ∈ [1, 2, 3] →
      ∀ need ∈ (sampleProviders.plugins.get i).desc.requires,
        need ∈ (sampleProviders.plugins.get j).desc.provides → i ∈ [1, 2, 3] := by decide
  refine ⟨by decide, fun i => ⟨fun mem => ?_, fun dependent => ?_⟩⟩
  · rcases mem_cons.mp mem with rfl | mem
    · exact .target
    · refine .requires .target ?_ (show ascii "db" ∈ _ by decide)
      rcases mem_cons.mp mem with rfl | mem
      · decide
      · obtain rfl := mem_singleton.mp mem
        decide
  · induction dependent with
    | target => decide
    | requires _ wants offers ih => exact closed _ _ ih _ wants offers

theorem not_closure_teardown : ¬ ∀ reg : Registry, reg.pluginReady = true → WellNamed reg.plugins →
    Resolved reg.plugins → ∀ (target : Fin reg.plugins.length) (cap : ℕ),
      Exact reg.plugins target cap (pluginClosure reg.plugins target cap) ∧
        NeverRefused reg (pluginClosure reg.plugins target cap) := by
  intro all
  have resolved : Resolved sampleProviders.plugins :=
    PluginResolve.resolved_of_check PluginResolve.resolved_nil (by decide)
  have named : WellNamed sampleProviders.plugins := by decide
  have never := (all sampleProviders rfl named resolved 1 64).2
  have clear := noLaterProvider_of_neverRefused rfl named never
  exact clear _ lists_sampleProviders (by decide) 2 (by decide) 3 (by decide) (by decide)
    (ascii "http") (by decide) (by decide)

end BotManager.PluginClosure
