import BotManager.CText
import BotManager.PassSaturation

/-! The plugin registry of core/plugin.c: descriptors and records, lookup, load, the
dependency sort, the lifecycle sweeps and unload. A function of the source that returns
SUCCESS or FAIL returns `true` or `false` here, with the registry it leaves. Both locks are
held by a mutator for its whole length, so each is one atomic step.

What the hooks, the bots, the command dispatcher and the audit answer is given by an
`Env`. Log lines, KV schemas, symbol caches and the reports are left out. -/

namespace BotManager.PluginRegistry
open List CText PassSaturation

inductive PluginType
  | core | db | method | bot | service | misc | personality | feature | strategy
  deriving DecidableEq, Repr

inductive PluginState
  | discovered | loaded | initialized | running | stopping | unloaded | zombie
  deriving DecidableEq, Repr

/-- `ext` is the driver of a bot or feature plugin, whose name may be NULL. A hook that is
NULL is never called. -/
structure Desc where
  apiVersion : ℕ
  name : Bytes
  version : Bytes
  type : PluginType
  provides : List Bytes
  requires : List Bytes
  hasSuspend : Bool
  hasResume : Bool
  ext : Option (Option Bytes)
  deriving DecidableEq

structure Rec where
  path : Bytes
  handle : Bool
  desc : Desc
  state : PluginState
  deriving DecidableEq

def Rec.name (p : Rec) : Bytes := p.desc.name

structure Registry where
  plugins : List Rec
  pluginReady : Bool

/-- What the process around the registry answers: the shared objects on disk, the hooks
(`true` for SUCCESS or NULL), the bots bound to a driver, the command handlers of a plugin
that are executing, and the references the audit finds once it is torn down. -/
structure Env where
  dlopen : Bytes → Option Desc
  init : Bytes → Bool
  start : Bytes → Bool
  stop : Bytes → Bool
  suspend : Bytes → Bool
  botFindBoundToDriver : Bytes → Bool
  cmdInflightOwned : Bytes → ℕ
  pluginAudit : Bytes → ℕ

def pluginApiVersion : ℕ := 15
def pluginMaxFeatures : ℕ := 16

def findByName (name : Bytes) (plugins : List Rec) : Option Rec := plugins.find? (·.name = name)

def pluginProvides (desc : Desc) (feature : Bytes) : Bool := desc.provides.any (· = feature)

def validateDesc (desc : Desc) (plugins : List Rec) : Bool :=
  desc.apiVersion = pluginApiVersion && desc.name ≠ [] && desc.version ≠ [] &&
    desc.provides.length ≠ 0 && desc.provides.length ≤ pluginMaxFeatures &&
    desc.requires.length ≤ pluginMaxFeatures && (findByName desc.name plugins).isNone

variable (env : Env)

def pluginLoadLocked (path : Bytes) (reg : Registry) : Bool × Registry :=
  if !reg.pluginReady then (false, reg)
  else match env.dlopen path with
    | none => (false, reg)
    | some desc =>
      if validateDesc desc reg.plugins then
        (true, { reg with plugins := ⟨path, true, desc, .loaded⟩ :: reg.plugins })
      else (false, reg)

def pluginDriverBound (desc : Desc) : Bool :=
  match desc.ext with
  | none => false
  | some driver =>
    if desc.type ≠ .bot ∧ desc.type ≠ .feature then false
    else match driver with
      | none => false
      | some name => env.botFindBoundToDriver name

/-- Another loaded plugin requires a feature the target provides. -/
def dependedOn (target : Rec) (plugins : List Rec) : Bool :=
  plugins.any fun q => q.name ≠ target.name && q.desc.requires.any (pluginProvides target.desc)

def refusesIntact (target : Rec) (plugins : List Rec) : Bool :=
  dependedOn target plugins || pluginDriverBound env target.desc ||
    0 < env.cmdInflightOwned target.name || (target.state = .running && !env.stop target.name)

/-- Stop and deinit leave no trace in the result: the record is unlinked, or the audit
refuses and it stays as a zombie. -/
def pluginUnloadLocked (name : Bytes) (reg : Registry) : Bool × Registry :=
  if !reg.pluginReady then (false, reg)
  else match findByName name reg.plugins with
    | none => (false, reg)
    | some target =>
      if refusesIntact env target reg.plugins then (false, reg)
      else if 0 < env.pluginAudit name then
        (false, { reg with plugins := reg.plugins.map fun p =>
          if p.name = name then { p with state := .zombie } else p })
      else (true, { reg with plugins := reg.plugins.eraseP (·.name = name) })

def resolveFeatureIn {n : ℕ} (feature : Bytes) (arr : Fin n → Rec) (order : List (Fin n)) : Bool :=
  order.any fun j => pluginProvides (arr j).desc feature

def satisfied {n : ℕ} (arr : Fin n → Rec) (order : List (Fin n)) (i : Fin n) : Bool :=
  (arr i).desc.requires.all fun need => resolveFeatureIn need arr order

/-- The placing loop: `while(progress && n_placed < count)`. -/
def placing (plugins : List Rec) : Taken plugins.length :=
  saturate (satisfied plugins.get) (fun placed => plugins.length ≤ placed) ⟨[], .nil, true, 0⟩

def pluginResolveLocked (reg : Registry) : Bool × Registry :=
  if !reg.pluginReady then (false, reg)
  else if reg.plugins.length = 0 then (true, reg)
  else
    let order := (placing reg.plugins).order
    if order.length = reg.plugins.length then
      (true, { reg with plugins := order.map reg.plugins.get })
    else (false, reg)

/-- A lifecycle sweep: every plugin in one state goes to the next if its hook succeeds, and
the first that fails ends the sweep. -/
def sweep (source target : PluginState) (hook : Bytes → Bool) : List Rec → Bool × List Rec
  | [] => (true, [])
  | p :: rest =>
    if p.state = source then
      if hook p.name then
        ((sweep source target hook rest).1, { p with state := target } :: (sweep source target hook rest).2)
      else (false, p :: rest)
    else ((sweep source target hook rest).1, p :: (sweep source target hook rest).2)

def pluginInitAll (reg : Registry) : Bool × Registry :=
  if !reg.pluginReady then (false, reg)
  else
    let (ok, plugins) := sweep .loaded .initialized env.init reg.plugins
    (ok, { reg with plugins })

def pluginStartAll (reg : Registry) : Bool × Registry :=
  if !reg.pluginReady then (false, reg)
  else
    let (ok, plugins) := sweep .initialized .running env.start reg.plugins
    (ok, { reg with plugins })

/-- What the loader keeps: no two plugins have one name. -/
def WellNamed (plugins : List Rec) : Prop := (plugins.map Rec.name).Nodup

instance (plugins : List Rec) : Decidable (WellNamed plugins) :=
  inferInstanceAs (Decidable (List.Nodup _))

/-- Every requirement of every plugin is provided by a strictly earlier one. -/
def Resolved (plugins : List Rec) : Prop :=
  ∀ before p after, plugins = before ++ p :: after → ∀ need ∈ p.desc.requires,
    ∃ q ∈ before, need ∈ q.desc.provides

@[simp] theorem pluginProvides_iff {desc : Desc} {feature : Bytes} :
    pluginProvides desc feature = true ↔ feature ∈ desc.provides := by
  simp [pluginProvides]

theorem name_of_find {name : Bytes} {plugins : List Rec} {p : Rec}
    (found : findByName name plugins = some p) : p ∈ plugins ∧ p.name = name := by
  have hit := find?_some found
  exact ⟨mem_of_find?_eq_some found, by simpa using hit⟩

section Names

variable {plugins : List Rec}

variable (named : WellNamed plugins)
include named

theorem WellNamed.find {p : Rec} (mem : p ∈ plugins) :
    findByName p.name plugins = some p := by
  cases found : findByName p.name plugins with
  | none => exact absurd (find?_eq_none.mp found p mem) (by simp)
  | some q =>
    obtain ⟨memq, same⟩ := name_of_find found
    rw [inj_on_of_nodup_map named memq mem same]

theorem WellNamed.sublist {l : List Rec} (sub : l.Sublist plugins) :
    WellNamed l := List.Nodup.sublist (sub.map _) named

theorem WellNamed.index {i j : Fin plugins.length}
    (same : (plugins.get i).name = (plugins.get j).name) : i = j := by
  have records := inj_on_of_nodup_map named (get_mem _ i) (get_mem _ j) same
  exact nodup_iff_injective_get.mp (List.Nodup.of_map _ named) records

theorem WellNamed.eraseP (name : Bytes) :
    plugins.eraseP (·.name = name) = plugins.filter (·.name ≠ name) := by
  induction plugins with
  | nil => rfl
  | cons p rest ih =>
    obtain ⟨fresh, named⟩ := nodup_cons.mp named
    by_cases here : p.name = name
    · have others : rest.filter (·.name ≠ name) = rest := by
        refine filter_eq_self.mpr fun q mem => ?_
        have apart : q.name ≠ name := by
          rintro rfl
          exact fresh (here ▸ mem_map_of_mem mem)
        simpa using apart
      rw [eraseP_cons_of_pos (by simpa using here), filter_cons_of_neg (by simpa using here),
        others]
    · rw [eraseP_cons_of_neg (by simpa using here), filter_cons_of_pos (by simpa using here),
        ih named]

end Names

theorem pluginLoadLocked_cases (env : Env) (path : Bytes) (reg : Registry) :
    pluginLoadLocked env path reg = (false, reg) ∨
    ∃ desc, env.dlopen path = some desc ∧ findByName desc.name reg.plugins = none ∧
      pluginLoadLocked env path reg =
        (true, { reg with plugins := ⟨path, true, desc, .loaded⟩ :: reg.plugins }) := by
  simp only [pluginLoadLocked]
  split
  · exact .inl rfl
  · split
    · exact .inl rfl
    next desc opened =>
      split
      next valid =>
        refine .inr ⟨desc, opened, ?_, rfl⟩
        simp only [validateDesc, Bool.and_eq_true] at valid
        exact Option.isNone_iff_eq_none.mp valid.2
      next => exact .inl rfl

theorem pluginUnloadLocked_cases (env : Env) (name : Bytes) {reg : Registry}
    (ready : reg.pluginReady = true) :
    (findByName name reg.plugins = none ∧ pluginUnloadLocked env name reg = (false, reg)) ∨
    ∃ target, findByName name reg.plugins = some target ∧
      ((refusesIntact env target reg.plugins = true ∧ pluginUnloadLocked env name reg = (false, reg)) ∨
      (refusesIntact env target reg.plugins = false ∧ 0 < env.pluginAudit name ∧
        pluginUnloadLocked env name reg = (false, { reg with plugins := reg.plugins.map fun p =>
          if p.name = name then { p with state := .zombie } else p })) ∨
      (refusesIntact env target reg.plugins = false ∧ env.pluginAudit name = 0 ∧
        pluginUnloadLocked env name reg =
          (true, { reg with plugins := reg.plugins.eraseP (·.name = name) }))) := by
  cases found : findByName name reg.plugins with
  | none => exact .inl ⟨rfl, by simp [pluginUnloadLocked, ready, found]⟩
  | some target =>
    refine .inr ⟨target, rfl, ?_⟩
    cases refused : refusesIntact env target reg.plugins with
    | true => exact .inl ⟨rfl, by simp [pluginUnloadLocked, ready, found, refused]⟩
    | false =>
      by_cases audit : 0 < env.pluginAudit name
      · exact .inr (.inl ⟨rfl, audit, by simp [pluginUnloadLocked, ready, found, refused, audit]⟩)
      · exact .inr (.inr ⟨rfl, by omega, by simp [pluginUnloadLocked, ready, found, refused, audit]⟩)

def samplePlugin (name : String) (provides requires : List String) : Rec where
  path := ascii (name ++ ".so")
  handle := true
  desc := ⟨pluginApiVersion, ascii name, ascii "1", .misc, provides.map ascii, requires.map ascii, false,
    false, none⟩
  state := .running

end BotManager.PluginRegistry
