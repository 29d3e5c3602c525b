import BotManager.PluginRegistry

/-! `plugin_resolve_locked` sorts the plugins so that providers come first, whenever that is
possible at all. What a list satisfies, every longer list satisfies, so a greedy placement
that gets stuck cannot be completed by any other order. -/

namespace BotManager.PluginResolve
open List CText PassSaturation PluginRegistry

variable {n : ℕ} {arr : Fin n → Rec} {order : List (Fin n)} {l : List Rec}

theorem satisfied_iff {i : Fin n} : satisfied arr order i = true ↔
    ∀ need ∈ (arr i).desc.requires, ∃ j ∈ order, need ∈ (arr j).desc.provides := by
  simp [satisfied, resolveFeatureIn]

theorem resolved_snoc (resolved : Resolved l) {p : Rec}
    (met : ∀ need ∈ p.desc.requires, ∃ q ∈ l, need ∈ q.desc.provides) : Resolved (l ++ [p]) := by
  intro before x after split
  rcases eq_nil_or_concat after with rfl | ⟨rest, last, rfl⟩
  · obtain ⟨rfl, same⟩ := append_inj' split rfl
    obtain rfl := (cons.inj same).1
    exact met
  · have split' : l ++ [p] = (before ++ x :: rest) ++ [last] := by simpa using split
    obtain ⟨rfl, _⟩ := append_inj' split' rfl
    exact resolved before x rest rfl

def resolvedFrom (earlier : List Rec) : List Rec → Bool
  | [] => true
  | p :: rest => p.desc.requires.all (fun need => earlier.any fun q => pluginProvides q.desc need) &&
      resolvedFrom (earlier ++ [p]) rest

theorem resolved_of_check {earlier : List Rec} (resolved : Resolved earlier)
    (check : resolvedFrom earlier l = true) : Resolved (earlier ++ l) := by
  induction l generalizing earlier with
  | nil => simpa using resolved
  | cons p rest ih =>
    obtain ⟨here, later⟩ := Bool.and_eq_true_iff.mp check
    have next : Resolved (earlier ++ [p]) := resolved_snoc resolved (by simpa using here)
    simpa using ih next later

theorem resolved_nil : Resolved [] := fun before p after split => by simp at split

theorem resolved_of_built (built : Built (satisfied arr) [] order) : Resolved (order.map arr) := by
  induction built with
  | seed => exact resolved_nil
  | @snoc l i _ _ admitted ih =>
    rw [map_append]
    refine resolved_snoc ih fun need mem => ?_
    obtain ⟨j, memj, provided⟩ := satisfied_iff.mp admitted need mem
    exact ⟨arr j, mem_map_of_mem memj, provided⟩

/-- The exchange argument: along any resolved order, every plugin is already placed. -/
theorem placed_of_resolved (resolved : Resolved l) (known : ∀ q ∈ l, ∃ j, arr j = q)
    (saturated : Saturated (satisfied arr) order) (before : List Rec) :
    ∀ after, l = before ++ after → ∀ q ∈ before, ∀ i, arr i = q → i ∈ order := by
  induction before using reverseRecOn with
  | nil => exact nofun
  | append_singleton before p ih =>
    intro after split q mem i same
    have split' : l = before ++ p :: after := by rw [split, append_assoc]; rfl
    have earlier := ih (p :: after) split'
    rcases mem_append.mp mem with old | last
    · exact earlier q old i same
    · obtain rfl := mem_singleton.mp last
      by_contra missing
      have refused := saturated i missing
      have admitted : satisfied arr order i = true := by
        rw [satisfied_iff, same]
        intro need memn
        obtain ⟨r, memr, provided⟩ := resolved before q after split' need memn
        obtain ⟨j, rfl⟩ := known r (by rw [split']; exact mem_append_left _ memr)
        exact ⟨j, earlier (arr j) memr j rfl, provided⟩
      rw [admitted] at refused
      cases refused

theorem perm_finRange (nodup : order.Nodup) : order.length = n ↔ order.Perm (finRange n) := by
  constructor
  · intro full
    have sub : order.Subperm (finRange n) := nodup.subperm fun i _ => mem_finRange i
    refine sub.perm_of_length_le ?_
    rw [length_finRange, full]
  · intro perm
    rw [perm.length_eq, length_finRange]

theorem built_placing (plugins : List Rec) : Built (satisfied plugins.get) [] (placing plugins).order :=
  built_saturate .seed

theorem placing_complete {plugins : List Rec} (perm : l.Perm plugins) (resolved : Resolved l) :
    (placing plugins).order.length = plugins.length := by
  have ended := saturate_ends (satisfied plugins.get)
    (fun placed => plugins.length ≤ placed) (s := ⟨[], .nil, true, 0⟩) (nofun)
  rcases ended with full | saturated
  · exact le_antisymm (placing plugins).length_le (of_decide_eq_true full)
  · have known : ∀ q ∈ l, ∃ j, plugins.get j = q := fun q mem => mem_iff_get.mp (perm.mem_iff.mp mem)
    have placed := placed_of_resolved resolved known saturated l [] (by simp)
    have all : ∀ i, i ∈ (placing plugins).order := fun i =>
      placed (plugins.get i) (perm.mem_iff.mpr (get_mem _ _)) i rfl
    rw [perm_finRange (placing plugins).nodup]
    refine (perm_ext_iff_of_nodup (placing plugins).nodup (nodup_finRange _)).mpr ?_
    exact fun i => ⟨fun _ => mem_finRange i, fun _ => all i⟩

theorem perm_placing {plugins : List Rec} (full : (placing plugins).order.length = plugins.length) :
    ((placing plugins).order.map plugins.get).Perm plugins := by
  have perm := ((perm_finRange (placing plugins).nodup).mp full).map plugins.get
  rwa [map_get_finRange] at perm

theorem productive_le : (placing plugins).productive ≤ plugins.length := by
  have bound := productive_saturate (satisfied plugins.get)
    (fun placed => plugins.length ≤ placed) ⟨[], .nil, true, 0⟩
  have length := (placing plugins).length_le
  simp only [length_nil, Nat.zero_add, Nat.add_zero] at bound
  exact bound.trans length

theorem pluginResolveLocked_cases {reg : Registry} (ready : reg.pluginReady = true) :
    ((placing reg.plugins).order.length = reg.plugins.length ∧ pluginResolveLocked reg =
      (true, { reg with plugins := (placing reg.plugins).order.map reg.plugins.get })) ∨
      (placing reg.plugins).order.length ≠ reg.plugins.length ∧ pluginResolveLocked reg = (false, reg) := by
  by_cases empty : reg.plugins.length = 0
  · have order : (placing reg.plugins).order = [] := by
      have bound := (placing reg.plugins).length_le
      exact length_eq_zero_iff.mp (by omega)
    refine .inl ⟨by rw [order, empty]; rfl, ?_⟩
    obtain ⟨plugins, pluginReady⟩ := reg
    obtain rfl := length_eq_zero_iff.mp empty
    simp only at ready order
    simp [pluginResolveLocked, ready, order]
  · by_cases full : (placing reg.plugins).order.length = reg.plugins.length
    · exact .inl ⟨full, by simp [pluginResolveLocked, ready, empty, full]⟩
    · exact .inr ⟨full, by simp [pluginResolveLocked, ready, empty, full]⟩

theorem perm_resolve : (pluginResolveLocked reg).2.plugins.Perm reg.plugins := by
  by_cases ready : reg.pluginReady = true
  · rcases pluginResolveLocked_cases ready with ⟨full, result⟩ | ⟨_, result⟩
    · rw [result]
      exact perm_placing full
    · rw [result]
  · simp [pluginResolveLocked, ready]

theorem resolve_sound_complete (reg : Registry) (ready : reg.pluginReady = true) :
    ((pluginResolveLocked reg).1 = true ↔ ∃ l, l.Perm reg.plugins ∧ Resolved l) ∧
    ((pluginResolveLocked reg).1 = true → (pluginResolveLocked reg).2.plugins.Perm reg.plugins ∧
      Resolved (pluginResolveLocked reg).2.plugins) ∧
    ((pluginResolveLocked reg).1 = false → (pluginResolveLocked reg).2 = reg) ∧
    (placing reg.plugins).productive ≤ reg.plugins.length := by
  rcases pluginResolveLocked_cases ready with ⟨full, result⟩ | ⟨stuck, result⟩
  · have perm := perm_placing full
    have resolved := resolved_of_built (built_placing reg.plugins)
    rw [result]
    exact ⟨⟨fun _ => ⟨_, perm, resolved⟩, fun _ => rfl⟩, fun _ => ⟨perm, resolved⟩,
      nofun, productive_le⟩
  · rw [result]
    refine ⟨⟨nofun, ?_⟩, nofun, fun _ => rfl,
      productive_le⟩
    rintro ⟨l, perm, resolved⟩
    exact absurd (placing_complete perm resolved) stuck

def sampleRegistry : Registry where
  plugins := [samplePlugin "quotes" ["quotes"] ["db", "http"], samplePlugin "mirror" ["http"] ["db"],
    samplePlugin "curl" ["http"] [], samplePlugin "sqlite" ["db"] []]
  pluginReady := true

theorem resolve_sample : (pluginResolveLocked sampleRegistry).1 = true := by
  refine (resolve_sound_complete sampleRegistry rfl).1.mpr ⟨sampleRegistry.plugins.reverse,
    reverse_perm _, ?_⟩
  exact resolved_of_check resolved_nil (by decide)

end BotManager.PluginResolve
