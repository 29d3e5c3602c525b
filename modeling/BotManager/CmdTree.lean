import BotManager.CmdRegistry

/-! The tree invariant of the command registry over its runs. List and tree stay in step
under every operation, and masks only narrow. Names stay distinct as long as a name that
is cut when it is stored does not become another's. -/

namespace BotManager.CmdTree
open List CText StepRun Forest CmdRegistry

def Within (a b : Cmd) : Prop := a.methods &&& b.methods = a.methods

variable {c : Cmd} {s : Sys} {d : Node ℕ Cmd} {name str : Bytes} {ns : Nodes ℕ Cmd}
    {kinds : Option (List Bytes)} {parent : Option ℕ}

theorem Within.trans {a b : Cmd} (left : Within a b) (right : Within b c) : Within a c := by
  unfold Within at *
  rw [← left, UInt32.and_assoc, right]

def Shares (a b : Cmd) : Prop :=
  a.name.map toLower = b.name.map toLower ∨ (a.abbr ≠ [] ∧ a.abbr.map toLower = b.name.map toLower) ∨
    (b.abbr ≠ [] ∧ a.name.map toLower = b.abbr.map toLower) ∨
      (a.abbr ≠ [] ∧ b.abbr ≠ [] ∧ a.abbr.map toLower = b.abbr.map toLower)

theorem Shares.symm {a b : Cmd} (shares : Shares a b) : Shares b a := by
  rcases shares with name | ⟨left, same⟩ | ⟨right, same⟩ | ⟨left, right, same⟩
  · exact .inl name.symm
  · exact .inr (.inr (.inl ⟨left, same.symm⟩))
  · exact .inr (.inl ⟨right, same.symm⟩)
  · exact .inr (.inr (.inr ⟨right, left, same.symm⟩))

theorem overlap_comm {a b : Option (List Bytes)} : kindFiltersOverlap a b = kindFiltersOverlap b a := by
  cases a with
  | none => cases b <;> rfl
  | some xs =>
    cases b with
    | none => rfl
    | some ys =>
      rw [Bool.eq_iff_iff]
      simp only [kindFiltersOverlap, any_eq_true, strcasecmp, decide_eq_true_eq]
      constructor
      · rintro ⟨x, inLeft, y, inRight, same⟩
        exact ⟨y, inRight, x, inLeft, same.symm⟩
      · rintro ⟨y, inRight, x, inLeft, same⟩
        exact ⟨x, inLeft, y, inRight, same.symm⟩

structure TreeInvariant (s : Sys) : Prop where
  nodup : (ids s.nodes).Nodup
  count : s.cmdDefCount.toNat = s.nodes.length
  parents : ∀ d ∈ s.nodes, ∀ p, d.parent = some p →
    ∃ q ∈ s.nodes, q.id = p ∧ q.children.count d.id = 1
  children : ∀ q ∈ s.nodes, ∀ c ∈ q.children, ∃ d ∈ s.nodes, d.id = c ∧ d.parent = some q.id
  acyclic : ∀ x, ¬ Ancestor s.nodes x x
  masks : ∀ d ∈ s.nodes, ∀ q ∈ s.nodes, Ancestor s.nodes d.id q.id → Within d.data q.data
  names : ∀ d ∈ s.nodes, ∀ e ∈ s.nodes, d.id ≠ e.id → d.parent = e.parent →
    kindFiltersOverlap d.data.kindFilter e.data.kindFilter = true → ¬ Shares d.data e.data

variable {decl : Decl} {passes addr : ℕ} {t : Sys} {declared : UInt32} {p : Node ℕ Cmd}

section Invariant

structure Inv (s : Sys) : Prop where
  wf : WellFormed s.nodes
  count : s.cmdDefCount.toNat = s.nodes.length
  narrows : ∀ d ∈ s.nodes, ∀ q ∈ s.nodes, d.parent = some q.id → Within d.data q.data
  names : ∀ d ∈ s.nodes, ∀ e ∈ s.nodes, d.id ≠ e.id → d.parent = e.parent →
    kindFiltersOverlap d.data.kindFilter e.data.kindFilter = true → ¬ Shares d.data e.data

theorem Inv.tree (inv : Inv s) : TreeInvariant s where
  nodup := inv.wf.nodup
  __ := inv
  parents := inv.wf.up
  children := inv.wf.down
  acyclic := acyclic inv.wf
  masks _ left _ right above :=
    of_ancestor inv.wf (R := Within) Within.trans inv.narrows left right above

/-- A name that is cut does not become a sibling's, and the count stays in its type. -/
def Keeps (s : Sys) : Op → Prop
  | .register decl _ _ => s.nodes.length + 1 < 2 ^ 32 ∧
      ∀ parent, declaredParent s.nodes decl = some parent →
        (cmdNameSz ≤ decl.name.length → defNameCollidesForKind s.nodes
          (bounded cmdNameSz decl.name) (parent.map Node.id) decl.kindFilter = false) ∧
        (cmdNameSz ≤ decl.abbr.length → defNameCollidesForKind s.nodes
          (bounded cmdNameSz decl.abbr) (parent.map Node.id) decl.kindFilter = false)
  | _ => True

theorem defFind_mem (found : defFind ns name = some d) : d ∈ ns := by
  unfold defFind at found
  simp only [Option.or_eq_some_iff] at found
  rcases found with here | ⟨-, here | ⟨-, here | ⟨-, here⟩⟩⟩ <;>
    exact mem_of_find?_eq_some here

theorem defFindChild_mem {parent : Node ℕ Cmd} (found : defFindChild ns parent name = some d) :
    d ∈ ns := by
  have chain : ∀ c ∈ parent.children.filterMap (lookup ns), c ∈ ns := by
    intro c mem
    obtain ⟨x, -, looked⟩ := mem_filterMap.mp mem
    exact (lookup_some looked).1
  unfold defFindChild at found
  simp only [Option.or_eq_some_iff] at found
  rcases found with here | ⟨-, here⟩ <;> exact chain d (mem_of_find?_eq_some here)

theorem resolve_mem {path : Bytes} (found : resolveParentPath ns path = some d) : d ∈ ns := by
  have walk {toks : List Bytes} {c : Node ℕ Cmd} (inside : c ∈ ns)
      (found : toks.foldlM (fun d tok => if tok = [] then some d else defFindChild ns d tok) c =
        some d) : d ∈ ns := by
    induction toks generalizing c with
    | nil => cases found; exact inside
    | cons tok toks ih =>
      rw [foldlM_cons] at found
      obtain ⟨e, first, rest⟩ := Option.bind_eq_some_iff.mp found
      split at first
      · cases first
        exact ih inside rest
      · exact ih (defFindChild_mem first) rest
  unfold resolveParentPath at found
  split at found
  · cases found
  · split at found
    · cases found
    · obtain ⟨c, first, rest⟩ := Option.bind_eq_some_iff.mp found
      exact walk (defFind_mem first) rest

theorem declaredParent_mem {p : Node ℕ Cmd}
    (found : declaredParent ns decl = some (some p)) : p ∈ ns := by
  unfold declaredParent at found
  split at found
  · cases found
  · obtain ⟨q, resolved, same⟩ := Option.map_eq_some_iff.mp found
    cases same
    exact resolve_mem resolved

theorem apart_of_clear (clear : defNameCollidesForKind ns str parent kinds = false) {e : Node ℕ Cmd}
    (mem : e ∈ ns) (sibling : e.parent = parent)
    (overlap : kindFiltersOverlap e.data.kindFilter kinds = true) :
    e.data.name.map toLower ≠ str.map toLower ∧
      (e.data.abbr ≠ [] → e.data.abbr.map toLower ≠ str.map toLower) := by
  have none := any_eq_false.mp clear e mem
  simp only [sibling, overlap, decide_true, Bool.true_and, Bool.and_true, Bool.not_eq_true,
    Bool.or_eq_false_iff] at none
  constructor
  · intro same
    have hit := (strncasecmp_iff e.data.nameFits).mpr same
    rw [nameHit, hit] at none
    exact absurd none.1 (by decide)
  · intro some same
    have hit := (strncasecmp_iff e.data.abbrevFits).mpr same
    rw [abbrevHit, hit] at none
    simp [some] at none

theorem clear_of_checked {abbr : Bytes}
    (checked : regCheckCollisions ns name abbr parent kinds = true) :
    defNameCollidesForKind ns name parent kinds = false ∧
      (abbr ≠ [] → defNameCollidesForKind ns abbr parent kinds = false) := by
  unfold regCheckCollisions at checked
  split_ifs at checked with named short
  refine ⟨Bool.eq_false_iff.mpr named, fun some => ?_⟩
  simpa [some] using short

theorem clear_bounded (whole : defNameCollidesForKind ns str parent kinds = false)
    (cut : cmdNameSz ≤ str.length →
      defNameCollidesForKind ns (bounded cmdNameSz str) parent kinds = false) :
    defNameCollidesForKind ns (bounded cmdNameSz str) parent kinds = false := by
  rcases Nat.lt_or_ge str.length cmdNameSz with fits | long
  · rw [bounded_of_lt fits]
    exact whole
  · exact cut long

theorem bounded_eq_nil (some : bounded cmdNameSz str ≠ []) : str ≠ [] := by
  rintro rfl
  exact some rfl

theorem within_parent (mask : c.methods = scopedMethods declared (some p)) : Within c p.data := by
  unfold Within
  rw [mask, scopedMethods]
  split
  · exact UInt32.and_self
  · rw [UInt32.and_assoc, UInt32.and_self]

theorem length_detach (ns : Nodes ℕ Cmd) (x : ℕ) (sub : List ℕ) :
    (detach ns x sub).length + ns.countP (·.id ∈ sub) = ns.length := by
  have size : (detach ns x sub).length = ((ids ns).filter (· ∉ sub)).length := by
    rw [← ids_detach, ids, length_map]
  have split := length_eq_countP_add_countP (fun d : Node ℕ Cmd => decide (d.id ∈ sub)) (l := ns)
  rw [size, ids, filter_map, length_map, ← countP_eq_length_filter]
  simp only [Function.comp_def, decide_not, Bool.decide_eq_true] at split ⊢
  omega

theorem inv_start : Inv start := by
  constructor
  · constructor <;> simp [start, ids]
  · rfl
  · simp [start]
  · simp [start]

variable (inv : Inv s)
include inv

theorem Inv.attach (fresh : addr ∉ ids s.nodes)
    (known : ∀ p, parent = some p → p ∈ ids s.nodes) (room : s.nodes.length + 1 < 2 ^ 32)
    (within : ∀ q ∈ s.nodes, parent = some q.id → Within c q.data)
    (apart : ∀ e ∈ s.nodes, e.parent = parent →
      kindFiltersOverlap e.data.kindFilter c.kindFilter = true → ¬ Shares e.data c) :
    Inv ⟨attach s.nodes addr parent c, s.cmdDefCount + 1⟩ := by
  constructor
  · exact inv.wf.attach fresh known c
  · rw [UInt32.toNat_add, inv.count, Forest.attach, length_cons, length_map]
    exact Nat.mod_eq_of_lt room
  · intro d left q right above
    rcases mem_cons.mp right with rfl | old
    · -- Nothing hangs from the new definition.
      have wf := inv.wf.attach fresh known c
      obtain ⟨_, present, same, once⟩ := wf.up d left addr above
      have self := eq_of_id wf.nodup present mem_cons_self same
      rw [self] at once
      simp at once
    · obtain ⟨q, inside, rfl⟩ := mem_map.mp old
      rw [link_id] at above
      rw [link_data]
      rcases mem_cons.mp left with rfl | older
      · exact within q inside above
      · obtain ⟨d, present, rfl⟩ := mem_map.mp older
        rw [link_parent] at above
        rw [link_data]
        exact inv.narrows d present q inside above
  · intro d left e right other siblings overlap
    rcases mem_cons.mp left with rfl | oldLeft
    · rcases mem_cons.mp right with rfl | oldRight
      · exact absurd rfl other
      · obtain ⟨e, inside, rfl⟩ := mem_map.mp oldRight
        rw [link_parent] at siblings
        rw [link_data] at overlap ⊢
        rw [overlap_comm] at overlap
        exact fun shares => apart e inside siblings.symm overlap shares.symm
    · obtain ⟨d, inside, rfl⟩ := mem_map.mp oldLeft
      rw [link_parent] at siblings
      rw [link_data] at overlap ⊢
      rcases mem_cons.mp right with rfl | oldRight
      · exact apart d inside siblings overlap
      · obtain ⟨e, present, rfl⟩ := mem_map.mp oldRight
        rw [link_parent] at siblings
        rw [link_data] at overlap ⊢
        rw [link_id, link_id] at other
        exact inv.names d inside e present other siblings overlap

theorem Inv.register {ownerPc : ℕ} (fresh : addr ∉ ids s.nodes)
    (keeps : Keeps s (.register decl addr ownerPc)) : Inv (cmdRegister s decl addr ownerPc) := by
  unfold cmdRegister
  split
  · split
    · exact inv
    next parent asked =>
      split
      next checked =>
        obtain ⟨named, short⟩ := clear_of_checked checked
        obtain ⟨room, cut⟩ := keeps
        have clearName := clear_bounded named (cut parent asked).1
        have clearAbbr (some : bounded cmdNameSz decl.abbr ≠ []) :=
          clear_bounded (short (bounded_eq_nil some)) (cut parent asked).2
        have known : ∀ p, parent.map Node.id = some p → p ∈ ids s.nodes := by
          intro p above
          obtain ⟨q, rfl, rfl⟩ := Option.map_eq_some_iff.mp above
          exact mem_map_of_mem (declaredParent_mem asked)
        refine inv.attach fresh known room ?_ ?_
        · intro q mem above
          obtain ⟨p, rfl, same⟩ := Option.map_eq_some_iff.mp above
          rw [← eq_of_id inv.wf.nodup (declaredParent_mem asked) mem same]
          exact within_parent rfl
        · intro e mem sibling overlap shares
          obtain ⟨apartName, apartAbbr⟩ := apart_of_clear clearName mem sibling overlap
          rcases shares with same | ⟨some, same⟩ | ⟨some, same⟩ | ⟨left, right, same⟩
          · exact apartName same
          · exact apartAbbr some same
          · exact (apart_of_clear (clearAbbr some) mem sibling overlap).1 same
          · exact (apart_of_clear (clearAbbr right) mem sibling overlap).2 left same
      · exact inv
  · exact inv

theorem Inv.detach {x : ℕ} (done : defDetachSubtree s x = some t) : Inv t := by
  obtain ⟨⟨sub, ms⟩, taken, rfl⟩ := Option.map_eq_some_iff.mp done
  obtain ⟨wf, -⟩ := inv.wf.detachSubtree taken
  obtain ⟨_, -, same⟩ := Option.map_eq_some_iff.mp taken
  cases same
  have size := length_detach s.nodes x sub
  constructor
  · exact wf
  · have bound : s.nodes.length < 2 ^ 32 := inv.count ▸ s.cmdDefCount.toNat_lt
    have removed : (UInt32.ofNat (s.nodes.countP (·.id ∈ sub))).toNat =
        s.nodes.countP (·.id ∈ sub) := UInt32.toNat_ofNat_of_lt' (by simp only [UInt32.size]; omega)
    rw [UInt32.toNat_sub_of_le, inv.count, removed]
    · dsimp only
      omega
    · rw [UInt32.le_iff_toNat_le, removed, inv.count]
      omega
  · intro d left q right above
    obtain ⟨d, inside, rfl, -⟩ := mem_detach left
    obtain ⟨q, present, rfl, -⟩ := mem_detach right
    rw [unlink_parent, unlink_id] at above
    rw [unlink_data, unlink_data]
    exact inv.narrows d inside q present above
  · intro d left e right other siblings overlap
    obtain ⟨d, inside, rfl, -⟩ := mem_detach left
    obtain ⟨e, present, rfl, -⟩ := mem_detach right
    rw [unlink_id, unlink_id] at other
    rw [unlink_parent, unlink_parent] at siblings
    rw [unlink_data, unlink_data] at overlap ⊢
    exact inv.names d inside e present other siblings overlap

theorem Inv.reclaim {lo hi : ℕ} : Inv (reclaimLoop lo hi passes s) := by
  induction passes generalizing s with
  | zero => exact inv
  | succ passes ih =>
    rw [reclaimLoop]
    split
    · exact inv
    next t pass =>
      obtain ⟨root, -, done⟩ := Option.bind_eq_some_iff.mp pass
      exact ih (inv.detach done)

theorem inv_step {op : Op} (keeps : Keeps s op) (moved : step s op = some t) : Inv t := by
  cases op with
  | register decl addr ownerPc =>
    rw [step] at moved
    split at moved
    · cases moved
    next fresh =>
      cases moved
      exact inv.register fresh keeps
  | unregisterPath path =>
    cases moved
    unfold cmdUnregisterPath
    split
    · exact inv
    next d found =>
      cases done : defDetachSubtree s d.id with
      | none => exact inv
      | some t => exact inv.detach done
  | reclaimOwned lo hi =>
    cases moved
    unfold cmdReclaimOwned
    split
    · exact inv
    · exact inv.reclaim

theorem reclaim_complete {lo hi : ℕ} (enough : s.nodes.length ≤ passes) :
    reclaimPass (reclaimLoop lo hi passes s) lo hi = none := by
  induction passes generalizing s with
  | zero =>
    have empty : s.nodes = [] := eq_nil_of_length_eq_zero (Nat.le_zero.mp enough)
    rw [reclaimLoop, reclaimPass, empty]
    rfl
  | succ passes ih =>
    rw [reclaimLoop]
    split
    next done => exact done
    next t pass =>
      obtain ⟨root, owned, done⟩ := Option.bind_eq_some_iff.mp pass
      apply ih (inv.detach done)
      obtain ⟨⟨sub, ms⟩, taken, rfl⟩ := Option.map_eq_some_iff.mp done
      obtain ⟨-, top⟩ := inv.wf.detachSubtree taken
      obtain ⟨_, -, same⟩ := Option.map_eq_some_iff.mp taken
      cases same
      have size := length_detach s.nodes root.id sub
      have some : 0 < s.nodes.countP (·.id ∈ sub) :=
        countP_pos_iff.mpr ⟨root, mem_of_find?_eq_some owned, by simpa using top⟩
      dsimp only
      omega

omit inv

theorem tree_invariant {ops : List Op} {s : Sys} (run : Run step Keeps start ops s) :
    TreeInvariant s :=
  (run.invariant (fun inv => inv_step inv) inv_start).tree

def sampleDecl (name parentPath : Bytes) (methods : UInt32) : Decl where
  name := name
  abbr := []
  group := ascii "everyone"
  hasCb := true
  methods := methods
  parentPath := parentPath
  argDesc := []
  kindFilter := none
  nl := none
  feat := none

theorem keeps_short {decl : Decl} {addr pc : ℕ} (room : s.nodes.length + 1 < 2 ^ 32)
    (name : decl.name.length < cmdNameSz) (abbr : decl.abbr.length < cmdNameSz) :
    Keeps s (.register decl addr pc) :=
  ⟨room, fun _ _ => ⟨fun long => absurd long name.not_ge, fun long => absurd long abbr.not_ge⟩⟩

theorem tree_invariant_sample : ∃ s, Run step Keeps start
    [.register (sampleDecl (ascii "show") [] 3) 1 10,
      .register (sampleDecl (ascii "bot") (ascii "show") methodTAny) 2 20,
      .reclaimOwned 20 30] s ∧ s.nodes.length = 1 ∧ TreeInvariant s := by
  have run : Run step Keeps start
      [.register (sampleDecl (ascii "show") [] 3) 1 10,
        .register (sampleDecl (ascii "bot") (ascii "show") methodTAny) 2 20,
        .reclaimOwned 20 30] _ :=
    .cons (keeps_short (by decide) (by decide) (by decide)) rfl
      (.cons (keeps_short (by decide) (by decide) (by decide)) rfl (.cons trivial rfl (.nil _)))
  exact ⟨_, run, rfl, tree_invariant run⟩

/-- A name of 32 bytes is registered a second time and stored under the same 31 bytes. -/
theorem not_tree_invariant : ∃ s, exec step start
    [.register (sampleDecl (replicate 32 97) [] 3) 1 10,
      .register (sampleDecl (replicate 32 97) [] 3) 2 10] = some s ∧ ¬ TreeInvariant s := by
  refine ⟨_, rfl, fun inv => ?_⟩
  exact inv.names _ mem_cons_self _ (mem_cons_of_mem _ mem_cons_self) (by decide)
    rfl rfl (.inl rfl)

end Invariant

variable {lo hi : ℕ}

/-- Nothing the range owns is left, or a subtree of its was refused as too large. -/
def Reclaimed (s : Sys) (lo hi : ℕ) : Prop :=
  (∀ d ∈ s.nodes, ¬ defOwnedBy d lo hi) ∨
    ∃ root ∈ s.nodes, defOwnedBy root lo hi ∧ defDetachSubtree s root.id = none ∧
      Oversized s.nodes cmdUnregMaxSubtree root.id

theorem none_owned (wf : WellFormed ns) (rootless : defNextOwnedRoot ns lo hi = none)
    (mem : d ∈ ns) : ¬ defOwnedBy d lo hi := by
  intro owned
  induction left : ns.length - place ns d.id using Nat.strong_induction_on generalizing d with
  | _ n ih =>
    have hangs := find?_eq_none.mp rootless d mem
    simp only [owned, Bool.true_and, Bool.not_eq_true', Bool.not_eq_false, Option.any_eq_true,
      Option.bind_eq_some_iff] at hangs
    obtain ⟨q, ⟨p, above, found⟩, mine⟩ := hangs
    obtain ⟨present, rfl⟩ := lookup_some found
    have older := place_lt_of_parent wf mem present above
    have bound := place_le_length ns q.id
    exact ih _ (by omega) present mine rfl

/-- An unloaded object leaves no command behind, unless a subtree is refused. -/
theorem reclaimed_of_run {ops : List Op} (run : Run step Keeps start ops s)
    (range : lo < hi) : Reclaimed (cmdReclaimOwned s lo hi) lo hi := by
  have inv := run.invariant (fun inv => inv_step inv) inv_start
  have wf : WellFormed (reclaimLoop lo hi s.nodes.length s).nodes := inv.reclaim.wf
  have pass : reclaimPass (reclaimLoop lo hi s.nodes.length s) lo hi = none :=
    reclaim_complete inv le_rfl
  rw [cmdReclaimOwned, if_neg range.not_ge]
  cases found : defNextOwnedRoot (reclaimLoop lo hi s.nodes.length s).nodes lo hi with
  | none => exact .inl fun _ => none_owned wf found
  | some root =>
    rw [reclaimPass, found] at pass
    have owned := find?_some found
    refine .inr ⟨root, mem_of_find?_eq_some found, by simp_all, pass, ?_⟩
    exact oversized_of_refused wf (Option.map_eq_none_iff.mp pass)

/-- An object hangs `bot` from the core's `show`, and another object `list` from that. -/
def nested : List Op :=
  [.register (sampleDecl (ascii "show") [] 3) 1 30,
    .register (sampleDecl (ascii "bot") (ascii "show") methodTAny) 2 10,
    .register (sampleDecl (ascii "list") (ascii "show/bot") methodTAny) 3 40]

theorem reclaimed_show : ∃ s, Run step Keeps start nested s ∧ ids s.nodes = [3, 2, 1] ∧
    ids (cmdReclaimOwned s 10 20).nodes = [1] ∧ Reclaimed (cmdReclaimOwned s 10 20) 10 20 := by
  have run : Run step Keeps start nested _ :=
    .cons (keeps_short (by decide) (by decide) (by decide)) rfl
      (.cons (keeps_short (by decide) (by decide) (by decide)) rfl
        (.cons (keeps_short (by decide) (by decide) (by decide)) rfl (.nil _)))
  exact ⟨_, run, by decide +kernel, by decide +kernel, reclaimed_of_run run (by decide)⟩

end BotManager.CmdTree
