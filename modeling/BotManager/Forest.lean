import Mathlib.Data.List.Nodup
import Mathlib.Logic.Relation

/-! Forests kept in two ways at once: a list of all nodes, newest first, and in each node
its parent and the chain of its children. A node is attached at the front of both; a
subtree is collected in post-order, up to a limit, and taken out of the list in one pass.
Since a parent is always older than its children, the order of the list shows that there
are no cycles and bounds the depth of the collection. -/

namespace BotManager.Forest

open List

variable {ι α : Type*} [DecidableEq ι]

structure Node (ι α : Type*) where
  id : ι
  parent : Option ι
  children : List ι
  data : α

abbrev Nodes (ι α : Type*) := List (Node ι α)

variable (ns : Nodes ι α)

def ids : List ι := ns.map Node.id

def lookup (x : ι) : Option (Node ι α) := ns.find? (·.id = x)

def childrenOf (x : ι) : List ι := ((lookup ns x).map Node.children).getD []

/-- The two structures agree, and parents come later in the list. -/
structure WellFormed : Prop where
  nodup : (ids ns).Nodup
  up : ∀ d ∈ ns, ∀ p, d.parent = some p → ∃ q ∈ ns, q.id = p ∧ q.children.count d.id = 1
  down : ∀ q ∈ ns, ∀ c ∈ q.children, ∃ d ∈ ns, d.id = c ∧ d.parent = some q.id
  older : ns.Pairwise fun d q => q.parent ≠ some d.id
  proper : ∀ d ∈ ns, d.parent ≠ some d.id

variable {d e q : Node ι α} {x c : ι} {depth cap : ℕ} {out res : List ι}

section Lookup

variable {ns : Nodes ι α}

omit [DecidableEq ι] in
theorem eq_of_id (nodup : (ids ns).Nodup) (left : d ∈ ns) (right : e ∈ ns)
    (same : d.id = e.id) : d = e :=
  inj_on_of_nodup_map nodup left right same

theorem lookup_some (found : lookup ns x = some d) : d ∈ ns ∧ d.id = x :=
  ⟨mem_of_find?_eq_some found, by simpa using find?_some found⟩

theorem lookup_of_mem (nodup : (ids ns).Nodup) (mem : d ∈ ns) :
    lookup ns d.id = some d := by
  cases found : lookup ns d.id with
  | none =>
    have none := find?_eq_none.mp found d mem
    simp at none
  | some e =>
    obtain ⟨inside, same⟩ := lookup_some found
    rw [eq_of_id nodup inside mem same]

theorem childrenOf_of_mem (nodup : (ids ns).Nodup) (mem : d ∈ ns) :
    childrenOf ns d.id = d.children := by
  rw [childrenOf, lookup_of_mem nodup mem]
  rfl

theorem exists_of_mem_childrenOf (mem : c ∈ childrenOf ns x) :
    ∃ q ∈ ns, q.id = x ∧ c ∈ q.children := by
  rw [childrenOf] at mem
  cases found : lookup ns x with
  | none => simp [found] at mem
  | some q =>
    obtain ⟨inside, same⟩ := lookup_some found
    rw [found] at mem
    exact ⟨q, inside, same, mem⟩

end Lookup

section Attach

def link (parent : Option ι) (x : ι) (q : Node ι α) : Node ι α :=
  if parent = some q.id then { q with children := x :: q.children } else q

def attach (ns : Nodes ι α) (x : ι) (parent : Option ι) (data : α) : Nodes ι α :=
  ⟨x, parent, [], data⟩ :: ns.map (link parent x)

variable {ns : Nodes ι α} {x : ι} {parent : Option ι}

theorem link_id : (link parent x q).id = q.id := by
  unfold link
  split <;> rfl

theorem link_parent : (link parent x q).parent = q.parent := by
  unfold link
  split <;> rfl

theorem link_data : (link parent x q).data = q.data := by
  unfold link
  split <;> rfl

theorem ids_link : ids (ns.map (link parent x)) = ids ns := by
  unfold ids
  rw [map_map]
  exact map_congr_left fun q _ => link_id

theorem count_link (other : c ≠ x) : (link parent x q).children.count c = q.children.count c := by
  unfold link
  split
  · exact count_cons_of_ne other.symm
  · rfl

theorem WellFormed.attach (wf : WellFormed ns) (fresh : x ∉ ids ns)
    (known : ∀ p, parent = some p → p ∈ ids ns) (data : α) :
    WellFormed (attach ns x parent data) := by
  have member : ∀ q ∈ ns, q.id ≠ x := fun q mem same => fresh (same ▸ mem_map_of_mem mem)
  have unlinked : ∀ q ∈ ns, x ∉ q.children := by
    intro q mem inside
    obtain ⟨d, present, same, -⟩ := wf.down q mem x inside
    exact member d present same
  constructor
  · rw [Forest.attach, ids, map_cons, nodup_cons]
    change x ∉ ids (ns.map (link parent x)) ∧ (ids (ns.map (link parent x))).Nodup
    rw [ids_link]
    exact ⟨fresh, wf.nodup⟩
  · intro d mem p above
    rcases mem_cons.mp mem with rfl | old
    · obtain ⟨q, inside, same⟩ := mem_map.mp (known p above)
      refine ⟨link parent x q, mem_cons_of_mem _ (mem_map_of_mem inside), ?_, ?_⟩
      · rw [link_id, same]
      · have chain : parent = some q.id := by rw [same]; exact above
        rw [link, if_pos chain, count_cons_self, count_eq_zero.mpr (unlinked q inside)]
    · obtain ⟨d, inside, rfl⟩ := mem_map.mp old
      rw [link_parent] at above
      obtain ⟨q, present, same, once⟩ := wf.up d inside p above
      refine ⟨link parent x q, mem_cons_of_mem _ (mem_map_of_mem present), ?_, ?_⟩
      · rw [link_id, same]
      · rw [link_id, count_link (member d inside), once]
  · intro q mem c below
    rcases mem_cons.mp mem with rfl | old
    · cases below
    · obtain ⟨q, inside, rfl⟩ := mem_map.mp old
      by_cases new : c = x
      · refine ⟨_, mem_cons_self, new.symm, ?_⟩
        subst new
        unfold link at below ⊢
        split
        next here => exact here
        next other =>
          rw [if_neg other] at below
          exact absurd below (unlinked q inside)
      · have below : c ∈ q.children := by
          have := count_pos_iff.mpr below
          rw [count_link new] at this
          exact count_pos_iff.mp this
        obtain ⟨d, present, same, above⟩ := wf.down q inside c below
        refine ⟨link parent x d, mem_cons_of_mem _ (mem_map_of_mem present), ?_, ?_⟩
        · rw [link_id, same]
        · rw [link_parent, link_id, above]
  · rw [Forest.attach, pairwise_cons]
    constructor
    · intro q old
      obtain ⟨q, inside, rfl⟩ := mem_map.mp old
      rw [link_parent]
      intro above
      obtain ⟨p, present, same, -⟩ := wf.up q inside x above
      exact member p present same
    · rw [pairwise_map]
      exact wf.older.imp fun h => by rwa [link_parent, link_id]
  · intro d mem
    rcases mem_cons.mp mem with rfl | old
    · intro self
      exact fresh (known x self)
    · obtain ⟨d, inside, rfl⟩ := mem_map.mp old
      rw [link_parent, link_id]
      exact wf.proper d inside

end Attach

section Collect

/-- The subtree of a node behind what is collected already, or nothing if that makes more
than `cap` nodes. The first number bounds the depth. -/
def collect (ns : Nodes ι α) (cap : ℕ) : ℕ → ι → List ι → Option (List ι)
  | 0, _, _ => none
  | depth + 1, x, out =>
    ((childrenOf ns x).foldlM (fun out c => collect ns cap depth c out) out).bind fun out =>
      if cap ≤ out.length then none else some (out ++ [x])

variable {ns : Nodes ι α} {cap : ℕ}

/-- A set of nodes with all that is below them, none of which but `x` hangs from outside. -/
structure Subtree (ns : Nodes ι α) (x : ι) (sub : List ι) : Prop where
  top : x ∈ sub
  closed : ∀ y ∈ sub, ∀ c ∈ childrenOf ns y, c ∈ sub
  rooted : ∀ y ∈ sub, y = x ∨ ∃ p ∈ sub, y ∈ childrenOf ns p

theorem collect_children (below : ∀ {x out res}, collect ns cap depth x out = some res →
      ∃ sub, res = out ++ sub ∧ Subtree ns x sub) {cs : List ι}
    (done : cs.foldlM (fun out c => collect ns cap depth c out) out = some res) :
    ∃ sub, res = out ++ sub ∧ (∀ c ∈ cs, c ∈ sub) ∧
      (∀ y ∈ sub, ∀ c ∈ childrenOf ns y, c ∈ sub) ∧
      ∀ y ∈ sub, y ∈ cs ∨ ∃ p ∈ sub, y ∈ childrenOf ns p := by
  induction cs generalizing out with
  | nil =>
    cases done
    exact ⟨[], by simp, by simp, by simp, by simp⟩
  | cons c cs ih =>
    rw [foldlM_cons] at done
    obtain ⟨mid, first, rest⟩ := Option.bind_eq_some_iff.mp done
    obtain ⟨here, rfl, tree⟩ := below first
    obtain ⟨later, rfl, all, closed, rooted⟩ := ih rest
    refine ⟨here ++ later, by rw [append_assoc], ?_, ?_, ?_⟩
    · intro d mem
      rcases mem_cons.mp mem with rfl | behind
      · exact mem_append_left _ tree.top
      · exact mem_append_right _ (all d behind)
    · intro y mem d under
      rcases mem_append.mp mem with left | right
      · exact mem_append_left _ (tree.closed y left d under)
      · exact mem_append_right _ (closed y right d under)
    · intro y mem
      rcases mem_append.mp mem with left | right
      · rcases tree.rooted y left with rfl | ⟨p, inside, under⟩
        · exact .inl mem_cons_self
        · exact .inr ⟨p, mem_append_left _ inside, under⟩
      · rcases rooted y right with chain | ⟨p, inside, under⟩
        · exact .inl (mem_cons_of_mem c chain)
        · exact .inr ⟨p, mem_append_right _ inside, under⟩

theorem collect_subtree (done : collect ns cap depth x out = some res) :
    ∃ sub, res = out ++ sub ∧ Subtree ns x sub := by
  induction depth generalizing x out res with
  | zero => cases done
  | succ depth ih =>
    obtain ⟨mid, below, last⟩ := Option.bind_eq_some_iff.mp done
    obtain ⟨sub, rfl, all, closed, rooted⟩ := collect_children ih below
    split at last
    · cases last
    · cases last
      refine ⟨sub ++ [x], by rw [append_assoc], ⟨by simp, ?_, ?_⟩⟩
      · intro y mem c under
        rcases mem_append.mp mem with inside | here
        · exact mem_append_left _ (closed y inside c under)
        · rw [mem_singleton.mp here] at under
          exact mem_append_left _ (all c under)
      · intro y mem
        rcases mem_append.mp mem with inside | here
        · rcases rooted y inside with chain | ⟨p, other, under⟩
          · exact .inr ⟨x, by simp, chain⟩
          · exact .inr ⟨p, mem_append_left _ other, under⟩
        · exact .inl (mem_singleton.mp here)

def place (ns : Nodes ι α) (x : ι) : ℕ := (ids ns).idxOf x

theorem place_lt_of_parent (wf : WellFormed ns) (left : d ∈ ns) (right : q ∈ ns)
    (above : d.parent = some q.id) : place ns d.id < place ns q.id := by
  obtain ⟨pre, post, rfl⟩ := append_of_mem left
  have nodup := wf.nodup
  rw [ids, map_append, map_cons, nodup_append] at nodup
  have self : q ≠ d := fun same => wf.proper d left (same ▸ above)
  have behind : q ∉ pre := by
    intro before
    exact (pairwise_append.mp wf.older).2.2 q before d mem_cons_self above
  have outside : ∀ e ∈ d :: post, e.id ∉ pre.map Node.id := by
    intro e mem inside
    exact nodup.2.2 e.id inside e.id (mem_map_of_mem (f := Node.id) mem) rfl
  have after : q ∈ d :: post := (mem_append.mp right).resolve_left behind
  have other : d.id ≠ q.id := fun same => self (eq_of_id wf.nodup right left same.symm)
  rw [place, place, ids, map_append, map_cons,
    idxOf_append_of_notMem (outside d mem_cons_self),
    idxOf_append_of_notMem (outside q after), idxOf_cons_self,
    idxOf_cons_ne _ other]
  omega

theorem place_lt_of_child (wf : WellFormed ns) (below : c ∈ childrenOf ns x) :
    place ns c < place ns x := by
  obtain ⟨q, mem, rfl, under⟩ := exists_of_mem_childrenOf below
  obtain ⟨d, inside, rfl, above⟩ := wf.down q mem c under
  exact place_lt_of_parent wf inside mem above

end Collect

section Detach

def unlink (parent : Option ι) (x : ι) (q : Node ι α) : Node ι α :=
  if parent = some q.id then { q with children := q.children.erase x } else q

def detach (ns : Nodes ι α) (x : ι) (sub : List ι) : Nodes ι α :=
  (ns.map (unlink ((lookup ns x).bind Node.parent) x)).filter (·.id ∉ sub)

/-- The subtree of a node and the nodes without it, unless the subtree is too large. -/
def detachSubtree (ns : Nodes ι α) (cap : ℕ) (x : ι) : Option (List ι × Nodes ι α) :=
  (collect ns cap (ns.length + 1) x []).map fun sub => (sub, detach ns x sub)

variable {ns : Nodes ι α} {x : ι} {sub : List ι} {parent : Option ι}

theorem unlink_id : (unlink parent x q).id = q.id := by
  unfold unlink
  split <;> rfl

theorem unlink_parent : (unlink parent x q).parent = q.parent := by
  unfold unlink
  split <;> rfl

theorem unlink_data : (unlink parent x q).data = q.data := by
  unfold unlink
  split <;> rfl

theorem mem_unlink (mem : c ∈ (unlink parent x q).children) : c ∈ q.children := by
  unfold unlink at mem
  split at mem
  · exact mem_of_mem_erase mem
  · exact mem

theorem count_unlink (other : c ≠ x) :
    (unlink parent x q).children.count c = q.children.count c := by
  unfold unlink
  split
  · exact count_erase_of_ne other
  · rfl

theorem mem_detach (mem : d ∈ detach ns x sub) :
    ∃ e ∈ ns, d = unlink ((lookup ns x).bind Node.parent) x e ∧ e.id ∉ sub := by
  obtain ⟨mapped, kept⟩ := mem_filter.mp mem
  obtain ⟨e, inside, rfl⟩ := mem_map.mp mapped
  rw [unlink_id] at kept
  exact ⟨e, inside, rfl, of_decide_eq_true kept⟩

theorem detach_mem (mem : e ∈ ns) (kept : e.id ∉ sub) :
    unlink ((lookup ns x).bind Node.parent) x e ∈ detach ns x sub := by
  refine mem_filter.mpr ⟨mem_map_of_mem mem, ?_⟩
  rw [unlink_id]
  exact decide_eq_true kept

theorem ids_detach : ids (detach ns x sub) = (ids ns).filter (· ∉ sub) := by
  rw [ids, detach, ids, filter_map, map_map, filter_map]
  have same : (fun q : Node ι α => decide ((unlink ((lookup ns x).bind Node.parent) x q).id ∉ sub)) =
      fun q => decide (q.id ∉ sub) := by
    funext q
    rw [unlink_id]
  have ids : (Node.id ∘ unlink ((lookup ns x).bind Node.parent) x : Node ι α → ι) = Node.id := by
    funext q
    exact unlink_id
  rw [ids]
  congr 1
  exact congrArg (filter · ns) same

theorem WellFormed.detach (wf : WellFormed ns) (tree : Subtree ns x sub) :
    WellFormed (detach ns x sub) := by
  constructor
  · rw [ids_detach]
    exact wf.nodup.filter _
  · intro d mem p above
    obtain ⟨e, inside, rfl, kept⟩ := mem_detach mem
    rw [unlink_parent] at above
    obtain ⟨q, present, rfl, once⟩ := wf.up e inside p above
    have chain : e.id ∈ q.children := count_pos_iff.mp (by omega)
    have stays : q.id ∉ sub := by
      intro gone
      rw [← childrenOf_of_mem wf.nodup present] at chain
      exact kept (tree.closed q.id gone e.id chain)
    refine ⟨_, detach_mem present stays, unlink_id, ?_⟩
    have other : e.id ≠ x := fun same => kept (same ▸ tree.top)
    rw [unlink_id, count_unlink other, once]
  · intro q mem c below
    obtain ⟨q, inside, rfl, kept⟩ := mem_detach mem
    obtain ⟨d, present, rfl, above⟩ := wf.down q inside c (mem_unlink below)
    have stays : d.id ∉ sub := by
      intro gone
      rcases tree.rooted d.id gone with top | ⟨p, other, under⟩
      · have found : (lookup ns x).bind Node.parent = some q.id := by
          rw [← top, lookup_of_mem wf.nodup present]
          exact above
        obtain ⟨q', present', same, once⟩ := wf.up d present q.id above
        obtain rfl := eq_of_id wf.nodup present' inside same
        rw [unlink, if_pos found, top] at below
        rw [top] at once
        have none := count_erase_self (a := x) (l := q'.children)
        rw [once] at none
        exact count_eq_zero.mp none below
      · obtain ⟨q', present', rfl, chain⟩ := exists_of_mem_childrenOf under
        obtain ⟨d', other', same, above'⟩ := wf.down q' present' d.id chain
        rw [eq_of_id wf.nodup other' present same, above] at above'
        exact kept (Option.some.inj above' ▸ other)
    refine ⟨_, detach_mem present stays, unlink_id, ?_⟩
    rw [unlink_parent, unlink_id, above]
  · rw [Forest.detach]
    refine List.Pairwise.filter _ (pairwise_map.mpr ?_)
    exact wf.older.imp fun h => by rwa [unlink_parent, unlink_id]
  · intro d mem
    obtain ⟨e, inside, rfl, -⟩ := mem_detach mem
    rw [unlink_parent, unlink_id]
    exact wf.proper e inside

theorem WellFormed.detachSubtree {ms : Nodes ι α} (wf : WellFormed ns)
    (done : detachSubtree ns cap x = some (sub, ms)) : WellFormed ms ∧ x ∈ sub := by
  obtain ⟨res, found, same⟩ := Option.map_eq_some_iff.mp done
  cases same
  obtain ⟨_, rfl, tree⟩ := collect_subtree found
  exact ⟨wf.detach tree, tree.top⟩

theorem place_le_length (ns : Nodes ι α) (x : ι) : place ns x ≤ ns.length := by
  have bound := idxOf_le_length (a := x) (l := ids ns)
  rwa [ids, length_map] at bound

end Detach

section Ancestors

def ParentOf (ns : Nodes ι α) (x y : ι) : Prop := ∃ d ∈ ns, d.id = x ∧ d.parent = some y

def Ancestor (ns : Nodes ι α) : ι → ι → Prop := Relation.TransGen (ParentOf ns)

variable {ns : Nodes ι α}

theorem place_lt_of_ancestor (wf : WellFormed ns) {y : ι} (above : Ancestor ns x y) :
    place ns x < place ns y := by
  have one {x y : ι} (h : ParentOf ns x y) : place ns x < place ns y := by
    obtain ⟨d, mem, rfl, parent⟩ := h
    obtain ⟨q, present, rfl, -⟩ := wf.up d mem y parent
    exact place_lt_of_parent wf mem present parent
  induction above with
  | single h => exact one h
  | tail _ h ih => exact Nat.lt_trans ih (one h)

theorem acyclic (wf : WellFormed ns) (x : ι) : ¬ Ancestor ns x x :=
  fun above => Nat.lt_irrefl _ (place_lt_of_ancestor wf above)

theorem of_ancestor (wf : WellFormed ns) {R : α → α → Prop} (trans : ∀ {a b c}, R a b → R b c → R a c)
    (step : ∀ d ∈ ns, ∀ q ∈ ns, d.parent = some q.id → R d.data q.data)
    (left : d ∈ ns) (right : q ∈ ns) (above : Ancestor ns d.id q.id) : R d.data q.data := by
  have all {y : ι} (h : Ancestor ns d.id y) : ∀ q ∈ ns, q.id = y → R d.data q.data := by
    induction h with
    | single h =>
      intro q mem same
      obtain ⟨e, inside, here, parent⟩ := h
      obtain rfl := eq_of_id wf.nodup inside left here
      exact step e inside q mem (same ▸ parent)
    | tail _ h ih =>
      intro q mem same
      obtain ⟨e, inside, here, parent⟩ := h
      exact trans (ih e inside here) (step e inside q mem (same ▸ parent))
  exact all above q right rfl

end Ancestors

section Refused

variable {ns : Nodes ι α}

def gather (ns : Nodes ι α) : ℕ → ι → List ι
  | 0, _ => []
  | depth + 1, x => (childrenOf ns x).flatMap (gather ns depth) ++ [x]

def Below (ns : Nodes ι α) : ι → ι → Prop := Relation.ReflTransGen (ParentOf ns)

theorem parentOf_of_child (wf : WellFormed ns) (below : c ∈ childrenOf ns x) : ParentOf ns c x := by
  obtain ⟨q, mem, rfl, under⟩ := exists_of_mem_childrenOf below
  exact wf.down q mem c under

theorem nodup_childrenOf (wf : WellFormed ns) (x : ι) : (childrenOf ns x).Nodup := by
  refine nodup_iff_count_eq_one.mpr fun c below => ?_
  obtain ⟨d, mem, rfl, above⟩ := parentOf_of_child wf below
  obtain ⟨q, present, rfl, once⟩ := wf.up d mem x above
  rwa [childrenOf_of_mem wf.nodup present]

theorem place_le_of_below (wf : WellFormed ns) {y : ι} (below : Below ns y x) :
    place ns y ≤ place ns x := by
  rcases Relation.reflTransGen_iff_eq_or_transGen.mp below with rfl | above
  · exact Nat.le_refl _
  · exact Nat.le_of_lt (place_lt_of_ancestor wf above)

theorem below_of_gather (wf : WellFormed ns) {y : ι} (mem : y ∈ gather ns depth x) :
    Below ns y x := by
  induction depth generalizing x with
  | zero => cases mem
  | succ depth ih =>
    rcases mem_append.mp mem with under | here
    · obtain ⟨c, child, inside⟩ := mem_flatMap.mp under
      exact (ih inside).tail (parentOf_of_child wf child)
    · rw [mem_singleton.mp here]
      exact .refl

/-- A node has one parent, so that of two nodes above it one is above the other. -/
theorem siblings_apart (wf : WellFormed ns) {a b y : ι} (left : ParentOf ns a x)
    (right : ParentOf ns b x) (under : Below ns y a) (also : Below ns y b) : a = b := by
  have unique : Relator.RightUnique (ParentOf ns) := by
    rintro _ _ _ ⟨d, mem, rfl, one⟩ ⟨e, inside, same, other⟩
    rw [eq_of_id wf.nodup inside mem same, one] at other
    exact Option.some.inj other
  -- a sibling above another would be above their parent, which is above it
  have level {a b : ι} (left : ParentOf ns a x) (right : ParentOf ns b x)
      (chain : Below ns a b) : a = b := by
    rcases Relation.ReflTransGen.cases_head chain with same | ⟨p, above, more⟩
    · exact same
    · rw [unique above left] at more
      have lower := place_lt_of_ancestor wf (.single right)
      have upper := place_le_of_below wf more
      omega
  rcases Relation.ReflTransGen.total_of_right_unique unique under also with chain | chain
  · exact level left right chain
  · exact (level right left chain).symm

theorem nodup_gather (wf : WellFormed ns) : (gather ns depth x).Nodup := by
  induction depth generalizing x with
  | zero => exact nodup_nil
  | succ depth ih =>
    have children : ((childrenOf ns x).flatMap (gather ns depth)).Nodup := by
      refine nodup_flatMap.mpr ⟨fun _ _ => ih, ?_⟩
      refine (nodup_childrenOf wf x).pairwise_of_forall_ne fun a left b right other y under also => ?_
      exact other (siblings_apart wf (parentOf_of_child wf left) (parentOf_of_child wf right)
        (below_of_gather wf under) (below_of_gather wf also))
    refine children.append (nodup_singleton x) (disjoint_singleton.mpr fun inside => ?_)
    obtain ⟨c, child, under⟩ := mem_flatMap.mp inside
    have lower := place_lt_of_child wf child
    have upper := place_le_of_below wf (below_of_gather wf under)
    omega

def Room (cap : ℕ) (res : Option (List ι)) (out sub : List ι) : Prop :=
  (res = some (out ++ sub) ∧ (out ++ sub).length ≤ cap) ∨ cap < (out ++ sub).length

omit [DecidableEq ι] in
theorem room_foldlM {f : List ι → ι → Option (List ι)} {sub : ι → List ι} {cs : List ι}
    (each : ∀ c ∈ cs, ∀ out : List ι, out.length ≤ cap → Room cap (f out c) out (sub c))
    (room : out.length ≤ cap) : Room cap (cs.foldlM f out) out (cs.flatMap sub) := by
  induction cs generalizing out with
  | nil => exact .inl ⟨by simp, by simpa using room⟩
  | cons c cs ih =>
    have rest (fits : (out ++ sub c).length ≤ cap) :=
      ih (fun d mem => each d (mem_cons_of_mem c mem)) fits
    rw [Room, flatMap_cons, ← append_assoc, foldlM_cons]
    rcases each c mem_cons_self out room with ⟨done, fits⟩ | full
    · rw [done]
      exact rest fits
    · rw [length_append]
      exact .inr (by omega)

theorem room_collect (wf : WellFormed ns) (deep : place ns x < depth) (room : out.length ≤ cap) :
    Room cap (collect ns cap depth x out) out (gather ns depth x) := by
  induction depth generalizing x out with
  | zero => cases deep
  | succ depth ih =>
    have each (c : ι) (child : c ∈ childrenOf ns x) (out : List ι) (room : out.length ≤ cap) :
        Room cap (collect ns cap depth c out) out (gather ns depth c) := by
      have lower := place_lt_of_child wf child
      exact ih (by omega) room
    rw [Room, gather, ← append_assoc, collect]
    rcases room_foldlM each room with ⟨done, fits⟩ | full
    · rw [done, Option.bind_some]
      split
      next full => exact .inr (by rw [length_append, length_singleton]; omega)
      next less => exact .inl ⟨rfl, by rw [length_append, length_singleton]; omega⟩
    · rw [length_append]
      exact .inr (by omega)

/-- There are more than `cap` nodes at or below `x`. -/
def Oversized (ns : Nodes ι α) (cap : ℕ) (x : ι) : Prop :=
  ∃ sub : List ι, sub.Nodup ∧ cap < sub.length ∧ ∀ y ∈ sub, Below ns y x

theorem oversized_of_refused (wf : WellFormed ns) (refused : detachSubtree ns cap x = none) :
    Oversized ns cap x := by
  have deep : place ns x < ns.length + 1 := Nat.lt_succ_of_le (place_le_length ns x)
  refine ⟨gather ns (ns.length + 1) x, nodup_gather wf, ?_, fun _ => below_of_gather wf⟩
  have room : ([] : List ι).length ≤ cap := Nat.zero_le cap
  rcases room_collect wf deep room with ⟨done, -⟩ | full
  · rw [detachSubtree, done] at refused
    cases refused
  · exact full

end Refused

end BotManager.Forest
