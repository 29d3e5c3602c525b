import BotManager.CText

/-! What a WebSocket binding remembers of its subscription, and when the reconcile renews it. -/

namespace BotManager.WsBinding

open List CText

def wmWsProductIdSz : ℕ := 24

def wmWsBindingMaxProducts : ℕ := 32

structure ProductSet where
  products : List Bytes
  truncated : Bool

def sameId (a b : Bytes) : Bool := a.take wmWsProductIdSz = b.take wmWsProductIdSz

def wmWsRecordedContains (recorded : List Bytes) (product : Bytes) : Bool :=
  recorded.any fun id => sameId id product

/-- A null entry of a list reads as the empty id: both are passed over. -/
def wmWsListContains (products : List Bytes) (product : Bytes) : Bool :=
  products.any fun id => id ≠ [] && sameId id product

def recordFrom (recorded : List Bytes) : List Bytes → ProductSet
  | [] => ⟨recorded, false⟩
  | id :: rest =>
    if id = [] then recordFrom recorded rest
    else if wmWsRecordedContains recorded id = true then recordFrom recorded rest
    else if wmWsBindingMaxProducts ≤ recorded.length then ⟨recorded, true⟩
    else recordFrom (recorded ++ [bounded wmWsProductIdSz id]) rest

/-- The call returns whether the set is not `truncated`. -/
def wmWsProductSetRecord (products : List Bytes) : ProductSet := recordFrom [] products

def wmWsProductSetDiffers (set : ProductSet) (products : List Bytes) : Bool :=
  set.truncated || products.any (fun id => id ≠ [] && !wmWsRecordedContains set.products id) ||
    set.products.any fun id => !wmWsListContains products id

/-- Whether `wm_live_ws_resub_all` drops a binding it finds and subscribes again. -/
def resubscribes (subscribed stale : Bool) (set : ProductSet) (products : List Bytes) : Bool :=
  !subscribed || stale || wmWsProductSetDiffers set products

def Short (id : Bytes) : Prop := id.length < wmWsProductIdSz

def SameProducts (p q : List Bytes) : Prop := ∀ id ≠ [], id ∈ p ↔ id ∈ q

theorem sameId_iff {a b : Bytes} (short : Short a) : sameId a b = true ↔ a = b := by
  rw [sameId, decide_eq_true_iff, take_of_length_le short.le]
  constructor
  · intro same
    have size := congrArg length same
    rw [length_take] at size
    unfold Short at short
    rwa [take_of_length_le (by omega)] at same
  · rintro rfl
    rw [take_of_length_le short.le]

variable {recorded products p : List Bytes}

theorem recordedContains_iff (short : ∀ id ∈ recorded, Short id)
    (product : Bytes) : wmWsRecordedContains recorded product = true ↔ product ∈ recorded := by
  rw [wmWsRecordedContains, any_eq_true]
  constructor
  · rintro ⟨id, mem, same⟩
    exact (sameId_iff (short id mem)).mp same ▸ mem
  · intro mem
    exact ⟨product, mem, (sameId_iff (short product mem)).mpr rfl⟩

theorem listContains_iff {product : Bytes} (short : Short product) :
    wmWsListContains products product = true ↔ product ≠ [] ∧ product ∈ products := by
  have turned (id : Bytes) : sameId id product = sameId product id := by
    rw [sameId, sameId, decide_eq_decide, eq_comm]
  simp only [wmWsListContains, any_eq_true, Bool.and_eq_true, decide_eq_true_eq, turned,
    sameId_iff short]
  constructor
  · rintro ⟨id, mem, named, rfl⟩
    exact ⟨named, mem⟩
  · rintro ⟨named, mem⟩
    exact ⟨product, mem, named, rfl⟩

theorem recordFrom_spec
    (short : ∀ id ∈ recorded ++ products, Short id) (named : ∀ id ∈ recorded, id ≠ [])
    (fits : (recordFrom recorded products).truncated = false) :
    ∀ id, id ∈ (recordFrom recorded products).products ↔
      id ≠ [] ∧ id ∈ recorded ++ products := by
  induction products generalizing recorded with
  | nil =>
    intro id
    rw [append_nil]
    exact ⟨fun mem => ⟨named id mem, mem⟩, And.right⟩
  | cons first rest ih =>
    have shortRest : ∀ id ∈ recorded ++ rest, Short id := fun id mem =>
      short id (((sublist_cons_self first rest).append_left recorded).mem mem)
    unfold recordFrom at fits ⊢
    intro id
    split_ifs at fits ⊢ with empty known full
    · rw [ih shortRest named fits id, empty]
      simp only [mem_append, mem_cons, and_congr_right_iff]
      exact fun other => or_congr_right (or_iff_right other).symm
    · have old := (recordedContains_iff (fun id mem => short id (mem_append_left _ mem)) _).mp known
      rw [ih shortRest named fits id, mem_append, mem_append, mem_cons]
      refine and_congr_right fun _ => ⟨Or.imp_right .inr, ?_⟩
      rintro (mem | rfl | mem)
      · exact .inl mem
      · exact .inl old
      · exact .inr mem
    · rw [bounded_of_lt (short first (by simp))] at fits ⊢
      rw [ih (by simpa using short) (forall_mem_append.mpr ⟨named, by simpa using empty⟩) fits id,
        append_assoc, singleton_append]

theorem mem_record_iff (short : ∀ id ∈ p, Short id)
    (fits : (wmWsProductSetRecord p).truncated = false) (id : Bytes) :
    id ∈ (wmWsProductSetRecord p).products ↔ id ≠ [] ∧ id ∈ p :=
  recordFrom_spec short (forall_mem_nil _) fits id

theorem differs_record_iff {q : List Bytes} (short : ∀ id ∈ p, Short id)
    (fits : (wmWsProductSetRecord p).truncated = false) :
    wmWsProductSetDiffers (wmWsProductSetRecord p) q = false ↔ SameProducts p q := by
  have held := mem_record_iff short fits
  have shortHeld : ∀ id ∈ (wmWsProductSetRecord p).products, Short id := fun id mem =>
    short id ((held id).mp mem).2
  simp only [wmWsProductSetDiffers, fits, Bool.false_or, Bool.or_eq_false_iff, any_eq_false,
    Bool.and_eq_true, decide_eq_true_eq, Bool.not_eq_true', Bool.not_eq_false, not_and,
    recordedContains_iff shortHeld, held]
  constructor
  · rintro ⟨asked, kept⟩ id named
    constructor
    · intro mem
      have found := kept id ⟨named, mem⟩
      exact ((listContains_iff (short id mem)).mp found).2
    · intro mem
      exact (asked id mem named).2
  · intro same
    constructor
    · intro id mem named
      exact ⟨named, (same id named).mpr mem⟩
    · rintro id ⟨named, mem⟩
      exact (listContains_iff (short id mem)).mpr ⟨named, (same id named).mp mem⟩

/-- Ids below the copy limit are compared exactly, so a reconcile over the products of the last
subscription leaves it alone. -/
theorem reconcile_exact (p : List Bytes) (short : ∀ id ∈ p, Short id)
    (fits : (wmWsProductSetRecord p).truncated = false) :
    (∀ q, wmWsProductSetDiffers (wmWsProductSetRecord p) q = false ↔ SameProducts p q) ∧
      resubscribes true false (wmWsProductSetRecord p) p = false :=
  ⟨fun _ => differs_record_iff short fits,
    (differs_record_iff short fits).mpr fun _ _ => Iff.rfl⟩

theorem reconcile_one_product :
    resubscribes true false (wmWsProductSetRecord [[65], [], [65]]) [[65], [], [65]] = false :=
  (reconcile_exact _ (by simp [Short, wmWsProductIdSz]) rfl).2

/-- An id that fills the buffer is recorded one byte short and never found again. -/
theorem long_id_resubscribes : ∃ p, (wmWsProductSetRecord p).truncated = false ∧
    wmWsProductSetDiffers (wmWsProductSetRecord p) p = true ∧
      resubscribes true false (wmWsProductSetRecord p) p = true :=
  ⟨[replicate 24 65], by decide⟩

end BotManager.WsBinding
