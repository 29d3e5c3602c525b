import BotManager.DbPool
import BotManager.StepRun

/-! A committed transaction is complete and isolated. What happened to a slot is read by a
monitor that knows whose transaction is open on it; the user that a slot is locked by says what
the monitor and the connection are in. -/

namespace BotManager.DbTxn
open List DbPool StepRun

section Statement

def Act.inside : Act → Bool
  | .statement => true
  | .commit _ _ => true
  | .rollback => true
  | _ => false

/-- Whose transaction is open on a slot, after one more thing has happened to it: between a BEGIN
and the release of the slot everything is done by one user, and nothing but statements, the end of
the transaction and, at the most, the closing of the connection. -/
def watch : Option ℕ → ℕ × Act → Option (Option ℕ)
  | none, (o, .begin true) => some (some o)
  | none, (_, a) => if Act.inside a = true then none else some none
  | some o, (o', .released _) => if o' = o then some none else none
  | some o, (o', a) =>
    if o' = o ∧ (Act.inside a = true ∨ a = .closed) then some (some o) else none

def watched (log : List (ℕ × Act)) : Option (Option ℕ) := log.foldlM watch none

/-- Every statement call returned SUCCESS, and COMMIT succeeded on a transaction that was not
aborted, and that was still open if no statement text ended it. -/
def Committed (t : Txn) : Prop :=
  (∀ x ∈ t.calls, x.2 = true) ∧ ∃ l, t.commit = some (l, true) ∧ l ≠ .inError ∧ l ≠ .copyTrans ∧
    ((∀ x ∈ t.calls, x.1.text = .plain) → l = .inTrans)

@[simp] def Clean (h : Handle) : Prop := h.inTxn = false ∧ (h.link = .idle ∨ h.link = .bad)

structure Transactional (s : Sys) : Prop where
  isolated : ∀ i, watched (s.log i) ≠ none
  pinned : ∀ i o a, (o, a) ∈ s.log i → Act.inside a = true → (s.txns o).conn = some i
  complete : ∀ o, (s.txns o).returned = some true → Committed (s.txns o)
  clean : ∀ i, (s.slots i).locked = false → ∀ h, (s.slots i).handle = some h → Clean h

def unfailed : Frame → Bool
  | .txn _ failed => !failed
  | _ => false

/-- No statement call on a transaction that has not failed is refused by the wrapper, and no
statement outside a transaction holds a COPY. -/
def Keeps (s : Sys) : Op → Prop
  | .statement o call _ _ => unfailed (s.ops o) = true → ¬ Refused s.bound call
  | .use u => u.text ≠ .copy
  | _ => True

instance (s : Sys) (op : Op) : Decidable (Keeps s op) := by
  unfold Keeps
  split <;> infer_instance

end Statement

section Driver

variable {h : Handle} {l : Link} {text : Text} {r d : Reply}

theorem pgDrainTxn_inTxn (pinned : h.inTxn = true) : pgDrainTxn h d = h := by
  simp [pgDrainTxn, pinned]

theorem pgDrainTxn_clean (free : h.inTxn = false) (copy : h.link ≠ .copy)
    (copyTrans : h.link ≠ .copyTrans) : Clean (pgDrainTxn h d) := by
  unfold pgDrainTxn serveTxn
  cases link : h.link with
  | idle | bad => simp [free, link]
  | inTrans | inError =>
    by_cases lost : d.after = .bad
    · simp [free, lost]
    · simp [free, lost]
  | copy => exact absurd link copy
  | copyTrans => exact absurd link copyTrans

theorem settled_copying (l : Link) : l.settled ≠ .copy ∧ l.settled ≠ .copyTrans := by
  cases l <;> simp

theorem serveControl_copying : (serveControl r).2 ≠ .copy ∧ (serveControl r).2 ≠ .copyTrans := by
  unfold serveControl
  split_ifs
  · simp
  · simp
  · exact settled_copying r.after

theorem servePlain_copying (copy : l ≠ .copy) (copyTrans : l ≠ .copyTrans) :
    (servePlain r l).2 ≠ .copy ∧ (servePlain r l).2 ≠ .copyTrans := by
  cases l with
  | idle | inError | bad => simp [servePlain]
  | inTrans =>
    rw [servePlain]
    split_ifs <;> simp
  | copy => exact absurd rfl copy
  | copyTrans => exact absurd rfl copyTrans

theorem serve_copying (other : text ≠ .copy) :
    (serve l text r).2 ≠ .copy ∧ (serve l text r).2 ≠ .copyTrans := by
  unfold serve
  split
  · simp
  · cases text with
    | plain =>
      obtain ⟨copy, copyTrans⟩ := settled_copying l
      exact servePlain_copying copy copyTrans
    | control => exact serveControl_copying
    | copy => exact absurd rfl other

theorem serve_ok (ok : (serve l text r).1 = true) :
    ((serve l text r).2 = .idle ∨ (serve l text r).2 = .inTrans) ∧
      (text = .plain → l = .inTrans → (serve l text r).2 = .inTrans) := by
  have control : (serveControl r).1 = true →
      (serveControl r).2 = .idle ∨ (serveControl r).2 = .inTrans := by
    unfold serveControl
    split_ifs <;> simp
  revert ok
  fun_cases serve l text r with
  | case1 | case4 =>
    intro ok
    cases ok
  | case2 up =>
    intro ok
    rw [not_or] at up
    cases l with
    | bad => exact absurd rfl up.1
    | idle | copy => simp [servePlain]
    | inTrans =>
      have ran : r.ok = true := ok
      simp [servePlain, ran]
    | inError | copyTrans => simp [servePlain] at ok
  | case3 | case5 => exact fun ok => ⟨control ok, fun plain => by cases plain⟩

theorem pgQuery_clean (clean : Clean h) (other : text ≠ .copy) : Clean (pgQuery h text r d).2 := by
  obtain ⟨copy, copyTrans⟩ := serve_copying (l := h.link) (r := r) other
  exact pgDrainTxn_clean clean.1 copy copyTrans

theorem pgTxn_begin (clean : Clean h) :
    (pgTxn h .begin r d).1 = true ∧ (pgTxn h .begin r d).2 = ⟨.inTrans, true⟩ ∨
      (pgTxn h .begin r d).1 = false ∧ Clean (pgTxn h .begin r d).2 := by
  obtain ⟨-, idle | bad⟩ := clean
  · by_cases lost : r.after = .bad
    · right
      simp [pgTxn, serveTxn, lost, pgDrainTxn]
    · cases ok : r.ok with
      | true =>
        left
        simp [pgTxn, serveTxn, lost, idle, ok]
      | false =>
        right
        simp [pgTxn, serveTxn, lost, idle, ok, pgDrainTxn]
  · right
    simp [pgTxn, serveTxn, bad, pgDrainTxn]

theorem pgTxn_end {op : TxnOp} (ends : op ≠ .begin) : Clean (pgTxn h op r d).2 := by
  have left : (serveTxn h.link op r).2 = .idle ∨ (serveTxn h.link op r).2 = .bad := by
    unfold serveTxn
    split
    · exact .inr rfl
    · cases op with
      | begin => exact absurd rfl ends
      | commit | rollback => exact .inl rfl
  rw [pgTxn, if_neg (fun both => ends both.1)]
  apply pgDrainTxn_clean rfl
  all_goals
    obtain idle | bad := left
    · simp [idle]
    · simp [bad]

end Driver

section Invariant

def Frame.holds : Frame → Option ℕ
  | .look1 _ i => some i
  | .look2 _ i => some i
  | .query _ i _ => some i
  | .recover _ i => some i
  | .escape i => some i
  | .begin i => some i
  | .txn i _ => some i
  | .commit i => some i
  | .rollback i _ => some i
  | .settle i _ => some i
  | .release i _ => some i
  | .reapLook i => some i
  | .pass1 _ _ => none
  | .pass2 _ _ => none
  | .reap _ => none
  | .done => none

def Frame.user : Frame → Option User
  | .pass1 u _ => some u
  | .look1 u _ => some u
  | .pass2 u _ => some u
  | .look2 u _ => some u
  | .query u _ _ => some u
  | .recover u _ => some u
  | .escape _ => some .escape
  | .begin _ => some .begin
  | _ => none

def CleanSlot (sl : Slot) : Prop := ∀ h, sl.handle = some h → Clean h

def Quiet (sl : Slot) (w : Option (Option ℕ)) : Prop := w = some none ∧ CleanSlot sl

structure Pinned (o i : ℕ) (w : Option (Option ℕ)) (t : Txn) : Prop where
  own : w = some (some o)
  conn : t.conn = some i
  unreturned : t.returned = none

def Going (sl : Slot) (t : Txn) : Prop :=
  (∀ x ∈ t.calls, x.2 = true) ∧ ∀ h, sl.handle = some h →
    (h.link = .idle ∨ h.link = .inTrans) ∧
      ((∀ x ∈ t.calls, x.1.text = .plain) → h.link = .inTrans)

structure Ending (o : ℕ) (sl : Slot) (w : Option (Option ℕ)) (t : Txn) (ret : Option Bool) :
    Prop where
  own : w = some none ∨ w = some (some o)
  clean : CleanSlot sl
  unreturned : t.returned = none
  committed : ret = some true → Committed t

def Held (o : ℕ) (sl : Slot) (w : Option (Option ℕ)) (t : Txn) : Frame → Prop
  | .txn i failed => Pinned o i w t ∧ (∀ h, sl.handle = some h → h.inTxn = true) ∧
      (failed = false → Going sl t)
  | .commit i => Pinned o i w t ∧ Going sl t
  | .rollback i ret => Pinned o i w t ∧ ret ≠ some true
  | .settle _ ret => Ending o sl w t ret
  | .release _ ret => Ending o sl w t ret
  | _ => Quiet sl w

structure Inv (s : Sys) : Prop where
  isolated : ∀ i, watched (s.log i) ≠ none
  free : ∀ i, (s.slots i).locked = false → Quiet (s.slots i) (watched (s.log i))
  held : ∀ o i, Frame.holds (s.ops o) = some i → (s.slots i).locked = true ∧
    Held o (s.slots i) (watched (s.log i)) (s.txns o) (s.ops o)
  sole : ∀ o o' i, Frame.holds (s.ops o) = some i → Frame.holds (s.ops o') = some i → o = o'
  early : ∀ o u, Frame.user (s.ops o) = some u → s.txns o = .fresh ∧ u.text ≠ .copy
  complete : ∀ o, (s.txns o).returned = some true → Committed (s.txns o)
  pinned : ∀ i o a, (o, a) ∈ s.log i → Act.inside a = true → (s.txns o).conn = some i
  unborn : ∀ o, s.next ≤ o → s.ops o = .done ∧ s.txns o = .fresh

theorem Inv.transactional {s : Sys} (inv : Inv s) : Transactional s where
  __ := inv
  clean := fun i unlocked => (inv.free i unlocked).2

theorem inv_start (max : ℕ) (bound : Bool) : Inv (start max bound) where
  isolated := fun _ => Option.some_ne_none _
  free := fun _ _ => ⟨rfl, nofun⟩
  held := nofun
  sole := nofun
  early := nofun
  complete := nofun
  pinned := nofun
  unborn := fun _ _ => ⟨rfl, rfl⟩

variable {s : Sys} {o i : ℕ} {m : Moved} {t : Txn}

variable {f : Frame} {sl : Slot} {w : Option (Option ℕ)} {ret : Option Bool}

theorem Held.watched (held : Held o sl w t f) : w ≠ none := by
  have quiet : Quiet sl w → w ≠ none := fun quiet => by simp [quiet.1]
  have ending : ∀ ret, Ending o sl w t ret → w ≠ none := by
    intro ret ending
    obtain none | own := ending.own
    · simp [none]
    · simp [own]
  cases f with
  | txn i failed | commit i | rollback i ret => simp [held.1.own]
  | settle i ret | release i ret => exact ending ret held
  | _ => exact quiet held

def Rests (o i : ℕ) (sl : Slot) (w : Option (Option ℕ)) (t : Txn) (f : Frame) : Prop :=
  (Frame.holds f = some i ∧ sl.locked = true ∧ Held o sl w t f) ∨
    (Frame.holds f = none ∧ sl.locked = false ∧ Quiet sl w)

theorem Inv.place (inv : Inv s) (born : o < s.next)
    (alone : ∀ o', o' ≠ o → Frame.holds (s.ops o') ≠ some i)
    (rests : Rests o i m.1 (watched (s.log i ++ m.2.1.map fun a => (o, a))) t m.2.2)
    (early : ∀ u, Frame.user m.2.2 = some u → t = .fresh ∧ u.text ≠ .copy)
    (complete : t.returned = some true → Committed t)
    (inside : ∀ a ∈ m.2.1, Act.inside a = true → t.conn = some i)
    (conn : (s.txns o).conn = none ∨ t.conn = (s.txns o).conn) :
    Inv (DbPool.place s o i m t) := by
  generalize made : DbPool.place s o i m t = s'
  have slot : s'.slots i = m.1 := made ▸ Function.update_self ..
  have slots : ∀ j, j ≠ i → s'.slots j = s.slots j := made ▸ fun j other =>
    Function.update_of_ne other ..
  have op : s'.ops o = m.2.2 := made ▸ Function.update_self ..
  have ops : ∀ o', o' ≠ o → s'.ops o' = s.ops o' := made ▸ fun o' other =>
    Function.update_of_ne other ..
  have log : s'.log i = s.log i ++ m.2.1.map fun a => (o, a) := made ▸ Function.update_self ..
  have logs : ∀ j, j ≠ i → s'.log j = s.log j := made ▸ fun j other =>
    Function.update_of_ne other ..
  have txn : s'.txns o = t := made ▸ Function.update_self ..
  have txns : ∀ o', o' ≠ o → s'.txns o' = s.txns o' := made ▸ fun o' other =>
    Function.update_of_ne other ..
  have next : s'.next = s.next := made ▸ rfl
  refine ⟨fun j => ?_, fun j => ?_, fun o' j => ?_, fun o₁ o₂ j => ?_, fun o' u => ?_,
    fun o' => ?_, fun j o' a => ?_, fun o' later => ?_⟩
  · by_cases here : j = i
    · subst here
      rw [log]
      obtain ⟨-, -, held⟩ | ⟨-, -, quiet⟩ := rests
      · exact held.watched
      · simp [quiet.1]
    · rw [logs j here]
      exact inv.isolated j
  · by_cases here : j = i
    · subst here
      rw [slot, log]
      intro unlocked
      obtain ⟨-, locked, -⟩ | ⟨-, -, quiet⟩ := rests
      · simp [unlocked] at locked
      · exact quiet
    · rw [slots j here, logs j here]
      exact inv.free j
  · intro holds
    by_cases mine : o' = o
    · subst mine
      rw [op] at holds
      obtain ⟨stays, locked, held⟩ | ⟨leaves, -, -⟩ := rests
      · cases stays.symm.trans holds
        rw [slot, log, txn, op]
        exact ⟨locked, held⟩
      · simp [leaves] at holds
    · rw [ops o' mine] at holds ⊢
      have there : j ≠ i := by
        rintro rfl
        exact alone o' mine holds
      rw [slots j there, logs j there, txns o' mine]
      exact inv.held o' j holds
  · -- nobody else has locked the slot
    have mine : ∀ o', Frame.holds (s'.ops o) = some j → Frame.holds (s'.ops o') = some j →
        o' = o := by
      intro o' first second
      by_contra other
      rw [op] at first
      rw [ops o' other] at second
      obtain ⟨stays, -⟩ | ⟨leaves, -⟩ := rests
      · cases stays.symm.trans first
        exact alone o' other second
      · simp [leaves] at first
    intro first second
    by_cases one : o₁ = o
    · subst one
      exact (mine o₂ first second).symm
    · by_cases two : o₂ = o
      · subst two
        exact mine o₁ second first
      · rw [ops o₁ one] at first
        rw [ops o₂ two] at second
        exact inv.sole o₁ o₂ j first second
  · by_cases mine : o' = o
    · subst mine
      rw [op, txn]
      exact early u
    · rw [ops o' mine, txns o' mine]
      exact inv.early o' u
  · by_cases mine : o' = o
    · subst mine
      rw [txn]
      exact complete
    · rw [txns o' mine]
      exact inv.complete o'
  · intro mem within
    have before : ∀ k, (o', a) ∈ s.log k → (s'.txns o').conn = some k := by
      intro k mem
      have known := inv.pinned k o' a mem within
      by_cases mine : o' = o
      · subst mine
        rw [txn]
        obtain none | same := conn
        · simp [none] at known
        · rw [same, known]
      · rw [txns o' mine, known]
    by_cases here : j = i
    · subst here
      rw [log] at mem
      rcases mem_append.mp mem with old | new
      · exact before j old
      · obtain ⟨b, done, eq⟩ := mem_map.mp new
        obtain ⟨rfl, rfl⟩ := Prod.mk.inj eq
        rw [txn]
        exact inside b done within
    · rw [logs j here] at mem
      exact before j mem
  · rw [next] at later
    have other : o' ≠ o := by omega
    rw [ops o' other, txns o' other]
    exact inv.unborn o' later

end Invariant

variable {acts : List Act} {g : Frame} {t : Txn}

section Turns

variable {s : Sys} {o i : ℕ} {c : Choice}

theorem watched_append (log acts : List (ℕ × Act)) :
    watched (log ++ acts) = (watched log).bind fun w => acts.foldlM watch w :=
  foldlM_append

theorem Inv.born (inv : Inv s) (here : s.ops o = f) (busy : f ≠ .done) : o < s.next := by
  by_contra later
  exact busy (here.symm.trans (inv.unborn o (by omega)).1)

def Act.lone : Act → Bool
  | .begin ok => !ok
  | .released ret => ret.isNone
  | a => !Act.inside a

theorem lone_acts (lone : acts.all Act.lone = true) (i o : ℕ) (t : Txn) :
    acts.foldl (Txn.note i) t = t ∧ (∀ a ∈ acts, Act.inside a = false) ∧
      (acts.map fun a => (o, a)).foldlM watch none = some none := by
  induction acts with
  | nil => exact ⟨rfl, nofun, rfl⟩
  | cons a acts ih =>
    rw [all_cons, Bool.and_eq_true] at lone
    obtain ⟨same, outside, seen⟩ := ih lone.2
    have one : Txn.note i t a = t ∧ Act.inside a = false ∧ watch none (o, a) = some none := by
      have first := lone.1
      cases a with
      | begin ok =>
        cases ok with
        | true => cases first
        | false => exact ⟨rfl, rfl, rfl⟩
      | released ret =>
        cases ret with
        | none => exact ⟨rfl, rfl, rfl⟩
        | some ok => cases first
      | statement | commit l ok | rollback => simp [Act.lone, Act.inside] at first
      | _ => exact ⟨rfl, rfl, rfl⟩
    refine ⟨?_, ?_, ?_⟩
    · rw [foldl_cons, one.1, same]
    · intro b mem
      rcases mem_cons.mp mem with rfl | later
      · exact one.2.1
      · exact outside b later
    · rw [map_cons, foldlM_cons, one.2.2]
      exact seen

theorem Inv.lone (inv : Inv s) (here : s.ops o = f) (busy : f ≠ .done)
    (alone : ∀ o', o' ≠ o → Frame.holds (s.ops o') ≠ some i)
    (quiet : Quiet (s.slots i) (watched (s.log i))) {m : Moved} (acts : m.2.1.all Act.lone = true)
    (clean : CleanSlot m.1) (rests : (Frame.holds m.2.2 = some i ∧ m.1.locked = true ∧
        ∀ w, Quiet m.1 w → Held o m.1 w (s.txns o) m.2.2) ∨
      (Frame.holds m.2.2 = none ∧ m.1.locked = false))
    (user : Frame.user m.2.2 = none ∨ Frame.user m.2.2 = Frame.user f) : Inv (advance s o i m) := by
  subst here
  obtain ⟨kept, outside, seen⟩ := lone_acts acts i o (s.txns o)
  have after : Quiet m.1 (watched (s.log i ++ m.2.1.map fun a => (o, a))) := by
    refine ⟨?_, clean⟩
    rw [watched_append, quiet.1]
    exact seen
  rw [advance, kept]
  apply inv.place (inv.born rfl busy) alone _ _ (inv.complete o) _ (.inr rfl)
  · obtain ⟨holds, locked, held⟩ | ⟨leaves, unlocked⟩ := rests
    · exact .inl ⟨holds, locked, held _ after⟩
    · exact .inr ⟨leaves, unlocked, after⟩
  · intro u found
    obtain none | same := user
    · simp [none] at found
    · exact inv.early o u (same.symm.trans found)
  · intro a mem within
    simp [outside a mem] at within

theorem Inv.outside (inv : Inv s) {n : ℕ} (born : o < n) (grows : s.next ≤ n)
    (leaves : Frame.holds f = none)
    (early : ∀ u, Frame.user f = some u → s.txns o = .fresh ∧ u.text ≠ .copy) :
    Inv { s with ops := Function.update s.ops o f, next := n } := by
  have op : Function.update s.ops o f o = f := Function.update_self ..
  have ops : ∀ o', o' ≠ o → Function.update s.ops o f o' = s.ops o' := fun o' other =>
    Function.update_of_ne other ..
  -- who holds a slot is another user, and did before
  have holder : ∀ o' j, Frame.holds (Function.update s.ops o f o') = some j →
      Function.update s.ops o f o' = s.ops o' := by
    intro o' j holds
    by_cases mine : o' = o
    · subst mine
      rw [op, leaves] at holds
      cases holds
    · exact ops o' mine
  refine ⟨inv.isolated, inv.free, fun o' j holds => ?_, fun o₁ o₂ j first second => ?_,
    fun o' u found => ?_, inv.complete, inv.pinned, fun o' later => ?_⟩
  · have before := holder o' j holds
    dsimp only at holds ⊢
    rw [before] at holds ⊢
    exact inv.held o' j holds
  · dsimp only at first second
    rw [holder o₁ j first] at first
    rw [holder o₂ j second] at second
    exact inv.sole o₁ o₂ j first second
  · dsimp only at found ⊢
    by_cases mine : o' = o
    · subst mine
      rw [op] at found
      exact early u found
    · rw [ops o' mine] at found
      exact inv.early o' u found
  · dsimp only at later ⊢
    rw [ops o' (by omega)]
    exact inv.unborn o' (by omega)

theorem Inv.skip (inv : Inv s) (here : s.ops o = g) (busy : g ≠ .done)
    (leaves : Frame.holds f = none) (user : Frame.user f = none ∨ Frame.user f = Frame.user g) :
    Inv (advance s o i (s.slots i, [], f)) := by
  subst here
  have same : advance s o i (s.slots i, [], f) =
      { s with ops := Function.update s.ops o f, next := s.next } := by
    simp [advance, DbPool.place]
  rw [same]
  apply inv.outside (inv.born rfl busy) (Nat.le_refl _) leaves
  intro u found
  obtain none | kept := user
  · simp [none] at found
  · exact inv.early o u (kept.symm.trans found)

theorem Inv.tryLock (inv : Inv s) {look next : Frame} (here : s.ops o = f) (busy : f ≠ .done)
    (looks : Frame.holds look = some i) (held : ∀ sl w, Quiet sl w → Held o sl w (s.txns o) look)
    (lookUser : Frame.user look = Frame.user f) (leaves : Frame.holds next = none)
    (nextUser : Frame.user next = Frame.user f) :
    Inv (advance s o i (DbPool.tryLock (s.slots i) look next)) := by
  unfold DbPool.tryLock
  split
  next => exact inv.skip here busy leaves (.inr nextUser)
  next untaken =>
    have unlocked : (s.slots i).locked = false := Bool.eq_false_iff.mpr untaken
    have free := inv.free i unlocked
    apply inv.lone here busy _ free rfl free.2 (.inl ⟨looks, rfl, held _⟩) (.inr lookUser)
    intro o' _ holds
    have locked := (inv.held o' i holds).1
    simp [unlocked] at locked

theorem work_holds (u : User) (i : ℕ) :
    Frame.holds (u.work i) = some i ∧ Frame.user (u.work i) = some u := by
  cases u <;> exact ⟨rfl, rfl⟩

theorem work_held (u : User) (quiet : Quiet sl w) : Held o sl w t (u.work i) := by
  cases u <;> exact quiet

variable {m : Moved} {u : User}

theorem closed_clean (sl : Slot) : CleanSlot (connClose sl) := by
  intro h dialled
  cases dialled

theorem dialled_clean {h : Handle} (handle : sl.handle = some h) (clean : Clean h) :
    CleanSlot sl := by
  intro h' there
  cases handle.symm.trans there
  exact clean

theorem watched_inside {log : List (ℕ × Act)} (own : watched log = some (some o))
    (inside : ∀ a ∈ acts, Act.inside a = true) :
    watched (log ++ acts.map fun a => (o, a)) = some (some o) := by
  rw [watched_append, own, Option.bind_some]
  induction acts with
  | nil => rfl
  | cons a acts ih =>
    have one : watch (some o) (o, a) = some (some o) := by
      have first := inside a mem_cons_self
      cases a <;> simp_all [watch, Act.inside]
    rw [map_cons, foldlM_cons, one]
    exact ih fun b mem => inside b (mem_cons_of_mem a mem)

theorem watched_ending (ending : Ending o sl w t ret) (last : Option Bool) :
    (w.bind fun v => [(o, Act.closed)].foldlM watch v) = w ∧
      (w.bind fun v => [(o, Act.released last)].foldlM watch v) = some none := by
  obtain rfl | rfl := ending.own
  · exact ⟨rfl, rfl⟩
  · simp [watch, Act.inside]

variable (inv : Inv s) (here : s.ops o = f)
include inv here

theorem Inv.ending (user : Frame.user f = some u) (w : Option (Option ℕ))
    (quiet : Quiet sl w) : Ending o sl w (s.txns o) none := by
  subst here
  refine ⟨.inl quiet.1, quiet.2, ?_, nofun⟩
  rw [(inv.early o u user).1]
  rfl

variable (holds : Frame.holds f = some i)
include holds

theorem Inv.holding :
    f ≠ .done ∧ (∀ o', o' ≠ o → Frame.holds (s.ops o') ≠ some i) ∧
      (s.slots i).locked = true ∧ Held o (s.slots i) (watched (s.log i)) (s.txns o) f := by
  subst here
  refine ⟨fun done => ?_, fun o' other there => ?_, inv.held o i holds⟩
  · rw [done] at holds
    cases holds
  · exact other (inv.sole o' o i there holds)

theorem Inv.turnTo (next : Frame.holds g = some i) (user : Frame.user g = none)
    (held : ∀ sl w t, Held o sl w t f → Held o sl w t g) :
    Inv (advance s o i (s.slots i, [], g)) := by
  obtain ⟨busy, alone, locked, before⟩ := inv.holding here holds
  apply inv.place (inv.born here busy) alone
  · refine .inl ⟨next, locked, ?_⟩
    rw [map_nil, append_nil]
    exact held _ _ _ before
  · intro u found
    simp [user] at found
  · exact inv.complete o
  · intro a none
    cases none
  · exact .inr rfl

theorem Inv.within (pinned : Pinned o i (watched (s.log i)) (s.txns o))
    (inside : ∀ a ∈ m.2.1, Act.inside a = true) (locked : m.1.locked = true)
    (conn : t.conn = (s.txns o).conn) (unreturned : t.returned = none)
    (stays : Frame.holds m.2.2 = some i) (user : Frame.user m.2.2 = none)
    (held : ∀ w, Pinned o i w t → Held o m.1 w t m.2.2) : Inv (DbPool.place s o i m t) := by
  obtain ⟨busy, alone, -, -⟩ := inv.holding here holds
  have own := watched_inside pinned.own inside
  have pin : t.conn = some i := conn.trans pinned.conn
  apply inv.place (inv.born here busy) alone
  · exact .inl ⟨stays, locked, held _ ⟨own, pin, unreturned⟩⟩
  · intro u found
    simp [user] at found
  · intro returned
    simp [unreturned] at returned
  · intro a _ _
    exact pin
  · exact .inr conn

omit holds

variable (acted : act s.max (s.slots i) c f = some m)
include acted

theorem Inv.look1 (turn : f = .look1 u i) : Inv (advance s o i m) := by
  subst turn
  obtain ⟨busy, alone, locked, quiet⟩ := inv.holding here rfl
  cases acted
  split
  next => exact inv.lone here busy alone quiet rfl quiet.2 (.inr ⟨rfl, rfl⟩) (.inr rfl)
  next h dialled =>
    split_ifs
    · exact inv.lone here busy alone quiet rfl quiet.2 (.inr ⟨rfl, rfl⟩) (.inr rfl)
    · exact inv.lone here busy alone quiet rfl (closed_clean (s.slots i)) (.inr ⟨rfl, rfl⟩) (.inr rfl)
    · obtain ⟨holds, same⟩ := work_holds u i
      exact inv.lone here busy alone quiet rfl quiet.2
        (.inl ⟨holds, locked, fun w after => work_held u after⟩) (.inr same)

theorem Inv.look2 (turn : f = .look2 u i) : Inv (advance s o i m) := by
  subst turn
  obtain ⟨busy, alone, locked, quiet⟩ := inv.holding here rfl
  cases acted
  split
  next => exact inv.lone here busy alone quiet rfl quiet.2 (.inr ⟨rfl, rfl⟩) (.inr rfl)
  next =>
    split_ifs
    · obtain ⟨holds, same⟩ := work_holds u i
      have clean : CleanSlot { setHandle (s.slots i) dialled with active := true } :=
        dialled_clean rfl ⟨rfl, .inl rfl⟩
      exact inv.lone here busy alone quiet rfl clean
        (.inl ⟨holds, locked, fun w after => work_held u after⟩) (.inr same)
    · exact inv.lone here busy alone quiet rfl quiet.2 (.inr ⟨rfl, rfl⟩) (.inl rfl)

theorem Inv.reapLook (turn : f = .reapLook i) : Inv (advance s o i m) := by
  subst turn
  obtain ⟨busy, alone, locked, quiet⟩ := inv.holding here rfl
  cases acted
  split_ifs
  · exact inv.lone here busy alone quiet rfl (closed_clean (s.slots i)) (.inr ⟨rfl, rfl⟩) (.inl rfl)
  · exact inv.lone here busy alone quiet rfl quiet.2 (.inr ⟨rfl, rfl⟩) (.inl rfl)

theorem Inv.query {again : Bool} (turn : f = .query u i again) : Inv (advance s o i m) := by
  subst turn
  obtain ⟨busy, alone, locked, quiet⟩ := inv.holding here rfl
  have other : u.text ≠ .copy := (inv.early o u (here ▸ rfl)).2
  obtain ⟨h, dialled, rfl⟩ := Option.map_eq_some_iff.mp acted
  have clean : CleanSlot (setHandle (s.slots i) (pgQuery h u.text c.reply c.drain).2) :=
    dialled_clean rfl (pgQuery_clean (quiet.2 h dialled) other)
  dsimp only
  split_ifs
  · exact inv.lone here busy alone quiet rfl clean (.inl ⟨rfl, locked, inv.ending here rfl⟩) (.inl rfl)
  · exact inv.lone here busy alone quiet rfl clean (.inl ⟨rfl, locked, fun w after => after⟩)
      (.inr rfl)

theorem Inv.recover (turn : f = .recover u i) : Inv (advance s o i m) := by
  subst turn
  obtain ⟨busy, alone, locked, quiet⟩ := inv.holding here rfl
  obtain ⟨h, dialled, rfl⟩ := Option.map_eq_some_iff.mp acted
  have clean : CleanSlot { setHandle (s.slots i) DbPool.dialled with active := true } :=
    dialled_clean rfl ⟨rfl, .inl rfl⟩
  split_ifs
  · exact inv.lone here busy alone quiet rfl quiet.2 (.inl ⟨rfl, locked, inv.ending here rfl⟩) (.inl rfl)
  · exact inv.lone here busy alone quiet rfl clean (.inl ⟨rfl, locked, fun w after => after⟩)
      (.inr rfl)
  · exact inv.lone here busy alone quiet rfl clean (.inl ⟨rfl, locked, inv.ending here rfl⟩) (.inl rfl)
  · exact inv.lone here busy alone quiet rfl (closed_clean (s.slots i))
      (.inl ⟨rfl, locked, inv.ending here rfl⟩) (.inl rfl)

theorem Inv.escape (turn : f = .escape i) : Inv (advance s o i m) := by
  subst turn
  obtain ⟨busy, alone, locked, quiet⟩ := inv.holding here rfl
  cases acted
  exact inv.lone here busy alone quiet rfl quiet.2 (.inl ⟨rfl, locked, inv.ending here rfl⟩) (.inl rfl)

theorem Inv.begin (turn : f = .begin i) : Inv (advance s o i m) := by
  subst turn
  obtain ⟨busy, alone, locked, quiet⟩ := inv.holding here rfl
  obtain ⟨h, dialled, rfl⟩ := Option.map_eq_some_iff.mp acted
  have fresh : s.txns o = .fresh := (inv.early o .begin (by rw [here]; rfl)).1
  dsimp only
  obtain ⟨ok, left⟩ | ⟨failed, clean⟩ := pgTxn_begin (r := c.reply) (d := c.drain)
    (quiet.2 h dialled)
  · rw [ok, left, if_pos rfl, advance, fresh]
    have own : watched (s.log i ++ [Act.begin true].map fun a => (o, a)) = some (some o) := by
      rw [watched_append, quiet.1]
      rfl
    apply inv.place (inv.born here busy) alone
    · refine .inl ⟨rfl, locked, ⟨own, rfl, rfl⟩, fun h' there => ?_, fun _ => ?_⟩
      · cases there
        rfl
      · refine ⟨nofun, fun h' there => ?_⟩
        cases there
        exact ⟨.inr rfl, fun _ => rfl⟩
    · intro u none
      cases none
    · intro none
      cases none
    · intro a mem within
      obtain rfl := mem_singleton.mp mem
      cases within
    · rw [fresh]
      exact .inl rfl
  · rw [failed, if_neg Bool.false_ne_true]
    exact inv.lone here busy alone quiet rfl (dialled_clean rfl clean)
      (.inl ⟨rfl, locked, inv.ending here rfl⟩) (.inl rfl)

theorem Inv.commit (turn : f = .commit i) : Inv (advance s o i m) := by
  subst turn
  obtain ⟨-, -, locked, pinned, succeeded, going⟩ := inv.holding here rfl
  obtain ⟨h, dialled, rfl⟩ := Option.map_eq_some_iff.mp acted
  obtain ⟨link, plain⟩ := going h dialled
  have clean : Clean (pgTxn h .commit c.reply c.drain).2 := pgTxn_end TxnOp.noConfusion
  generalize pgTxn h .commit c.reply c.drain = result at clean
  refine inv.within here rfl pinned (by simp [Act.inside]) locked ?_ ?_ ?_ ?_ fun w after => ?_
  · rfl
  · exact pinned.unreturned
  · dsimp only
    split_ifs <;> rfl
  · dsimp only
    split_ifs <;> rfl
  · dsimp only
    cases ok : result.1 with
    | true =>
      refine ⟨.inr after.own, dialled_clean rfl clean, pinned.unreturned, fun _ => ?_⟩
      refine ⟨succeeded, h.link, rfl, ?_, ?_, plain⟩
      all_goals
        obtain idle | inTrans := link
        · simp [idle]
        · simp [inTrans]
    | false => exact ⟨⟨after.own, pinned.conn, pinned.unreturned⟩, by simp⟩

theorem Inv.rollback (turn : f = .rollback i ret) : Inv (advance s o i m) := by
  subst turn
  obtain ⟨-, -, locked, pinned, unsuccessful⟩ := inv.holding here rfl
  obtain ⟨h, dialled, rfl⟩ := Option.map_eq_some_iff.mp acted
  have clean : Clean (pgTxn h .rollback c.reply c.drain).2 := pgTxn_end TxnOp.noConfusion
  apply inv.within here rfl pinned (by simp [Act.inside]) locked rfl pinned.unreturned rfl rfl
  intro w after
  exact ⟨.inr after.own, dialled_clean rfl clean, pinned.unreturned,
    fun success => absurd success unsuccessful⟩

theorem Inv.settle (turn : f = .settle i ret) : Inv (advance s o i m) := by
  subst turn
  obtain ⟨busy, alone, locked, ending⟩ := inv.holding here rfl
  obtain ⟨h, dialled, rfl⟩ := Option.map_eq_some_iff.mp acted
  split_ifs
  · apply inv.place (inv.born here busy) alone
    · refine .inl ⟨rfl, locked, ?_, closed_clean _, ending.unreturned, ending.committed⟩
      rw [watched_append, map_singleton, (watched_ending ending none).1]
      exact ending.own
    · intro u none
      cases none
    · exact inv.complete o
    · intro a mem within
      obtain rfl := mem_singleton.mp mem
      cases within
    · exact .inr rfl
  · exact inv.turnTo here rfl rfl rfl fun _ _ _ held => held

theorem Inv.release (turn : f = .release i ret) : Inv (advance s o i m) := by
  subst turn
  obtain ⟨busy, alone, locked, ending⟩ := inv.holding here rfl
  cases acted
  apply inv.place (inv.born here busy) alone
  · refine .inr ⟨rfl, rfl, ?_, ending.clean⟩
    rw [watched_append, map_singleton, (watched_ending ending ret).2]
  · intro u none
    cases none
  · cases ret with
    | none => exact inv.complete o
    | some ok =>
      intro returned
      exact ending.committed returned
  · intro a mem within
    obtain rfl := mem_singleton.mp mem
    cases within
  · cases ret <;> exact .inr rfl

omit here acted in
theorem Inv.turn (acted : act s.max (s.slots (s.ops o).index) c (s.ops o) = some m) :
    Inv (advance s o (s.ops o).index m) := by
  generalize here : s.ops o = f at acted
  cases f with
  | pass1 u i =>
    cases acted
    split_ifs
    · exact inv.skip here Frame.noConfusion rfl (.inr rfl)
    · exact inv.tryLock here Frame.noConfusion rfl (fun _ _ quiet => quiet) rfl rfl rfl
  | pass2 u i | reap i =>
    cases acted
    split_ifs
    · exact inv.skip here Frame.noConfusion rfl (.inl rfl)
    · exact inv.tryLock here Frame.noConfusion rfl (fun _ _ quiet => quiet) rfl rfl rfl
  | look1 u i => exact inv.look1 here acted rfl
  | look2 u i => exact inv.look2 here acted rfl
  | query u i again => exact inv.query here acted rfl
  | recover u i => exact inv.recover here acted rfl
  | escape i => exact inv.escape here acted rfl
  | begin i => exact inv.begin here acted rfl
  | commit i => exact inv.commit here acted rfl
  | rollback i ret => exact inv.rollback here acted rfl
  | settle i ret => exact inv.settle here acted rfl
  | release i ret => exact inv.release here acted rfl
  | reapLook i => exact inv.reapLook here acted rfl
  | txn i failed | done => cases acted

end Turns

section Run

variable {s : Sys} {o i : ℕ}

theorem Inv.enter (inv : Inv s) (leaves : Frame.holds f = none)
    (text : ∀ u, Frame.user f = some u → u.text ≠ .copy) : Inv (enter s f) := by
  have fresh := (inv.unborn s.next (Nat.le_refl _)).2
  exact inv.outside (Nat.lt_succ_self _) (Nat.le_succ _) leaves
    fun u found => ⟨fresh, text u found⟩

theorem Inv.statement (inv : Inv s) {failed : Bool} (here : s.ops o = .txn i failed) {call : Call}
    {r d : Reply} (accepted : failed = false → ¬ Refused s.bound call)
    {m : Slot × List Act × Bool × Bool}
    (ran : txnRun s.bound (s.slots i) failed call r d = some m) :
    Inv (DbPool.place s o i (m.1, m.2.1, .txn i m.2.2.1)
      { s.txns o with calls := (s.txns o).calls ++ [(call, m.2.2.2)] }) := by
  obtain ⟨-, -, locked, pinned, inTxn, going⟩ := inv.holding here rfl
  unfold txnRun at ran
  split at ran
  next refused =>
    cases ran
    have latched : failed = true := by
      cases failed with
      | true => rfl
      | false => exact absurd (refused.resolve_right Bool.false_ne_true) (accepted rfl)
    refine inv.within here rfl pinned (by simp) locked ?_ ?_ rfl rfl fun w after => ?_
    · rfl
    · exact pinned.unreturned
    · refine ⟨after, inTxn, fun fine => ?_⟩
      simp [latched] at fine
  next handed =>
    obtain ⟨h, dialled, rfl⟩ := Option.map_eq_some_iff.mp ran
    rw [not_or, Bool.not_eq_true] at handed
    obtain ⟨succeeded, links⟩ := going handed.2
    obtain ⟨-, plain⟩ := links h dialled
    have kept : (pgQuery h call.text r d).2 =
        { h with link := (serve h.link call.text r).2 } :=
      pgDrainTxn_inTxn (inTxn h dialled)
    refine inv.within here rfl pinned (by simp [Act.inside]) locked ?_ ?_ rfl rfl
      fun w after => ⟨after, fun h' there => ?_, fun fine => ?_⟩
    · rfl
    · exact pinned.unreturned
    · cases there
      rw [kept]
      exact inTxn h dialled
    · have ok : (serve h.link call.text r).1 = true := by simpa [pgQuery] using fine
      obtain ⟨link, remains⟩ := serve_ok ok
      refine ⟨fun x mem => ?_, fun h' there => ?_⟩
      · rcases mem_append.mp mem with old | new
        · exact succeeded x old
        · obtain rfl := mem_singleton.mp new
          exact ok
      · cases there
        rw [kept]
        refine ⟨link, fun texts => ?_⟩
        have before := plain fun x mem => texts x (mem_append_left _ mem)
        exact remains (texts (call, _) (mem_append_right _ (mem_singleton_self _)))
          before

theorem Inv.step {t : Sys} {op : Op} (inv : Inv s) (keeps : Keeps s op)
    (moved : DbPool.step s op = some t) : Inv t := by
  cases op with
  | use u =>
    cases moved
    apply inv.enter rfl
    intro v same
    cases same
    exact keeps
  | reap =>
    cases moved
    apply inv.enter rfl
    intro v none
    cases none
  | turn o c =>
    obtain ⟨m, acted, rfl⟩ := Option.map_eq_some_iff.mp moved
    exact inv.turn acted
  | statement o call r d =>
    rw [DbPool.step] at moved
    split at moved
    next i failed here =>
      obtain ⟨m, ran, rfl⟩ := Option.map_eq_some_iff.mp moved
      apply inv.statement here _ ran
      rintro rfl
      exact keeps (by rw [here]; rfl)
    next => cases moved
  | commit o =>
    rw [DbPool.step] at moved
    split at moved
    next i failed here =>
      cases moved
      cases failed with
      | true =>
        apply inv.turnTo here rfl rfl rfl
        intro sl w t held
        exact ⟨held.1, by simp⟩
      | false =>
        apply inv.turnTo here rfl rfl rfl
        intro sl w t held
        exact ⟨held.1, held.2.2 rfl⟩
    next => cases moved
  | rollback o =>
    rw [DbPool.step] at moved
    split at moved
    next i failed here =>
      cases moved
      apply inv.turnTo here rfl rfl rfl
      intro sl w t held
      exact ⟨held.1, by simp⟩
    next => cases moved

theorem transactions_complete_isolated (max : ℕ) (bound : Bool) {labels : List Op} {t : Sys}
    (run : Run step Keeps (start max bound) labels t) : Transactional t :=
  (run.invariant (I := Inv) Inv.step
    (inv_start max bound)).transactional

theorem transactions_complete_isolated_two :
    ∃ t : Sys, (t.txns 0).returned = some true ∧ (t.txns 0).calls.length = 2 ∧
      (t.txns 1).returned = some false ∧ (t.txns 1).conn = some 1 ∧
      (2, Act.redialled) ∈ t.log 0 ∧ Transactional t := by
  have run : Run step Keeps (start 2 true)
      (.use .begin :: turns 0 8 ++ .statement 0 ⟨true, none, .plain⟩ ⟨true, .idle⟩ ⟨true, .idle⟩ ::
        .use .begin :: turns 1 8 ++
        .statement 1 ⟨true, some 3, .plain⟩ ⟨false, .inError⟩ ⟨true, .idle⟩ ::
        .statement 1 ⟨false, none, .plain⟩ ⟨true, .idle⟩ ⟨true, .idle⟩ ::
        .statement 0 ⟨true, some 32, .plain⟩ ⟨true, .idle⟩ ⟨true, .idle⟩ ::
        .commit 0 :: turns 0 3 ++ .commit 1 :: turns 1 3 ++ .use (.query .plain) :: turns 2 2 ++
        .turn 2 { calm with reply := ⟨false, .bad⟩ } :: turns 2 3) _ :=
    runWhen_get (by decide +kernel)
  refine ⟨_, ?_, ?_, ?_, ?_, ?_, transactions_complete_isolated 2 true run⟩
  all_goals decide +kernel

/-- A statement call with no text is refused and not latched: `db_txn_commit` returns SUCCESS. -/
theorem refused_statement_committed :
    ∃ labels t, Run step Any (start 1 true) labels t ∧ (t.txns 0).returned = some true ∧
      (t.txns 0).calls = [(⟨false, none, .plain⟩, false)] ∧ ¬ Transactional t := by
  refine ⟨(.use .begin :: turns 0 6 ++ .statement 0 ⟨false, none, .plain⟩ ⟨true, .idle⟩ ⟨true, .idle⟩ ::
        .commit 0 :: turns 0 3), _,
    run_get (by decide +kernel), by decide +kernel, by decide +kernel, fun fine => ?_⟩
  have succeeded := (fine.complete 0 (by decide +kernel)).1
  cases succeeded (⟨false, none, .plain⟩, false) (by decide +kernel)

end Run

end BotManager.DbTxn
