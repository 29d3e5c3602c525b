import BotManager.KvDatabase

/-! `kv_delete_prefix` in memory and in the database. The entries are compared with the prefix
byte by byte, the rows with a LIKE pattern that has the prefix in it as it is: a prefix with
an underscore, a percent sign or a backslash takes other rows than those that start with it. -/

namespace BotManager.KvPrefix
open List CText ChainedTable KvValue KvTable KvDatabase SqlText

def underscore : UInt8 := 95
def percent : UInt8 := 37
def backslash : UInt8 := 92

/-- LIKE without an ESCAPE clause, from a byte on that a backslash may stand before. Such a
byte is taken as it is. -/
def likeFrom : Bool → Bytes → Bytes → Bool
  | escaped, [], text => !escaped && text.isEmpty
  | escaped, c :: pattern, text =>
    if escaped = false ∧ c = percent then text.tails.any (likeFrom false pattern)
    else if escaped = false ∧ c = backslash then likeFrom true pattern text
    else
      match text with
      | [] => false
      | d :: text => (c = d || !escaped && c = underscore) && likeFrom false pattern text

def like (pattern text : Bytes) : Bool := likeFrom false pattern text

/-- The pattern that is made of the prefix and the prefix itself say the same of a key. -/
def Agrees (start key : Bytes) : Prop := like (start ++ [percent]) key = start.isPrefixOf key

instance (start key : Bytes) : Decidable (Agrees start key) := inferInstanceAs (Decidable (_ = _))

/-- The database escapes every text, and answers the statement of `kv_delete_prefix`. -/
structure DeletesLike {F D : Type} (w : World F D) (rows : D → List Row) : Prop where
  escape : ∀ s, w.dbEscape s = some (doubleQuotes s)
  delete : ∀ start d, rows (w.dbQuery (deletePrefixText (doubleQuotes start)) d).2 =
    (rows d).filter fun r => !like (start ++ [percent]) r.key

def Plain (start : Bytes) : Prop := ∀ c ∈ start, c ≠ percent ∧ c ≠ underscore ∧ c ≠ backslash

instance (start : Bytes) : Decidable (Plain start) := inferInstanceAs (Decidable (∀ _ ∈ _, _))

variable {pattern text rest start : Bytes} {c d : UInt8}

theorem like_percent (suffix : rest <:+ text) (found : like pattern rest = true) :
    like (percent :: pattern) text = true := by
  simp only [like, likeFrom, true_and, if_true]
  exact any_eq_true.mpr ⟨rest, (mem_tails _ _).mpr suffix, found⟩

theorem like_cons (notPercent : c ≠ percent) (notEscape : c ≠ backslash) :
    like (c :: pattern) (d :: text) = ((c = d || c = underscore) && like pattern text) := by
  simp [like, likeFrom, notPercent, notEscape]

theorem like_escape (found : like pattern text = true) :
    like (backslash :: d :: pattern) (d :: text) = true := by
  simpa [like, likeFrom, (by decide : backslash ≠ percent)] using found

theorem agrees_of_plain (plain : Plain start) (key : Bytes) :
    Agrees start key := by
  induction start generalizing key with
  | nil =>
    have every : like [percent] key = true := like_percent nil_suffix rfl
    simpa [Agrees] using every
  | cons c start ih =>
    obtain ⟨⟨notPercent, notUnderscore, notEscape⟩, later⟩ := forall_mem_cons.mp plain
    cases key with
    | nil => simp [Agrees, like, likeFrom, notPercent, notEscape]
    | cons d key =>
      have rest := ih later key
      rw [Agrees] at rest ⊢
      rw [cons_append, like_cons notPercent notEscape, rest, isPrefixOf_cons_cons]
      by_cases same : c = d <;> simp [same, notUnderscore]

theorem exists_like (start : Bytes) :
    ∃ key, like (start ++ [percent]) key = true ∧ key.length ≤ start.length := by
  induction h : start.length using Nat.strong_induction_on generalizing start with
  | _ n ih =>
    subst h
    match start with
    | [] => exact ⟨[], by decide, le_rfl⟩
    | c :: start =>
      obtain ⟨key, found, short⟩ := ih _ (Nat.lt_succ_self _) start rfl
      by_cases isPercent : c = percent
      · subst isPercent
        exact ⟨key, like_percent suffix_rfl found, short.trans (Nat.le_succ _)⟩
      by_cases isEscape : c = backslash
      · subst isEscape
        match start with
        | [] => exact ⟨[percent], by decide, le_rfl⟩
        | d :: start =>
          obtain ⟨key, found, short⟩ := ih start.length (by simp only [length_cons]; omega) start rfl
          refine ⟨d :: key, like_escape found, ?_⟩
          simp only [length_cons]
          omega
      · refine ⟨c :: key, ?_, Nat.succ_le_succ short⟩
        rw [cons_append, like_cons isPercent isEscape, found]
        simp

theorem plain_of_agrees (agrees : ∀ key, Agrees start key) : Plain start := by
  induction start with
  | nil => simp [Plain]
  | cons c start ih =>
    obtain ⟨key, found, short⟩ := exists_like start
    -- A byte other than `c` goes before a match of what is behind `c`.
    obtain ⟨x, other⟩ : ∃ x : UInt8, c ≠ x := ⟨c + 1, by simp⟩
    have refused : like (c :: start ++ [percent]) (x :: key) ≠ true := by
      rw [agrees (x :: key), isPrefixOf_cons_cons, beq_false_of_ne other, Bool.false_and]
      exact Bool.false_ne_true
    have notPercent : c ≠ percent := by
      rintro rfl
      exact refused (like_percent (suffix_cons x key) found)
    have notEscape : c ≠ backslash := by
      rintro rfl
      match start with
      | [] => exact absurd (agrees [backslash]) (by decide)
      | d :: start =>
        obtain ⟨key, found, short⟩ := exists_like start
        have taken : like (backslash :: d :: start ++ [percent]) (d :: key) = true :=
          like_escape found
        have starts := isPrefixOf_iff_prefix.mp ((agrees (d :: key)).symm.trans taken)
        have := starts.length_le
        simp only [length_cons] at this
        omega
    have notUnderscore : c ≠ underscore := by
      rintro rfl
      refine refused ?_
      rw [cons_append, like_cons notPercent notEscape, found]
      simp
    refine forall_mem_cons.mpr ⟨⟨notPercent, notUnderscore, notEscape⟩, ih fun key => ?_⟩
    have here := agrees (c :: key)
    rw [Agrees, cons_append, like_cons notPercent notEscape] at here
    simpa [Agrees] using here

section Delete

variable {F D : Type} {w : World F D} {rows : D → List Row} {s : Store F D} {start : Bytes}

theorem statement_whole (fits : ∀ e ∈ entries s.table, e.key.length < kvKeySz)
    (some : (entries s.table).countP (fun e => start.isPrefixOf e.key) ≠ 0) :
    bounded 512 (deletePrefixText (doubleQuotes start)) =
      deletePrefixText (doubleQuotes start) := by
  obtain ⟨e, mem, starts⟩ := countP_pos_iff.mp (Nat.pos_of_ne_zero some)
  have short := ( isPrefixOf_iff_prefix.mp starts).length_le
  have stored : e.key.length < 192 := fits e mem
  have escaped := length_doubleQuotes_le start
  have head : (ascii "DELETE FROM kv WHERE key LIKE '").length = 31 := by decide
  have tail : (ascii "%'").length = 2 := by decide
  refine bounded_of_lt ?_
  rw [deletePrefixText, length_append, length_append, head, tail]
  omega

theorem filter_eq_filter_iff {p q : Row → Bool} {l : List Row} :
    l.filter p = l.filter q ↔ ∀ r ∈ l, p r = q r := by
  constructor
  · intro same r mem
    have either : r ∈ l.filter p ↔ r ∈ l.filter q := by rw [same]
    simp only [mem_filter, mem, true_and] at either
    exact Bool.eq_iff_iff.mpr either
  · exact filter_congr

end Delete

section Interpreter

def deleteHead : Bytes := ascii "DELETE FROM kv WHERE key LIKE '"

def Relation.without (test : Row → Bool) (d : Relation) : Relation :=
  ⟨d.1.filter fun r => !test r, d.2.sublist (filter_sublist.map _)⟩

/-- The interpreter of `postgres` with the statement of `kv_delete_prefix`. -/
def runDelete (sql : Bytes) (d : Relation) : QueryResult × Relation :=
  match expect deleteHead sql with
  | some s =>
    match parseSelect s with
    | some pattern => (⟨true, []⟩, Relation.without (fun r => like pattern r.key) d)
    | none => (⟨false, []⟩, d)
  | none => runQuery sql d

def deleting : World Unit Relation :=
  { postgres ⟨fun _ _ => none, fun _ _ => [], fun _ _ => ()⟩ with dbQuery := runDelete }

theorem deletesLike_deleting : DeletesLike deleting Subtype.val where
  escape _ := rfl
  delete start d := by
    have noQuote : [percent, quote] = ascii "%'" := by decide
    have doubled : doubleQuotes start ++ [percent] = doubleQuotes (start ++ [percent]) := by
      induction start with
      | nil => rfl
      | cons c start ih =>
        simp only [doubleQuotes, cons_append, ← ih]
        split <;> rfl
    have split : deletePrefixText (doubleQuotes start) =
        deleteHead ++ (doubleQuotes (start ++ [percent]) ++ [quote]) := by
      rw [deletePrefixText, ← doubled, ← noQuote, deleteHead]
      simp
    have parsed : parseSelect (doubleQuotes (start ++ [percent]) ++ [quote]) =
        some (start ++ [percent]) := by
      have read : readLiteral (doubleQuotes (start ++ [percent]) ++ [quote]) =
          some (start ++ [percent], []) := readLiteral_doubleQuotes (by simp)
      simp [parseSelect, read]
    simp only [deleting, runDelete, split, expect_append, parsed, Relation.without]

def entry (key : Bytes) : Entry Unit := declared ⟨key, .bool, [], 0, 0, none, 0⟩ (.int 0)

def twoBots (key other : Bytes) (distinct : [key, other].Nodup) : Store Unit Relation :=
  { table := push (hashKey key) (entry key) fun _ => [], kvCount := 1, kvLoaded := true
    db := ⟨[⟨key, 0, []⟩, ⟨other, 0, []⟩], distinct⟩ }

def plainBots : Store Unit Relation := twoBots (ascii "bot.a.x") (ascii "bot.b.x") (by decide)

end Interpreter

end BotManager.KvPrefix
