import BotManager.DossierModel
import Mathlib.Tactic.NormNum

/-!
`dossier_resolve` against its specification: score every signature of the namespace and the
method kind, and take the best one if it reaches the threshold.

The database returns rows in any order; `arrange` stands for it. The comparison with an equal
`verified_id` in SQL is by bytes, the scorer's ignores case and lets a row without one fall back
on the user name. The shortcut agrees with the full scan exactly where this makes no difference.
-/

namespace BotManager.DossierResolve
open List CText DossierModel

def isAlnum (c : UInt8) : Bool := isDigit c || 65 ≤ c && c ≤ 90 || 97 ≤ c && c ≤ 122

def ciAlnumPrefix : Bytes → Bytes → ℕ
  | a :: as, b :: bs => if toLower a = toLower b && isAlnum a then ciAlnumPrefix as bs + 1 else 0
  | _, _ => 0

variable (a b : Signature)

def chatIdentityScore : ℚ :=
  if a.verifiedId ≠ [] ∧ b.verifiedId ≠ [] then
    if strcasecmp a.verifiedId b.verifiedId then 1 else 0
  else if a.username ≠ [] ∧ b.username ≠ [] ∧ strcasecmp a.username b.username then
    if a.nickname ≠ [] ∧ b.nickname ≠ [] ∧ 3 ≤ ciAlnumPrefix a.nickname b.nickname then 9 / 10
    else 2 / 5
  else 0

def matchThreshold : ℚ := 3 / 4

variable (sig : Signature)

def anyField : Bool :=
  sig.nickname ≠ [] || sig.username ≠ [] || sig.hostname ≠ [] || sig.verifiedId ≠ []

def bucket (store : Store) (ns : ℕ) (kind : Bytes) : List (Owned Sighting) :=
  store.signatures.filter fun r => r.item.sig.methodKind = kind &&
    store.dossiers.any fun p => p.id = r.dossier && p.ns = ns

def candidates (store : Store) (ns : ℕ) (sig : Signature) : List (Owned Sighting) :=
  if sig.verifiedId ≠ [] then
    (bucket store ns sig.methodKind).filter fun r => r.item.sig.verifiedId = sig.verifiedId
  else bucket store ns sig.methodKind

def score (r : Owned Sighting) : ℚ := chatIdentityScore sig r.item.sig

/-- The best score and its dossier, over the rows as they come. -/
def pick (rows : List (Owned Sighting)) : ℚ × ℕ :=
  rows.foldl (fun best r => if best.1 < score sig r then (score sig r, r.dossier) else best) (0, 0)

/-- How `dossier_resolve` came to its answer; its return value is the id, or zero. -/
inductive Answer
  | matched (id : ℕ)
  | created (id : ℕ)
  | nobody
  deriving DecidableEq

def dossierResolve (arrange : List (Owned Sighting) → List (Owned Sighting)) (store : Store)
    (ns : ℕ) (sig : Signature) (label : Bytes) (createIfMissing : Bool) : Store × Answer :=
  if sig.methodKind = [] ∨ anyField sig = false then (store, .nobody)
  else
    let best := pick sig (arrange (candidates store ns sig))
    if matchThreshold ≤ best.1 ∧ 0 < best.2 then
      (dossierRecordSighting store best.2 sig, .matched best.2)
    else if createIfMissing then
      ((dossierCreate store ns sig label).1, .created (dossierCreate store ns sig label).2)
    else (store, .nobody)

/-! ## The scorer -/

theorem score_le_one : chatIdentityScore a b ≤ 1 := by
  unfold chatIdentityScore
  split_ifs <;> norm_num

theorem score_of_verified {a b : Signature} (filled : a.verifiedId ≠ [])
    (same : b.verifiedId = a.verifiedId) : chatIdentityScore a b = 1 := by
  have both : a.verifiedId ≠ [] ∧ b.verifiedId ≠ [] := ⟨filled, same ▸ filled⟩
  have equal : strcasecmp a.verifiedId b.verifiedId = true := by
    rw [same, strcasecmp, decide_eq_true rfl]
  rw [chatIdentityScore, if_pos both, if_pos equal]

def Likely : Prop :=
  (a.verifiedId ≠ [] ∧ b.verifiedId ≠ [] ∧ strcasecmp a.verifiedId b.verifiedId = true) ∨
  ((a.verifiedId = [] ∨ b.verifiedId = []) ∧
    (a.username ≠ [] ∧ b.username ≠ [] ∧ strcasecmp a.username b.username = true) ∧
    a.nickname ≠ [] ∧ b.nickname ≠ [] ∧ 3 ≤ ciAlnumPrefix a.nickname b.nickname)

theorem likely_iff : Likely a b ↔ matchThreshold ≤ chatIdentityScore a b := by
  unfold chatIdentityScore matchThreshold
  by_cases both : a.verifiedId ≠ [] ∧ b.verifiedId ≠ []
  · have neither : ¬ (a.verifiedId = [] ∨ b.verifiedId = []) := by tauto
    rw [if_pos both]
    by_cases equal : strcasecmp a.verifiedId b.verifiedId = true
    · rw [if_pos equal]
      exact iff_of_true (.inl ⟨both.1, both.2, equal⟩) (by norm_num)
    · rw [if_neg equal]
      exact iff_of_false (by rintro (⟨-, -, same⟩ | ⟨empty, -⟩); exacts [equal same, neither empty])
        (by norm_num)
  · have empty : a.verifiedId = [] ∨ b.verifiedId = [] := by tauto
    rw [if_neg both]
    by_cases users : a.username ≠ [] ∧ b.username ≠ [] ∧ strcasecmp a.username b.username
    · rw [if_pos users]
      by_cases nicks : a.nickname ≠ [] ∧ b.nickname ≠ [] ∧ 3 ≤ ciAlnumPrefix a.nickname b.nickname
      · rw [if_pos nicks]
        exact iff_of_true (.inr ⟨empty, users, nicks⟩) (by norm_num)
      · rw [if_neg nicks]
        exact iff_of_false
          (by rintro (⟨left, right, -⟩ | ⟨-, -, found⟩); exacts [both ⟨left, right⟩, nicks found])
          (by norm_num)
    · rw [if_neg users]
      exact iff_of_false
        (by rintro (⟨left, right, -⟩ | ⟨-, found, -⟩); exacts [both ⟨left, right⟩, users found])
        (by norm_num)

/-! ## The scan -/

theorem scan_best (rows : List (Owned Sighting)) (start : ℚ × ℕ) :
    let best := rows.foldl
      (fun best r => if best.1 < score sig r then (score sig r, r.dossier) else best) start
    (best = start ∨ ∃ r ∈ rows, best = (score sig r, r.dossier)) ∧
      start.1 ≤ best.1 ∧ ∀ r ∈ rows, score sig r ≤ best.1 := by
  induction rows generalizing start with
  | nil => exact ⟨.inl rfl, le_refl _, by simp⟩
  | cons r rows ih =>
    rw [foldl_cons]
    obtain ⟨found, above, best⟩ :=
      ih (if start.1 < score sig r then (score sig r, r.dossier) else start)
    have raised : start.1 ≤ (if start.1 < score sig r then (score sig r, r.dossier) else start).1 ∧
        score sig r ≤ (if start.1 < score sig r then (score sig r, r.dossier) else start).1 := by
      split
      next higher => exact ⟨higher.le, le_refl _⟩
      next lower => exact ⟨le_refl _, not_lt.mp lower⟩
    refine ⟨?_, raised.1.trans above, ?_⟩
    · rcases found with same | ⟨row, mem, same⟩
      · rw [same]
        split
        next => exact .inr ⟨r, .head _, rfl⟩
        next => exact .inl rfl
      · exact .inr ⟨row, .tail _ mem, same⟩
    · rintro row (_ | ⟨_, mem⟩)
      · exact raised.2.trans above
      · exact best row mem

variable {sig : Signature} {rows : List (Owned Sighting)}

theorem pick_matches
    (reached : matchThreshold ≤ (pick sig rows).1) :
    ∃ r ∈ rows, pick sig rows = (score sig r, r.dossier) ∧ ∀ o ∈ rows, score sig o ≤ score sig r := by
  obtain ⟨found, -, best⟩ := scan_best sig rows (0, 0)
  change pick sig rows = _ ∨ ∃ r ∈ rows, pick sig rows = _ at found
  change ∀ r ∈ rows, score sig r ≤ (pick sig rows).1 at best
  rcases found with none | ⟨r, mem, same⟩
  · rw [none] at reached
    exact absurd reached (by unfold matchThreshold; norm_num)
  · refine ⟨r, mem, same, fun o there => ?_⟩
    have le := best o there
    rwa [same] at le

variable {r : Owned Sighting}

theorem score_le_pick (mem : r ∈ rows) :
    score sig r ≤ (pick sig rows).1 :=
  (scan_best sig rows (0, 0)).2.2 r mem

variable {store : Store}

theorem bucket_positive {ns : ℕ} {kind : Bytes} (mem : r ∈ bucket store ns kind) :
    0 < r.dossier := by
  obtain ⟨-, holds⟩ := mem_filter.mp mem
  obtain ⟨-, owner⟩ := Bool.and_eq_true_iff.mp holds
  obtain ⟨p, -, same⟩ := any_eq_true.mp owner
  have named : p.id = r.dossier := by simpa using (Bool.and_eq_true_iff.mp same).1
  exact named ▸ p.positive

theorem candidates_subset {ns : ℕ}
    (mem : r ∈ candidates store ns sig) : r ∈ bucket store ns sig.methodKind := by
  unfold candidates at mem
  split at mem
  · exact (mem_filter.mp mem).1
  · exact mem

/-! ## Resolution -/

section Resolve

variable {arrange : List (Owned Sighting) → List (Owned Sighting)} {store : Store} {ns : ℕ}
  {sig : Signature} {label : Bytes} {createIfMissing : Bool}

def Known (store : Store) (ns : ℕ) (sig : Signature) : Prop :=
  ∃ r ∈ bucket store ns sig.methodKind, matchThreshold ≤ score sig r

/-- The dossier owns a signature of the bucket that no other one outscores. -/
def Best (store : Store) (ns : ℕ) (sig : Signature) (id : ℕ) : Prop :=
  ∃ r ∈ bucket store ns sig.methodKind, r.dossier = id ∧
    ∀ o ∈ bucket store ns sig.methodKind, score sig o ≤ score sig r

/-- The signature has a method kind, and either no verified id or one that a row of the bucket has
byte for byte; or no row of the bucket reaches the threshold. -/
def Clear (store : Store) (ns : ℕ) (sig : Signature) : Prop :=
  (sig.methodKind ≠ [] ∧ (sig.verifiedId = [] ∨
    ∃ r ∈ bucket store ns sig.methodKind, r.item.sig.verifiedId = sig.verifiedId)) ∨
  ∀ r ∈ bucket store ns sig.methodKind, ¬ Likely sig r.item.sig

theorem matched_iff {id : ℕ} :
    (dossierResolve arrange store ns sig label createIfMissing).2 = .matched id ↔
      (sig.methodKind ≠ [] ∧ anyField sig = true) ∧
      (matchThreshold ≤ (pick sig (arrange (candidates store ns sig))).1 ∧
        0 < (pick sig (arrange (candidates store ns sig))).2) ∧
      (pick sig (arrange (candidates store ns sig))).2 = id := by
  have filled : ¬ (sig.methodKind = [] ∨ anyField sig = false) ↔
      sig.methodKind ≠ [] ∧ anyField sig = true := by
    rw [not_or, Bool.not_eq_false]
  fun_cases dossierResolve arrange store ns sig label createIfMissing with
  | case1 empty => exact iff_of_false nofun fun found => filled.mpr found.1 empty
  | case2 empty best reached =>
    simp only [Answer.matched.injEq]
    exact ⟨fun same => ⟨filled.mp empty, reached, same⟩, fun found => found.2.2⟩
  | case3 _ best reached | case4 _ best reached =>
    exact iff_of_false nofun fun found => reached found.2.1

theorem clear_fetches (clear : Clear store ns sig) (known : Known store ns sig) :
    sig.methodKind ≠ [] ∧
      (∃ r ∈ candidates store ns sig, matchThreshold ≤ score sig r) ∧
      ∀ r ∈ candidates store ns sig, (∀ o ∈ candidates store ns sig, score sig o ≤ score sig r) →
        ∀ o ∈ bucket store ns sig.methodKind, score sig o ≤ score sig r := by
  obtain ⟨row, there, reached⟩ := known
  rcases clear with ⟨kind, noId | ⟨twin, mem, same⟩⟩ | unlikely
  · have whole : candidates store ns sig = bucket store ns sig.methodKind := by
      rw [candidates, if_neg (not_not.mpr noId)]
    rw [whole]
    exact ⟨kind, ⟨row, there, reached⟩, fun _ _ best => best⟩
  · refine ⟨kind, ?_⟩
    by_cases noId : sig.verifiedId = []
    · have whole : candidates store ns sig = bucket store ns sig.methodKind := by
        rw [candidates, if_neg (not_not.mpr noId)]
      rw [whole]
      exact ⟨⟨row, there, reached⟩, fun _ _ best => best⟩
    · have fetched : twin ∈ candidates store ns sig := by
        rw [candidates, if_pos noId]
        exact mem_filter.mpr ⟨mem, decide_eq_true same⟩
      have full : score sig twin = 1 := score_of_verified noId same
      refine ⟨⟨twin, fetched, ?_⟩, fun r _ best o _ => ?_⟩
      · rw [full, matchThreshold]
        norm_num
      · calc score sig o ≤ 1 := score_le_one _ _
          _ = score sig twin := full.symm
          _ ≤ score sig r := best twin fetched
  · exact absurd ((likely_iff _ _).mpr reached) (unlikely row there)

variable (order : ∀ rows, (arrange rows).Perm rows)
include order

theorem matched_row {id : ℕ}
    (found : (dossierResolve arrange store ns sig label createIfMissing).2 = .matched id) :
    ∃ r ∈ candidates store ns sig, r.dossier = id ∧ matchThreshold ≤ score sig r ∧
      ∀ o ∈ candidates store ns sig, score sig o ≤ score sig r := by
  obtain ⟨-, ⟨reached, -⟩, named⟩ := matched_iff.mp found
  obtain ⟨r, mem, same, best⟩ := pick_matches reached
  rw [same] at reached named
  refine ⟨r, (order _).mem_iff.mp mem, named, reached, fun o there => ?_⟩
  exact best o ((order _).mem_iff.mpr there)

theorem exists_matched (kind : sig.methodKind ≠ [])
    (field : anyField sig = true) (mem : r ∈ candidates store ns sig)
    (reached : matchThreshold ≤ score sig r) :
    ∃ id, (dossierResolve arrange store ns sig label createIfMissing).2 = .matched id := by
  have above := reached.trans (score_le_pick ((order _).mem_iff.mpr mem))
  obtain ⟨o, there, same, -⟩ := pick_matches above
  have positive := bucket_positive (candidates_subset ((order _).mem_iff.mp there))
  exact ⟨_, matched_iff.mpr ⟨⟨kind, field⟩, ⟨above, by rw [same]; exact positive⟩, rfl⟩⟩

theorem clear_of_matched
    (agrees : Known store ns sig →
      ∃ id, (dossierResolve arrange store ns sig label createIfMissing).2 = .matched id) :
    Clear store ns sig := by
  by_cases known : Known store ns sig
  · obtain ⟨id, found⟩ := agrees known
    obtain ⟨⟨kind, -⟩, -⟩ := matched_iff.mp found
    obtain ⟨r, mem, -⟩ := matched_row order found
    refine .inl ⟨kind, ?_⟩
    by_cases noId : sig.verifiedId = []
    · exact .inl noId
    · rw [candidates, if_pos noId] at mem
      obtain ⟨there, same⟩ := mem_filter.mp mem
      exact .inr ⟨r, there, of_decide_eq_true same⟩
  · refine .inr fun r mem likely => known ⟨r, mem, ?_⟩
    exact (likely_iff _ _).mp likely

omit order

/-- Resolution matches exactly the known signatures, with a best dossier, where `Clear` says so and
nowhere else. -/
theorem resolve_full_scan_iff (order : ∀ rows, (arrange rows).Perm rows)
    (field : anyField sig = true) :
    (((∃ id, (dossierResolve arrange store ns sig label createIfMissing).2 = .matched id) ↔
      Known store ns sig) ∧
    ∀ id, (dossierResolve arrange store ns sig label createIfMissing).2 = .matched id →
      Best store ns sig id) ↔ Clear store ns sig := by
  have known {id : ℕ}
      (found : (dossierResolve arrange store ns sig label createIfMissing).2 = .matched id) :
      Known store ns sig := by
    obtain ⟨r, mem, -, reached, -⟩ := matched_row order found
    exact ⟨r, candidates_subset mem, reached⟩
  refine ⟨fun scans => clear_of_matched order scans.1.mpr, fun clear => ?_⟩
  refine ⟨⟨fun ⟨id, found⟩ => known found, fun there => ?_⟩, fun id found => ?_⟩
  · obtain ⟨kind, ⟨r, mem, reached⟩, -⟩ := clear_fetches clear there
    exact exists_matched order kind field mem reached
  · obtain ⟨r, mem, named, -, best⟩ := matched_row order found
    obtain ⟨-, -, widen⟩ := clear_fetches clear (known found)
    exact ⟨r, candidates_subset mem, named, widen r mem best⟩

end Resolve

/-! ## A person seen before they logged in -/

def alice : Signature :=
  { methodKind := ascii "irc", nickname := ascii "alice", username := ascii "alice"
    hostname := ascii "host", verifiedId := [] }

def aliceKnown : Signature := { alice with verifiedId := ascii "Alice" }

def seen : Store := (dossierCreate Store.empty 1 alice []).1

def seenKnown : Store := (dossierCreate Store.empty 1 aliceKnown []).1

theorem resolve_full_scan_again :
    ((∃ p, (dossierResolve id seenKnown 1 aliceKnown [] true).2 = .matched p) ↔
      Known seenKnown 1 aliceKnown) ∧
    ∀ p, (dossierResolve id seenKnown 1 aliceKnown [] true).2 = .matched p →
      Best seenKnown 1 aliceKnown p :=
  (resolve_full_scan_iff (fun _ => .refl _) (by decide)).mpr
    (.inl ⟨by decide, .inr ⟨⟨1, aliceKnown, 1⟩, by decide, rfl⟩⟩)

/-- The stored signature scores 0.9 against the new one, but is not fetched: the person gets a
second dossier. -/
theorem login_splits_dossier :
    anyField aliceKnown = true ∧ Known seen 1 aliceKnown ∧
      (dossierResolve id seen 1 aliceKnown [] true).2 = .created 2 := by
  refine ⟨by decide, ⟨⟨1, alice, 1⟩, by decide, ?_⟩, by decide +kernel⟩
  exact (likely_iff _ _).mp (.inr ⟨.inr rfl, by decide, by decide, by decide, by decide⟩)

end BotManager.DossierResolve
