import Mathlib.Data.List.Forall2
import BotManager.CText
import BotManager.TextSearch

/-! `util_redact_url` of core/util.c, the form in which a URL is logged. The value of a query
parameter is replaced when its name, in lower case, has the fragment of a credential's name in
it; of a name only the first 63 bytes are looked at. -/

namespace BotManager.RedactUrl
open List CText TextSearch

def question : UInt8 := 63
def ampersand : UInt8 := 38
def equals : UInt8 := 61

def utilSecretFrags : List Bytes :=
  ["key", "token", "secret", "password", "passwd", "pass", "auth", "signature", "sig", "crumb",
    "credential", "session", "cookie"].map ascii

def utilRedaction : Bytes := ascii "[CENSORED]"

def lowerSz : ℕ := 64

def utilParamIsSecret (name : Bytes) : Bool :=
  let lower := (bounded lowerSz name).map toLower
  name ≠ [] && utilSecretFrags.any fun frag => (find frag lower).isSome

def utilAppend (cap : ℕ) (out src : Bytes) : Bytes × Bool :=
  if cap ≤ out.length + src.length then
    (out ++ src.take (if out.length + 1 < cap then cap - out.length - 1 else 0), false)
  else (out ++ src, true)

def redactParam (cap : ℕ) (out param : Bytes) : Bytes × Bool :=
  let name := param.takeWhile (· ≠ equals)
  if equals ∈ param ∧ utilParamIsSecret name then
    let (out, ok) := utilAppend cap out (name ++ [equals])
    if ok then utilAppend cap out utilRedaction else (out, false)
  else utilAppend cap out param

/-- The loop over the query. It ends where the output is full; an empty rest adds nothing. -/
def redactQuery (cap : ℕ) (out : Bytes) : List Bytes → Bytes
  | [] => out
  | [param] => (redactParam cap out param).1
  | param :: next :: rest =>
    let (out, ok) := redactParam cap out param
    if ok then
      let (out, ok) := utilAppend cap out [ampersand]
      if ok then redactQuery cap out (next :: rest) else out
    else out

def utilRedactUrl (cap : ℕ) (url : Bytes) : Bytes :=
  if cap = 0 then []
  else
    match url.dropWhile (· ≠ question) with
    | [] => bounded cap url
    | _ :: query =>
      let (out, ok) := utilAppend cap [] (url.takeWhile (· ≠ question) ++ [question])
      if ok then redactQuery cap out (query.splitOn ampersand) else out

/-- A URL from what precedes its query and the parameters of the query. -/
def compose (front : Bytes) (params : List Bytes) : Bytes :=
  front ++ question :: [ampersand].intercalate params

/-- The name, in whatever letter case, has the fragment of a credential's name in it. -/
def Secret (name : Bytes) : Prop := ∃ frag ∈ utilSecretFrags, frag <:+: name.map toLower

/-- The same parameter, but for the value of a credential. -/
def SameButSecret (p q : Bytes) : Prop :=
  p = q ∨ ∃ name v w, equals ∉ name ∧ Secret name ∧ p = name ++ equals :: v ∧ q = name ++ equals :: w

/-- Wherever it shows a credential, the part of the name that is looked at shows it. -/
def Early (param : Bytes) : Prop :=
  Secret (param.takeWhile (· ≠ equals)) → Secret (bounded lowerSz (param.takeWhile (· ≠ equals)))

theorem isSecret_iff {name : Bytes} :
    utilParamIsSecret name = true ↔ Secret (bounded lowerSz name) := by
  have hit (frag : Bytes) : (find frag ((bounded lowerSz name).map toLower)).isSome = true ↔
      frag <:+: (bounded lowerSz name).map toLower := by
    constructor
    · intro some
      by_contra absent
      rw [ find_none_of_not_infix absent] at some
      cases some
    · exact fun inside => Option.isSome_iff_ne_none.mpr ( find_of_infix inside)
  have given : Secret (bounded lowerSz name) → name ≠ [] := by
    rintro ⟨frag, mem, inside⟩ rfl
    have empty : frag = [] := infix_nil.mp inside
    exact absurd (empty ▸ mem) (by decide)
  simp only [utilParamIsSecret, Bool.and_eq_true, decide_eq_true_eq, any_eq_true, hit]
  exact ⟨And.right, fun secret => ⟨given secret, secret⟩⟩

theorem takeWhile_name {name v : Bytes} (whole : equals ∉ name) :
    (name ++ equals :: v).takeWhile (· ≠ equals) = name := by
  have inside : ∀ c ∈ name, decide (c ≠ equals) = true := by
    intro c mem
    exact decide_eq_true fun here => whole (here ▸ mem)
  rw [takeWhile_append_of_pos inside]
  simp

variable {cap : ℕ}

theorem redactParam_same {p q : Bytes} (same : SameButSecret p q) (early : p = q ∨ Early p)
    (out : Bytes) : redactParam cap out p = redactParam cap out q := by
  rcases early with rfl | early
  · rfl
  rcases same with rfl | ⟨name, v, w, whole, secret, rfl, rfl⟩
  · rfl
  · have shown : utilParamIsSecret name = true := by
      rw [Early, takeWhile_name whole] at early
      exact isSecret_iff.mpr (early secret)
    simp only [redactParam, takeWhile_name whole, shown, mem_append, mem_cons, true_or,
      or_true, and_self, if_true]

theorem redactQuery_same {ps qs : List Bytes} (same : List.Forall₂ SameButSecret ps qs)
    (early : List.Forall₂ (fun p q => p = q ∨ Early p) ps qs) (out : Bytes) :
    redactQuery cap out ps = redactQuery cap out qs := by
  induction same generalizing out with
  | nil => rfl
  | cons head tail ih =>
    obtain ⟨first, later⟩ := forall₂_cons.mp early
    have ih := ih later
    cases tail with
    | nil => simp only [redactQuery, redactParam_same head first]
    | cons next rest => simp only [redactQuery, redactParam_same head first, ih]

theorem redact_compose {front : Bytes} {ps : List Bytes} (apart : question ∉ front)
    (given : ps ≠ []) (whole : ∀ p ∈ ps, ampersand ∉ p) :
    utilRedactUrl cap (compose front ps) = if cap = 0 then [] else
      let (out, ok) := utilAppend cap [] (front ++ [question])
      if ok then redactQuery cap out ps else out := by
  have inside : ∀ c ∈ front, decide (c ≠ question) = true := by
    intro c mem
    exact decide_eq_true fun here => apart (here ▸ mem)
  have split : ([ampersand].intercalate ps).splitOn ampersand = ps :=
    splitOn_intercalate ampersand whole given
  simp only [utilRedactUrl, compose, dropWhile_append_of_pos inside,
    takeWhile_append_of_pos inside, dropWhile_cons, takeWhile_cons]
  simp [split]

section Roomy

def redacted (param : Bytes) : Bytes :=
  if equals ∈ param ∧ utilParamIsSecret (param.takeWhile (· ≠ equals)) then
    param.takeWhile (· ≠ equals) ++ [equals] ++ utilRedaction
  else param

theorem append_fits {out src : Bytes} (fits : out.length + src.length < cap) :
    utilAppend cap out src = (out ++ src, true) := if_neg (not_le.mpr fits)

theorem redactParam_fits {out param : Bytes} (fits : out.length + (redacted param).length < cap) :
    redactParam cap out param = (out ++ redacted param, true) := by
  by_cases secret : equals ∈ param ∧ utilParamIsSecret (param.takeWhile (· ≠ equals)) = true
  · rw [redacted, if_pos secret] at fits ⊢
    rw [length_append] at fits
    have name : utilAppend cap out (param.takeWhile (· ≠ equals) ++ [equals]) = (_, true) :=
      append_fits (by omega)
    simp only [redactParam, if_pos secret, name, if_true]
    rw [append_fits (by rw [length_append]; omega), append_assoc]
  · rw [redacted, if_neg secret] at fits ⊢
    rw [redactParam, if_neg secret, append_fits fits]

theorem redactQuery_fits {out : Bytes} {ps : List Bytes}
    (fits : out.length + ([ampersand].intercalate (ps.map redacted)).length < cap) :
    redactQuery cap out ps = out ++ [ampersand].intercalate (ps.map redacted) := by
  induction ps generalizing out with
  | nil => simp [redactQuery, intercalate]
  | cons p ps ih =>
    cases ps with
    | nil =>
      simp only [map_cons, map_nil, intercalate_singleton] at fits ⊢
      rw [redactQuery, redactParam_fits fits]
    | cons q ps =>
      simp only [map_cons, intercalate_cons_cons, length_append, length_singleton] at fits ih ⊢
      have rest := @ih (out ++ redacted p ++ [ampersand])
        (by simp only [length_append, length_singleton]; omega)
      have mark : utilAppend cap (out ++ redacted p) [ampersand] = (_, true) :=
        append_fits (by simp only [length_append, length_singleton]; omega)
      simp only [redactQuery, redactParam_fits (show out.length + (redacted p).length < cap by omega),
        mark, if_true, rest]
      simp only [append_assoc]

theorem ampersand_redacted {p : Bytes} (whole : ampersand ∉ p) : ampersand ∉ redacted p := by
  have name : ampersand ∉ p.takeWhile (· ≠ equals) := fun mem =>
    whole (( takeWhile_prefix _).subset mem)
  have mark : ampersand ∉ [equals] ++ utilRedaction := by decide
  unfold redacted
  split_ifs
  · rw [append_assoc, mem_append]
    exact not_or.mpr ⟨name, mark⟩
  · exact whole

theorem same_of_redacted {p q : Bytes} (same : SameButSecret p q)
    (alike : redacted p = redacted q) : p = q ∨ Early p := by
  rcases same with rfl | ⟨name, v, w, whole, secret, rfl, rfl⟩
  · exact .inl rfl
  by_cases shown : utilParamIsSecret name = true
  · right
    rw [Early, takeWhile_name whole]
    exact fun _ => isSecret_iff.mp shown
  · simp only [redacted, takeWhile_name whole, shown, Bool.false_eq_true, and_false,
      if_false] at alike
    exact .inl alike

theorem forall_of_redacted {ps qs : List Bytes} (same : List.Forall₂ SameButSecret ps qs)
    (alike : ps.map redacted = qs.map redacted) :
    List.Forall₂ (fun p q => p = q ∨ Early p) ps qs := by
  induction same with
  | nil => exact .nil
  | cons head tail ih =>
    obtain ⟨first, rest⟩ := cons.inj alike
    exact .cons (same_of_redacted head first) (ih rest)

end Roomy

/-- Two URLs that differ in the values of credentials only are redacted to the same text for
every capacity, exactly if the first 63 bytes of the name tell each credential that differs. -/
theorem redact_hides_iff {front : Bytes} {ps qs : List Bytes} (apart : question ∉ front)
    (given : ps ≠ []) (whole : ∀ p ∈ ps ++ qs, ampersand ∉ p)
    (same : List.Forall₂ SameButSecret ps qs) :
    (∀ cap, utilRedactUrl cap (compose front ps) = utilRedactUrl cap (compose front qs)) ↔
      List.Forall₂ (fun p q => p = q ∨ Early p) ps qs := by
  have given' : qs ≠ [] := by
    rintro rfl
    cases same
    exact given rfl
  obtain ⟨wholeP, wholeQ⟩ := forall_mem_append.mp whole
  simp only [redact_compose apart given wholeP, redact_compose apart given' wholeQ]
  constructor
  · intro alike
    -- a capacity that nothing is cut at
    obtain ⟨cap, room⟩ : ∃ cap, max
        ((front ++ [question]).length + ([ampersand].intercalate (ps.map redacted)).length)
        ((front ++ [question]).length + ([ampersand].intercalate (qs.map redacted)).length) < cap :=
      ⟨_, Nat.lt_succ_self _⟩
    obtain ⟨roomP, roomQ⟩ := max_lt_iff.mp room
    have texts := alike cap
    have start : utilAppend cap [] (front ++ [question]) = (front ++ [question], true) :=
      append_fits (by simp only [length_nil]; omega)
    simp only [start, if_true, if_neg (show cap ≠ 0 by omega), redactQuery_fits roomP,
      redactQuery_fits roomQ] at texts
    have params := congrArg (splitOn ampersand) (append_cancel_left texts)
    rw [splitOn_intercalate _ (forall_mem_map.mpr fun p mem => ampersand_redacted (wholeP p mem))
        (mt map_eq_nil_iff.mp given),
      splitOn_intercalate _ (forall_mem_map.mpr fun p mem => ampersand_redacted (wholeQ p mem))
        (mt map_eq_nil_iff.mp given')] at params
    exact forall_of_redacted same params
  · intro early cap
    simp only [redactQuery_same same early]

theorem redact_hides_token : utilRedactUrl 40 (compose (ascii "https://h/p") [ascii "a=1",
      ascii "X-Token=u"]) = utilRedactUrl 40 (compose (ascii "https://h/p") [ascii "a=1",
        ascii "X-Token=vw"]) := by
  have shown : ascii "token" <:+: (ascii "X-Token").map toLower := ⟨ascii "x-", [], by decide⟩
  have token : SameButSecret (ascii "X-Token=u") (ascii "X-Token=vw") :=
    .inr ⟨ascii "X-Token", ascii "u", ascii "vw", by decide, ⟨ascii "token", by decide, shown⟩,
      by decide, by decide⟩
  have early : Early (ascii "X-Token=u") := fun _ => ⟨ascii "token", by decide, shown⟩
  exact (redact_hides_iff (by decide) (by decide) (by decide)
    (.cons (.inl rfl) (.cons token .nil))).mpr (.cons (.inl rfl) (.cons (.inr early) .nil)) 40

def longName : Bytes := replicate 60 97 ++ ascii "token"

/-- Of a name of 65 bytes the fragment is not seen, and the value is logged. -/
theorem long_name_shown : Secret longName ∧
    utilRedactUrl 128 (compose (ascii "h") [longName ++ ascii "=1"]) ≠
      utilRedactUrl 128 (compose (ascii "h") [longName ++ ascii "=2"]) := by
  have shown : ascii "token" <:+: longName.map toLower :=
    ⟨replicate 60 97, [], by decide⟩
  exact ⟨⟨ascii "token", by decide, shown⟩, by decide +kernel⟩

end BotManager.RedactUrl
