import Mathlib.Data.List.Infix
import Mathlib.Data.List.Dedup
import BotManager.CText

/-! Shell patterns as glibc's `fnmatch` reads them with FNM_CASEFOLD in the C locale. The byte
of the text at hand decides how far a bracket expression is read: its items are looked at
up to the first that has the byte, and from there only the closing bracket is looked for. The
first section is about any such language; what it proves is how short a text that matches
can be, and that the shortest length is reached. -/

namespace BotManager.Glob
open List CText

section Matcher

variable {α β : Type*} (star : α → Bool) (step : α → List α → β → Option ℕ)

/-- The text against the pattern up to its next star. What is left of the text is returned,
and the length of the pattern that was read; `skip` elements belong to the step before. -/
def segment : ℕ → List α → List β → Option (ℕ × List β)
  | _, [], s => if s.isEmpty then some (0, []) else none
  | k + 1, _ :: p, s => (segment k p s).map fun (n, t) => (n + 1, t)
  | 0, c :: p, s =>
    if star c then some (0, s)
    else
      match s with
      | [] => none
      | d :: t => (step c p d).bind fun k => (segment k p t).map fun (n, t) => (n + 1, t)

/-- A star leaves the first place where the pattern matches up to the next star, and this
choice is not taken back. -/
def globMatch : ℕ → List α → List β → Bool
  | _, [], s => s.isEmpty
  | k + 1, _ :: p, s => globMatch k p s
  | 0, c :: p, s =>
    if star c then
      p.isEmpty || (s.tails.findSome? (segment star step 0 p)).any fun (n, t) => globMatch n p t
    else
      match s with
      | [] => false
      | d :: t => (step c p d).any fun k => globMatch k p t

/-- The length of the shortest text over `letters` that the pattern can be read against. -/
def cheapest (letters : List β) : ℕ → List α → Option ℕ
  | _, [] => some 0
  | k + 1, _ :: p => cheapest letters k p
  | 0, c :: p =>
    if star c then cheapest letters 0 p
    else
      ((letters.filterMap (step c p)).dedup.filterMap fun k => cheapest letters k p).min?.map
        (· + 1)

variable {star step} {letters : List β} {c : α} {p : List α} {s t : List β} {k n m : ℕ}

theorem cheapest_le_of_step (plain : star c = false) {d : β} (letter : d ∈ letters)
    (reads : step c p d = some k) (later : cheapest star step letters k p = some m) :
    ∃ n, cheapest star step letters 0 (c :: p) = some n ∧ n ≤ m + 1 := by
  have mem : m ∈ (letters.filterMap (step c p)).dedup.filterMap
      fun k => cheapest star step letters k p :=
    mem_filterMap.mpr ⟨k, mem_dedup.mpr (mem_filterMap.mpr ⟨d, letter, reads⟩), later⟩
  obtain ⟨least, isLeast⟩ := Option.isSome_iff_exists.mp (isSome_min?_of_mem mem)
  have le := (min?_eq_some_iff.mp isLeast).2 m mem
  exact ⟨least + 1, by simp [cheapest, plain, isLeast], Nat.succ_le_succ le⟩

theorem step_of_cheapest (plain : star c = false)
    (cost : cheapest star step letters 0 (c :: p) = some n) :
    ∃ d ∈ letters, ∃ k m, step c p d = some k ∧ cheapest star step letters k p = some m ∧
      n = m + 1 := by
  simp only [cheapest, plain, Bool.false_eq_true, if_false, Option.map_eq_some_iff] at cost
  obtain ⟨m, least, rfl⟩ := cost
  have mem := (min?_eq_some_iff.mp least).1
  obtain ⟨k, reads, later⟩ := mem_filterMap.mp mem
  obtain ⟨d, letter, reads⟩ := mem_filterMap.mp (mem_dedup.mp reads)
  exact ⟨d, letter, k, m, reads, later, rfl⟩

theorem cheapest_le_length (cost : cheapest star step letters k p = some m) : m ≤ p.length := by
  induction p generalizing k m with
  | nil => cases k <;> simp_all [cheapest]
  | cons c p ih =>
    cases k with
    | succ k => exact (ih cost).trans (Nat.le_succ _)
    | zero =>
      cases isStar : star c with
      | true =>
        rw [cheapest, if_pos isStar] at cost
        exact (ih cost).trans (Nat.le_succ _)
      | false =>
        obtain ⟨d, -, k, m, -, later, rfl⟩ := step_of_cheapest isStar cost
        exact Nat.succ_le_succ (ih later)

/-- What is read up to the next star is a part of the text, and costs no less than the pattern
saves by it. -/
theorem segment_reads (found : segment star step k p s = some (n, t)) :
    t <:+ s ∧ ((∀ d ∈ s, d ∈ letters) → ∀ m, cheapest star step letters n p = some m →
      ∃ m', cheapest star step letters k p = some m' ∧ m' + t.length ≤ m + s.length) := by
  induction p generalizing k s n with
  | nil =>
    cases k <;> simp_all [segment, cheapest]
  | cons c p ih =>
    cases k with
    | succ k =>
      obtain ⟨⟨n, t⟩, later, same⟩ := Option.map_eq_some_iff.mp found
      cases same
      exact ih later
    | zero =>
      cases isStar : star c with
      | true =>
        simp only [segment, isStar, if_true, Option.some.injEq, Prod.mk.injEq] at found
        obtain ⟨rfl, rfl⟩ := found
        exact ⟨suffix_rfl, fun _ m cost => ⟨m, cost, le_rfl⟩⟩
      | false =>
        cases s with
        | nil => simp [segment, isStar] at found
        | cons d s =>
          simp only [segment, isStar, Bool.false_eq_true, if_false, Option.bind_eq_some_iff,
            Option.map_eq_some_iff] at found
          obtain ⟨k, reads, ⟨n, t⟩, later, same⟩ := found
          cases same
          obtain ⟨suffix, costs⟩ := ih later
          refine ⟨suffix.trans (suffix_cons d s), fun all m cost => ?_⟩
          obtain ⟨letter, rest⟩ := forall_mem_cons.mp all
          obtain ⟨m', further, le⟩ := costs rest m cost
          obtain ⟨least, isLeast, short⟩ := cheapest_le_of_step isStar letter reads further
          refine ⟨least, isLeast, ?_⟩
          rw [length_cons]
          omega

theorem globMatch_plain (plain : star c = false) : globMatch star step 0 (c :: p) s = true ↔
    ∃ d u k, s = d :: u ∧ step c p d = some k ∧ globMatch star step k p u = true := by
  cases s with
  | nil => simp [globMatch, plain]
  | cons d s => simp [globMatch, plain, Option.any_eq_true]

theorem cheapest_le_of_match (found : globMatch star step k p s = true)
    (all : ∀ d ∈ s, d ∈ letters) :
    ∃ m, cheapest star step letters k p = some m ∧ m ≤ s.length := by
  induction p generalizing k s with
  | nil => exact ⟨0, by cases k <;> rfl, Nat.zero_le _⟩
  | cons c p ih =>
    cases k with
    | succ k => exact ih found all
    | zero =>
      cases isStar : star c with
      | true =>
        simp only [globMatch, isStar, if_true, Bool.or_eq_true, List.isEmpty_iff,
          Option.any_eq_true] at found
        rcases found with rfl | found
        · exact ⟨0, by simp [cheapest, isStar], Nat.zero_le _⟩
        · obtain ⟨⟨n, t⟩, first, rest⟩ := found
          obtain ⟨u, tail, read⟩ := exists_of_findSome?_eq_some first
          have inside := fun d mem => all d (((mem_tails _ _).mp tail).subset mem)
          obtain ⟨suffix, costs⟩ := segment_reads read
          obtain ⟨m, cost, le⟩ := ih rest fun d mem => inside d (suffix.subset mem)
          obtain ⟨m', less, short⟩ := costs inside m cost
          dsimp only at le
          have := ((mem_tails _ _).mp tail).length_le
          exact ⟨m', by rw [cheapest, if_pos isStar, less], by omega⟩
      | false =>
        obtain ⟨d, s, k, rfl, reads, later⟩ := (globMatch_plain isStar).mp found
        obtain ⟨letter, rest⟩ := forall_mem_cons.mp all
        obtain ⟨m, cost, le⟩ := ih later rest
        obtain ⟨least, isLeast, short⟩ := cheapest_le_of_step isStar letter reads cost
        exact ⟨least, isLeast, by rw [length_cons]; omega⟩

theorem segment_of_match (found : globMatch star step k p s = true) :
    ∃ n t, segment star step k p s = some (n, t) ∧ globMatch star step n p t = true := by
  induction p generalizing k s with
  | nil => exact ⟨0, [], by cases k <;> simp_all [globMatch, segment], rfl⟩
  | cons c p ih =>
    cases k with
    | succ k =>
      obtain ⟨n, t, read, rest⟩ := ih found
      exact ⟨n + 1, t, by simp [segment, read], rest⟩
    | zero =>
      cases isStar : star c with
      | true => exact ⟨0, s, by simp [segment, isStar], found⟩
      | false =>
        obtain ⟨d, s, k, rfl, reads, later⟩ := (globMatch_plain isStar).mp found
        obtain ⟨n, t, read, rest⟩ := ih later
        exact ⟨n + 1, t, by simp [segment, isStar, reads, read], rest⟩

theorem globMatch_star (isStar : star c = true) (found : globMatch star step 0 p s = true) :
    globMatch star step 0 (c :: p) s = true := by
  obtain ⟨n, t, read, rest⟩ := segment_of_match found
  have first : s.tails.findSome? (segment star step 0 p) = some (n, t) := by
    cases s <;> simp [read]
  simp [globMatch, isStar, first, rest]

theorem globMatch_stars (given : p ≠ []) (free : cheapest star step letters 0 p = some 0)
    (s : List β) : globMatch star step 0 p s = true := by
  induction p with
  | nil => exact absurd rfl given
  | cons c p ih =>
    cases isStar : star c with
    | false =>
      obtain ⟨-, -, -, m, -, -, positive⟩ := step_of_cheapest isStar free
      exact absurd positive (Nat.succ_ne_zero m).symm
    | true =>
      by_cases last : p = []
      · simp [globMatch, isStar, last]
      · rw [cheapest, if_pos isStar] at free
        exact globMatch_star isStar (ih last free)

theorem exists_cheapest (cost : cheapest star step letters k p = some m) :
    ∃ s, s.length = m ∧ (∀ d ∈ s, d ∈ letters) ∧ globMatch star step k p s = true := by
  induction p generalizing k m with
  | nil => exact ⟨[], by cases k <;> simp_all [cheapest], by simp, by cases k <;> rfl⟩
  | cons c p ih =>
    cases k with
    | succ k => exact ih cost
    | zero =>
      cases isStar : star c with
      | true =>
        rw [cheapest, if_pos isStar] at cost
        obtain ⟨s, size, all, found⟩ := ih cost
        exact ⟨s, size, all, globMatch_star isStar found⟩
      | false =>
        obtain ⟨d, letter, k, m, reads, later, rfl⟩ := step_of_cheapest isStar cost
        obtain ⟨s, size, all, found⟩ := ih later
        refine ⟨d :: s, by rw [length_cons, size], forall_mem_cons.mpr ⟨letter, all⟩, ?_⟩
        exact (globMatch_plain isStar).mpr ⟨d, s, k, rfl, reads, found⟩

theorem exists_cheapest_nonempty {d : β} (given : p ≠ []) (letter : d ∈ letters)
    (cost : cheapest star step letters 0 p = some m) :
    ∃ s, s.length = max 1 m ∧ (∀ d ∈ s, d ∈ letters) ∧ globMatch star step 0 p s = true := by
  rcases Nat.eq_zero_or_pos m with rfl | pos
  · exact ⟨[d], rfl, by simpa using letter, globMatch_stars given cost [d]⟩
  · rw [max_eq_right pos]
    exact exists_cheapest cost

end Matcher

section Fnmatch

def asterisk : UInt8 := 42
def questionMark : UInt8 := 63
def backslash : UInt8 := 92
def openBracket : UInt8 := 91
def closeBracket : UInt8 := 93
def exclamation : UInt8 := 33
def circumflex : UInt8 := 94
def hyphen : UInt8 := 45
def dot : UInt8 := 46
def equals : UInt8 := 61
def colon : UInt8 := 58

def isUpper (c : UInt8) : Bool := 65 ≤ c && c ≤ 90
def isLower (c : UInt8) : Bool := 97 ≤ c && c ≤ 122
def isAlpha (c : UInt8) : Bool := isUpper c || isLower c
def isGraph (c : UInt8) : Bool := 33 ≤ c && c ≤ 126

def classes : List (Bytes × (UInt8 → Bool)) :=
  [(ascii "alnum", fun c => isAlpha c || isDigit c),
    (ascii "alpha", isAlpha),
    (ascii "blank", fun c => c = 32 || c = 9),
    (ascii "cntrl", fun c => c < 32 || c = 127),
    (ascii "digit", isDigit),
    (ascii "graph", isGraph),
    (ascii "lower", isLower),
    (ascii "print", fun c => isGraph c || c = 32),
    (ascii "punct", fun c => isGraph c && !(isAlpha c || isDigit c)),
    (ascii "space", isSpace),
    (ascii "upper", isUpper),
    (ascii "xdigit", fun c => isDigit c || (97 ≤ toLower c && toLower c ≤ 102))]

/-- The name between `[:` and `:]`. A name with a `z` in it is taken for none. -/
def className (text : Bytes) : Option Bytes :=
  let name := text.takeWhile fun c => 97 ≤ c && c < 122
  if [colon, closeBracket] <+: text.drop name.length then some name else none

def symbol : Bytes → Option Bytes
  | [] => none
  | c :: rest =>
    if c = dot ∧ rest.head? = some closeBracket then some [] else (symbol rest).map (c :: ·)

/-- The upper end of a range and the bytes it takes. Its case is folded unless it is written
as a collating symbol. -/
def upperEnd : Bytes → Option (UInt8 × ℕ)
  | [] => none
  | c :: rest =>
    if c = openBracket ∧ rest.head? = some dot then
      match symbol rest.tail with
      | some [x] => some (x, 5)
      | _ => none
    else if c = backslash then rest.head?.map fun x => (toLower x, 2)
    else some (toLower c, 1)

/-- An item that begins with the byte `lo`, before `rest`: whether it has `d` and the bytes it
takes, `n` if no range follows. The byte itself counts as `alone`, or as `closing` where a
hyphen and the closing bracket follow. -/
def rangeOrSingle (d lo : UInt8) (alone closing : Bool) (n : ℕ) : Bytes → Option (Bool × ℕ)
  | [] => some (alone, n)
  | c :: rest =>
    if c ≠ hyphen then some (alone, n)
    else if rest = [] then if alone then some (true, n) else none
    else if rest.head? = some closeBracket then some (closing, n)
    else (upperEnd rest).map fun (hi, m) => (lo ≤ toLower d && toLower d ≤ hi, n + 1 + m)

def letter (d c : UInt8) (n : ℕ) (rest : Bytes) : Option (Bool × ℕ) :=
  rangeOrSingle d (toLower c) (toLower d = toLower c) (toLower d = toLower c) n rest

/-- Whether the item at the head of a list has the byte `d`, and the bytes it takes. -/
def element (d : UInt8) : Bytes → Option (Bool × ℕ)
  | [] => none
  | c :: rest =>
    if c = backslash then
      match rest with
      | [] => none
      | x :: after => letter d x 2 after
    else if c = openBracket ∧ rest.head? = some colon then
      match className rest.tail with
      | some name => (classes.lookup name).map fun accepts => (accepts d, name.length + 4)
      | none => letter d c 1 rest
    else if c = openBracket ∧ rest.head? = some equals ∧
        [equals, closeBracket] <+: rest.drop 2 then
      rest.tail.head?.map fun x => (d = x, 5)
    else if c = openBracket ∧ rest.head? = some dot then
      match symbol rest.tail with
      | some [x] => rangeOrSingle d x (d = x) false 5 (rest.drop 4)
      | _ => none
    else letter d c 1 rest

inductive Listing
  | unclosed
  | illFormed
  | closed (hit : Bool) (n : ℕ)

def Listing.succ : Listing → Listing
  | .closed hit n => .closed hit (n + 1)
  | other => other

/-- The bytes that belong to the byte `c` when only the closing bracket is looked for. -/
def beyond (c : UInt8) (rest : Bytes) : Option ℕ :=
  if c = backslash then if rest = [] then none else some 1
  else if c ≠ openBracket then some 0
  else if rest.head? = some colon then some ((className rest.tail).elim 0 (·.length + 3))
  else if rest.head? = some equals then
    if [equals, closeBracket] <+: rest.drop 2 then some 4 else none
  else if rest.head? = some dot then (symbol rest.tail).map (·.length + 3)
  else some 0

def matched : ℕ → Bytes → Listing
  | _, [] => .unclosed
  | k + 1, _ :: rest => (matched k rest).succ
  | 0, c :: rest =>
    if c = closeBracket then .closed true 1
    else
      match beyond c rest with
      | none => .illFormed
      | some k => (matched k rest).succ

/-- A list of items up to its closing bracket. A closing bracket that comes first stands for
itself. -/
def listing (d : UInt8) (first : Bool) : ℕ → Bytes → Listing
  | _, [] => .unclosed
  | k + 1, _ :: rest => (listing d false k rest).succ
  | 0, c :: rest =>
    if c = closeBracket ∧ first = false then .closed false 1
    else
      match element d (c :: rest) with
      | none => .illFormed
      | some (true, n) => (matched (n - 1) rest).succ
      | some (false, n) => (listing d false (n - 1) rest).succ

/-- The byte `d` against the bracket expression before `rest`. An opening bracket that is
never closed stands for itself. -/
def bracket (rest : Bytes) (d : UInt8) : Option ℕ :=
  let negated : Bool := rest.head? = some exclamation ∨ rest.head? = some circumflex
  match listing d true 0 (if negated then rest.tail else rest) with
  | .unclosed => if d = openBracket then some 0 else none
  | .illFormed => none
  | .closed hit n => if hit = negated then none else some (if negated then n + 1 else n)

/-- The byte `d` against the pattern byte `c` before `rest`: the further bytes of the pattern
that are read with it. -/
def readByte (c : UInt8) (rest : Bytes) (d : UInt8) : Option ℕ :=
  if c = questionMark then some 0
  else if c = backslash then
    if rest.head?.map toLower = some (toLower d) then some 1 else none
  else if c = openBracket then bracket rest d
  else if toLower c = toLower d then some 0 else none

def fnmatch (pattern s : Bytes) : Bool := globMatch (· = asterisk) readByte 0 pattern s

end Fnmatch

end BotManager.Glob
