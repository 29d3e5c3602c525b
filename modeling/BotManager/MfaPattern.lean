import BotManager.Glob

/-! The identity patterns of core/userns_mfa.c. `validate_mfa_pattern` counts the bytes of
the handle and of the host that are neither `*` nor `?`; `fnmatch` reads a bracket
expression of any length as one character, and an escape as one as well. How short an
identity can be is therefore measured by the cheapest reading of the pattern. -/

namespace BotManager.MfaPattern
open List CText Glob

def bang : UInt8 := 33
def commercialAt : UInt8 := 64

def usernsMfaPatternSz : ℕ := 201

def cut (mark : UInt8) (s : Bytes) : Option (Bytes × Bytes) :=
  match s.dropWhile (· ≠ mark) with
  | [] => none
  | _ :: after => some (s.takeWhile (· ≠ mark), after)

def nonGlob (s : Bytes) : ℕ := s.countP fun c => c ≠ asterisk && c ≠ questionMark

def validateMfaPattern (pattern : Bytes) : Bool :=
  if pattern = [] then false
  else if usernsMfaPatternSz ≤ pattern.length then false
  else
    match cut bang pattern with
    | none => false
    | some (handle, afterBang) =>
      if handle = [] then false
      else
        match cut commercialAt afterBang with
        | none => false
        | some (user, host) =>
          if user = [] ∨ host = [] then false
          else if nonGlob handle < 3 then false
          else if nonGlob host < 6 then false
          else true

structure MfaParts where
  handle : Bytes
  user : Bytes
  host : Bytes
  deriving DecidableEq

def parseMfaString (str : Bytes) : Option MfaParts :=
  match cut bang str with
  | none => none
  | some (handle, afterBang) =>
    if handle = [] then none
    else
      match cut commercialAt afterBang with
      | none => none
      | some (user, host) =>
        if user = [] ∨ host = [] then none
        else if usernsMfaPatternSz ≤ handle.length ∨ usernsMfaPatternSz ≤ user.length ∨
            usernsMfaPatternSz ≤ host.length then none
        else some ⟨handle, user, host⟩

def matchEntry (pattern : Bytes) (input : MfaParts) : Bool :=
  match parseMfaString pattern with
  | none => false
  | some pat =>
    if fnmatch pat.handle input.handle = false then false
    else if fnmatch pat.user input.user = false then false
    else if fnmatch pat.host input.host = false then false
    else true

variable {mark : UInt8} {before s pattern : Bytes} {pat input : MfaParts}

section Parse

theorem cut_join (clear : mark ∉ before) (after : Bytes) :
    cut mark (before ++ mark :: after) = some (before, after) := by
  have inside : ∀ c ∈ before, decide (c ≠ mark) = true := by
    intro c mem
    exact decide_eq_true fun here => clear (here ▸ mem)
  simp only [cut, takeWhile_append_of_pos inside, dropWhile_append_of_pos inside]
  simp

theorem join_of_cut {after : Bytes}
    (found : cut mark s = some (before, after)) : s = before ++ mark :: after ∧ mark ∉ before := by
  rw [cut] at found
  split at found
  · cases found
  next c rest tail =>
    obtain ⟨rfl, rfl⟩ := Prod.mk.inj (Option.some.inj found)
    have stops : c = mark := by
      have ends := head_dropWhile_not (fun x => decide (x ≠ mark))
        (tail ▸ cons_ne_nil c rest : s.dropWhile (fun x => decide (x ≠ mark)) ≠ [])
      simp only [tail, head_cons] at ends
      simpa using ends
    constructor
    · rw [← stops, ← tail, stops, takeWhile_append_dropWhile]
    · intro mem
      simpa using mem_takeWhile_imp mem

structure Spelled (s : Bytes) (parts : MfaParts) : Prop where
  whole : s = parts.handle ++ bang :: (parts.user ++ commercialAt :: parts.host)
  handleClear : bang ∉ parts.handle
  userClear : commercialAt ∉ parts.user
  handleSome : parts.handle ≠ []
  userSome : parts.user ≠ []
  hostSome : parts.host ≠ []
  handleFits : parts.handle.length < usernsMfaPatternSz
  userFits : parts.user.length < usernsMfaPatternSz
  hostFits : parts.host.length < usernsMfaPatternSz

theorem parse_iff {parts : MfaParts} : parseMfaString s = some parts ↔ Spelled s parts := by
  constructor
  · intro read
    revert read
    fun_cases parseMfaString s with
    | case6 handle afterBang first noHandle user host second empty long =>
      rintro ⟨⟩
      push Not at empty long
      obtain ⟨whole, handleClear⟩ := join_of_cut first
      obtain ⟨rest, userClear⟩ := join_of_cut second
      exact ⟨by rw [whole, rest], handleClear, userClear, noHandle, empty.1, empty.2, long.1,
        long.2.1, long.2.2⟩
    | _ => nofun
  · intro spelled
    have fits : ¬ (usernsMfaPatternSz ≤ parts.handle.length ∨
        usernsMfaPatternSz ≤ parts.user.length ∨ usernsMfaPatternSz ≤ parts.host.length) := by
      push Not
      exact ⟨spelled.handleFits, spelled.userFits, spelled.hostFits⟩
    rw [parseMfaString, spelled.whole]
    simp only [cut_join spelled.handleClear, cut_join spelled.userClear, spelled.handleSome,
      spelled.userSome, spelled.hostSome, fits, or_self, if_false]

theorem spelled_of_accepted (accepted : validateMfaPattern pattern = true) :
    ∃ parts, Spelled pattern parts := by
  revert accepted
  fun_cases validateMfaPattern pattern with
  | case9 _ long handle afterBang first noHandle user host second empty three six =>
    intro
    push Not at empty
    obtain ⟨whole, handleClear⟩ := join_of_cut first
    obtain ⟨rest, userClear⟩ := join_of_cut second
    have size := congrArg length whole
    rw [rest] at size
    simp only [length_append, length_cons] at size
    refine ⟨⟨handle, user, host⟩, by rw [whole, rest], handleClear, userClear, noHandle, empty.1,
      empty.2, ?_, ?_, ?_⟩ <;> dsimp only <;> omega
  | _ => nofun

theorem matchEntry_iff (spelled : Spelled pattern pat) :
    matchEntry pattern input = true ↔ fnmatch pat.handle input.handle = true ∧
      fnmatch pat.user input.user = true ∧ fnmatch pat.host input.host = true := by
  rw [matchEntry, parse_iff.mpr spelled]
  dsimp only
  split_ifs <;> simp_all

end Parse

section Strength

def bytes : List UInt8 := (range 256).map UInt8.ofNat

theorem mem_bytes (c : UInt8) : c ∈ bytes :=
  mem_map.mpr ⟨c.toNat, mem_range.mpr c.toNat_lt, UInt8.ofNat_toNat⟩

/-- The bytes that the reading of an identity leaves in each part. -/
def handleBytes : List UInt8 := bytes.filter fun c => c ≠ 0 && c ≠ bang
def userBytes : List UInt8 := bytes.filter fun c => c ≠ 0 && c ≠ commercialAt
def hostBytes : List UInt8 := bytes.filter fun c => c ≠ 0

/-- The fewest bytes out of `letters` that a text which matches the pattern has. -/
def spends (letters : List UInt8) (pattern : Bytes) : Option ℕ :=
  cheapest (· = asterisk) readByte letters 0 pattern

example : spends handleBytes (ascii "[a[.ch.]xy]") = some 1 := by decide +kernel

/-- Some part of the pattern matches nothing, or handle and host are long enough. -/
def Pins (pattern : Bytes) : Prop :=
  ∀ pat, parseMfaString pattern = some pat →
    ∀ h ∈ spends handleBytes pat.handle, ∀ _ ∈ spends userBytes pat.user,
      ∀ o ∈ spends hostBytes pat.host, 3 ≤ h ∧ 6 ≤ o

theorem bytes_of_spelled (text : 0 ∉ s) (read : Spelled s input) :
    (∀ c ∈ input.handle, c ∈ handleBytes) ∧ (∀ c ∈ input.user, c ∈ userBytes) ∧
      ∀ c ∈ input.host, c ∈ hostBytes := by
  have nonzero : ∀ c ∈ s, c ≠ 0 := fun c mem zero => text (zero ▸ mem)
  rw [read.whole] at nonzero
  refine ⟨?_, ?_, ?_⟩
  · intro c mem
    have notBang : c ≠ bang := fun here => read.handleClear (here ▸ mem)
    simp [handleBytes, mem_bytes, nonzero c (by simp [mem]), notBang]
  · intro c mem
    have notAt : c ≠ commercialAt := fun here => read.userClear (here ▸ mem)
    simp [userBytes, mem_bytes, nonzero c (by simp [mem]), notAt]
  · intro c mem
    simp [hostBytes, mem_bytes, nonzero c (by simp [mem])]

theorem exists_part {letters : List UInt8} {text : Bytes} {m : ℕ} {c : UInt8} (given : text ≠ [])
    (fits : text.length < usernsMfaPatternSz) (letter : c ∈ letters)
    (cost : spends letters text = some m) :
    ∃ s, s ≠ [] ∧ s.length = max 1 m ∧ s.length < usernsMfaPatternSz ∧
      (∀ d ∈ s, d ∈ letters) ∧ fnmatch text s = true := by
  obtain ⟨s, size, all, found⟩ := exists_cheapest_nonempty given letter cost
  have short := cheapest_le_length cost
  refine ⟨s, ?_, size, ?_, all, found⟩
  · rintro rfl
    rw [length_nil] at size
    omega
  · have : 1 ≤ text.length := length_pos_of_ne_nil given
    omega

theorem exists_identity {h u o : ℕ} (spelled : Spelled pattern pat)
    (handleCost : spends handleBytes pat.handle = some h)
    (userCost : spends userBytes pat.user = some u)
    (hostCost : spends hostBytes pat.host = some o) :
    ∃ s input, 0 ∉ s ∧ parseMfaString s = some input ∧ matchEntry pattern input = true ∧
      input.handle.length = max 1 h ∧ input.host.length = max 1 o := by
  obtain ⟨handle, hSome, hSize, hFits, hBytes, hMatch⟩ := exists_part (c := 97) spelled.handleSome
    spelled.handleFits (by decide +kernel) handleCost
  obtain ⟨user, uSome, uSize, uFits, uBytes, uMatch⟩ := exists_part (c := 97) spelled.userSome
    spelled.userFits (by decide +kernel) userCost
  obtain ⟨host, oSome, oSize, oFits, oBytes, oMatch⟩ := exists_part (c := 97) spelled.hostSome
    spelled.hostFits (by decide +kernel) hostCost
  have noBang : bang ∉ handle := fun mem => by simpa [handleBytes] using hBytes bang mem
  have noAt : commercialAt ∉ user := fun mem => by simpa [userBytes] using uBytes commercialAt mem
  have read : Spelled (handle ++ bang :: (user ++ commercialAt :: host)) ⟨handle, user, host⟩ :=
    ⟨rfl, noBang, noAt, hSome, uSome, oSome, hFits, uFits, oFits⟩
  refine ⟨_, _, ?_, parse_iff.mpr read, (matchEntry_iff spelled).mpr ⟨hMatch, uMatch, oMatch⟩,
    hSize, oSize⟩
  intro zero
  simp only [mem_append, mem_cons] at zero
  rcases zero with inside | here | inside | here | inside
  · simpa [handleBytes] using hBytes 0 inside
  · exact absurd here (by decide)
  · simpa [userBytes] using uBytes 0 inside
  · exact absurd here (by decide)
  · simpa [hostBytes] using oBytes 0 inside

theorem pins_iff {pattern : Bytes} (accepted : validateMfaPattern pattern = true) :
    (∀ s input, 0 ∉ s → parseMfaString s = some input → matchEntry pattern input = true →
        3 ≤ input.handle.length ∧ 6 ≤ input.host.length) ↔ Pins pattern := by
  obtain ⟨parts, spelled⟩ := spelled_of_accepted accepted
  constructor
  · intro strong pat read h handleCost u userCost o hostCost
    obtain ⟨s, input, text, identity, found, handle, host⟩ :=
      exists_identity (parse_iff.mp read) handleCost userCost hostCost
    have bounds := strong s input text identity found
    rw [handle, host] at bounds
    omega
  · intro pins s input text identity found
    obtain ⟨handleBytes, userBytes, hostBytes⟩ := bytes_of_spelled text (parse_iff.mp identity)
    obtain ⟨handle, user, host⟩ := (matchEntry_iff spelled).mp found
    obtain ⟨h, handleCost, handleLe⟩ := cheapest_le_of_match handle handleBytes
    obtain ⟨u, userCost, -⟩ := cheapest_le_of_match user userBytes
    obtain ⟨o, hostCost, hostLe⟩ := cheapest_le_of_match host hostBytes
    have bounds := pins parts (parse_iff.mpr spelled) h handleCost u userCost o hostCost
    exact ⟨bounds.1.trans handleLe, bounds.2.trans hostLe⟩

theorem pins_sample : Pins (ascii "b[oO]b*!*@home.?et") ∧
    ∀ s input, 0 ∉ s → parseMfaString s = some input →
      matchEntry (ascii "b[oO]b*!*@home.?et") input = true →
        3 ≤ input.handle.length ∧ 6 ≤ input.host.length := by
  have parts : parseMfaString (ascii "b[oO]b*!*@home.?et") =
      some ⟨ascii "b[oO]b*", ascii "*", ascii "home.?et"⟩ := by decide
  have handle : spends handleBytes (ascii "b[oO]b*") = some 3 := by decide +kernel
  have host : spends hostBytes (ascii "home.?et") = some 8 := by decide +kernel
  have pins : Pins (ascii "b[oO]b*!*@home.?et") := by
    intro pat read h handleCost u _ o hostCost
    rw [parts] at read
    cases read
    cases handle.symm.trans handleCost
    cases host.symm.trans hostCost
    decide
  exact ⟨pins, (pins_iff (by decide)).mpr pins⟩

theorem not_pins : validateMfaPattern (ascii "[abc]!u@[abcdef]") = true ∧
    parseMfaString (ascii "a!u@a") = some ⟨ascii "a", ascii "u", ascii "a"⟩ ∧
    matchEntry (ascii "[abc]!u@[abcdef]") ⟨ascii "a", ascii "u", ascii "a"⟩ = true ∧
    (ascii "a").length < 3 := by
  decide

end Strength

end BotManager.MfaPattern
