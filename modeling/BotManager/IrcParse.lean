import BotManager.CText
import BotManager.TextSearch

/-!
The IRC line parser (`irc_parse.c`) and the RFC 1459 rendering it undoes.

A line is the string of its bytes, a pointer into it the suffix it points to. A field that must
not be shortened refuses what does not fit; params and trailing text are cut to their fields.
-/

namespace BotManager.IrcParse

open List CText TextSearch

def ircNickSz : ℕ := 32
def ircHostSz : ℕ := 256
def ircUserhostSz : ℕ := ircNickSz + ircHostSz + 2
def ircMfaSz : ℕ := ircNickSz + ircUserhostSz + 1
def ircPrefixSz : ℕ := ircMfaSz
def ircLineSz : ℕ := 512
def commandSz : ℕ := 32

structure Parsed where
  prefixText : Bytes := []
  nick : Bytes := []
  user : Bytes := []
  host : Bytes := []
  command : Bytes := []
  params : Bytes := []
  trailing : Bytes := []
  hasTrailing : Bool := false
deriving DecidableEq

def ircFieldSet (size : ℕ) (src : Bytes) : Option Bytes :=
  if size ≤ src.length then none else some src

/-- `irc_parse_prefix`: nick, user and host. -/
def ircParsePrefix (text : Bytes) : Option (Bytes × Bytes × Bytes) :=
  -- a server name, or a malformed prefix
  let server := some (bounded ircNickSz text, [], [])
  match find [33] text, find [64] text with
  | some bang, some sign =>
    if bang < sign then do
      let nick ← ircFieldSet ircNickSz (text.take bang)
      let user ← ircFieldSet ircNickSz ((text.drop (bang + 1)).take (sign - bang - 1))
      let host ← ircFieldSet ircHostSz (text.drop (sign + 1))
      some (nick, user, host)
    else server
  | _, _ => server

def skipSpaces (pos : Bytes) : Bytes := pos.dropWhile (· = 32)

/-- The optional prefix of a line, and where the command starts. -/
def parseOrigin (line : Bytes) : Option (Parsed × Bytes) :=
  match line with
  | [] => some ({}, [])
  | c :: pos =>
    if c = 58 then do
      let stop ← find [32] pos
      let text ← ircFieldSet ircPrefixSz (pos.take stop)
      let (nick, user, host) ← ircParsePrefix text
      some ({ prefixText := text, nick, user, host }, skipSpaces (pos.drop (stop + 1)))
    else some ({}, line)

def parseCommand (out : Parsed) (pos : Bytes) : Option (Parsed × Option Bytes) :=
  match find [32] pos with
  | none => do
      let command ← ircFieldSet commandSz pos
      some ({ out with command }, none)
  | some stop => do
      let command ← ircFieldSet commandSz (pos.take stop)
      some ({ out with command }, some (skipSpaces (pos.drop (stop + 1))))

def parseParams (out : Parsed) (pos : Bytes) : Parsed :=
  match find [32, 58] pos with
  | some trail =>
    { out with
      params := bounded ircLineSz (pos.take trail)
      trailing := bounded ircLineSz (pos.drop (trail + 2))
      hasTrailing := true }
  | none =>
    match pos with
    | 58 :: text => { out with trailing := bounded ircLineSz text, hasTrailing := true }
    | _ => { out with params := bounded ircLineSz pos }

def parseRest : Parsed × Option Bytes → Parsed
  | (out, none) => out
  | (out, some pos) => parseParams out pos

def ircParseLine (line : Bytes) : Option Parsed := do
  let (out, pos) ← parseOrigin line
  (parseCommand out pos).map parseRest

/-! ## Messages and their rendering -/

inductive Origin
  | peer (nick user host : Bytes)
  | server (name : Bytes)

def Origin.text : Origin → Bytes
  | .peer nick user host => nick ++ 33 :: (user ++ 64 :: host)
  | .server name => name

/-- Where the nick ends at the first `!`, and the user at the first `@`; a server name has not
both. -/
def Origin.WellFormed : Origin → Prop
  | .peer nick user host =>
    (33 ∉ nick ∧ 64 ∉ nick ∧ 64 ∉ user) ∧ (32 ∉ nick ∧ 32 ∉ user ∧ 32 ∉ host) ∧
      nick.length < ircNickSz ∧ user.length < ircNickSz ∧ host.length < ircHostSz
  | .server name => (33 ∉ name ∨ 64 ∉ name) ∧ 32 ∉ name ∧ name.length < ircPrefixSz

structure Message where
  origin : Option Origin
  command : Bytes
  middles : List Bytes
  trailing : Option Bytes

structure Message.WellFormed (m : Message) : Prop where
  origin : ∀ o ∈ m.origin, o.WellFormed
  named : m.command ≠ []
  word : 32 ∉ m.command
  fits : m.command.length < commandSz
  /-- Without a prefix the command is the first thing of the line. -/
  unmarked : m.origin = none → m.command.head? ≠ some 58
  middles : ∀ p ∈ m.middles, p ≠ [] ∧ 32 ∉ p ∧ p.head? ≠ some 58
  params : (intercalate [32] m.middles).length < ircLineSz
  trailing : ∀ t ∈ m.trailing, t.length < ircLineSz

/-- `{ param}[ :trailing]`. -/
def renderParams (middles : List Bytes) (trailing : Option Bytes) : Bytes :=
  middles.flatMap (32 :: ·) ++ (trailing.elim [] (32 :: 58 :: ·))

/-- `[:prefix ]command{ param}[ :trailing]`. -/
def render (m : Message) : Bytes :=
  (m.origin.elim [] fun o => 58 :: (o.text ++ [32])) ++
    (m.command ++ renderParams m.middles m.trailing)

/-- What the parser makes of the origin: a server's name stands in for a nick, as far as it
fits. -/
def Origin.parsed : Origin → Parsed
  | .peer nick user host =>
    { prefixText := (Origin.peer nick user host).text, nick, user, host }
  | .server name => { prefixText := name, nick := bounded ircNickSz name }

def parsedOrigin (origin : Option Origin) : Parsed := origin.elim {} Origin.parsed

@[simp] def Message.parsed (m : Message) : Parsed :=
  { parsedOrigin m.origin with
    command := m.command
    params := intercalate [32] m.middles
    trailing := m.trailing.getD []
    hasTrailing := m.trailing.isSome }

/-! ## The parts of a line -/

variable {size : ℕ} {src line command p rest params : Bytes} {out : Parsed} {middles : List Bytes}

theorem ircFieldSet_of_lt (fits : src.length < size) : ircFieldSet size src = some src := by
  rw [ircFieldSet, if_neg (not_le.mpr fits)]

theorem ircFieldSet_of_le (long : size ≤ src.length) : ircFieldSet size src = none := by
  rw [ircFieldSet, if_pos long]

theorem skipSpaces_of_head {pos : Bytes} (head : pos.head? ≠ some 32) : skipSpaces pos = pos := by
  cases pos with
  | nil => rfl
  | cons c pos =>
    have other : c ≠ 32 := fun same => head (same ▸ rfl)
    rw [skipSpaces, dropWhile_cons_of_neg (by simpa using other)]

theorem find_byte {c : UInt8} {front : Bytes} (absent : c ∉ front) :
    find [c] (front ++ c :: rest) = some front.length :=
  find_first absent

theorem ircParsePrefix_user {nick user host : Bytes} (bang : 33 ∉ nick) (before : 64 ∉ nick)
    (sign : 64 ∉ user) : ircParsePrefix (nick ++ 33 :: (user ++ 64 :: host)) = (do
      let nick ← ircFieldSet ircNickSz nick
      let user ← ircFieldSet ircNickSz user
      let host ← ircFieldSet ircHostSz host
      some (nick, user, host)) := by
  have front : nick ++ 33 :: (user ++ 64 :: host) = (nick ++ 33 :: user) ++ 64 :: host := by simp
  have first : find [33] (nick ++ 33 :: (user ++ 64 :: host)) = some nick.length :=
    find_byte bang
  have second : find [64] (nick ++ 33 :: (user ++ 64 :: host)) =
      some (nick ++ 33 :: user).length := by
    rw [front]
    apply find_byte
    simp only [mem_append, mem_cons, not_or]
    exact ⟨before, by decide, sign⟩
  have nickText : (nick ++ 33 :: (user ++ 64 :: host)).take nick.length = nick := take_left
  have userText : ((nick ++ 33 :: (user ++ 64 :: host)).drop (nick.length + 1)).take
      ((nick ++ 33 :: user).length - nick.length - 1) = user := by
    have size : (nick ++ 33 :: user).length - nick.length - 1 = user.length := by
      simp only [length_append, length_cons]
      omega
    rw [size, ← drop_drop, drop_left, drop_one, tail_cons, take_left]
  have hostText : (nick ++ 33 :: (user ++ 64 :: host)).drop ((nick ++ 33 :: user).length + 1) =
      host := by
    rw [front, ← drop_drop, drop_left]
    rfl
  have order : nick.length < (nick ++ 33 :: user).length := by
    simp only [length_append, length_cons]
    omega
  simp only [ircParsePrefix, first, second, order, ↓reduceIte, nickText, userText, hostText]

theorem ircParsePrefix_server {name : Bytes} (plain : 33 ∉ name ∨ 64 ∉ name) :
    ircParsePrefix name = some (bounded ircNickSz name, [], []) := by
  rcases plain with bang | sign
  · simp only [ircParsePrefix, find_none mem_cons_self bang]
  · simp only [ircParsePrefix, find_none mem_cons_self sign]
    split
    · next none => cases none
    · rfl

variable {text : Bytes}

theorem parseOrigin_marked (word : 32 ∉ text) :
    parseOrigin (58 :: (text ++ 32 :: rest)) = (do
      let text ← ircFieldSet ircPrefixSz text
      let (nick, user, host) ← ircParsePrefix text
      some ({ prefixText := text, nick, user, host }, skipSpaces rest)) := by
  simp only [parseOrigin, ↓reduceIte, find_byte word, Option.bind_eq_bind, Option.bind_some,
    take_left, drop_length_add_append, drop_one, tail_cons]

theorem parseOrigin_unmarked (unmarked : line.head? ≠ some 58) :
    parseOrigin line = some ({}, line) := by
  cases line with
  | nil => rfl
  | cons c line =>
    have other : c ≠ 58 := fun same => unmarked (same ▸ rfl)
    simp only [parseOrigin, other, ↓reduceIte]

theorem parseOrigin_text {o : Origin} (formed : o.WellFormed) (rest : Bytes) :
    parseOrigin (58 :: (o.text ++ 32 :: rest)) = some (o.parsed, skipSpaces rest) := by
  cases o with
  | peer nick user host =>
    obtain ⟨⟨bang, before, sign⟩, ⟨nickWord, userWord, hostWord⟩, nickFits, userFits, hostFits⟩ :=
      formed
    have word : 32 ∉ (Origin.peer nick user host).text := by
      simp only [Origin.text, mem_append, mem_cons, not_or]
      exact ⟨nickWord, by decide, userWord, by decide, hostWord⟩
    have size : (Origin.peer nick user host).text.length < ircPrefixSz := by
      simp only [Origin.text, length_append, length_cons, ircNickSz, ircHostSz,
        ircPrefixSz, ircMfaSz, ircUserhostSz] at *
      omega
    rw [parseOrigin_marked word, ircFieldSet_of_lt size]
    simp only [Origin.text, Option.bind_eq_bind, Option.bind_some, Origin.parsed,
      ircParsePrefix_user bang before sign, ircFieldSet_of_lt nickFits,
      ircFieldSet_of_lt userFits, ircFieldSet_of_lt hostFits]
  | server name =>
    obtain ⟨plain, word, size⟩ := formed
    rw [Origin.text, parseOrigin_marked word, ircFieldSet_of_lt size]
    simp only [Option.bind_eq_bind, Option.bind_some, ircParsePrefix_server plain, Origin.parsed]

theorem parseCommand_last (word : 32 ∉ command) :
    parseCommand out command = (do
      let command ← ircFieldSet commandSz command
      some ({ out with command }, none)) := by
  simp only [parseCommand, find_none mem_cons_self word]

theorem parseCommand_more (word : 32 ∉ command) :
    parseCommand out (command ++ 32 :: rest) = (do
      let command ← ircFieldSet commandSz command
      some ({ out with command }, some (skipSpaces rest))) := by
  simp only [parseCommand, find_byte word, take_left, drop_length_add_append, drop_one, tail_cons]

/-! ## Parameters -/

theorem intercalate_cons (middles : List Bytes) :
    intercalate [32] (p :: middles) = p ++ middles.flatMap (32 :: ·) := by
  induction middles generalizing p with
  | nil => simp [intercalate]
  | cons q middles ih =>
    rw [intercalate_cons_cons, ih, flatMap_cons, append_assoc]
    rfl

theorem find_trailing (word : 32 ∉ p)
    (others : ∀ q ∈ middles, q ≠ [] ∧ 32 ∉ q ∧ q.head? ≠ some 58) (text : Bytes) :
    find [32, 58] (p ++ (middles.flatMap (32 :: ·) ++ text)) =
      (find [32, 58] text).map ((p ++ middles.flatMap (32 :: ·)).length + ·) := by
  induction middles generalizing p with
  | nil => simpa using find_append word
  | cons q middles ih =>
    obtain ⟨nonempty, qword, head⟩ := others q mem_cons_self
    have next := ih qword fun q mem => others q (.tail _ mem)
    have other : ¬[32, 58] <+: 32 :: (q ++ (middles.flatMap (32 :: ·) ++ text)) := by
      cases q with
      | nil => exact absurd rfl nonempty
      | cons c q =>
        rintro ⟨rest, same⟩
        simp only [cons_append, cons.injEq] at same
        exact head (congrArg some same.2.1.symm)
    rw [flatMap_cons, append_assoc, cons_append, find_append word,
      find_later other, next, Option.map_map, Option.map_map]
    congr 1
    funext n
    simp only [Function.comp_apply, length_append, length_cons]
    omega

theorem find_middles (words : ∀ q ∈ middles, q ≠ [] ∧ 32 ∉ q ∧ q.head? ≠ some 58) (word : 32 ∉ p) :
    find [32, 58] (p ++ middles.flatMap (32 :: ·)) = none := by
  have found := find_trailing word words []
  rwa [append_nil] at found

theorem parseParams_trailing {text : Bytes} (fits : params.length < ircLineSz)
    (textFits : text.length < ircLineSz)
    (found : find [32, 58] (params ++ 32 :: 58 :: text) = some params.length) :
    parseParams out (params ++ 32 :: 58 :: text) =
      { out with params, trailing := text, hasTrailing := true } := by
  simp only [parseParams, found, take_left, drop_length_add_append, drop_succ_cons, drop_zero,
    bounded_of_lt fits, bounded_of_lt textFits]

theorem parseParams_lone (fits : text.length < ircLineSz)
    (unmarked : ¬[32, 58] <:+: text) :
    parseParams out (58 :: text) = { out with trailing := text, hasTrailing := true } := by
  have other : ¬[32, 58] <+: 58 :: text := by
    rintro ⟨rest, same⟩
    exact absurd (cons.inj same).1 (by decide)
  have found : find [32, 58] (58 :: text) = none := by
    rw [find_later other, find_none_of_not_infix unmarked]
    rfl
  simp only [parseParams, found, bounded_of_lt fits]

theorem parseParams_middles (fits : params.length < ircLineSz)
    (head : params.head? ≠ some 58) (found : find [32, 58] params = none) :
    parseParams out params = { out with params } := by
  simp only [parseParams, found]
  split
  · exact absurd rfl head
  · rw [bounded_of_lt fits]

/-- Whether the trailing text is found where it starts: after middle parameters always, alone
only if it does not bring the mark itself. -/
def Message.Clear (m : Message) : Prop :=
  m.middles ≠ [] ∨ ∀ t ∈ m.trailing, ¬[32, 58] <:+: t

theorem parsedOrigin_rest (origin : Option Origin) :
    (parsedOrigin origin).params = [] ∧ (parsedOrigin origin).trailing = [] ∧
      (parsedOrigin origin).hasTrailing = false := by
  rcases origin with _ | _ | _ <;> exact ⟨rfl, rfl, rfl⟩

variable {m : Message}

theorem parseParams_render (formed : m.WellFormed) (clear : m.Clear) {rest : Bytes}
    (more : renderParams m.middles m.trailing = 32 :: rest) :
    skipSpaces rest = rest ∧
      parseParams { parsedOrigin m.origin with command := m.command } rest = m.parsed := by
  obtain ⟨origin, command, middles, trailing⟩ := m
  obtain ⟨noParams, noTrailing, unset⟩ := parsedOrigin_rest origin
  have params := formed.params
  cases middles with
  | nil =>
    cases trailing with
    | none => cases more
    | some text =>
      obtain rfl := (cons.inj more).2
      have unmarked := clear.resolve_left (fun other => other rfl) text rfl
      refine ⟨rfl, ?_⟩
      rw [parseParams_lone (formed.trailing text rfl) unmarked]
      simp [noParams, intercalate]
  | cons p middles =>
    obtain ⟨nonempty, word, head⟩ := formed.middles p mem_cons_self
    have others := fun q mem => formed.middles q (.tail _ mem)
    obtain ⟨c, p, rfl⟩ := exists_cons_of_ne_nil nonempty
    rw [intercalate_cons] at params
    have spaced : ((c :: p) ++ middles.flatMap (32 :: ·)).head? ≠ some 58 := head
    cases trailing with
    | none =>
      obtain rfl : rest = (c :: p) ++ middles.flatMap (32 :: ·) := by
        simpa [renderParams] using more.symm
      refine ⟨skipSpaces_of_head fun space => ?_, ?_⟩
      · exact word (Option.some.inj space ▸ mem_cons_self)
      · rw [parseParams_middles params spaced (find_middles others word)]
        simp [noTrailing, unset, intercalate_cons]
    | some text =>
      obtain rfl : rest = ((c :: p) ++ middles.flatMap (32 :: ·)) ++ 32 :: 58 :: text := by
        simpa [renderParams] using more.symm
      have here : find [32, 58] (32 :: 58 :: text) = some 0 := find_here ⟨text, rfl⟩
      have found := find_trailing word others (32 :: 58 :: text)
      rw [here, Option.map_some, Nat.add_zero, ← append_assoc] at found
      refine ⟨skipSpaces_of_head fun space => ?_, ?_⟩
      · exact word (Option.some.inj space ▸ mem_cons_self)
      · rw [parseParams_trailing params (formed.trailing text rfl) found]
        simp [intercalate_cons]

theorem renderParams_cases (middles : List Bytes) (trailing : Option Bytes) :
    (middles = [] ∧ trailing = none) ∨ ∃ rest, renderParams middles trailing = 32 :: rest := by
  rcases middles with _ | ⟨p, middles⟩
  · rcases trailing with _ | text
    · exact .inl ⟨rfl, rfl⟩
    · exact .inr ⟨_, rfl⟩
  · exact .inr ⟨_, rfl⟩

theorem parseCommand_render (formed : m.WellFormed) (clear : m.Clear) :
    (parseCommand (parsedOrigin m.origin)
      (m.command ++ renderParams m.middles m.trailing)).map parseRest = some m.parsed := by
  rcases renderParams_cases m.middles m.trailing with ⟨middles, trailing⟩ | ⟨rest, more⟩
  · obtain ⟨noParams, noTrailing, unset⟩ := parsedOrigin_rest m.origin
    rw [middles, trailing]
    simp [renderParams, parseCommand_last formed.word, ircFieldSet_of_lt formed.fits, parseRest,
      middles, trailing, noParams, noTrailing, unset, intercalate]
  · obtain ⟨start, parsed⟩ := parseParams_render formed clear more
    rw [more, parseCommand_more formed.word, ircFieldSet_of_lt formed.fits]
    simp only [Option.bind_eq_bind, Option.bind_some, Option.map_some, parseRest, start, parsed]

theorem parseOrigin_render (formed : m.WellFormed) :
    parseOrigin (render m) =
      some (parsedOrigin m.origin, m.command ++ renderParams m.middles m.trailing) := by
  obtain ⟨c, word, named⟩ := exists_cons_of_ne_nil formed.named
  rcases origin : m.origin with _ | o
  · have unmarked : (m.command ++ renderParams m.middles m.trailing).head? ≠ some 58 := by
      have first := formed.unmarked origin
      rwa [named] at first ⊢
    simpa [render, origin, parsedOrigin] using parseOrigin_unmarked unmarked
  · have start : skipSpaces (m.command ++ renderParams m.middles m.trailing) =
        m.command ++ renderParams m.middles m.trailing := by
      apply skipSpaces_of_head
      rw [named]
      intro space
      exact formed.word (named ▸ Option.some.inj space ▸ mem_cons_self)
    have parsed := parseOrigin_text (formed.origin o origin)
      (m.command ++ renderParams m.middles m.trailing)
    simpa [render, origin, parsedOrigin, start] using parsed

/-! ## Fields that do not fit -/

def LongWord (text : Bytes) : Prop :=
  ∃ word rest, text = word ++ rest ∧ 32 ∉ word ∧ (rest = [] ∨ rest.head? = some 32) ∧
    commandSz ≤ word.length

def LongIdentity (text : Bytes) : Prop :=
  ∃ nick user host, text = nick ++ 33 :: (user ++ 64 :: host) ∧ 33 ∉ nick ∧ 64 ∉ nick ∧
    64 ∉ user ∧
    (ircNickSz ≤ nick.length ∨ ircNickSz ≤ user.length ∨ ircHostSz ≤ host.length)

inductive OverLong : Bytes → Prop
  | wide {text : Bytes} (rest : Bytes) (word : 32 ∉ text) (long : ircPrefixSz ≤ text.length) :
      OverLong (58 :: (text ++ 32 :: rest))
  | identity {text : Bytes} (rest : Bytes) (word : 32 ∉ text) (long : LongIdentity text) :
      OverLong (58 :: (text ++ 32 :: rest))
  | command {text rest : Bytes} (word : 32 ∉ text) (long : LongWord (skipSpaces rest)) :
      OverLong (58 :: (text ++ 32 :: rest))
  | first {line : Bytes} (unmarked : line.head? ≠ some 58) (long : LongWord line) : OverLong line

theorem parseCommand_long (long : LongWord text) : parseCommand out text = none := by
  obtain ⟨word, rest, rfl, alone, ends, size⟩ := long
  rcases rest with _ | ⟨c, rest⟩
  · rw [append_nil, parseCommand_last alone, ircFieldSet_of_le size]
    rfl
  · obtain rfl : c = 32 := by simpa using ends
    rw [parseCommand_more alone, ircFieldSet_of_le size]
    rfl

theorem ircParsePrefix_long (long : LongIdentity text) :
    ircParsePrefix text = none := by
  obtain ⟨nick, user, host, rfl, bang, before, sign, size⟩ := long
  rw [ircParsePrefix_user bang before sign]
  rcases size with size | size | size
  · rw [ircFieldSet_of_le size]
    rfl
  · rw [ircFieldSet_of_le size]
    cases ircFieldSet ircNickSz nick
    · rfl
    · rfl
  · rw [ircFieldSet_of_le size]
    cases ircFieldSet ircNickSz nick
    · rfl
    · cases ircFieldSet ircNickSz user
      · rfl
      · rfl

theorem ircParseLine_long (long : OverLong line) : ircParseLine line = none := by
  cases long with
  | wide rest word long =>
    rw [ircParseLine, parseOrigin_marked word, ircFieldSet_of_le long]
    rfl
  | @identity text rest word long =>
    rw [ircParseLine, parseOrigin_marked word]
    by_cases fits : text.length < ircPrefixSz
    · simp [ircFieldSet_of_lt fits, ircParsePrefix_long long]
    · rw [ircFieldSet_of_le (not_lt.mp fits)]
      rfl
  | @command text rest word long =>
    rw [ircParseLine, parseOrigin_marked word]
    cases ircFieldSet ircPrefixSz text with
    | none => rfl
    | some text =>
      rcases parts : ircParsePrefix text with _ | ⟨nick, user, host⟩
      · simp [parts]
      · simp [parts, parseCommand_long long]
  | first unmarked long =>
    rw [ircParseLine, parseOrigin_unmarked unmarked]
    simp [parseCommand_long long]

theorem parseParams_marked {out : Parsed} (marked : [32, 58] <:+: text) :
    (parseParams out (58 :: text)).params ≠ [] := by
  have other : ¬[32, 58] <+: 58 :: text := by
    rintro ⟨rest, same⟩
    exact absurd (cons.inj same).1 (by decide)
  obtain ⟨n, found⟩ := Option.ne_none_iff_exists'.mp ( find_of_infix marked)
  simp [parseParams, find_later other, found, bounded, ircLineSz]

theorem clear_of_parse (formed : m.WellFormed)
    (read : ircParseLine (render m) = some m.parsed) : m.Clear := by
  by_cases middles : m.middles = []
  · refine .inr fun text trailing marked => ?_
    have rest : renderParams m.middles m.trailing = 32 :: 58 :: text := by
      simp [renderParams, middles, Option.mem_def.mp trailing]
    rw [ircParseLine, parseOrigin_render formed, rest] at read
    simp only [Option.bind_eq_bind, Option.bind_some, parseCommand_more formed.word,
      ircFieldSet_of_lt formed.fits, Option.map_some, parseRest, Option.some.injEq] at read
    have params := congrArg Parsed.params read
    simp only [Message.parsed, middles] at params
    exact parseParams_marked marked params
  · exact .inl middles

/-- A message is read back from its rendering, unless it has no middle parameter and its
trailing text brings the mark of one; no identity or command is ever shortened. -/
theorem parse_inverts_render_iff (m : Message) (line : Bytes) :
    (m.WellFormed → (ircParseLine (render m) = some m.parsed ↔ m.Clear)) ∧
      (OverLong line → ircParseLine line = none) := by
  refine ⟨fun formed => ⟨clear_of_parse formed, fun clear => ?_⟩, ircParseLine_long⟩
  have origin := parseOrigin_render formed
  have command := parseCommand_render formed clear
  rw [ircParseLine, origin]
  exact command

def spoken : Message where
  origin := some (.peer (ascii "n") (ascii "u") (ascii "h"))
  command := ascii "PRIVMSG"
  middles := [ascii "#c"]
  trailing := some (ascii "a :b")

theorem parse_spoken :
    ircParseLine (ascii ":n!u@h PRIVMSG #c :a :b") = some
      { prefixText := ascii "n!u@h", nick := ascii "n", user := ascii "u", host := ascii "h"
        command := ascii "PRIVMSG", params := ascii "#c", trailing := ascii "a :b"
        hasTrailing := true } ∧
      ircParseLine (replicate 32 65) = none := by
  have formed : spoken.WellFormed := by
    refine ⟨?_, by decide, by decide, by decide, (nomatch ·), by decide, by decide, ?_⟩
    · intro o same
      cases same
      exact ⟨by decide, by decide, by decide⟩
    · intro t same
      cases same
      decide
  have long : OverLong (replicate 32 65) := by
    refine .first (by decide) ⟨replicate 32 65, [], rfl, by decide, .inl rfl, by decide⟩
  have both := parse_inverts_render_iff spoken (replicate 32 65)
  exact ⟨(both.1 formed).mpr (.inl (by decide)), both.2 long⟩

def marked : Message where
  origin := none
  command := ascii "PING"
  middles := []
  trailing := some (ascii "a :b")

theorem marked_trailing_split :
    marked.WellFormed ∧
      ircParseLine (render marked) = some
        { command := ascii "PING", params := ascii ":a", trailing := ascii "b"
          hasTrailing := true } ∧
      ircParseLine (render marked) ≠ some marked.parsed := by
  refine ⟨⟨fun _ => (nomatch ·), by decide, by decide, by decide, fun _ => by decide, by decide,
    by decide, fun t same => ?_⟩, by decide, by decide⟩
  cases same
  decide

end BotManager.IrcParse
