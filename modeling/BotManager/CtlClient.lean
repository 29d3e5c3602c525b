import BotManager.CText

/-! A client of the control socket: the reassembly of its input into lines, the dispatch of a
line, and the NUL that ends a response. The commands and the socket are a parameter that keeps a
state of its own. -/

namespace BotManager.CtlClient
open CText

section Texts

/-- `BCTL_INPUT_SZ`, which is `METHOD_TEXT_SZ`. -/
def inputSz : ℕ := 2048

def methodTextSz : ℕ := 2048
def usernsUserSz : ℕ := 31
def cmdNameSz : ℕ := 32
def clamDebug5 : ℤ := 7
def usernsOwnerUser : Bytes := ascii "@owner"

def newline : UInt8 := 10
def carriageReturn : UInt8 := 13
def slash : UInt8 := 47

def isBlank (c : UInt8) : Bool := c = 32 || c = 9

def isTrailing (c : UInt8) : Bool := c = newline || c = carriageReturn || isBlank c

def stripped (line : Bytes) : Bytes :=
  (((line.takeWhile (· ≠ 0)).dropWhile isBlank).reverse.dropWhile isTrailing).reverse

def isCommand (name line : Bytes) : Bool :=
  strncasecmp name.length line name &&
    match line.drop name.length with
    | [] => true
    | c :: _ => c = 32 || c = newline

def argsOf (name line : Bytes) : Bytes := (line.drop name.length).dropWhile isBlank

def lineBuild (text : Bytes) : Bytes :=
  let kept := text.take methodTextSz
  if kept = [] then []
  else kept.map (fun c => if c = carriageReturn ∨ c = newline then 32 else c) ++ [newline]

def subscription (args : Bytes) : ℤ × Option Bytes :=
  match strtoll args with
  | some (val, rest) =>
    if 0 ≤ val ∧ val ≤ 7 then
      (val, if rest.dropWhile isBlank = [] then none else some (rest.dropWhile isBlank))
    else (clamDebug5, none)
  | none => (clamDebug5, none)

end Texts

section Sessions

inductive Mode
  | command
  | subscribe
  deriving DecidableEq

/-- What the reader does that a client can tell: a line given to `bctl_dispatch`, a refusal of a
line that is too long, and a NUL that was written. -/
inductive Event
  | dispatched (line : Bytes)
  | refused
  | delimiter
  deriving DecidableEq

/-- The rest of the daemon: `cmd_dispatch_as` with everything a command does and writes, a write
to the socket with whether it succeeds, and whether a pattern compiles. -/
structure World (ω : Type*) where
  command : ω → (name args user : Bytes) → ω × Bool
  write : ω → Bytes → ω × Bool
  regcomp : Bytes → Bool

structure Session (ω : Type*) where
  mode : Mode
  asUser : Bytes
  closing : Bool
  clamSev : ℤ
  clamRegex : Option Bytes
  world : ω
  trace : List Event

variable {ω : Type*} (W : World ω) (s : Session ω)

def log (e : Event) : Session ω := { s with trace := s.trace ++ [e] }

def clientWrite (w : ω) (text : Bytes) : ω × Bool :=
  if lineBuild text = [] then (w, true) else W.write w (lineBuild text)

def handleSubscribe (args : Bytes) : Session ω :=
  { s with
    mode := .subscribe
    clamSev := (subscription args).1
    clamRegex :=
      match (subscription args).2 with
      | some pattern => if W.regcomp pattern then some pattern else s.clamRegex
      | none => s.clamRegex }

def handleAs (args : Bytes) : Session ω :=
  let user := if args = [] then usernsOwnerUser else bounded usernsUserSz args
  { s with
    asUser := user
    world := (clientWrite W s.world (ascii "now dispatching as: " ++ user)).1 }

def runCommand (line : Bytes) : Session ω :=
  let line := if line.head? = some slash then line.tail else line
  let name := line.takeWhile (!isBlank ·)
  let args := (line.dropWhile (!isBlank ·)).dropWhile isBlank
  let user := if s.asUser = [] then usernsOwnerUser else s.asUser
  let ran := W.command s.world name args user
  { s with
    world :=
      if ran.2 then ran.1
      else (clientWrite W ran.1
        (ascii "unknown command: " ++ bounded cmdNameSz name ++ ascii " (try help)")).1 }

def dispatch (line : Bytes) : Session ω :=
  if stripped line = [] then s
  else if isCommand (ascii "SUBSCRIBE") (stripped line) then
    handleSubscribe W s (argsOf (ascii "SUBSCRIBE") (stripped line))
  else if isCommand (ascii "AS") (stripped line) then
    handleAs W s (argsOf (ascii "AS") (stripped line))
  else runCommand W s (stripped line)

def clientDelimit : Session ω :=
  if s.mode ≠ .command ∨ s.closing = true then s
  else
    let wrote := W.write s.world [0]
    if wrote.2 then log { s with world := wrote.1 } .delimiter
    else { s with world := wrote.1, closing := true }

def tooLong : Bytes := ascii "command too long (max " ++ natText (inputSz - 1) ++ ascii " bytes)"

def clientRefuse : Session ω :=
  if s.mode ≠ .command then s
  else
    let wrote := clientWrite W s.world tooLong
    clientDelimit W
      (log { s with world := wrote.1, closing := s.closing || !wrote.2 } .refused)

def clientLine (line : Bytes) : Session ω :=
  if s.mode ≠ .command then s
  else clientDelimit W (dispatch W (log s (.dispatched line)) line)

end Sessions

section Input

structure Client (ω : Type*) extends Session ω where
  inBuf : Bytes
  inOverlong : Bool

variable {ω : Type*} (W : World ω)

def connected (w : ω) : Client ω where
  mode := .command
  asUser := usernsOwnerUser
  closing := false
  clamSev := 0
  clamRegex := none
  world := w
  trace := []
  inBuf := []
  inOverlong := false

def firstLine (buf : Bytes) : Option (Bytes × Bytes) :=
  match buf.dropWhile (· ≠ newline) with
  | [] => none
  | _ :: rest => some (buf.takeWhile (· ≠ newline), rest)

def takeLine (c : Client ω) (line rest : Bytes) : Client ω :=
  if c.inOverlong then { c with inOverlong := false, inBuf := rest }
  else { clientLine W c.toSession line with inBuf := rest, inOverlong := false }

/-- The loop of the drain. Every turn takes at least one byte, so that a turn for every byte of
the buffer is enough. -/
def drainLines : ℕ → Client ω → Client ω
  | 0, c => c
  | turns + 1, c =>
    match firstLine c.inBuf with
    | none => c
    | some (line, rest) =>
      if (takeLine W c line rest).closing then takeLine W c line rest
      else drainLines turns (takeLine W c line rest)

def drainFull (c : Client ω) : Client ω :=
  if c.inBuf.length = inputSz - 1 then
    { (if c.inOverlong then c.toSession else clientRefuse W c.toSession) with
      inBuf := [], inOverlong := true }
  else c

def clientDrain (c : Client ω) : Client ω :=
  if (drainLines W c.inBuf.length c).closing then drainLines W c.inBuf.length c
  else drainFull W (drainLines W c.inBuf.length c)

inductive Read
  | bytes (chunk : Bytes)
  | again
  | ended
  deriving DecidableEq

def clientInput (c : Client ω) : Read → Client ω
  | .bytes chunk => clientDrain W { c with inBuf := c.inBuf ++ chunk }
  | .again => c
  | .ended => { c with closing := true }

end Input

section Streams

variable {ω : Type*} (W : World ω)

/-- A read of the stream returns at least one byte and no more than the buffer has room for. A
client that is closing is not read any more. -/
def Fits (c : Client ω) : Read → Prop
  | .bytes chunk => chunk ≠ [] ∧ chunk.length ≤ inputSz - c.inBuf.length - 1
  | .again => True
  | .ended => False

instance (c : Client ω) (r : Read) : Decidable (Fits c r) := by
  unfold Fits
  split <;> infer_instance

def Read.taken : Read → Bytes
  | .bytes chunk => chunk
  | _ => []

def readAll : Client ω → List Read → Option (Client ω)
  | c, [] => some c
  | c, r :: reads =>
    if c.closing = false ∧ Fits c r then readAll (clientInput W c r) reads else none

/-- The reads split the stream, up to where the client was given up. -/
def Splits (c : Client ω) (stream : Bytes) (reads : List Read) (d : Client ω) : Prop :=
  readAll W c reads = some d ∧
    (reads.flatMap Read.taken = stream ∨
      d.closing = true ∧ reads.flatMap Read.taken <+: stream)

end Streams

end BotManager.CtlClient
