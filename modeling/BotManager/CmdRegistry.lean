import BotManager.StepRun
import BotManager.CText
import BotManager.Forest

/-! The command registry of core/cmd.c: definitions in a global list and in a tree of
subcommands, registered one at a time and removed by path or by the object that owns them.
A definition is known by its address; an allocation returns an address that is not in use.
Names are compared as they are declared and stored cut to the size of their field. -/

namespace BotManager.CmdRegistry
open CText StepRun Forest

def cmdNameSz : ℕ := 32
def cmdUsageSz : ℕ := 128
def cmdMaxArgs : ℕ := 8
def cmdArgSz : ℕ := 256
def cmdKindFilterMax : ℕ := 8
def cmdUnregMaxSubtree : ℕ := 64
def cmdFeatVoice : UInt32 := 1
def methodTAny : UInt32 := 4294967295
def slash : UInt8 := 47

structure ArgDesc where
  optional : Bool
  rest : Bool
  custom : Bool
  validator : Bool
  maxlen : ℕ

structure NlHint where
  hasWhen : Bool
  hasForm : Bool
  exampleCount : ℕ
  hasExamples : Bool
  slotCount : ℕ

structure Feat where
  features : UInt32
  voiceFraming : Bytes

structure Decl where
  name : Bytes
  abbr : Bytes
  group : Bytes
  hasCb : Bool
  methods : UInt32
  parentPath : Bytes
  argDesc : List ArgDesc
  kindFilter : Option (List Bytes)
  nl : Option NlHint
  feat : Option Feat

section Checks

def regValidateDescs (seenOptional : Bool) : List ArgDesc → Bool
  | [] => true
  | a :: rest =>
    if !a.optional && seenOptional then false
    else if a.rest && !rest.isEmpty then false
    else if a.custom && !a.validator then false
    else if cmdArgSz ≤ a.maxlen then false
    else regValidateDescs (a.optional || seenOptional) rest

def regValidateArgs (args : List ArgDesc) : Bool :=
  if cmdMaxArgs < args.length then false else regValidateDescs false args

def nlIsValid (nl : NlHint) : Bool :=
  if !nl.hasWhen || !nl.hasForm then false
  else if nl.exampleCount < 2 || !nl.hasExamples then false
  else if cmdMaxArgs < nl.slotCount then false
  else true

def featIsValid (feat : Feat) : Bool :=
  if feat.features &&& ~~~cmdFeatVoice ≠ 0 then false
  else if feat.features &&& cmdFeatVoice ≠ 0 && feat.voiceFraming = [] then false
  else true

def declIsValid (decl : Decl) : Bool :=
  if decl.name = [] || !decl.hasCb then false
  else if decl.group = [] then false
  else if !regValidateArgs decl.argDesc then false
  else if !decl.nl.all nlIsValid then false
  else decl.feat.all featIsValid

end Checks

structure Cmd where
  name : Bytes
  abbr : Bytes
  methods : UInt32
  kindFilter : Option (List Bytes)
  ownerPc : ℕ
  nameFits : name.length < cmdNameSz
  abbrevFits : abbr.length < cmdNameSz

section Names

/-- No filter stands for every kind. -/
def kindFiltersOverlap : Option (List Bytes) → Option (List Bytes) → Bool
  | some a, some b =>
    (a.take cmdKindFilterMax).any fun x => (b.take cmdKindFilterMax).any fun y => strcasecmp x y
  | _, _ => true

def nameHit (c : Cmd) (str : Bytes) : Bool := strncasecmp cmdNameSz c.name str

def abbrevHit (c : Cmd) (str : Bytes) : Bool := c.abbr ≠ [] && strncasecmp cmdNameSz c.abbr str

variable (ns : Nodes ℕ Cmd)

/-- A sibling in the same kinds goes by this name. -/
def defNameCollidesForKind (str : Bytes) (parent : Option ℕ)
    (kindFilter : Option (List Bytes)) : Bool :=
  ns.any fun d => d.parent = parent && (nameHit d.data str || abbrevHit d.data str) &&
    kindFiltersOverlap d.data.kindFilter kindFilter

def regCheckCollisions (name abbr : Bytes) (parent : Option ℕ)
    (kindFilter : Option (List Bytes)) : Bool :=
  if defNameCollidesForKind ns name parent kindFilter then false
  else if abbr ≠ [] && defNameCollidesForKind ns abbr parent kindFilter then false
  else true

/-- Names go before abbreviations, and root commands before others. -/
def defFind (name : Bytes) : Option (Node ℕ Cmd) :=
  (ns.find? fun d => nameHit d.data name && d.parent = none).or <|
    (ns.find? fun d => nameHit d.data name).or <|
      (ns.find? fun d => abbrevHit d.data name && d.parent = none).or <|
        ns.find? fun d => abbrevHit d.data name

def defFindChild (parent : Node ℕ Cmd) (name : Bytes) : Option (Node ℕ Cmd) :=
  let chain := parent.children.filterMap (lookup ns)
  (chain.find? fun c => nameHit c.data name).or (chain.find? fun c => abbrevHit c.data name)

/-- Empty segments after the first are skipped. -/
def resolveParentPath (path : Bytes) : Option (Node ℕ Cmd) :=
  if path = [] then none
  else
    match (bounded cmdUsageSz path).splitOn slash with
    | [] => none
    | first :: rest =>
      (defFind ns first).bind fun d =>
        rest.foldlM (fun d tok => if tok = [] then some d else defFindChild ns d tok) d

end Names

structure Sys where
  nodes : Nodes ℕ Cmd
  cmdDefCount : UInt32

section Operations

/-- A child never widens its parent's mask. -/
def scopedMethods (declared : UInt32) : Option (Node ℕ Cmd) → UInt32
  | none => declared
  | some p => if declared = methodTAny then p.data.methods else declared &&& p.data.methods

def regPopulateDef (s : Sys) (decl : Decl) (parent : Option (Node ℕ Cmd)) (addr ownerPc : ℕ) : Sys where
  nodes := attach s.nodes addr (parent.map Node.id)
    { name := bounded cmdNameSz decl.name
      abbr := bounded cmdNameSz decl.abbr
      methods := scopedMethods decl.methods parent
      kindFilter := decl.kindFilter
      ownerPc := ownerPc
      nameFits := length_bounded_lt (by decide) _
      abbrevFits := length_bounded_lt (by decide) _ }
  cmdDefCount := s.cmdDefCount + 1

/-- The parent a declaration asks for: none at the root, nothing if it is not found. -/
def declaredParent (ns : Nodes ℕ Cmd) (decl : Decl) : Option (Option (Node ℕ Cmd)) :=
  if decl.parentPath = [] then some none else (resolveParentPath ns decl.parentPath).map some

def cmdRegister (s : Sys) (decl : Decl) (addr ownerPc : ℕ) : Sys :=
  if declIsValid decl then
    match declaredParent s.nodes decl with
    | none => s
    | some parent =>
      if regCheckCollisions s.nodes decl.name decl.abbr (parent.map Node.id) decl.kindFilter then
        regPopulateDef s decl parent addr ownerPc
      else s
  else s

def defDetachSubtree (s : Sys) (x : ℕ) : Option Sys :=
  (detachSubtree s.nodes cmdUnregMaxSubtree x).map fun r =>
    ⟨r.2, s.cmdDefCount - UInt32.ofNat (s.nodes.countP (·.id ∈ r.1))⟩

def cmdUnregisterPath (s : Sys) (path : Bytes) : Sys :=
  match resolveParentPath s.nodes path with
  | none => s
  | some d => (defDetachSubtree s d.id).getD s

def defOwnedBy (d : Node ℕ Cmd) (lo hi : ℕ) : Bool := lo ≤ d.data.ownerPc && d.data.ownerPc < hi

def defNextOwnedRoot (ns : Nodes ℕ Cmd) (lo hi : ℕ) : Option (Node ℕ Cmd) :=
  ns.find? fun d => defOwnedBy d lo hi &&
    !((d.parent.bind (lookup ns)).any fun p => defOwnedBy p lo hi)

def reclaimPass (s : Sys) (lo hi : ℕ) : Option Sys :=
  (defNextOwnedRoot s.nodes lo hi).bind fun root => defDetachSubtree s root.id

def reclaimLoop (lo hi : ℕ) : ℕ → Sys → Sys
  | 0, s => s
  | passes + 1, s =>
    match reclaimPass s lo hi with
    | none => s
    | some t => reclaimLoop lo hi passes t

def cmdReclaimOwned (s : Sys) (lo hi : ℕ) : Sys :=
  if hi ≤ lo then s else reclaimLoop lo hi s.nodes.length s

inductive Op
  | register (decl : Decl) (addr ownerPc : ℕ)
  | unregisterPath (path : Bytes)
  | reclaimOwned (lo hi : ℕ)

def step (s : Sys) : Op → Option Sys
  | .register decl addr ownerPc =>
    if addr ∈ ids s.nodes then none else some (cmdRegister s decl addr ownerPc)
  | .unregisterPath path => some (cmdUnregisterPath s path)
  | .reclaimOwned lo hi => some (cmdReclaimOwned s lo hi)

def start : Sys := ⟨[], 0⟩

end Operations

end BotManager.CmdRegistry
