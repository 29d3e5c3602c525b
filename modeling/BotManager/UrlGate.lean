import BotManager.CText

/-! The gate of core/util.c for URLs that come out of chat, against the host a URL parser
arrives at. The gate reads the host from the scheme to the first colon, slash, question
mark or number sign; RFC 3986 lets a userinfo come before the host, and a parser such as
curl's undoes the percent-encoding of a name. Both change which host is reached, and the
gate looks at neither. -/

namespace BotManager.UrlGate
open CText

def colon : UInt8 := 58
def slash : UInt8 := 47
def question : UInt8 := 63
def hash : UInt8 := 35
def commercialAt : UInt8 := 64
def percent : UInt8 := 37
def openBracket : UInt8 := 91
def closeBracket : UInt8 := 93

/-- `util_strncasecmp_ascii` finds no difference. The end of a list reads as NUL. -/
def utilStrncasecmpAscii : ℕ → Bytes → Bytes → Bool
  | 0, _, _ => true
  | n + 1, a, b =>
    let ca := toLower (a.headD 0)
    let cb := toLower (b.headD 0)
    if ca ≠ cb then false
    else if ca = 0 then true
    else utilStrncasecmpAscii n a.tail b.tail

def httpsScheme : Bytes := ascii "https://"

def endsHost (c : UInt8) : Bool := c = colon || c = slash || c = question || c = hash

def hostSz : ℕ := 256

def localhost : Bytes := ascii "localhost"
def localhostDot : Bytes := ascii "localhost."

/-- The tests on the name, which is in lower case by then. -/
def nameIsSafe (inetAton : Bytes → Bool) (host : Bytes) : Bool :=
  if host = localhost then false
  else if host.take 10 = localhostDot then false
  else if inetAton host then false
  else true

def utilUrlIsSafeHttps (inetAton : Bytes → Bool) (url : Bytes) : Bool :=
  if utilStrncasecmpAscii 8 url httpsScheme = false then false
  else
    let hostStart := url.drop 8
    if hostStart.head? = some openBracket then false
    else
      let host := hostStart.takeWhile fun c => !endsHost c
      if host.length = 0 ∨ hostSz ≤ host.length then false
      else nameIsSafe inetAton (host.map toLower)

section Parser

/-- The authority ends at the first slash, question mark or number sign. -/
def endsAuthority (c : UInt8) : Bool := c = slash || c = question || c = hash

def authority (url : Bytes) : Bytes := (url.drop 8).takeWhile fun c => !endsAuthority c

/-- What the userinfo leaves of the authority. Neither part may hold another `@`. -/
def hostAndPort (a : Bytes) : Option Bytes :=
  match a.dropWhile (· ≠ commercialAt) with
  | [] => some a
  | _ :: rest => if commercialAt ∈ rest then none else some rest

/-- An IP literal runs to its closing bracket, a name to the colon of the port. `decode`
is what the parser does to a name before it is looked up. -/
def hostIn (decode : Bytes → Bytes) (hostport : Bytes) : Bytes :=
  if hostport.head? = some openBracket then
    hostport.take ((hostport.takeWhile (· ≠ closeBracket)).length + 1)
  else decode (hostport.takeWhile (· ≠ colon))

/-- The host of an https URL by RFC 3986, if its authority is well formed. -/
def standardHost (decode : Bytes → Bytes) (url : Bytes) : Option Bytes :=
  (hostAndPort (authority url)).map (hostIn decode)

end Parser

structure SafeName (inetAton : Bytes → Bool) (host : Bytes) : Prop where
  nonempty : host ≠ []
  notLocalhost : strcasecmp host localhost = false
  notBelow : ¬ localhostDot <+: host.map toLower
  notLiteral : host.head? ≠ some openBracket
  notAddress : inetAton host = false

def examined (url : Bytes) : Bytes := (url.drop 8).takeWhile fun c => !endsHost c

/-- The parser arrives at the host that the gate examined, but for letter case. -/
def SameHost (decode : Bytes → Bytes) (url : Bytes) : Prop :=
  ∀ host, standardHost decode url = some host → host.map toLower = (examined url).map toLower

/-- The text between the scheme and the path is all there is to the host: no userinfo
before it, and nothing in it to decode. -/
def Literally (url : Bytes) : Prop :=
  commercialAt ∉ authority url ∧ percent ∉ (authority url).takeWhile (· ≠ colon)

instance (url : Bytes) : Decidable (Literally url) := inferInstanceAs (Decidable (_ ∧ _))

variable {host url : Bytes}

theorem nameIsSafe_iff {inetAton : Bytes → Bool} :
    nameIsSafe inetAton host = true ↔
      host ≠ localhost ∧ ¬ localhostDot <+: host ∧ inetAton host = false := by
  have below : host.take 10 = localhostDot ↔ localhostDot <+: host := by
    rw [List.prefix_iff_eq_take, eq_comm]
    rfl
  unfold nameIsSafe
  rw [← below]
  split_ifs with here under address <;> simp_all

section Gate

variable {inetAton : Bytes → Bool}

theorem accepted_iff : utilUrlIsSafeHttps inetAton url = true ↔
    utilUrlIsSafeHttps (fun _ => false) url = true ∧
      inetAton ((examined url).map toLower) = false := by
  simp only [utilUrlIsSafeHttps, examined]
  split_ifs <;> simp_all [nameIsSafe_iff, and_assoc]

theorem name_of_accepted (accepted : utilUrlIsSafeHttps (fun _ => false) url = true) :
    (url.drop 8).head? ≠ some openBracket ∧ examined url ≠ [] ∧
      (examined url).map toLower ≠ localhost ∧ ¬ localhostDot <+: (examined url).map toLower := by
  simp only [utilUrlIsSafeHttps] at accepted
  split_ifs at accepted with scheme bracket length
  push Not at length
  obtain ⟨name, below, -⟩ := nameIsSafe_iff.mp accepted
  exact ⟨bracket, List.ne_nil_of_length_pos (Nat.pos_of_ne_zero length.1), name, below⟩

theorem examined_eq : examined url = (authority url).takeWhile (· ≠ colon) := by
  rw [examined, authority, List.takeWhile_takeWhile]
  congr 1
  funext c
  simp only [endsHost, endsAuthority, Bool.or_assoc, Bool.not_or]
  by_cases here : c = colon <;> simp [here]

theorem head_takeWhile {p : UInt8 → Bool} {l : Bytes} {c : UInt8} (head : l.head? ≠ some c) :
    (l.takeWhile p).head? ≠ some c := by
  cases l with
  | nil => simp
  | cons d rest =>
    rw [List.takeWhile_cons]
    split
    · exact head
    · simp

theorem sameHost_of_literally {decode : Bytes → Bytes}
    (plain : ∀ host, percent ∉ host → decode host = host) (literally : Literally url)
    (bracket : (url.drop 8).head? ≠ some openBracket) : SameHost decode url := by
  have whole : hostAndPort (authority url) = some (authority url) := by
    have none : (authority url).dropWhile (· ≠ commercialAt) = [] := by
      rw [List.dropWhile_eq_nil_iff]
      intro c mem
      exact decide_eq_true fun here => literally.1 (here ▸ mem)
    rw [hostAndPort, none]
  have literal : (authority url).head? ≠ some openBracket := head_takeWhile bracket
  intro host reached
  rw [standardHost, whole, Option.map_some, hostIn, if_neg literal, plain _ literally.2] at reached
  rw [examined_eq, Option.some.inj reached]

theorem eq_of_toLower {c : UInt8} (lower : toLower c = openBracket) : c = openBracket := by
  unfold toLower openBracket at *
  split at lower
  next upper =>
    have sum := congrArg UInt8.toNat lower
    simp only [Bool.and_eq_true, decide_eq_true_eq, UInt8.le_iff_toNat_le, UInt8.toNat_add,
      UInt8.reduceToNat] at upper sum
    omega
  next => exact lower

theorem head_of_lower {l : Bytes} (head : l.head? ≠ some openBracket)
    (same : host.map toLower = l.map toLower) : host.head? ≠ some openBracket := by
  intro here
  have first := congrArg List.head? same
  rw [List.head?_map, List.head?_map, here] at first
  obtain ⟨c, isHead, lower⟩ := Option.map_eq_some_iff.mp first.symm
  exact head (eq_of_toLower lower ▸ isHead)

theorem safe_of_sameHost {decode : Bytes → Bytes} (same : SameHost decode url)
    (folds : ∀ host, inetAton (host.map toLower) = inetAton host)
    (accepted : utilUrlIsSafeHttps inetAton url = true)
    (reached : standardHost decode url = some host) : SafeName inetAton host := by
  obtain ⟨named, address⟩ := accepted_iff.mp accepted
  obtain ⟨bracket, nonempty, name, below⟩ := name_of_accepted named
  have alike := same host reached
  have lower : localhost.map toLower = localhost := by decide
  refine ⟨?_, ?_, ?_, ?_, ?_⟩
  · rintro rfl
    exact nonempty (List.map_eq_nil_iff.mp alike.symm)
  · rwa [strcasecmp, lower, decide_eq_false_iff_not, alike]
  · rwa [alike]
  · exact head_of_lower (head_takeWhile bracket) alike
  · rw [← folds, alike, address]

/-- Whatever `inet_aton` takes for an address, an accepted URL leads to a safe name, exactly
when the parser arrives at the host that the gate examined; so it does where the URL is to be
taken literally. -/
theorem safe_host_iff {decode : Bytes → Bytes} (plain : ∀ host, percent ∉ host → decode host = host)
    (url : Bytes) (named : utilUrlIsSafeHttps (fun _ => false) url = true) :
    ((∀ inetAton : Bytes → Bool, (∀ host, inetAton (host.map toLower) = inetAton host) →
        utilUrlIsSafeHttps inetAton url = true →
          ∀ host, standardHost decode url = some host → SafeName inetAton host) ↔
      SameHost decode url) ∧ (Literally url → SameHost decode url) := by
  refine ⟨⟨fun safe host reached => ?_, fun same inetAton folds accepted host reached =>
    safe_of_sameHost same folds accepted reached⟩, fun literally =>
    sameHost_of_literally plain literally (name_of_accepted named).1⟩
  -- Where the two differ, the host that is reached may be an address.
  by_contra differs
  let known (name : Bytes) : Bool := name.map toLower = host.map toLower
  have folds (name : Bytes) : known (name.map toLower) = known name := by
    simp only [known, map_toLower_twice]
  have unknown : known ((examined url).map toLower) = false := by
    rw [folds]
    exact decide_eq_false (Ne.symm differs)
  have reached := safe known folds (accepted_iff.mpr ⟨named, unknown⟩) host reached
  exact absurd reached.notAddress (by simp [known])

end Gate

def sampleAton (host : Bytes) : Bool := strcasecmp host (ascii "0x7f.1")

theorem folds_sampleAton (host : Bytes) : sampleAton (host.map toLower) = sampleAton host := by
  simp only [sampleAton, strcasecmp, map_toLower_twice]

theorem safe_host_sample : SafeName sampleAton (ascii "example.org") := by
  obtain ⟨exactly, literally⟩ := @safe_host_iff id (fun _ _ => rfl)
    (ascii "HTTPS://example.org:8443/a?b@c") (by decide)
  exact exactly.mpr (literally (by decide)) sampleAton folds_sampleAton (by decide) _ (by decide)

theorem not_safe_host : ¬ ∀ (inetAton : Bytes → Bool) (decode : Bytes → Bytes),
    (∀ host, inetAton (host.map toLower) = inetAton host) →
    (∀ host, percent ∉ host → decode host = host) → ∀ url, utilUrlIsSafeHttps inetAton url = true →
      ∀ host, standardHost decode url = some host → SafeName inetAton host := by
  intro all
  have safe := all sampleAton id folds_sampleAton (fun _ _ => rfl) (ascii "https://a@localhost/")
    (by decide) localhost (by decide)
  exact absurd safe.notLocalhost (by decide)

end BotManager.UrlGate
