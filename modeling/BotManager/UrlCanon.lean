import Mathlib.Algebra.Order.BigOperators.Group.List
import Mathlib.Algebra.Order.Group.Nat
import BotManager.UrlGate

/-! `util_url_canon` of core/util.c: the spelling of a URL under which a page is stored.
The host is put in lower case without its mobile labels and default port, the fragment is
dropped and the percent-encoding of path and query is normalised. A second pass changes
the result in two cases: a last label that is empty is lost a label at a time, and octets
that were decoded can complete a triplet that a stray `%` begins. -/

namespace BotManager.UrlCanon
open List CText UrlGate

def dot : UInt8 := 46

def utilUrlHexval (c : UInt8) : Option ℕ :=
  if 48 ≤ c ∧ c ≤ 57 then some (c.toNat - 48)
  else if 97 ≤ c ∧ c ≤ 102 then some (c.toNat - 97 + 10)
  else if 65 ≤ c ∧ c ≤ 70 then some (c.toNat - 65 + 10)
  else none

def bareMarks : Bytes := ascii "-._~!$'()*,;"

def utilUrlOctetIsBare (c : UInt8) : Bool :=
  if (97 ≤ c ∧ c ≤ 122) ∨ (65 ≤ c ∧ c ≤ 90) ∨ (48 ≤ c ∧ c ≤ 57) then true
  else if c = 0 then false
  else decide (c ∈ bareMarks)

def octet (hi lo : ℕ) : UInt8 := UInt8.ofNat (16 * hi + lo)

def hexDigits : Bytes := ascii "0123456789ABCDEF"

def hex (n : ℕ) : UInt8 := hexDigits.getD n 0

def isMobile (label : Bytes) : Bool := label = ascii "m" || label = ascii "M"

/-- The labels of a host, as the loop over it takes them: what follows a final dot is no
label. -/
def labels : Bytes → List Bytes
  | [] => []
  | c :: rest =>
    if c = dot then [] :: labels rest
    else
      match labels rest with
      | [] => [[c]]
      | label :: more => (c :: label) :: more

/-- Mobile labels go only while two others survive. -/
def dropMobile (all : List Bytes) : List Bytes :=
  let mobile := all.countP isMobile
  if 0 < mobile ∧ 2 ≤ all.length - mobile then all.filter (!isMobile ·) else all

def keptLabels (host : Bytes) : List Bytes := dropMobile (labels host)

def defaultPort (https : Bool) : Bytes := if https then ascii "443" else ascii "80"

def canonPort (https : Bool) : Bytes → Bytes
  | [] => []
  | _ :: port => if port ≠ [] ∧ port ≠ defaultPort https then colon :: port else []

def utilUrlCanonHost (https : Bool) (authority : Bytes) : Bytes :=
  [dot].intercalate ((keptLabels (authority.takeWhile (· ≠ colon))).map (·.map toLower)) ++
    canonPort https (authority.dropWhile (· ≠ colon))

/-- No triplet begins within the last two bytes. -/
def utilUrlCanonPq : Bytes → Bytes
  | [] => []
  | [c] => [c]
  | [c, d] => [c, d]
  | c :: a :: b :: rest =>
    if c ≠ percent then c :: utilUrlCanonPq (a :: b :: rest)
    else
      match utilUrlHexval a, utilUrlHexval b with
      | some hi, some lo =>
        if utilUrlOctetIsBare (octet hi lo) then octet hi lo :: utilUrlCanonPq rest
        else percent :: hex hi :: hex lo :: utilUrlCanonPq rest
      | _, _ => c :: utilUrlCanonPq (a :: b :: rest)

def httpScheme : Bytes := ascii "http://"

def schemeOf (url : Bytes) : Option Bool :=
  if utilStrncasecmpAscii 8 url httpsScheme then some true
  else if utilStrncasecmpAscii 7 url httpScheme then some false
  else none

def scheme (https : Bool) : Bytes := if https then httpsScheme else httpScheme

def canonRest (https : Bool) (rest : Bytes) : Bytes :=
  let authority := rest.takeWhile fun c => !endsAuthority c
  let pq := (rest.dropWhile fun c => !endsAuthority c).takeWhile (· ≠ hash)
  utilUrlCanonHost https authority ++
    (if pq = [] ∨ pq.head? ≠ some slash then [slash] else []) ++ utilUrlCanonPq pq

def keepsAsIs (rest : Bytes) : Prop :=
  commercialAt ∈ rest.takeWhile (fun c => !endsAuthority c) ∨ rest.head? = some openBracket

instance (rest : Bytes) : Decidable (keepsAsIs rest) := inferInstanceAs (Decidable (_ ∨ _))

def utilUrlCanon (outCap : ℕ) (url : Bytes) : Bytes :=
  match schemeOf url with
  | none => bounded outCap url
  | some https =>
    let rest := url.drop (scheme https).length
    if outCap < url.length + 2 then bounded outCap url
    else if keepsAsIs rest then bounded outCap url
    else scheme https ++ canonRest https rest

variable {a url rest label host : Bytes} {ls ms : List Bytes} {b : UInt8} {https : Bool}

section PercentEncoding

/-- What the loop over path and query takes at a time: a byte as it stands, or the octet
of a triplet. -/
inductive Piece
  | plain (c : UInt8)
  | coded (hi lo : ℕ)
  deriving DecidableEq

def pieces : Bytes → List Piece
  | [] => []
  | [c] => [.plain c]
  | [c, d] => [.plain c, .plain d]
  | c :: a :: b :: rest =>
    if c ≠ percent then .plain c :: pieces (a :: b :: rest)
    else
      match utilUrlHexval a, utilUrlHexval b with
      | some hi, some lo => .coded hi lo :: pieces rest
      | _, _ => .plain c :: pieces (a :: b :: rest)

@[simp] def spell : Piece → Bytes
  | .plain c => [c]
  | .coded hi lo =>
    if utilUrlOctetIsBare (octet hi lo) then [octet hi lo] else [percent, hex hi, hex lo]

variable (pq : Bytes)

theorem canonPq_eq : utilUrlCanonPq pq = (pieces pq).flatMap spell := by
  fun_induction pieces pq with
  | case1 | case2 c | case3 c d => rfl
  | case4 c a b rest other ih =>
    rw [utilUrlCanonPq, if_pos other, ih]
    rfl
  | case5 c a b rest other hi lo high low ih =>
    rw [utilUrlCanonPq, if_neg other]
    simp only [high, low, ih, flatMap_cons, spell]
    split <;> rfl
  | case6 c a b rest other none ih =>
    rw [utilUrlCanonPq, if_neg other]
    split
    next hi lo high low => exact (none hi lo high low).elim
    next =>
      rw [ih]
      rfl

variable {c a x : UInt8} {n : ℕ} {ps : List Piece}

theorem hexval_lt (value : utilUrlHexval c = some n) : n < 16 := by
  unfold utilUrlHexval at value
  simp only [UInt8.le_iff_toNat_le, UInt8.reduceToNat] at value
  split_ifs at value with digit lower upper
  all_goals
    have := Option.some.inj value
    omega

theorem hexval_hex (small : n < 16) : utilUrlHexval (hex n) = some n := by
  have all : ∀ n : Fin 16, utilUrlHexval (hex n) = some n.val := by decide
  exact all ⟨n, small⟩

theorem hexval_percent : utilUrlHexval percent = none := by decide

theorem not_bare_percent : utilUrlOctetIsBare percent = false := by decide

theorem ne_percent_of_hexval (value : utilUrlHexval c = some n) : c ≠ percent := by
  rintro rfl
  rw [hexval_percent] at value
  cases value

theorem ne_percent_of_bare (bare : utilUrlOctetIsBare c = true) : c ≠ percent := by
  rintro rfl
  rw [not_bare_percent] at bare
  cases bare

theorem canonPq_cons (other : c ≠ percent) (rest : Bytes) :
    utilUrlCanonPq (c :: rest) = c :: utilUrlCanonPq rest := by
  match rest with
  | [] | [_] => rfl
  | _ :: _ :: _ => rw [utilUrlCanonPq, if_pos other]

/-- The two bytes after a `%` make a triplet that is not written as it would be. -/
def rewrites (a b : UInt8) : Bool :=
  match utilUrlHexval a, utilUrlHexval b with
  | some hi, some lo => utilUrlOctetIsBare (octet hi lo) || a ≠ hex hi || b ≠ hex lo
  | _, _ => false

def startsTriplet : Bytes → Bool
  | a :: b :: _ => rewrites a b
  | _ => false

theorem canonPq_percent (keeps : startsTriplet rest = false) :
    utilUrlCanonPq (percent :: rest) = percent :: utilUrlCanonPq rest := by
  match rest with
  | [] | [_] => rfl
  | a :: b :: tail =>
    rw [utilUrlCanonPq, if_neg (not_not.mpr rfl)]
    split
    next hi lo high low =>
      simp only [startsTriplet, rewrites, high, low, Bool.or_eq_false_iff, decide_eq_false_iff_not,
        not_not] at keeps
      obtain ⟨⟨coded, first⟩, second⟩ := keeps
      rw [canonPq_cons (ne_percent_of_hexval high), canonPq_cons (ne_percent_of_hexval low),
        coded, ← first, ← second]
      rfl
    next => rfl

theorem canonPq_percent_ne (changes : startsTriplet rest = true) :
    utilUrlCanonPq (percent :: rest) ≠ percent :: rest := by
  match rest with
  | [] | [_] => cases changes
  | a :: b :: tail =>
    rw [utilUrlCanonPq, if_neg (not_not.mpr rfl)]
    simp only [startsTriplet, rewrites] at changes
    split
    next hi lo high low =>
      simp only [high, low, Bool.or_eq_true, decide_eq_true_eq] at changes
      split
      next bare =>
        intro same
        exact ne_percent_of_bare bare (cons.inj same).1
      next coded =>
        intro same
        simp only [cons.injEq, true_and] at same
        rcases changes with (bare | first) | second
        · exact coded bare
        · exact first same.1.symm
        · exact second same.2.1.symm
    next none =>
      split at changes
      next hi lo high low => exact (none hi lo high low).elim
      next => cases changes

def shown : Piece → UInt8
  | .plain c => c
  | .coded hi lo => if utilUrlOctetIsBare (octet hi lo) then octet hi lo else percent

/-- The next two pieces decode to the digits of a triplet. -/
def completes : List Piece → Bool
  | u :: v :: _ => rewrites (shown u) (shown v)
  | _ => false

/-- A stray `%` is followed by two such pieces. -/
@[simp] def forges : List Piece → Bool
  | [] => false
  | u :: rest => (u = .plain percent && completes rest) || forges rest

def Small (p : Piece) : Prop := ∀ hi lo, p = .coded hi lo → hi < 16 ∧ lo < 16

theorem small_plain : Small (.plain c) := by
  intro hi lo same
  cases same

theorem small_pieces : ∀ p ∈ pieces pq, Small p := by
  fun_induction pieces pq with
  | case1 => simp
  | case2 c | case3 c d => simp [small_plain]
  | case4 c a b rest other ih | case6 c a b rest other none ih =>
    exact forall_mem_cons.mpr ⟨small_plain, ih⟩
  | case5 c a b rest other hi lo high low ih =>
    refine forall_mem_cons.mpr ⟨?_, ih⟩
    intro hi' lo' same
    cases same
    exact ⟨hexval_lt low, hexval_lt high⟩

theorem rewrites_percent : rewrites percent b = false := by
  simp [rewrites, hexval_percent]

theorem spell_coded (hi lo : ℕ) :
    (utilUrlOctetIsBare (octet hi lo) = true ∧ spell (.coded hi lo) = [octet hi lo] ∧
      shown (.coded hi lo) = octet hi lo) ∨
    (utilUrlOctetIsBare (octet hi lo) = false ∧ spell (.coded hi lo) = [percent, hex hi, hex lo] ∧
      shown (.coded hi lo) = percent) := by
  cases bare : utilUrlOctetIsBare (octet hi lo) <;> simp [shown, bare]

theorem spell_cases (p : Piece) : spell p = [shown p] ∨ ∃ a b, spell p = [percent, a, b] ∧
    shown p = percent := by
  cases p with
  | plain c => exact .inl rfl
  | coded hi lo =>
    rcases spell_coded hi lo with ⟨_, one, first⟩ | ⟨_, three, first⟩
    · exact .inl (by rw [one, first])
    · exact .inr ⟨_, _, three, first⟩

theorem startsTriplet_spelled : startsTriplet (ps.flatMap spell) = completes ps := by
  cases ps with
  | nil => rfl
  | cons v rest =>
    rw [flatMap_cons]
    rcases spell_cases v with one | ⟨a, b, three, first⟩
    · cases rest with
      | nil =>
        rw [one]
        rfl
      | cons x more =>
        rw [one, flatMap_cons]
        rcases spell_cases x with last | ⟨a, b, three, first⟩
        · rw [last]
          rfl
        · rw [three, completes, first]
          rfl
    · rw [three]
      simp only [cons_append, startsTriplet, rewrites_percent]
      cases rest with
      | nil => rfl
      | cons x more => rw [completes, first, rewrites_percent]

theorem rewrites_hex {hi lo : ℕ} (high : hi < 16) (low : lo < 16)
    (coded : utilUrlOctetIsBare (octet hi lo) = false) : rewrites (hex hi) (hex lo) = false := by
  simp [rewrites, hexval_hex high, hexval_hex low, coded]

theorem canonPq_spelled (small : ∀ p ∈ ps, Small p) :
    utilUrlCanonPq (ps.flatMap spell) = ps.flatMap spell ↔ forges ps = false := by
  induction ps with
  | nil => simp [utilUrlCanonPq]
  | cons u rest ih =>
    have ih := ih fun p mem => small p (mem_cons_of_mem u mem)
    rw [flatMap_cons]
    cases u with
    | plain c =>
      by_cases stray : c = percent
      · subst stray
        have strays : forges (.plain percent :: rest) =
            (startsTriplet (rest.flatMap spell) || forges rest) := by
          simp [startsTriplet_spelled]
        rw [strays, Bool.or_eq_false_iff, ← ih]
        cases starts : startsTriplet (rest.flatMap spell) with
        | true => simpa using canonPq_percent_ne starts
        | false => simp [canonPq_percent starts]
      · have other : (Piece.plain c = .plain percent) = False := by simp [stray]
        simp [other, canonPq_cons stray, ih]
    | coded hi lo =>
      obtain ⟨high, low⟩ := small _ mem_cons_self hi lo rfl
      have other : forges (.coded hi lo :: rest) = forges rest := by simp
      rw [other, ← ih]
      rcases spell_coded hi lo with ⟨bare, one, _⟩ | ⟨coded, three, _⟩
      · rw [one]
        simp [canonPq_cons (ne_percent_of_bare bare)]
      · rw [three]
        simp only [cons_append, nil_append]
        rw [canonPq_percent (by exact rewrites_hex high low coded),
          canonPq_cons (ne_percent_of_hexval (hexval_hex high)),
          canonPq_cons (ne_percent_of_hexval (hexval_hex low))]
        simp

def width : Piece → ℕ
  | .plain _ => 1
  | .coded _ _ => 3

theorem sum_width : ((pieces pq).map width).sum = pq.length := by
  fun_induction pieces pq with
  | case1 | case2 c | case3 c d => rfl
  | case4 c a b rest other ih | case5 c a b rest other hi lo high low ih
  | case6 c a b rest other none ih => simp [ih, width]; omega

theorem length_spell_le (p : Piece) : (spell p).length ≤ width p := by
  cases p with
  | plain c => simp [width]
  | coded hi lo => rcases spell_coded hi lo with ⟨_, one, _⟩ | ⟨_, three, _⟩ <;> simp [*, width]

theorem length_spelled_le (ps : List Piece) : (ps.flatMap spell).length ≤ (ps.map width).sum := by
  rw [length_flatMap]
  exact sum_le_sum fun p _ => length_spell_le p

theorem length_canonPq_le : (utilUrlCanonPq pq).length ≤ pq.length := by
  rw [canonPq_eq, ← sum_width pq]
  exact length_spelled_le (pieces pq)

def decoded (p : Piece) : Prop := ∃ hi lo, p = .coded hi lo ∧ utilUrlOctetIsBare (octet hi lo) = true

theorem length_spelled_lt {p : Piece} (mem : p ∈ ps) (bare : decoded p) :
    (ps.flatMap spell).length < (ps.map width).sum := by
  rw [length_flatMap]
  refine sum_lt_sum _ _ (fun q _ => length_spell_le q) ⟨p, mem, ?_⟩
  obtain ⟨hi, lo, rfl, bare⟩ := bare
  simp [bare, width]

theorem pieces_head {u : Piece} {us : List Piece} (head : pieces (a :: rest) = u :: us) :
    (u = .plain a ∧ (a ≠ percent → us = pieces rest)) ∨ ∃ hi lo, u = .coded hi lo := by
  match rest with
  | [] | [_] =>
    cases head
    exact .inl ⟨rfl, fun _ => rfl⟩
  | b :: c :: tail =>
    rw [pieces] at head
    split at head
    next other =>
      cases head
      exact .inl ⟨rfl, fun _ => rfl⟩
    next stray =>
      split at head
      next hi lo _ _ =>
        cases head
        exact .inr ⟨hi, lo, rfl⟩
      next =>
        cases head
        exact .inl ⟨rfl, fun other => absurd other stray⟩

theorem decoded_of_shown {hi lo : ℕ} (value : utilUrlHexval (shown (.coded hi lo)) = some n) :
    decoded (.coded hi lo) := by
  rcases spell_coded hi lo with ⟨bare, _, _⟩ | ⟨_, _, first⟩
  · exact ⟨hi, lo, rfl, bare⟩
  · rw [first, hexval_percent] at value
    cases value

theorem hexval_of_rewrites (h : rewrites a b = true) :
    (∃ hi, utilUrlHexval a = some hi) ∧ ∃ lo, utilUrlHexval b = some lo := by
  unfold rewrites at h
  split at h
  next hi lo high low => exact ⟨⟨hi, high⟩, lo, low⟩
  next => cases h

/-- The digits that complete a stray `%` are not both there before decoding. -/
theorem decoded_of_completes
    (none : ∀ hi lo, utilUrlHexval a = some hi → utilUrlHexval b = some lo → False)
    (h : completes (pieces (a :: b :: rest)) = true) :
    ∃ p ∈ pieces (a :: b :: rest), decoded p := by
  generalize read : pieces (a :: b :: rest) = ps at h
  match ps, h with
  | u :: v :: more, h =>
    obtain ⟨⟨hi, high⟩, lo, low⟩ := hexval_of_rewrites h
    rcases pieces_head read with ⟨rfl, after⟩ | ⟨x, y, rfl⟩
    · have after := after (ne_percent_of_hexval high)
      rcases pieces_head after.symm with ⟨rfl, _⟩ | ⟨x, y, rfl⟩
      · exact (none hi lo high low).elim
      · exact ⟨_, by simp, decoded_of_shown low⟩
    · exact ⟨_, by simp, decoded_of_shown high⟩

theorem decoded_of_forges {pq : Bytes} (h : forges (pieces pq) = true) :
    ∃ p ∈ pieces pq, decoded p := by
  fun_induction pieces pq with
  | case1 => cases h
  | case2 c | case3 c d => simp [completes] at h
  | case4 c a b rest other ih =>
    have later : forges (pieces (a :: b :: rest)) = true := by
      simpa [other] using h
    exact exists_mem_cons_of_exists (ih later)
  | case5 c a b rest other hi lo high low ih =>
    have later : forges (pieces rest) = true := by simpa using h
    exact exists_mem_cons_of_exists (ih later)
  | case6 c a b rest other none ih =>
    rw [forges, Bool.or_eq_true, Bool.and_eq_true] at h
    apply exists_mem_cons_of_exists
    rcases h with ⟨_, here⟩ | later
    · exact decoded_of_completes none here
    · exact ih later

theorem length_canonPq_lt {pq : Bytes} (h : forges (pieces pq) = true) :
    (utilUrlCanonPq pq).length < pq.length := by
  obtain ⟨p, mem, bare⟩ := decoded_of_forges h
  rw [canonPq_eq, ← sum_width pq]
  exact length_spelled_lt mem bare

theorem canonPq_settles :
    utilUrlCanonPq (utilUrlCanonPq pq) = utilUrlCanonPq pq ↔ forges (pieces pq) = false := by
  rw [canonPq_eq pq]
  exact canonPq_spelled (small_pieces pq)

end PercentEncoding

section Labels

def trim (ls : List Bytes) : List Bytes := if ls.getLast? = some [] then ls.dropLast else ls

theorem trim_cons : trim (label :: second :: more) = label :: trim (second :: more) := by
  simp only [trim, getLast?_cons_cons, dropLast_cons_cons]
  split <;> rfl

theorem trim_singleton : trim [label] = if label = [] then [] else [label] := by
  simp [trim]

theorem labels_eq : labels host = trim (host.splitOn dot) := by
  induction host with
  | nil => rfl
  | cons c rest ih =>
    rw [labels, splitOn_cons_eq_if_modifyHead, ih]
    cases parts : rest.splitOn dot with
    | nil => exact absurd parts (splitOn_ne_nil dot rest)
    | cons first more =>
      by_cases here : c = dot
      · simp [here, trim_cons]
      · cases more with
        | nil => by_cases empty : first = [] <;> simp [here, empty, trim_singleton]
        | cons next more => simp [here, trim_cons]

theorem labels_join (whole : ∀ l ∈ ls, dot ∉ l) : labels ([dot].intercalate ls) = trim ls := by
  by_cases none : ls = []
  · rw [none]
    rfl
  · rw [labels_eq, splitOn_intercalate dot whole none]

theorem join_snoc : [dot].intercalate (label :: more ++ [[]]) =
    [dot].intercalate (label :: more) ++ [dot] := by
  induction more generalizing label with
  | nil => simp
  | cons next more ih =>
    rw [cons_append, cons_append, intercalate_cons_cons, intercalate_cons_cons, ← cons_append, ih,
      append_assoc _ _ [dot]]

theorem join_trim (ls : List Bytes) : [dot].intercalate (trim ls) = [dot].intercalate ls ∨
    [dot].intercalate (trim ls) ++ [dot] = [dot].intercalate ls := by
  unfold trim
  split
  next last =>
    obtain ⟨front, rfl⟩ := getLast?_eq_some_iff.mp last
    rw [dropLast_concat]
    cases front with
    | nil => exact .inl rfl
    | cons label more => exact .inr join_snoc.symm
  next => exact .inl rfl

theorem join_labels (host : Bytes) :
    [dot].intercalate (labels host) = host ∨ [dot].intercalate (labels host) ++ [dot] = host := by
  have parts := join_trim (host.splitOn dot)
  rwa [intercalate_splitOn, ← labels_eq] at parts

theorem flatten_labels : (labels host).flatten = host.filter (· ≠ dot) := by
  induction host with
  | nil => rfl
  | cons c rest ih =>
    rw [labels]
    by_cases here : c = dot
    · simp [here, ih]
    · rw [if_neg here, filter_cons_of_pos (by simpa using here), ← ih]
      cases labels rest <;> rfl

theorem mem_labels (mem : label ∈ labels host) : ∀ c ∈ label, c ∈ host ∧ c ≠ dot := by
  intro c inside
  have kept : c ∈ (labels host).flatten := mem_flatten.mpr ⟨label, mem, inside⟩
  rw [flatten_labels, mem_filter] at kept
  exact ⟨kept.1, of_decide_eq_true kept.2⟩

def weight (ls : List Bytes) : ℕ := (ls.map (·.length + 1)).sum

theorem length_join : ([dot].intercalate ls).length = weight ls - 1 := by
  induction ls with
  | nil => rfl
  | cons label rest ih =>
    cases rest with
    | nil => simp [weight]
    | cons next more =>
      simp only [weight, map_cons, sum_cons] at ih
      simp only [intercalate_cons_cons, weight, length_append, length_singleton, map_cons, sum_cons]
      omega

theorem length_le_weight (ls : List Bytes) : ls.length ≤ weight ls := by
  have each := length_le_sum_of_one_le (ls.map (·.length + 1)) (by simp)
  rwa [length_map] at each

theorem weight_sublist (sub : ls.Sublist ms) : weight ls ≤ weight ms :=
  (sub.map _).sum_le_sum (by simp)

theorem weight_lt_of_sublist (sub : ls.Sublist ms) (fewer : ls.length < ms.length) :
    weight ls < weight ms := by
  induction sub with
  | slnil => cases fewer
  | cons label sub _ =>
    have := weight_sublist sub
    simp only [weight, map_cons, sum_cons] at this ⊢
    omega
  | cons_cons label _ ih =>
    have := ih (Nat.lt_of_succ_lt_succ fewer)
    simp only [weight, map_cons, sum_cons] at this ⊢
    omega

theorem weight_lower : weight (ls.map (·.map toLower)) = weight ls := by
  simp [weight, Function.comp_def]

theorem mem_join (mem : c ∈ [dot].intercalate ls) : c = dot ∨ ∃ l ∈ ls, c ∈ l := by
  induction ls with
  | nil => cases mem
  | cons label rest ih =>
    cases rest with
    | nil =>
      rw [intercalate_singleton] at mem
      exact .inr ⟨label, mem_cons_self, mem⟩
    | cons next more =>
      rw [intercalate_cons_cons, mem_append, mem_append] at mem
      rcases mem with (here | mark) | later
      · exact .inr ⟨label, mem_cons_self, here⟩
      · exact .inl (mem_singleton.mp mark)
      · rcases ih later with same | ⟨l, found, inside⟩
        · exact .inl same
        · exact .inr ⟨l, mem_cons_of_mem label found, inside⟩

end Labels

section Host

theorem toLower_cases (c : UInt8) : toLower c = c ∨ (97 ≤ toLower c ∧ toLower c ≤ 122) := by
  by_cases upper : (65 ≤ c && c ≤ 90) = true
  · right
    rw [toLower, if_pos upper]
    simp only [Bool.and_eq_true, decide_eq_true_eq, UInt8.le_iff_toNat_le, UInt8.reduceToNat] at upper
    simp only [UInt8.le_iff_toNat_le, UInt8.toNat_add, UInt8.reduceToNat]
    omega
  · exact .inl (by rw [toLower, if_neg upper])

theorem mem_lower (other : ¬ (97 ≤ x ∧ x ≤ 122)) {l : Bytes} (mem : x ∈ l.map toLower) : x ∈ l := by
  obtain ⟨c, found, rfl⟩ := mem_map.mp mem
  rcases toLower_cases c with same | letter
  · rw [same]
    exact found
  · exact absurd letter other

theorem isMobile_lower : isMobile (label.map toLower) = isMobile label := by
  match label with
  | [] => rfl
  | _ :: _ :: _ => simp [isMobile, ascii]
  | [c] =>
    have small : toLower c = 109 ↔ c = 109 ∨ c = 77 := by
      constructor
      · intro same
        by_cases upper : (65 ≤ c && c ≤ 90) = true
        · rw [toLower, if_pos upper] at same
          right
          rw [← UInt8.toNat_inj, UInt8.toNat_add] at same
          rw [← UInt8.toNat_inj]
          simp only [UInt8.reduceToNat] at same ⊢
          have := c.toNat_lt
          omega
        · rw [toLower, if_neg upper] at same
          exact .inl same
      · rintro (rfl | rfl) <;> rfl
    have large : toLower c ≠ 77 := by
      intro same
      rcases toLower_cases c with keeps | letter
      · rw [keeps] at same
        subst same
        cases keeps
      · rw [same] at letter
        exact absurd letter (by decide)
    simp [isMobile, ascii, small, large]

variable (ls : List Bytes)

theorem dropMobile_sublist : (dropMobile ls).Sublist ls := by
  simp only [dropMobile]
  split
  · exact filter_sublist
  · exact List.Sublist.refl ls

theorem dropMobile_twice : dropMobile (dropMobile ls) = dropMobile ls := by
  by_cases drops : 0 < ls.countP isMobile ∧ 2 ≤ ls.length - ls.countP isMobile
  · have none : (ls.filter (!isMobile ·)).countP isMobile = 0 := by
      rw [countP_eq_zero]
      intro l mem
      simpa using (mem_filter.mp mem).2
    have dropped : dropMobile ls = ls.filter (!isMobile ·) := if_pos drops
    rw [dropped]
    exact if_neg (by omega)
  · have stays : dropMobile ls = ls := if_neg drops
    rw [stays, stays]

theorem dropMobile_cases :
    dropMobile ls = ls ∨ (dropMobile ls).length < ls.length := by
  rcases (dropMobile_sublist ls).length_le.lt_or_eq with fewer | same
  · exact .inr fewer
  · exact .inl ((dropMobile_sublist ls).eq_of_length same)

theorem dropMobile_lower :
    dropMobile (ls.map (·.map toLower)) = (dropMobile ls).map (·.map toLower) := by
  have count : (ls.map (·.map toLower)).countP isMobile = ls.countP isMobile := by
    rw [countP_map]
    congr 1
    funext l
    exact isMobile_lower
  have filter : (ls.map (·.map toLower)).filter (!isMobile ·) =
      (ls.filter (!isMobile ·)).map (·.map toLower) := by
    rw [filter_map]
    congr 2
    funext l
    simp [isMobile_lower]
  simp only [dropMobile, count, length_map, filter]
  split <;> rfl

theorem lower_lower :
    (ls.map (·.map toLower)).map (·.map toLower) = ls.map (·.map toLower) := by
  rw [map_map]
  congr 1
  funext l
  exact map_toLower_twice l

variable (https)

theorem canonPort_again : canonPort https (canonPort https port) = canonPort https port := by
  cases port with
  | nil => rfl
  | cons c rest =>
    rw [canonPort]
    split
    next stays => rw [canonPort, if_pos stays]
    next => rfl

theorem canonPort_cases (port : Bytes) :
    canonPort https port = [] ∨ ∃ rest, canonPort https port = colon :: rest := by
  cases port with
  | nil => exact .inl rfl
  | cons c rest =>
    rw [canonPort]
    split
    · exact .inr ⟨rest, rfl⟩
    · exact .inl rfl

theorem length_canonPort_le (port : Bytes) :
    (canonPort https port).length ≤ port.length := by
  cases port with
  | nil => exact le_rfl
  | cons c rest =>
    rw [canonPort]
    split <;> simp

def canonName (host : Bytes) : Bytes := [dot].intercalate ((keptLabels host).map (·.map toLower))

theorem mem_keptLabels (mem : label ∈ keptLabels host) : ∀ c ∈ label, c ∈ host ∧ c ≠ dot :=
  mem_labels ((dropMobile_sublist _).subset mem)

theorem mem_canonName (other : ¬ (97 ≤ x ∧ x ≤ 122)) (mark : x ≠ dot) (mem : x ∈ canonName host) :
    x ∈ host := by
  rcases mem_join mem with same | ⟨l, found, inside⟩
  · exact absurd same mark
  · obtain ⟨label, kept, rfl⟩ := mem_map.mp found
    exact (mem_keptLabels kept x (mem_lower other inside)).1

/-- The label that is lost when the host is read again. -/
def Trails (host : Bytes) : Prop :=
  2 ≤ (keptLabels host).length ∧ (keptLabels host).getLast? = some []

instance (host : Bytes) : Decidable (Trails host) := inferInstanceAs (Decidable (_ ∧ _))

theorem getLast_lower :
    (ls.map (·.map toLower)).getLast? = some [] ↔ ls.getLast? = some [] := by
  rw [getLast?_map]
  cases ls.getLast? <;> simp

theorem labels_canonName :
    labels (canonName host) = trim ((keptLabels host).map (·.map toLower)) := by
  apply labels_join
  intro l mem inside
  obtain ⟨label, kept, rfl⟩ := mem_map.mp mem
  exact (mem_keptLabels kept dot (mem_lower (by decide) inside)).2 rfl

theorem canonName_canonName : canonName (canonName host) =
    [dot].intercalate
      ((dropMobile (trim ((keptLabels host).map (·.map toLower)))).map (·.map toLower)) := by
  rw [canonName, keptLabels, labels_canonName]

theorem canonName_again (settled : ¬ Trails host) :
    canonName (canonName host) = canonName host := by
  rw [canonName_canonName, trim]
  split
  next last =>
    have last := (getLast_lower _).mp last
    have only : keptLabels host = [[]] := by
      cases kept : keptLabels host with
      | nil =>
        rw [kept] at last
        cases last
      | cons label more =>
        cases more with
        | nil =>
          rw [kept, getLast?_singleton] at last
          rw [Option.some.inj last]
        | cons next more =>
          refine absurd ⟨?_, last⟩ settled
          simp [kept]
    rw [canonName, only]
    rfl
  next => rw [canonName, keptLabels, dropMobile_lower, dropMobile_twice, lower_lower]

theorem length_canonName : (canonName host).length = weight (keptLabels host) - 1 := by
  rw [canonName, length_join, weight_lower]

theorem length_canonName_again (trails : Trails host) :
    (canonName (canonName host)).length < (canonName host).length := by
  obtain ⟨two, last⟩ := trails
  have trimmed : keptLabels (canonName host) =
      dropMobile ((keptLabels host).dropLast.map (·.map toLower)) := by
    rw [keptLabels, labels_canonName, trim, if_pos ((getLast_lower _).mpr last), map_dropLast]
  have fewer := weight_lt_of_sublist (dropLast_sublist (keptLabels host))
    (by rw [length_dropLast]; omega)
  have again := weight_sublist (dropMobile_sublist ((keptLabels host).dropLast.map (·.map toLower)))
  have many := length_le_weight (keptLabels host)
  rw [weight_lower] at again
  rw [length_canonName, length_canonName, trimmed]
  omega

theorem length_labels_le (host : Bytes) : weight (labels host) - 1 ≤ host.length := by
  rw [← length_join]
  rcases join_labels host with same | same
  · exact le_of_eq (congrArg length same)
  · have := congrArg length same
    rw [length_append] at this
    omega

theorem length_canonName_le (host : Bytes) : (canonName host).length ≤ host.length := by
  have kept := weight_sublist (dropMobile_sublist (labels host))
  have spelled := length_labels_le host
  rw [length_canonName, keptLabels]
  omega

theorem length_canonName_lt (trails : Trails host) : (canonName host).length < host.length := by
  obtain ⟨two, last⟩ := trails
  have spelled := length_labels_le host
  have many := length_le_weight (keptLabels host)
  rw [length_canonName]
  rcases dropMobile_cases (labels host) with all | fewer
  · have kept : keptLabels host = labels host := all
    rw [kept] at two last ⊢
    have lost : [dot].intercalate (labels host) ≠ host := by
      intro same
      have again := labels_join fun l (mem : l ∈ labels host) inside => (mem_labels mem dot inside).2 rfl
      rw [same, trim, if_pos last] at again
      have := congrArg length again
      rw [length_dropLast] at this
      omega
    have same := congrArg length ((join_labels host).resolve_left lost)
    rw [length_append, length_join] at same
    simp only [length_singleton] at same
    omega
  · have lighter := weight_lt_of_sublist (dropMobile_sublist (labels host)) fewer
    rw [keptLabels] at two many ⊢
    omega

theorem canonHost_eq (a : Bytes) : utilUrlCanonHost https a =
    canonName (a.takeWhile (· ≠ colon)) ++ canonPort https (a.dropWhile (· ≠ colon)) := rfl

theorem length_span (p : UInt8 → Bool) (l : Bytes) :
    (l.takeWhile p).length + (l.dropWhile p).length = l.length := by
  rw [← length_append, takeWhile_append_dropWhile]

theorem split_canonHost (a : Bytes) :
    (utilUrlCanonHost https a).takeWhile (· ≠ colon) = canonName (a.takeWhile (· ≠ colon)) ∧
      (utilUrlCanonHost https a).dropWhile (· ≠ colon) =
        canonPort https (a.dropWhile (· ≠ colon)) := by
  have none : ∀ c ∈ canonName (a.takeWhile (· ≠ colon)), decide (c ≠ colon) = true := by
    intro c mem
    refine decide_eq_true fun here => ?_
    subst here
    have inside := mem_canonName (by decide) (by decide) mem
    simpa using mem_takeWhile_imp inside
  rw [canonHost_eq, takeWhile_append_of_pos none, dropWhile_append_of_pos none]
  rcases canonPort_cases https (a.dropWhile (· ≠ colon)) with empty | ⟨rest, port⟩
  · rw [empty]
    simp
  · rw [port]
    simp

theorem canonHost_again :
    utilUrlCanonHost https (utilUrlCanonHost https a) =
      canonName (canonName (a.takeWhile (· ≠ colon))) ++
        canonPort https (a.dropWhile (· ≠ colon)) := by
  obtain ⟨name, port⟩ := split_canonHost https a
  rw [canonHost_eq https (utilUrlCanonHost https a), name, port, canonPort_again]

theorem length_canonHost_le (a : Bytes) :
    (utilUrlCanonHost https a).length ≤ a.length := by
  have whole := length_span (· ≠ colon) a
  have name := length_canonName_le (a.takeWhile (· ≠ colon))
  have port := length_canonPort_le https (a.dropWhile (· ≠ colon))
  rw [canonHost_eq, length_append]
  omega

theorem length_canonHost_lt (trails : Trails (a.takeWhile (· ≠ colon))) :
    (utilUrlCanonHost https a).length < a.length := by
  have whole := length_span (· ≠ colon) a
  have name := length_canonName_lt trails
  have port := length_canonPort_le https (a.dropWhile (· ≠ colon))
  rw [canonHost_eq, length_append]
  omega

theorem canonHost_settles :
    utilUrlCanonHost https (utilUrlCanonHost https a) = utilUrlCanonHost https a ↔
      ¬ Trails (a.takeWhile (· ≠ colon)) := by
  rw [canonHost_again, canonHost_eq https a, append_left_inj]
  constructor
  · intro same trails
    exact (length_canonName_again trails).ne (congrArg length same)
  · exact canonName_again

variable {https}

theorem mem_canonPort {port : Bytes} (mark : x ≠ colon) (mem : x ∈ canonPort https port) :
    x ∈ port := by
  cases port with
  | nil => exact mem
  | cons c rest =>
    rw [canonPort] at mem
    split at mem
    · exact mem_cons_of_mem c ((mem_cons.mp mem).resolve_left mark)
    · cases mem

theorem mem_canonHost (other : ¬ (97 ≤ x ∧ x ≤ 122)) (mark : x ≠ dot ∧ x ≠ colon)
    (mem : x ∈ utilUrlCanonHost https a) : x ∈ a := by
  rw [canonHost_eq, mem_append] at mem
  rcases mem with name | port
  · exact ( takeWhile_prefix _).subset (mem_canonName other mark.1 name)
  · exact (dropWhile_suffix _).subset (mem_canonPort mark.2 port)

end Host

section Url

def hostPort (rest : Bytes) : Bytes := rest.takeWhile fun c => !endsAuthority c

def pathQuery (rest : Bytes) : Bytes :=
  (rest.dropWhile fun c => !endsAuthority c).takeWhile (· ≠ hash)

def path (rest : Bytes) : Bytes :=
  if pathQuery rest = [] ∨ (pathQuery rest).head? ≠ some slash then slash :: pathQuery rest
  else pathQuery rest

theorem path_eq (rest : Bytes) : ∃ more, path rest = slash :: more ∧ hash ∉ more := by
  have none : hash ∉ pathQuery rest := by
    intro mem
    simpa using mem_takeWhile_imp mem
  rw [path]
  split
  next => exact ⟨_, rfl, none⟩
  next rooted =>
    push Not at rooted
    obtain ⟨more, same⟩ := head?_eq_some_iff.mp rooted.2
    rw [same] at none ⊢
    exact ⟨more, rfl, fun mem => none (mem_cons_of_mem _ mem)⟩

theorem canonRest_eq (rest : Bytes) :
    canonRest https rest =
      utilUrlCanonHost https (hostPort rest) ++ utilUrlCanonPq (path rest) := by
  change utilUrlCanonHost https (hostPort rest) ++
    (if pathQuery rest = [] ∨ (pathQuery rest).head? ≠ some slash then [slash] else []) ++
      utilUrlCanonPq (pathQuery rest) = _
  rw [path]
  split
  next => simp [canonPq_cons (c := slash) (by decide)]
  next => simp

theorem mem_canonPq {pq : Bytes} (coded : ∀ n < 16, x ≠ hex n)
    (mark : x ≠ percent ∧ utilUrlOctetIsBare x = false) (mem : x ∈ utilUrlCanonPq pq) :
    x ∈ pq := by
  fun_induction utilUrlCanonPq pq with
  | case1 | case2 c | case3 c d => exact mem
  | case4 c a b rest other ih | case7 c a b rest triplet none ih =>
    rcases mem_cons.mp mem with here | later
    · exact mem_cons.mpr (.inl here)
    · exact mem_cons_of_mem c (ih later)
  | case5 c a b rest triplet hi lo high low bare ih =>
    rcases mem_cons.mp mem with here | later
    · rw [← here, mark.2] at bare
      cases bare
    · simp [ih later]
  | case6 c a b rest triplet hi lo low high stays ih =>
    simp only [mem_cons, mark.1, coded hi (hexval_lt high), coded lo (hexval_lt low),
      false_or] at mem
    simp [ih mem]

theorem hostPort_canonical (https : Bool) (rest more : Bytes) :
    hostPort (utilUrlCanonHost https (hostPort rest) ++ slash :: more) =
        utilUrlCanonHost https (hostPort rest) ∧
      (utilUrlCanonHost https (hostPort rest) ++ slash :: more).dropWhile
        (fun c => !endsAuthority c) = slash :: more := by
  have inside : ∀ c ∈ utilUrlCanonHost https (hostPort rest), (!endsAuthority c) = true := by
    intro c mem
    by_contra ends
    have mark : (c = slash ∨ c = question) ∨ c = hash := by
      rw [Bool.not_eq_true, Bool.not_eq_false'] at ends
      simpa [endsAuthority] using ends
    have other : ¬ (97 ≤ c ∧ c ≤ 122) ∧ c ≠ dot ∧ c ≠ colon := by
      rcases mark with (rfl | rfl) | rfl <;> decide
    have before : c ∈ hostPort rest := mem_canonHost other.1 other.2 mem
    exact ends (mem_takeWhile_imp (p := fun c => !endsAuthority c) before)
  have outside : (!endsAuthority slash) = false := by decide
  rw [hostPort, takeWhile_append_of_pos inside, dropWhile_append_of_pos inside,
    takeWhile_cons, dropWhile_cons, outside]
  simp

theorem canonRest_parts (https : Bool) (rest : Bytes) :
    hostPort (canonRest https rest) = utilUrlCanonHost https (hostPort rest) ∧
      path (canonRest https rest) = utilUrlCanonPq (path rest) := by
  obtain ⟨more, rooted, none⟩ := path_eq rest
  have written : utilUrlCanonPq (path rest) = slash :: utilUrlCanonPq more := by
    rw [rooted, canonPq_cons (by decide)]
  have whole : (slash :: utilUrlCanonPq more).takeWhile (· ≠ hash) =
      slash :: utilUrlCanonPq more := by
    rw [takeWhile_eq_self_iff]
    intro c mem
    refine decide_eq_true fun same => ?_
    rw [same] at mem
    have inside := (mem_cons.mp mem).resolve_left (by decide)
    exact none (mem_canonPq (by decide) (by decide) inside)
  obtain ⟨host, tail⟩ := hostPort_canonical https rest (utilUrlCanonPq more)
  have same : pathQuery (canonRest https rest) = utilUrlCanonPq (path rest) := by
    rw [canonRest_eq, pathQuery, written, tail, whole]
  constructor
  · rw [canonRest_eq, written, host]
  · rw [path, same, written]
    simp

theorem canonRest_again (https : Bool) :
    canonRest https (canonRest https rest) = canonRest https rest ↔
      ¬ Trails ((hostPort rest).takeWhile (· ≠ colon)) ∧ forges (pieces (path rest)) = false := by
  obtain ⟨host, tail⟩ := canonRest_parts https rest
  rw [canonRest_eq (canonRest https rest), host, tail, canonRest_eq rest,
    ← canonHost_settles https, ← canonPq_settles]
  constructor
  · intro same
    have total := congrArg length same
    have first := length_canonHost_le https (utilUrlCanonHost https (hostPort rest))
    have second := length_canonPq_le (utilUrlCanonPq (path rest))
    rw [length_append, length_append] at total
    exact append_inj same (by omega)
  · intro ⟨name, query⟩
    rw [name, query]

theorem length_rest (rest : Bytes) : (hostPort rest).length + (path rest).length ≤ rest.length + 1 := by
  have whole := length_span (fun c => !endsAuthority c) rest
  have cut := ( takeWhile_prefix (l := rest.dropWhile fun c => !endsAuthority c)
    (· ≠ hash)).length_le
  have slashed : (path rest).length ≤ (pathQuery rest).length + 1 := by
    rw [path]
    split <;> simp
  rw [pathQuery] at slashed
  rw [hostPort]
  omega

theorem length_canonRest_le (https : Bool) (rest : Bytes) :
    (canonRest https rest).length ≤ rest.length + 1 := by
  have host := length_canonHost_le https (hostPort rest)
  have query := length_canonPq_le (path rest)
  have whole := length_rest rest
  rw [canonRest_eq, length_append]
  omega

theorem nul_canonRest (text : 0 ∉ rest) : 0 ∉ canonRest https rest := by
  rw [canonRest_eq, mem_append, not_or]
  have fromRest : ∀ c ∈ path rest, c = slash ∨ c ∈ rest := by
    intro c mem
    have inside : c = slash ∨ c ∈ pathQuery rest := by
      rw [path] at mem
      split at mem
      · exact mem_cons.mp mem
      · exact .inr mem
    refine inside.imp_right fun query => ?_
    exact (dropWhile_suffix _).subset (( takeWhile_prefix _).subset query)
  refine ⟨fun host => ?_, fun query => ?_⟩
  · exact text (( takeWhile_prefix _).subset (mem_canonHost (by decide) (by decide) host))
  · rcases fromRest 0 (mem_canonPq (by decide) (by decide) query) with here | inside
    · cases here
    · exact text inside

theorem length_canonRest_le_of_changes
    (changes : canonRest https (canonRest https rest) ≠ canonRest https rest) :
    (canonRest https rest).length ≤ rest.length := by
  have host := length_canonHost_le https (hostPort rest)
  have query := length_canonPq_le (path rest)
  have whole := length_rest rest
  rw [canonRest_eq, length_append]
  rw [Ne, canonRest_again, not_and_or, not_not, Bool.not_eq_false] at changes
  rcases changes with trails | forged
  · have := length_canonHost_lt https trails
    omega
  · have := length_canonPq_lt forged
    omega

theorem schemeOf_scheme (https : Bool) : schemeOf (scheme https ++ rest) = some https := by
  cases https <;> rfl

theorem length_of_strncasecmp {b : Bytes} (same : utilStrncasecmpAscii n a b = true)
    (text : ∀ c ∈ b.take n, toLower c ≠ 0) (whole : n ≤ b.length) : n ≤ a.length := by
  induction n generalizing a b with
  | zero => exact Nat.zero_le _
  | succ n ih =>
    cases b with
    | nil => cases whole
    | cons y ys =>
      have nonzero := text y (by simp)
      simp only [utilStrncasecmpAscii, ne_eq, ite_not, Bool.if_false_right, Bool.if_true_left,
        Bool.and_eq_true, decide_eq_true_eq, Bool.or_eq_true, headD_cons] at same
      obtain ⟨alike, later⟩ := same
      rw [alike] at later
      cases a with
      | nil => exact absurd alike.symm nonzero
      | cons x xs =>
        have text : ∀ c ∈ ys.take n, toLower c ≠ 0 := by
          intro c mem
          exact text c (by simp [mem])
        have tails := ih (later.resolve_left nonzero) text (Nat.le_of_succ_le_succ whole)
        exact Nat.succ_le_succ tails

theorem length_url (http : schemeOf url = some https) :
    url.length = (scheme https).length + (url.drop (scheme https).length).length := by
  have whole : (scheme https).length ≤ url.length := by
    unfold schemeOf at http
    split_ifs at http with secure plain
    · cases http
      exact length_of_strncasecmp secure (by decide +kernel) (by decide)
    · cases http
      exact length_of_strncasecmp plain (by decide +kernel) (by decide)
  rw [length_drop]
  omega

/-- The first label that is kept starts an IP literal, as in `m.[a.b`. -/
def Shielded (host : Bytes) : Prop := (keptLabels host).head?.bind head? = some openBracket

def Settled (rest : Bytes) : Prop :=
  keepsAsIs rest ∨ Shielded ((hostPort rest).takeWhile (· ≠ colon)) ∨
    ¬ Trails ((hostPort rest).takeWhile (· ≠ colon)) ∧ forges (pieces (path rest)) = false

instance (host : Bytes) : Decidable (Shielded host) := inferInstanceAs (Decidable (_ = _))

instance (rest : Bytes) : Decidable (Settled rest) := inferInstanceAs (Decidable (_ ∨ _ ∨ _))

theorem head_join {tail : Bytes} (other : tail.head? ≠ some openBracket) :
    ([dot].intercalate ls ++ tail).head? = some openBracket ↔
      ls.head?.bind head? = some openBracket := by
  match ls with
  | [] | [[]] => simp [intercalate, other]
  | [] :: next :: more =>
    rw [intercalate_cons_cons]
    simp [dot, openBracket]
  | [c :: label] => simp [intercalate]
  | (c :: label) :: next :: more =>
    rw [intercalate_cons_cons]
    simp

theorem lower_openBracket (c : UInt8) : toLower c = openBracket ↔ c = openBracket := by
  rcases toLower_cases c with same | ⟨above, below⟩
  · rw [same]
  · constructor
    · intro here
      rw [here] at above
      exact absurd above (by decide)
    · rintro rfl
      rfl

theorem shielded_iff (host tail : Bytes) (other : tail.head? ≠ some openBracket) :
    (canonName host ++ tail).head? = some openBracket ↔ Shielded host := by
  rw [canonName, head_join other, Shielded]
  cases keptLabels host with
  | nil => simp
  | cons label more => cases label <;> simp [lower_openBracket]

theorem keepsAsIs_canonRest (https : Bool) (read : ¬ keepsAsIs rest) :
    keepsAsIs (canonRest https rest) ↔ Shielded ((hostPort rest).takeWhile (· ≠ colon)) := by
  have open' : commercialAt ∉ hostPort (canonRest https rest) := by
    rw [(canonRest_parts https rest).1]
    intro mem
    exact read (.inl (mem_canonHost (by decide) (by decide) mem))
  rw [keepsAsIs, ← hostPort, or_iff_right open', canonRest_eq, canonHost_eq, append_assoc]
  apply shielded_iff
  obtain ⟨more, rooted, -⟩ := path_eq rest
  rw [rooted, canonPq_cons (by decide)]
  rcases canonPort_cases https ((hostPort rest).dropWhile (· ≠ colon)) with none | ⟨port, some⟩
  · rw [none]
    simp [slash, openBracket]
  · rw [some]
    simp [colon, openBracket]

theorem canon_of_fits {cap : ℕ} (http : schemeOf url = some https)
    (fits : url.length + 2 ≤ cap) : utilUrlCanon cap url =
      if keepsAsIs (url.drop (scheme https).length) then url
      else scheme https ++ canonRest https (url.drop (scheme https).length) := by
  simp only [utilUrlCanon, http]
  rw [if_neg (by omega), bounded_of_lt (by omega)]

theorem canon_canon_iff {cap cap' : ℕ} {url : Bytes} {https : Bool}
    (http : schemeOf url = some https) (fits : url.length + 2 ≤ cap)
    (fits' : url.length + 2 ≤ cap') :
    utilUrlCanon cap' (utilUrlCanon cap url) = utilUrlCanon cap url ↔
      Settled (url.drop (scheme https).length) := by
  have size := length_url http
  set rest := url.drop (scheme https).length
  by_cases kept : keepsAsIs rest
  · have same : ∀ c, url.length + 2 ≤ c → utilUrlCanon c url = url := by
      intro c fits
      rw [canon_of_fits http fits, if_pos kept]
    rw [same cap fits, same cap' fits']
    exact iff_of_true rfl (.inl kept)
  · have first : utilUrlCanon cap url = scheme https ++ canonRest https rest := by
      rw [canon_of_fits http fits, if_neg kept]
    rw [first, Settled, or_iff_right kept, ← keepsAsIs_canonRest https kept, ← canonRest_again https]
    -- The result can be one byte longer than the URL, and then the second call copies it.
    by_cases room : (scheme https ++ canonRest https rest).length + 2 ≤ cap'
    · rw [canon_of_fits (schemeOf_scheme https) room, drop_left]
      split
      next shielded => simp [shielded]
      next read => simp [read]
    · rw [length_append] at room
      have short := length_canonRest_le https rest
      have settled : canonRest https (canonRest https rest) = canonRest https rest := by
        by_contra changes
        have := length_canonRest_le_of_changes changes
        omega
      refine iff_of_true ?_ (.inr settled)
      simp only [utilUrlCanon, schemeOf_scheme]
      rw [length_append, if_pos (by omega)]
      apply bounded_of_lt
      rw [length_append]
      omega

theorem canon_canon_sample :
    utilUrlCanon 64 (utilUrlCanon 64 (ascii "HTTP://M.a.b:80?q=%41%2f#t")) =
      utilUrlCanon 64 (ascii "HTTP://M.a.b:80?q=%41%2f#t") :=
  (canon_canon_iff (by decide : schemeOf _ = some false) (by decide) (by decide)).mpr (by decide)

theorem canon_fits {cap : ℕ} {url : Bytes} (room : 0 < cap) (text : 0 ∉ url) :
    0 ∉ utilUrlCanon cap url ∧ (utilUrlCanon cap url ++ [0]).length ≤ cap ∧
      (url.length + 2 ≤ cap → (utilUrlCanon cap url).length ≤ url.length + 1) := by
  have copied : 0 ∉ bounded cap url ∧ (bounded cap url ++ [0]).length ≤ cap ∧
      (url.length + 2 ≤ cap → (bounded cap url).length ≤ url.length + 1) := by
    have short := length_bounded_lt room url
    have part : (bounded cap url).length ≤ url.length := length_take_le' _ _
    rw [length_append, length_singleton]
    exact ⟨fun mem => text (mem_of_mem_take mem), short, fun _ => by omega⟩
  cases http : schemeOf url with
  | none =>
    simp only [utilUrlCanon, http]
    exact copied
  | some https =>
    simp only [utilUrlCanon, http]
    split
    · exact copied
    split
    · exact copied
    · have size := length_url http
      set rest := url.drop (scheme https).length
      have longer := length_canonRest_le https rest
      have clear : 0 ∉ scheme https := by cases https <;> decide
      have nul : 0 ∉ canonRest https rest := nul_canonRest fun mem => text (mem_of_mem_drop mem)
      simp only [length_append, mem_append, not_or, length_singleton]
      exact ⟨⟨clear, nul⟩, by omega, fun _ => by omega⟩

theorem canon_fits_tight :
    0 ∉ utilUrlCanon 19 (ascii "http://M.a.b?%2f#") ∧
      utilUrlCanon 19 (ascii "http://M.a.b?%2f#") = ascii "http://a.b/?%2F" := by
  exact ⟨(canon_fits (by decide) (by decide)).1, by decide⟩

/-- A second pass decodes the triplet that the first one made. -/
theorem not_canon_canon :
    utilUrlCanon 64 (utilUrlCanon 64 (ascii "http://a/%%34%31")) ≠
        utilUrlCanon 64 (ascii "http://a/%%34%31") ∧
      utilUrlCanon 64 (utilUrlCanon 64 (ascii "http://a../")) ≠
        utilUrlCanon 64 (ascii "http://a../") := by
  decide

end Url

end BotManager.UrlCanon
