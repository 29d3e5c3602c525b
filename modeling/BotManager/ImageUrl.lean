import BotManager.CText
import BotManager.TextSearch

/-!
The address of an image found on a page (`acq_resolve_image_url`), and the host it should stay on.

A text is the string of its bytes. An empty text stands for a null pointer as well: the function
treats the two alike, for the reference and for the page. Lengths are not cut to the `int` that
`snprintf` counts in.
-/

namespace BotManager.ImageUrl
open List CText TextSearch

def rootSz : ℕ := 512

def isHostByte (c : UInt8) : Bool := c != 47 && c != 63 && c != 35

def isPathByte (c : UInt8) : Bool := c != 63 && c != 35

/-- The walk that remembers where it saw the last '/'; the start of the path if it saw none. -/
def lastSlash (path : Bytes) : ℕ :=
  (path.foldl (fun (last, walk) c => (if c = 47 then walk else last, walk + 1)) (0, 0)).1

def absolute (src : Bytes) : Bool :=
  strncasecmp 7 src (ascii "http://") || strncasecmp 8 src (ascii "https://")

/-- `acq_resolve_image_url`: what `out` holds where the function returns true. -/
def acqResolveImageUrl (src page : Bytes) (cap : ℕ) : Option Bytes :=
  if src = [] ∨ cap = 0 then none
  else if strncasecmp 5 src (ascii "data:") then none
  else if absolute src then some (bounded cap src)
  else if [47, 47] <+: src then some (bounded cap (ascii "https:" ++ src))
  else match find (ascii "://") page with
    | none => some (bounded cap src)
    | some schemeLen =>
      let start := page.drop (schemeLen + 3)
      let host := start.takeWhile isHostByte
      if rootSz ≤ schemeLen + host.length + 4 then none
      else
        let root := bounded rootSz (page.take schemeLen ++ ascii "://" ++ host)
        if src.head? = some 47 then some (bounded cap (root ++ src))
        else
          let path := (start.drop host.length).takeWhile isPathByte
          -- measured from the start of the host, and printed from there below
          let dirLen := host.length + lastSlash path
          if cap ≤ host.length + dirLen + src.length + 8 then none
          else some (bounded cap (root ++ (start.take dirLen ++ 47 :: src)))

/-! What the result is meant to be. -/

structure PageUrl where
  scheme : Bytes
  host : Bytes
  path : Bytes
  tail : Bytes
  scheme_plain : 58 ∉ scheme
  host_plain : ∀ c ∈ host, isHostByte c = true
  path_rooted : ∀ c ∈ path.head?, c = 47
  path_plain : ∀ c ∈ path, isPathByte c = true
  tail_marked : ∀ c ∈ tail.head?, isPathByte c = false

namespace PageUrl

variable (page : PageUrl)

def origin : Bytes := page.scheme ++ (ascii "://" ++ page.host)

def text : Bytes := page.origin ++ (page.path ++ page.tail)

end PageUrl

def directory (path : Bytes) : Bytes :=
  if path = [] then [47] else (path.reverse.dropWhile (· != 47)).reverse

def expected (page : PageUrl) (src : Bytes) : Bytes :=
  page.origin ++ if src.head? = some 47 then src else directory page.path ++ src

def authority (url : Bytes) : Bytes :=
  match find (ascii "://") url with
  | none => []
  | some schemeLen => (url.drop (schemeLen + 3)).takeWhile isHostByte

/-! Reading a page address. -/

theorem takeWhile_of_stop {p : UInt8 → Bool} {rest : Bytes}
    (stop : ∀ c ∈ rest.head?, p c = false) : rest.takeWhile p = [] := by
  cases rest with
  | nil => rfl
  | cons c rest => exact takeWhile_cons_of_neg (by rw [stop c rfl]; decide)

section Reading

variable (page : PageUrl)

theorem drop_origin : (page.origin ++ rest).drop (page.scheme.length + 3) = page.host ++ rest := by
  have split : page.origin ++ rest = page.scheme ++ ascii "://" ++ (page.host ++ rest) := by
    simp only [PageUrl.origin, append_assoc]
  rw [split]
  exact drop_left' (length_append ..)

theorem find_origin : find (ascii "://") (page.origin ++ rest) = some page.scheme.length := by
  have split : page.origin ++ rest = page.scheme ++ 58 :: ([47, 47] ++ (page.host ++ rest)) := by
    rw [PageUrl.origin, append_assoc, append_assoc]
    rfl
  rw [split]
  exact find_first page.scheme_plain

theorem authority_origin :
    authority (page.origin ++ rest) = page.host ++ rest.takeWhile isHostByte := by
  rw [authority, find_origin]
  exact (congrArg _ (drop_origin page)).trans (takeWhile_append_of_pos page.host_plain)

theorem path_stops : ∀ c ∈ (page.path ++ page.tail).head?, isHostByte c = false := by
  intro c first
  cases path : page.path with
  | nil =>
    rw [path, nil_append] at first
    have mark := page.tail_marked c first
    rw [isPathByte] at mark
    rw [isHostByte, Bool.and_assoc, mark, Bool.and_false]
  | cons d rest =>
    rw [path] at first
    obtain rfl := Option.some.inj first
    rw [page.path_rooted d (by rw [path]; rfl)]
    rfl

theorem host_read : (page.host ++ (page.path ++ page.tail)).takeWhile isHostByte = page.host := by
  rw [takeWhile_append_of_pos page.host_plain, takeWhile_of_stop (path_stops page),
    append_nil]

theorem path_read : (page.path ++ page.tail).takeWhile isPathByte = page.path := by
  rw [takeWhile_append_of_pos page.path_plain, takeWhile_of_stop page.tail_marked,
    append_nil]

end Reading

/-! The directory of a path. -/

theorem walk_length (path : Bytes) (start : ℕ × ℕ) :
    (path.foldl (fun (last, walk) c => (if c = 47 then walk else last, walk + 1)) start).2 =
      start.2 + path.length := by
  induction path generalizing start with
  | nil => rfl
  | cons c path ih =>
    rw [foldl_cons, ih, length_cons]
    exact Nat.add_right_comm ..

theorem lastSlash_append :
    lastSlash (path ++ [c]) = if c = 47 then path.length else lastSlash path := by
  rw [lastSlash, foldl_append, foldl_cons, foldl_nil]
  have here := walk_length path (0, 0)
  rw [Nat.zero_add] at here
  rw [lastSlash]
  simp only [here]

theorem lastSlash_le : lastSlash path ≤ path.length := by
  induction path using reverseRecOn with
  | nil => exact Nat.le_refl 0
  | append_singleton path c ih =>
    rw [lastSlash_append, length_append]
    split <;> omega

theorem take_lastSlash {path : Bytes} (slash : 47 ∈ path) :
    path.take (lastSlash path) ++ [47] = (path.reverse.dropWhile (· != 47)).reverse := by
  induction path using reverseRecOn with
  | nil => cases slash
  | append_singleton path c ih =>
    rw [lastSlash_append, reverse_append, reverse_singleton, singleton_append]
    by_cases here : c = 47
    · subst here
      rw [if_pos rfl, take_left, dropWhile_cons_of_neg (by decide), reverse_cons,
        reverse_reverse]
    · have earlier : 47 ∈ path := by
        rcases mem_append.mp slash with earlier | last
        · exact earlier
        · exact absurd (mem_singleton.mp last).symm here
      rw [if_neg here, take_append_of_le_length lastSlash_le, ih earlier,
        dropWhile_cons_of_pos (by simpa using here)]

variable (page : PageUrl)

theorem directory_eq :
    directory page.path = page.path.take (lastSlash page.path) ++ [47] := by
  rw [directory]
  split
  next empty => rw [empty]; rfl
  next rooted =>
    refine (take_lastSlash ?_).symm
    obtain ⟨c, rest, path⟩ := exists_cons_of_ne_nil rooted
    have first := page.path_rooted c (by rw [path]; rfl)
    rw [path, first]
    exact mem_cons_self

theorem directory_rooted : ∃ rest, directory page.path = 47 :: rest := by
  rw [directory_eq]
  cases path : page.path.take (lastSlash page.path) with
  | nil => exact ⟨[], rfl⟩
  | cons c rest =>
    refine ⟨rest ++ [47], ?_⟩
    have first : page.path.head? = some c := by
      rw [← take_append_drop (lastSlash page.path) page.path, path]
      rfl
    rw [page.path_rooted c first]
    rfl

/-! The resolver on a page address. -/

section Resolve

variable {page : PageUrl} {src : Bytes} {cap : ℕ} {out : Bytes}

theorem length_origin (page : PageUrl) :
    page.origin.length = page.scheme.length + page.host.length + 3 := by
  rw [PageUrl.origin, length_append, length_append]
  exact (Nat.add_assoc ..).symm.trans (Nat.add_right_comm ..)

theorem length_origin_le (page : PageUrl) : page.origin.length ≤ page.text.length := by
  rw [PageUrl.text, length_append]
  exact Nat.le_add_right ..

theorem bounded_origin (short : page.scheme.length + page.host.length < 400) :
    bounded rootSz (page.text.take page.scheme.length ++ ascii "://" ++ page.host) =
      page.origin := by
  have whole : page.text.take page.scheme.length ++ ascii "://" ++ page.host = page.origin := by
    rw [PageUrl.text, PageUrl.origin, append_assoc page.scheme, take_left,
      append_assoc]
  have size := length_origin page
  rw [whole, bounded_of_lt]
  rw [rootSz]
  omega

theorem take_dirLen :
    (page.host ++ (page.path ++ page.tail)).take (page.host.length + lastSlash page.path) ++
        47 :: src = page.host ++ (directory page.path ++ src) := by
  rw [take_length_add_append, take_append_of_le_length lastSlash_le, directory_eq,
    append_assoc, append_assoc]
  rfl

theorem resolved_cases (short : page.scheme.length + page.host.length < 400)
    (single : ¬ [47, 47] <+: src) (returned : acqResolveImageUrl src page.text cap = some out) :
    src ≠ [] ∧
      (absolute src = true ∧ out = bounded cap src ∨
        absolute src = false ∧ src.head? = some 47 ∧ out = bounded cap (page.origin ++ src) ∨
        absolute src = false ∧ src.head? ≠ some 47 ∧
          out = bounded cap (page.origin ++ (page.host ++ (directory page.path ++ src)))) := by
  have found : find (ascii "://") page.text = some page.scheme.length := find_origin page
  have start : page.text.drop (page.scheme.length + 3) = page.host ++ (page.path ++ page.tail) :=
    drop_origin page
  have fits : ¬ rootSz ≤ page.scheme.length + page.host.length + 4 := by
    rw [rootSz]
    omega
  rw [acqResolveImageUrl, found] at returned
  dsimp only at returned
  rw [start, host_read, bounded_origin short, if_neg fits, drop_left, path_read, take_dirLen]
    at returned
  split_ifs at returned with given data named slash
  all_goals
    refine ⟨fun empty => given (.inl empty), ?_⟩
    rw [← Option.some.inj returned]
  · exact .inl ⟨named, rfl⟩
  · exact .inr (.inl ⟨Bool.not_eq_true _ ▸ named, slash, rfl⟩)
  · exact .inr (.inr ⟨Bool.not_eq_true _ ▸ named, slash, rfl⟩)

theorem not_absolute_of_slash (slash : src.head? = some 47) : absolute src = false := by
  obtain ⟨rest, rfl⟩ := head?_eq_some_iff.mp slash
  have other : ∀ n text, strncasecmp (n + 1) (47 :: rest) (104 :: text) = false := by
    intro n text
    rw [strncasecmp, strcasecmp, take_succ_cons, take_succ_cons, map_cons,
      map_cons, decide_eq_false_iff_not]
    intro same
    exact absurd (cons.inj same).1 (by decide)
  exact Bool.or_eq_false_iff.mpr ⟨other 6 _, other 7 _⟩

theorem bounded_after (room : page.origin.length + 1 < cap) (c : UInt8) (rest : Bytes) :
    ∃ kept, bounded cap (page.origin ++ c :: rest) = page.origin ++ c :: kept := by
  obtain ⟨more, size⟩ : ∃ more, cap - 1 = page.origin.length + (more + 1) :=
    ⟨cap - 1 - page.origin.length - 1, by omega⟩
  refine ⟨rest.take more, ?_⟩
  rw [bounded, size, take_length_add_append, take_succ_cons]

theorem relative_leaves_host (room : page.origin.length + 1 < cap) (hosted : page.host ≠ [])
    (rest : Bytes) : ∃ c ∈ page.host, ∃ kept,
      bounded cap (page.origin ++ (page.host ++ rest)) = page.origin ++ c :: kept := by
  obtain ⟨c, others, host⟩ := exists_cons_of_ne_nil hosted
  obtain ⟨kept, cut⟩ := bounded_after room c (others ++ rest)
  refine ⟨c, by rw [host]; exact mem_cons_self, kept, ?_⟩
  rw [← cut, host]
  rfl

end Resolve

/-- When the result is the expected one: the reference begins with '/', or the page has no host
and the buffer takes the whole text. -/
def Right (page : PageUrl) (src : Bytes) (cap : ℕ) : Prop :=
  src.head? = some 47 ∨
    page.host = [] ∧ absolute src = false ∧ (expected page src).length < cap

theorem authority_expected : authority (expected page src) = page.host := by
  rw [expected, authority_origin, takeWhile_of_stop, append_nil]
  intro c first
  split at first
  next slash =>
    cases slash.symm.trans first
    rfl
  next =>
    obtain ⟨rest, rooted⟩ := directory_rooted page
    rw [rooted] at first
    cases first
    rfl

variable {src : Bytes} {cap : ℕ}

theorem expected_relative (relative : src.head? ≠ some 47) :
    expected page src = page.origin ++ (directory page.path ++ src) := by
  rw [expected, if_neg relative]

theorem bounded_eq_self {text : Bytes} (room : 0 < cap) :
    bounded cap text = text ↔ text.length < cap := by
  rw [bounded, take_eq_self_iff]
  omega

theorem hosted_ne_expected {page : PageUrl}
    (room : page.origin.length + 1 < cap) (hosted : page.host ≠ [])
    (relative : src.head? ≠ some 47) :
    bounded cap (page.origin ++ (page.host ++ (directory page.path ++ src))) ≠
      expected page src := by
  obtain ⟨c, mine, kept, cut⟩ := relative_leaves_host room hosted (directory page.path ++ src)
  obtain ⟨rest, rooted⟩ := directory_rooted page
  rw [cut, expected_relative page relative, rooted]
  intro equal
  have first : c = 47 := (cons.inj (append_cancel_left equal)).1
  have plain := page.host_plain c mine
  rw [first] at plain
  cases plain

/-- The result against the expected one, whatever the page's path, query and fragment. A reference
with a scheme in capital letters is one with a scheme to the resolver. -/
theorem resolved_on_page (page : PageUrl) {src : Bytes} {cap : ℕ} {out : Bytes}
    (short : page.scheme.length + page.host.length < 400) (single : ¬ [47, 47] <+: src)
    (room : page.text.length + src.length < cap)
    (returned : acqResolveImageUrl src page.text cap = some out) :
    (out = expected page src ↔ Right page src cap) ∧
      (Right page src cap → authority out = page.host) := by
  have inside := length_origin_le page
  have same : out = expected page src ↔ Right page src cap := by
    obtain ⟨given, named | rooted | relative⟩ := resolved_cases short single returned
    · obtain ⟨named, rfl⟩ := named
      have relative : src.head? ≠ some 47 := by
        intro slash
        rw [not_absolute_of_slash slash] at named
        cases named
      rw [bounded_of_lt (by omega), expected_relative page relative]
      constructor
      · intro equal
        -- the expected text has the whole reference at its end and more before it
        have size := congrArg length equal
        have origin := length_origin page
        simp only [length_append] at size
        omega
      · rintro (slash | ⟨-, unnamed, -⟩)
        · exact absurd slash relative
        · rw [named] at unnamed
          cases unnamed
    · obtain ⟨-, slash, rfl⟩ := rooted
      rw [expected, if_pos slash, bounded_of_lt (by rw [length_append]; omega)]
      exact iff_of_true rfl (.inl slash)
    · obtain ⟨unnamed, relative, rfl⟩ := relative
      by_cases hosted : page.host = []
      · rw [hosted, nil_append, ← expected_relative page relative,
          bounded_eq_self (by omega)]
        constructor
        · exact fun fits => .inr ⟨hosted, unnamed, fits⟩
        · rintro (slash | ⟨-, -, fits⟩)
          · exact absurd slash relative
          · exact fits
      · have nonempty : 0 < src.length := length_pos_iff.mpr given
        refine iff_of_false (hosted_ne_expected (by omega) hosted relative) ?_
        rintro (slash | ⟨hostless, -, -⟩)
        · exact relative slash
        · exact hosted hostless
  refine ⟨same, fun right => ?_⟩
  rw [same.mpr right]
  exact authority_expected page

def samplePage : PageUrl where
  scheme := ascii "http"
  host := ascii "h"
  path := ascii "/d/p.html"
  tail := ascii "?q=/"
  scheme_plain := by decide +kernel
  host_plain := by decide +kernel
  path_rooted := by decide +kernel
  path_plain := by decide +kernel
  tail_marked := by decide +kernel

theorem resolved_on_page_rooted :
    ∃ out, acqResolveImageUrl (ascii "/i.png") samplePage.text 1024 = some out ∧
      out = expected samplePage (ascii "/i.png") ∧ authority out = ascii "h" := by
  have returned : acqResolveImageUrl (ascii "/i.png") samplePage.text 1024 =
      some (ascii "http://h/i.png") := by decide +kernel
  have right : Right samplePage (ascii "/i.png") 1024 := .inl (by decide +kernel)
  obtain ⟨same, host⟩ := resolved_on_page samplePage (by decide +kernel) (by decide +kernel)
    (by decide +kernel) returned
  exact ⟨_, returned, same.mpr right, host right⟩

theorem relative_host_doubled :
    acqResolveImageUrl (ascii "i.png") samplePage.text 1024 = some (ascii "http://hh/d/i.png") ∧
      expected samplePage (ascii "i.png") = ascii "http://h/d/i.png" ∧
      authority (ascii "http://hh/d/i.png") = ascii "hh" := by
  decide +kernel

end BotManager.ImageUrl
