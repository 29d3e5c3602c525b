import Mathlib.Data.List.GetD
import BotManager.IrcBuffer

/-! The sender of the irc driver: how a text is cut into lines, and what the emote makes of it. -/

namespace BotManager.IrcSend

open List CText IrcBuffer

def ircPrivmsgLineBudget : ℕ := 400

def ircFoldLineBreaks (line : Bytes) : Bytes := line.map fun b => if b = 13 ∨ b = 10 then 32 else b

def ircSendRaw (body : Bytes) : Bytes := ircFoldLineBreaks (bounded (ircLineSz - 2) body) ++ crlf

def ircUtf8IsCont (b : UInt8) : Bool := b &&& 0xc0 = 0x80

def lastSpace (pos : Bytes) : ℕ → ℕ
  | 0 => 0
  | n + 1 => if pos.getD n 0 = 32 then n + 1 else lastSpace pos n

def backUp (pos : Bytes) : ℕ → ℕ → ℕ
  | 0, chunk => chunk
  | back + 1, chunk =>
    if 1 < chunk ∧ ircUtf8IsCont (pos.getD chunk 0) = true then backUp pos back (chunk - 1)
    else chunk

def chunkOf (maxText : ℕ) (pos : Bytes) : ℕ :=
  if maxText < pos.length then
    if maxText / 2 < lastSpace pos maxText then lastSpace pos maxText else backUp pos 3 maxText
  else pos.length

/-- The loop over what remains; a bound on its turns takes the place of termination. -/
def split (maxText : ℕ) : ℕ → Bytes → Option (List Bytes)
  | 0, pos => if pos = [] then some [] else none
  | turns + 1, pos =>
    if pos = [] then some []
    else (split maxText turns (pos.drop (chunkOf maxText pos))).map
      (bounded ircLineSz (pos.take (chunkOf maxText pos)) :: ·)

def privmsg (target text : Bytes) : Bytes := ascii "PRIVMSG " ++ target ++ ascii " :" ++ text

/-- Success and the lines sent. A target that leaves no room for text fails the second test. -/
def ircSendPrivmsg (turns : ℕ) (target text : Bytes) : Option (Bool × List Bytes) :=
  if ircPrivmsgLineBudget < 10 + target.length + 2 then some (false, [])
  else
    let maxText := ircPrivmsgLineBudget - 10 - target.length
    if text.length ≤ maxText then some (true, [ircSendRaw (privmsg target text)])
    else (split maxText turns text).map fun ps => (true, ps.map (ircSendRaw <| privmsg target ·))

def action (text : Bytes) : Bytes := 1 :: ascii "ACTION " ++ text ++ [1]

def ircSendEmote (turns : ℕ) (target text : Bytes) : Option (Bool × List Bytes) :=
  ircSendPrivmsg turns target (bounded ircLineSz (action text))

section Characters

def encode (cs : List Char) : Bytes := cs.flatMap String.utf8EncodeChar

def Utf8 (s : Bytes) : Prop := ∃ cs, s = encode cs

theorem isCont_iff (b : UInt8) : ircUtf8IsCont b = true ↔ 128 ≤ b.toNat ∧ b.toNat < 192 := by
  have all : ∀ n : Fin 256, ircUtf8IsCont (UInt8.ofNat n) = true ↔ 128 ≤ n.val ∧ n.val < 192 := by
    decide +kernel
  have here := all ⟨b.toNat, b.toNat_lt⟩
  rwa [UInt8.ofNat_toNat] at here

theorem encode_char (c : Char) : ∃ lead conts, String.utf8EncodeChar c = lead :: conts ∧
    ircUtf8IsCont lead = false ∧ conts.length ≤ 3 ∧ (∀ b ∈ conts, ircUtf8IsCont b = true) ∧
    (lead.toNat < 128 → conts = [] ∧ lead.toNat = c.val.toNat) := by
  unfold String.utf8EncodeChar
  simp only [← Bool.not_eq_true, isCont_iff]
  split_ifs
  all_goals
    refine ⟨_, _, rfl, ?_⟩
    simp only [forall_mem_cons, UInt8.toNat_ofNat', length_cons, length_nil, not_mem_nil,
      false_implies, implies_true, and_true, true_and, reduceCtorEq, false_and]
    omega

variable {cs a b : List Char} {c : Char} {n : ℕ}

theorem encode_append : encode (a ++ b) = encode a ++ encode b := flatMap_append

theorem getD_char {k : ℕ} (inside : k < (String.utf8EncodeChar c).length) :
    k ≤ 3 ∧ (ircUtf8IsCont ((String.utf8EncodeChar c).getD k 0) = false ↔ k = 0) := by
  obtain ⟨lead, conts, eq, start, few, tail, -⟩ := encode_char c
  rw [eq] at inside ⊢
  rw [length_cons] at inside
  cases k with
  | zero => exact ⟨Nat.zero_le 3, iff_of_true start rfl⟩
  | succ k =>
    have mem : conts.getD k 0 ∈ conts := by
      rw [getD_eq_getElem _ _ (by omega)]
      exact getElem_mem _
    refine ⟨by omega, iff_of_false ?_ (by omega)⟩
    rw [getD_cons_succ, tail _ mem]
    decide

theorem utf8_split {a b : List Char} :
    Utf8 ((encode (a ++ b)).take (encode a).length) ∧
      Utf8 ((encode (a ++ b)).drop (encode a).length) := by
  rw [encode_append, take_left, drop_left]
  exact ⟨⟨a, rfl⟩, ⟨b, rfl⟩⟩

variable (inside : n < (encode cs).length)
include inside

theorem covering :
    ∃ a c b k, cs = a ++ c :: b ∧ n = (encode a).length + k ∧
      k < (String.utf8EncodeChar c).length ∧
      (encode cs).getD n 0 = (String.utf8EncodeChar c).getD k 0 := by
  induction cs generalizing n with
  | nil => cases inside
  | cons c cs ih =>
    have first : encode (c :: cs) = String.utf8EncodeChar c ++ encode cs := rfl
    rw [first] at inside ⊢
    by_cases here : n < (String.utf8EncodeChar c).length
    · exact ⟨[], c, cs, n, rfl, (Nat.zero_add n).symm, here, getD_append _ _ _ _ here⟩
    · rw [length_append] at inside
      obtain ⟨a, d, b, k, rfl, place, within, same⟩ :=
        ih (n := n - (String.utf8EncodeChar c).length) (by omega)
      refine ⟨c :: a, d, b, k, rfl, ?_, within, ?_⟩
      · rw [show encode (c :: a) = String.utf8EncodeChar c ++ encode a from rfl, length_append]
        omega
      · rw [getD_append_right _ _ _ _ (by omega), same]

theorem utf8_cut
    (start : ircUtf8IsCont ((encode cs).getD n 0) = false) :
    ∃ a c b, cs = a ++ c :: b ∧ n = (encode a).length ∧
      (encode cs).getD n 0 = (String.utf8EncodeChar c).getD 0 0 := by
  obtain ⟨a, c, b, k, rfl, rfl, within, same⟩ := covering inside
  rw [same] at start
  obtain rfl := (getD_char within).2.mp start
  exact ⟨a, c, b, rfl, rfl, same⟩

theorem utf8_near :
    ∃ j ≤ 3, j ≤ n ∧ ircUtf8IsCont ((encode cs).getD (n - j) 0) = false := by
  obtain ⟨a, c, b, k, rfl, rfl, within, -⟩ := covering inside
  refine ⟨k, (getD_char within).1, Nat.le_add_left .., ?_⟩
  have zero : 0 < (String.utf8EncodeChar c).length := by omega
  have front : encode (a ++ c :: b) = encode a ++ (String.utf8EncodeChar c ++ encode b) :=
    encode_append
  rw [Nat.add_sub_cancel, front, getD_append_right _ _ _ _ le_rfl, Nat.sub_self,
    getD_append _ _ _ _ zero]
  exact (getD_char zero).2.mpr rfl

theorem utf8_after_space (space : (encode cs).getD n 0 = 32) :
    Utf8 ((encode cs).take (n + 1)) ∧ Utf8 ((encode cs).drop (n + 1)) := by
  obtain ⟨a, c, b, rfl, rfl, same⟩ := utf8_cut inside (by rw [space]; decide)
  obtain ⟨lead, conts, eq, -, -, -, single⟩ := encode_char c
  rw [eq, space] at same
  obtain rfl : 32 = lead := same
  have whole : encode (a ++ [c]) = encode a ++ [32] := by
    rw [encode_append, encode, encode, flatMap_singleton, eq, (single (by decide)).1]
  have length : (encode a).length + 1 = (encode (a ++ [c])).length := by
    rw [whole, length_append, length_singleton]
  rw [length, append_cons a c b]
  exact utf8_split

end Characters

variable {turns : ℕ} {s target text : Bytes}

section Cut

variable {pos : Bytes} {maxText : ℕ}

theorem lastSpace_spec (pos : Bytes) (n : ℕ) : lastSpace pos n ≤ n ∧
    (0 < lastSpace pos n → pos.getD (lastSpace pos n - 1) 0 = 32) := by
  induction n with
  | zero => exact ⟨le_rfl, fun pos => absurd pos (lt_irrefl 0)⟩
  | succ n ih =>
    rw [lastSpace]
    split_ifs with space
    · exact ⟨le_rfl, fun _ => space⟩
    · exact ⟨ih.1.trans (Nat.le_succ n), ih.2⟩

theorem backUp_spec (pos : Bytes) (back chunk : ℕ) : backUp pos back chunk ≤ chunk ∧
    (0 < chunk → 0 < backUp pos back chunk) ∧
    ((∃ j ≤ back, j < chunk ∧ ircUtf8IsCont (pos.getD (chunk - j) 0) = false) →
      ircUtf8IsCont (pos.getD (backUp pos back chunk) 0) = false) := by
  induction back generalizing chunk with
  | zero =>
    refine ⟨le_rfl, id, ?_⟩
    rintro ⟨j, none, -, start⟩
    obtain rfl := Nat.le_zero.mp none
    exact start
  | succ back ih =>
    rw [backUp]
    split_ifs with inside
    · obtain ⟨le, pos, stops⟩ := ih (chunk - 1)
      refine ⟨by omega, fun _ => pos (by omega), ?_⟩
      rintro ⟨j, few, short, start⟩
      cases j with
      | zero =>
        rw [Nat.sub_zero, inside.2] at start
        cases start
      | succ j =>
        refine stops ⟨j, by omega, by omega, ?_⟩
        rwa [Nat.sub_sub, Nat.add_comm 1 j]
    · refine ⟨le_rfl, id, ?_⟩
      rintro ⟨j, -, short, start⟩
      rw [not_and, Bool.not_eq_true] at inside
      by_cases one : 1 < chunk
      · exact inside one
      · obtain rfl : j = 0 := by omega
        exact start

theorem chunkOf_spec (room : 4 ≤ maxText) (more : pos ≠ []) :
    0 < chunkOf maxText pos ∧ chunkOf maxText pos ≤ maxText ∧ (Utf8 pos →
      Utf8 (pos.take (chunkOf maxText pos)) ∧ Utf8 (pos.drop (chunkOf maxText pos))) := by
  have size := length_pos_iff.mpr more
  unfold chunkOf
  split_ifs with long wide
  · obtain ⟨le, space⟩ := lastSpace_spec pos maxText
    refine ⟨by omega, le, ?_⟩
    rintro ⟨cs, rfl⟩
    have after := utf8_after_space (n := lastSpace (encode cs) maxText - 1) (by omega)
      (space (by omega))
    rwa [Nat.sub_add_cancel (by omega)] at after
  · obtain ⟨le, some, stops⟩ := backUp_spec pos 3 maxText
    refine ⟨some (by omega), le, ?_⟩
    rintro ⟨cs, rfl⟩
    obtain ⟨j, few, -, start⟩ := utf8_near (n := maxText) long
    obtain ⟨a, c, b, rfl, cut, -⟩ := utf8_cut (by omega) (stops ⟨j, few, by omega, start⟩)
    rw [cut]
    exact utf8_split
  · refine ⟨size, not_lt.mp long, fun valid => ?_⟩
    rw [take_length, drop_length]
    exact ⟨valid, [], rfl⟩

theorem split_spec (room : 4 ≤ maxText) (short : maxText < ircLineSz)
    (enough : pos.length ≤ turns) :
    ∃ ps, split maxText turns pos = some ps ∧ ps.flatten = pos ∧
      ∀ p ∈ ps, p ≠ [] ∧ p.length ≤ maxText ∧ (Utf8 pos → Utf8 p) := by
  induction turns generalizing pos with
  | zero =>
    obtain rfl := length_eq_zero_iff.mp (Nat.le_zero.mp enough)
    exact ⟨[], rfl, rfl, forall_mem_nil _⟩
  | succ turns ih =>
    rw [split]
    split_ifs with none
    · exact ⟨[], rfl, none.symm, forall_mem_nil _⟩
    · obtain ⟨some, fits, valid⟩ := chunkOf_spec room none
      have piece : (pos.take (chunkOf maxText pos)).length ≤ maxText :=
        (length_take_le ..).trans fits
      have shorter : (pos.drop (chunkOf maxText pos)).length ≤ turns := by
        rw [length_drop]
        omega
      obtain ⟨ps, rest, whole, each⟩ := ih shorter
      refine ⟨pos.take (chunkOf maxText pos) :: ps, ?_, ?_, forall_mem_cons.mpr ⟨⟨?_, piece, ?_⟩, ?_⟩⟩
      · rw [rest, bounded_of_lt (by omega)]
        rfl
      · rw [flatten_cons, whole, take_append_drop]
      · rw [Ne, take_eq_nil_iff]
        exact not_or.mpr ⟨some.ne', none⟩
      · exact fun good => (valid good).1
      · exact fun p mem => ⟨(each p mem).1, (each p mem).2.1,
          fun good => (each p mem).2.2 (valid good).2⟩

end Cut

section Lines

def NoBreak (s : Bytes) : Prop := ∀ b ∈ s, b ≠ 13 ∧ b ≠ 10

theorem fold_of_noBreak (plain : NoBreak s) : ircFoldLineBreaks s = s := by
  refine (map_congr_left fun b mem => if_neg ?_).trans (map_id s)
  exact not_or.mpr (plain b mem)

theorem noBreak_fold : NoBreak (ircFoldLineBreaks s) := by
  intro b mem
  obtain ⟨x, -, rfl⟩ := mem_map.mp mem
  split_ifs with line
  · decide
  · exact not_or.mp line

theorem fold_append {a b : Bytes} :
    ircFoldLineBreaks (a ++ b) = ircFoldLineBreaks a ++ ircFoldLineBreaks b := map_append

theorem length_privmsg (target text : Bytes) :
    (privmsg target text).length = 10 + target.length + text.length := by
  have first : (ascii "PRIVMSG ").length = 8 := by decide
  have second : (ascii " :").length = 2 := by decide
  simp only [privmsg, length_append, first, second]
  omega

theorem noBreak_privmsg (clean : NoBreak target) (plain : NoBreak text) :
    NoBreak (privmsg target text) := by
  have first : NoBreak (ascii "PRIVMSG ") := by unfold NoBreak; decide +kernel
  have second : NoBreak (ascii " :") := by unfold NoBreak; decide +kernel
  exact forall_mem_append.mpr
    ⟨forall_mem_append.mpr ⟨forall_mem_append.mpr ⟨first, clean⟩, second⟩, plain⟩

theorem sendRaw_eq {p : Bytes} (fits : target.length + p.length ≤ 390) :
    ircSendRaw (privmsg target p) =
      ircFoldLineBreaks (privmsg target []) ++ ircFoldLineBreaks p ++ crlf := by
  have size := length_privmsg target p
  have parts : privmsg target p = privmsg target [] ++ p := by simp [privmsg]
  rw [ircSendRaw, bounded_of_lt (by rw [ircLineSz]; omega), parts, fold_append]

theorem sendRaw_privmsg {p : Bytes} (clean : NoBreak target)
    (fits : target.length + p.length ≤ 390) :
    ircSendRaw (privmsg target p) = privmsg target (ircFoldLineBreaks p) ++ crlf := by
  have head : NoBreak (privmsg target []) := noBreak_privmsg clean (forall_mem_nil _)
  rw [sendRaw_eq fits, fold_of_noBreak head]
  simp [privmsg]

theorem fold_char (c : Char) :
    ∃ d, ircFoldLineBreaks (String.utf8EncodeChar c) = String.utf8EncodeChar d := by
  by_cases line : c.val.toNat = 13 ∨ c.val.toNat = 10
  · refine ⟨' ', ?_⟩
    unfold String.utf8EncodeChar
    rcases line with line | line <;> rw [line] <;> decide
  · refine ⟨c, fold_of_noBreak ?_⟩
    obtain ⟨lead, conts, eq, -, -, tail, single⟩ := encode_char c
    rw [eq]
    refine forall_mem_cons.mpr ⟨?_, fun b mem => ?_⟩
    · constructor
      · rintro rfl
        exact line (.inl (single (by decide)).2.symm)
      · rintro rfl
        exact line (.inr (single (by decide)).2.symm)
    · have high := (isCont_iff b).mp (tail b mem)
      constructor <;> rintro rfl <;> simp at high

theorem utf8_fold (valid : Utf8 s) : Utf8 (ircFoldLineBreaks s) := by
  obtain ⟨cs, rfl⟩ := valid
  induction cs with
  | nil => exact ⟨[], rfl⟩
  | cons c cs ih =>
    obtain ⟨d, first⟩ := fold_char c
    obtain ⟨ds, rest⟩ := ih
    refine ⟨d :: ds, ?_⟩
    rw [show encode (c :: cs) = String.utf8EncodeChar c ++ encode cs from rfl, fold_append, first,
      rest]
    rfl

structure Lossless (target text : Bytes) (pieces : List Bytes) : Prop where
  whole : pieces.flatten = ircFoldLineBreaks text
  some : text ≠ [] → ∀ p ∈ pieces, p ≠ []
  budget : ∀ p ∈ pieces, (privmsg target p).length ≤ ircPrivmsgLineBudget
  single : ∀ p ∈ pieces, NoBreak (privmsg target p)
  characters : Utf8 text → ∀ p ∈ pieces, Utf8 p

theorem sendPrivmsg_eq (short : target.length ≤ 388) :
    ircSendPrivmsg turns target text =
      if text.length ≤ 390 - target.length then some (true, [ircSendRaw (privmsg target text)])
      else (split (390 - target.length) turns text).map fun ps =>
        (true, ps.map (ircSendRaw <| privmsg target ·)) := by
  have room : ¬ ircPrivmsgLineBudget < 10 + target.length + 2 := by
    rw [ircPrivmsgLineBudget]
    omega
  unfold ircSendPrivmsg
  rw [if_neg room]
  rfl

theorem privmsg_pieces (short : target.length ≤ 386)
    (enough : text.length ≤ turns) : ∃ ps : List Bytes, ircSendPrivmsg turns target text =
        some (true, ps.map (ircSendRaw <| privmsg target ·)) ∧ ps.flatten = text ∧
      ∀ p ∈ ps, (text ≠ [] → p ≠ []) ∧ target.length + p.length ≤ 390 ∧ (Utf8 text → Utf8 p) := by
  rw [sendPrivmsg_eq (by omega)]
  split_ifs with fits
  · exact ⟨[text], rfl, by simp, forall_mem_singleton.mpr ⟨id, by omega, id⟩⟩
  · have room : 4 ≤ 390 - target.length := by omega
    obtain ⟨ps, cut, whole, each⟩ := split_spec room (by rw [ircLineSz]; omega) enough
    refine ⟨ps, by rw [cut]; rfl, whole, fun p mem => ?_⟩
    obtain ⟨some, within, valid⟩ := each p mem
    exact ⟨fun _ => some, by omega, valid⟩

theorem privmsg_lossless (target text : Bytes) (short : target.length ≤ 386)
    (clean : NoBreak target) (turns : ℕ) (enough : text.length ≤ turns) :
    ∃ pieces, ircSendPrivmsg turns target text =
        some (true, pieces.map fun p => privmsg target p ++ crlf) ∧
      Lossless target text pieces := by
  obtain ⟨ps, sent, whole, each⟩ := privmsg_pieces short enough
  refine ⟨ps.map ircFoldLineBreaks, ?_, ?_, ?_, ?_, ?_, ?_⟩
  · rw [sent, map_map]
    refine congrArg _ (congrArg _ (map_congr_left fun p mem => ?_))
    exact sendRaw_privmsg clean (each p mem).2.1
  · rw [← whole, ircFoldLineBreaks, map_flatten]
    rfl
  · refine fun more => forall_mem_map.mpr fun p mem none => (each p mem).1 more ?_
    exact map_eq_nil_iff.mp none
  · refine forall_mem_map.mpr fun p mem => ?_
    have := (each p mem).2.1
    rw [length_privmsg, ircFoldLineBreaks, length_map, ircPrivmsgLineBudget]
    omega
  · exact forall_mem_map.mpr fun p _ => noBreak_privmsg clean noBreak_fold
  · exact fun valid => forall_mem_map.mpr fun p mem => utf8_fold ((each p mem).2.2 valid)

def twoWords : Bytes := replicate 300 97 ++ 32 :: replicate 200 98

theorem privmsg_lossless_two_lines : ircSendPrivmsg 501 (ascii "#c") twoWords =
    some (true, [privmsg (ascii "#c") (replicate 300 97 ++ [32]) ++ crlf,
      privmsg (ascii "#c") (replicate 200 98) ++ crlf]) ∧
      ∃ pieces, Lossless (ascii "#c") twoWords pieces := by
  obtain ⟨pieces, -, lossless⟩ := privmsg_lossless (ascii "#c") twoWords (by decide)
    (by unfold NoBreak; decide +kernel) 501 (by decide +kernel)
  exact ⟨by decide +kernel, pieces, lossless⟩

end Lines

section Emote

def emoteLine (target body : Bytes) : Bytes :=
  ircFoldLineBreaks (privmsg target []) ++ action body ++ crlf

/-- Every line is a complete CTCP ACTION, and their bodies are the text. -/
def Complete (target text : Bytes) (sent : Option (Bool × List Bytes)) : Prop :=
  ∃ bodies : List Bytes, sent = some (true, bodies.map (emoteLine target)) ∧ bodies.flatten = text

theorem length_action (text : Bytes) : (action text).length = text.length + 9 := by
  have head : (ascii "ACTION ").length = 7 := by decide
  simp only [action, length_append, length_cons, head, length_nil]
  omega

theorem noBreak_action (plain : ∀ b ∈ text, 32 ≤ b) : NoBreak (action text) := by
  have first : NoBreak (1 :: ascii "ACTION ") := by unfold NoBreak; decide +kernel
  have last : NoBreak [1] := by unfold NoBreak; decide +kernel
  refine forall_mem_append.mpr ⟨forall_mem_append.mpr ⟨first, fun b mem => ?_⟩, last⟩
  have := plain b mem
  constructor <;> rintro rfl <;> simp at this

theorem action_torn {p rest body : Bytes} (plain : ∀ b ∈ text, 32 ≤ b)
    (front : p ++ rest <+: action text) (more : rest ≠ []) : p ≠ action body := by
  rintro rfl
  have unmarked : ∀ b ∈ ascii "ACTION " ++ text, b ≠ 1 := by
    have head : ∀ b ∈ ascii "ACTION ", b ≠ 1 := by decide +kernel
    refine forall_mem_append.mpr ⟨head, fun b mem => ?_⟩
    rintro rfl
    exact absurd (plain 1 mem) (by decide)
  obtain ⟨tail, whole⟩ := front
  rw [append_assoc] at whole
  have shorter : rest ++ tail ≠ [] := by simp [more]
  have inner : ascii "ACTION " ++ body ++ [1] ++ (rest ++ tail) = ascii "ACTION " ++ text ++ [1] :=
    (cons.inj whole).2
  obtain ⟨init, last, split⟩ : ∃ init last, rest ++ tail = init ++ [last] :=
    ⟨_, _, (dropLast_append_getLast shorter).symm⟩
  rw [split, ← append_assoc] at inner
  have same := (append_inj' inner rfl).1
  exact unmarked 1 (same ▸ by simp) rfl

theorem fits_of_complete (short : target.length ≤ 300) (plain : ∀ b ∈ text, 32 ≤ b)
    (enough : text.length + 9 ≤ turns)
    (complete : Complete target text (ircSendEmote turns target text)) :
    text.length + 9 ≤ 390 - target.length := by
  obtain ⟨bodies, sent, -⟩ := complete
  have size := length_action text
  by_contra long
  have front : bounded ircLineSz (action text) <+: action text := take_prefix ..
  have framed : 390 - target.length < (bounded ircLineSz (action text)).length := by
    rw [bounded, length_take, ircLineSz]
    omega
  have shortEnough : (bounded ircLineSz (action text)).length ≤ turns :=
    front.length_le.trans (by omega)
  obtain ⟨ps, pieces, whole, each⟩ :=
    privmsg_pieces (show target.length ≤ 386 by omega) shortEnough
  rw [ircSendEmote, pieces] at sent
  have lines := (Prod.mk.inj (Option.some.inj sent)).2
  cases ps with
  | nil => simp [← whole] at framed
  | cons p ps =>
    have fits := (each p mem_cons_self).2.1
    rw [flatten_cons] at whole
    rw [← whole] at front framed
    have inner : NoBreak p := fun b mem =>
      noBreak_action plain b (front.subset (mem_append_left _ mem))
    -- The first piece of a longer text is not the whole of it.
    have more : ps.flatten ≠ [] := by
      intro none
      rw [none, append_nil] at framed
      omega
    rw [map_cons, sendRaw_eq fits, fold_of_noBreak inner] at lines
    cases bodies with
    | nil => cases lines
    | cons body bodies =>
      have same := append_cancel_right (cons.inj lines).1
      exact action_torn plain front more (append_cancel_left same)

/-- An emote stays an emote exactly when its framed text fits one line. -/
theorem emote_complete_iff (target text : Bytes) (short : target.length ≤ 300)
    (plain : ∀ b ∈ text, 32 ≤ b) (turns : ℕ) (enough : text.length + 9 ≤ turns) :
    Complete target text (ircSendEmote turns target text) ↔
      text.length + 9 ≤ 390 - target.length := by
  refine ⟨fits_of_complete short plain enough, fun fits => ?_⟩
  have size := length_action text
  refine ⟨[text], ?_, by simp⟩
  rw [ircSendEmote, bounded_of_lt (by rw [ircLineSz]; omega), sendPrivmsg_eq (by omega),
    if_pos (by omega), sendRaw_eq (by omega), fold_of_noBreak (noBreak_action plain)]
  simp [emoteLine]

theorem emote_complete_waves :
    Complete (ascii "#c") (ascii "waves") (ircSendEmote 14 (ascii "#c") (ascii "waves")) :=
  (emote_complete_iff (ascii "#c") (ascii "waves") (by decide) (by decide +kernel) 14
    (by decide)).mpr (by decide)

/-- Four hundred letters: the first of two lines has no closing marker. -/
theorem long_emote_torn : ∃ first second,
    ircSendEmote 409 (ascii "#c") (replicate 400 97) = some (true, [first, second]) ∧
      ¬ 1 :: crlf <:+ first :=
  ⟨ircSendRaw (privmsg (ascii "#c") ((action (replicate 400 97)).take 388)),
    ircSendRaw (privmsg (ascii "#c") ((action (replicate 400 97)).drop 388)),
    by decide +kernel, by decide +kernel⟩

end Emote

end BotManager.IrcSend
