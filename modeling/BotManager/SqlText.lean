import BotManager.CText

/-! String literals in SQL text. A quote inside a literal is doubled; a literal ends at
the first quote that is not followed by another. -/

namespace BotManager.SqlText
open CText

def quote : UInt8 := 39

def doubleQuotes : Bytes → Bytes
  | [] => []
  | c :: rest => if c = quote then quote :: quote :: doubleQuotes rest else c :: doubleQuotes rest

/-- The value of the literal whose body starts here, and the text after its closing quote. -/
def readLiteral : Bytes → Option (Bytes × Bytes)
  | [] => none
  | [c] => if c = quote then some ([], []) else none
  | c :: d :: rest =>
    if c = quote then
      if d = quote then (readLiteral rest).map fun (s, after) => (quote :: s, after)
      else some ([], d :: rest)
    else (readLiteral (d :: rest)).map fun (s, after) => (c :: s, after)

def expect : Bytes → Bytes → Option Bytes
  | [], s => some s
  | _ :: _, [] => none
  | c :: text, d :: s => if c = d then expect text s else none

theorem expect_append : expect text (text ++ s) = some s := by
  induction text with
  | nil => rfl
  | cons c rest ih => simp [expect, ih]

theorem length_doubleQuotes_le (s : Bytes) : (doubleQuotes s).length ≤ 2 * s.length := by
  induction s with
  | nil => simp [doubleQuotes]
  | cons c rest ih =>
    simp only [doubleQuotes]
    split
    · simp only [List.length_cons]
      omega
    · simp only [List.length_cons]
      omega

theorem readLiteral_cons {c : UInt8} (plain : c ≠ quote) {s : Bytes} (more : s ≠ []) :
    readLiteral (c :: s) = (readLiteral s).map fun (t, after) => (c :: t, after) := by
  cases s with
  | nil => exact absurd rfl more
  | cons d rest => rw [readLiteral, if_neg plain]

theorem readLiteral_doubleQuotes {after : Bytes} (ends : after.head? ≠ some quote) :
    readLiteral (doubleQuotes s ++ quote :: after) = some (s, after) := by
  induction s with
  | nil =>
    cases after with
    | nil => rfl
    | cons c rest =>
      have plain : c ≠ quote := by simpa using ends
      simp [doubleQuotes, readLiteral, plain]
  | cons c rest ih =>
    simp only [doubleQuotes]
    split
    next isQuote =>
      simp only [List.cons_append, readLiteral, if_true, ih, Option.map_some, isQuote]
    next plain =>
      rw [List.cons_append, readLiteral_cons plain (by simp), ih, Option.map_some]

end BotManager.SqlText
