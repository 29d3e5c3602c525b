import BotManager.CText
import Mathlib.Data.List.Infix

/-! The fact block of the encyclopedia path, written piece by piece into a bounded buffer.
A value that does not fit ends the values of its fact and not the block: the end of the line
is tried behind it. -/

namespace BotManager.WikiFacts
open List CText

inductive ValueKind
  | text | unknown | none

structure Value where
  kind : ValueKind
  text : Bytes

structure Fact where
  property : Bytes
  label : Bytes
  values : List Value
  total : ℕ

structure FactsRes where
  qid : Bytes
  label : Bytes
  description : Bytes
  facts : List Fact

def acqWikiValue (v : Value) : Bytes :=
  match v.kind with
  | .unknown => ascii "(not recorded)"
  | .none => ascii "(none)"
  | .text => v.text

def dash : Bytes := [32, 226, 128, 148, 32]

def header (res : FactsRes) : Bytes :=
  ascii "Wikidata facts for " ++ (if res.label ≠ [] then res.label else res.qid) ++ ascii " (" ++
    res.qid ++ ascii ")" ++ (if res.description ≠ [] then dash else []) ++ res.description ++
    ascii "\n"

section Line
variable (f : Fact)

def opening : Bytes := ascii "- " ++ (if f.label ≠ [] then f.label else f.property) ++ ascii ":"

def ending : Bytes :=
  if f.values.length < f.total then
    ascii " (+" ++ natText (f.total - f.values.length) ++ ascii " more)\n"
  else ascii "\n"

def valuesText (sep : Bytes) : List Value → Bytes
  | [] => []
  | v :: rest => sep ++ ascii " " ++ acqWikiValue v ++ valuesText (ascii ";") rest

def factLine : Bytes := opening f ++ valuesText [] f.values ++ ending f

end Line

section Render
variable (cap : ℕ)

/-- `snprintf (out + at, cap - at, …)` behind the `at` bytes of `out`: `none` when the text
and its NUL do not fit. -/
def put (out text : Bytes) : Option Bytes :=
  if text.length < cap - out.length then some (out ++ text) else none

def putValues (out sep : Bytes) : List Value → Bytes
  | [] => out
  | v :: rest =>
    match put cap out (sep ++ ascii " " ++ acqWikiValue v) with
    | some next => putValues next (ascii ";") rest
    | none => out

def putFacts (out : Bytes) : List Fact → Bytes
  | [] => out
  | f :: rest =>
    if f.values = [] then putFacts out rest
    else
      match put cap out (opening f) with
      | none => out
      | some started =>
        let valued := putValues cap started [] f.values
        match put cap valued (ending f) with
        | none => valued
        | some next => putFacts next rest

def acqWikiRenderFacts (res : FactsRes) : Bytes :=
  match put cap [] (header res) with
  | none => []
  | some out => putFacts cap out res.facts

/-- The block is empty, or the header with the complete lines of the first facts that have
values. -/
def Whole (res : FactsRes) (block : Bytes) : Prop :=
  block = [] ∨ ∃ shown ∈ (res.facts.filter fun f => !f.values.isEmpty).inits,
    block = header res ++ shown.flatMap factLine

instance (res : FactsRes) (block : Bytes) : Decidable (Whole res block) :=
  inferInstanceAs (Decidable (_ ∨ ∃ shown ∈ _, _))

/-- Behind `used` bytes, the first fact whose line does not fit has no room for its label
either. -/
def Clean (used : ℕ) : List Fact → Prop
  | [] => True
  | f :: rest =>
    if f.values = [] then Clean used rest
    else cap ≤ used + (opening f).length ∨
      used + (factLine f).length < cap ∧ Clean (used + (factLine f).length) rest

variable {cap} {out text : Bytes}

theorem put_fits (fits : out.length + text.length < cap) : put cap out text = some (out ++ text) :=
  if_pos (by omega)

theorem put_full (full : cap ≤ out.length + text.length) : put cap out text = none :=
  if_neg (by omega)

theorem putValues_fits {sep : Bytes} {values : List Value}
    (fits : out.length + (valuesText sep values).length < cap) :
    putValues cap out sep values = out ++ valuesText sep values := by
  induction values generalizing out sep with
  | nil => simp [putValues, valuesText]
  | cons v rest ih =>
    rw [valuesText] at fits ⊢
    rw [length_append] at fits
    rw [putValues, put_fits (by omega)]
    show putValues cap _ _ rest = _
    rw [ih (by rw [length_append]; omega), append_assoc]

theorem length_of_put {next : Bytes} (done : put cap out text = some next) :
    next.length = out.length + text.length ∧ next.length < cap := by
  unfold put at done
  split_ifs at done with fits
  cases done
  rw [length_append]
  omega

theorem length_putValues (room : out.length < cap) (sep : Bytes) (values : List Value) :
    out.length ≤ (putValues cap out sep values).length ∧
      (putValues cap out sep values).length < cap := by
  induction values generalizing out sep with
  | nil => exact ⟨le_rfl, room⟩
  | cons v rest ih =>
    rw [putValues]
    split
    next next done =>
      obtain ⟨size, fits⟩ := length_of_put done
      obtain ⟨longer, below⟩ := ih fits (ascii ";")
      exact ⟨by omega, below⟩
    · exact ⟨le_rfl, room⟩

theorem length_putFacts (room : out.length < cap) (facts : List Fact) :
    out.length ≤ (putFacts cap out facts).length ∧ (putFacts cap out facts).length < cap := by
  induction facts generalizing out with
  | nil => exact ⟨le_rfl, room⟩
  | cons f rest ih =>
    rw [putFacts]
    split_ifs with empty
    · exact ih room
    split
    · exact ⟨le_rfl, room⟩
    next started done =>
      obtain ⟨size, fits⟩ := length_of_put done
      obtain ⟨longer, below⟩ := length_putValues fits [] f.values
      dsimp only
      split
      · exact ⟨by omega, below⟩
      next next ended =>
        obtain ⟨size, fits⟩ := length_of_put ended
        obtain ⟨further, below⟩ := ih fits
        exact ⟨by omega, below⟩

section Step
variable {f : Fact} (valued : f.values ≠ []) (rest : List Fact)
include valued

theorem putFacts_full (full : cap ≤ out.length + (opening f).length) :
    putFacts cap out (f :: rest) = out := by
  rw [putFacts, if_neg valued, put_full full]

theorem putFacts_fits (fits : out.length + (factLine f).length < cap) :
    putFacts cap out (f :: rest) = putFacts cap (out ++ factLine f) rest := by
  have line : (factLine f).length =
      (opening f).length + (valuesText [] f.values).length + (ending f).length := by
    rw [factLine, length_append, length_append]
  have block : out ++ opening f ++ valuesText [] f.values ++ ending f = out ++ factLine f := by
    simp only [factLine, append_assoc]
  rw [putFacts, if_neg valued, put_fits (by omega)]
  dsimp only
  rw [putValues_fits (by rw [length_append]; omega),
    put_fits (by simp only [length_append]; omega), block]

theorem putFacts_started (label : out.length + (opening f).length < cap) :
    out.length < (putFacts cap out (f :: rest)).length := by
  have some : 0 < (opening f).length := by simp [opening, ascii]
  have started : (out ++ opening f).length < cap := by rwa [length_append]
  obtain ⟨longer, below⟩ := length_putValues started [] f.values
  rw [length_append] at longer
  rw [putFacts, if_neg valued, put_fits label]
  dsimp only
  split
  · omega
  next next ended =>
    obtain ⟨size, fits⟩ := length_of_put ended
    have := (length_putFacts fits rest).1
    omega

end Step

theorem putFacts_clean {facts : List Fact} (clean : Clean cap out.length facts) :
    ∃ shown ∈ (facts.filter fun f => !f.values.isEmpty).inits,
      putFacts cap out facts = out ++ shown.flatMap factLine := by
  induction facts generalizing out with
  | nil => exact ⟨[], by simp, by simp [putFacts]⟩
  | cons f rest ih =>
    rw [Clean] at clean
    split_ifs at clean with empty
    · rw [filter_cons_of_neg (by simp [empty]), putFacts, if_pos empty]
      exact ih clean
    · obtain full | ⟨fits, clean⟩ := clean
      · rw [putFacts_full empty rest full]
        exact ⟨[], by simp, by simp⟩
      · rw [putFacts_fits empty rest fits]
        rw [← length_append] at clean
        obtain ⟨shown, first, same⟩ := ih clean
        refine ⟨f :: shown, ?_, ?_⟩
        · rw [filter_cons_of_pos (by simp [empty]), mem_inits]
          exact (prefix_cons_inj f).mpr ((mem_inits _ _).mp first)
        · rw [same, flatMap_cons, append_assoc]

theorem clean_of_length {facts shown : List Fact} (room : out.length < cap)
    (first : shown <+: facts.filter fun f => !f.values.isEmpty)
    (same : (putFacts cap out facts).length = out.length + (shown.flatMap factLine).length) :
    Clean cap out.length facts := by
  induction facts generalizing out shown with
  | nil => trivial
  | cons f rest ih =>
    rw [Clean]
    split_ifs with empty
    · rw [filter_cons_of_neg (by simp [empty])] at first
      rw [putFacts, if_pos empty] at same
      exact ih room first same
    · by_cases label : cap ≤ out.length + (opening f).length
      · exact .inl label
      · have left := putFacts_started empty rest (not_le.mp label)
        have below := (length_putFacts room (f :: rest)).2
        rw [filter_cons_of_pos (by simp [empty])] at first
        cases shown with
        | nil =>
          rw [flatMap_nil, length_nil] at same
          omega
        | cons g shown =>
          obtain ⟨rfl, later⟩ := cons_prefix_cons.mp first
          rw [flatMap_cons, length_append] at same
          have fits : out.length + (factLine g).length < cap := by omega
          have longer : (out ++ factLine g).length < cap := by rwa [length_append]
          rw [putFacts_fits empty rest fits] at same
          refine .inr ⟨fits, ?_⟩
          rw [← length_append]
          refine ih longer later ?_
          rw [length_append]
          omega

theorem clean_of_full {facts : List Fact} {used : ℕ} (full : cap ≤ used) :
    Clean cap used facts := by
  induction facts with
  | nil => trivial
  | cons f rest ih =>
    rw [Clean]
    split_ifs
    · exact ih
    · exact .inl (full.trans (Nat.le_add_right _ _))

end Render

variable {cap : ℕ}

/-- The block consists of whole lines exactly where a fact that does not fit is stopped at its
label. -/
theorem render_whole_iff (res : FactsRes) :
    Whole res (acqWikiRenderFacts cap res) ↔ Clean cap (header res).length res.facts := by
  unfold acqWikiRenderFacts
  rcases lt_or_ge (header res).length cap with fits | full
  · rw [put_fits (by simpa using fits)]
    constructor
    · rintro (none | ⟨shown, first, same⟩)
      · have longer := (length_putFacts fits res.facts).1
        rw [show putFacts cap (header res) res.facts = [] from none] at longer
        simp [header, ascii] at longer
      · refine clean_of_length fits ((mem_inits _ _).mp first) ?_
        rw [← length_append, ← same]
        rfl
    · exact fun clean => .inr (putFacts_clean clean)
  · rw [put_full (by simpa using full)]
    exact iff_of_true (.inl rfl) (clean_of_full full)

def river : FactsRes where
  qid := ascii "Q1"
  label := ascii "Rio"
  description := []
  facts := [⟨ascii "P17", ascii "country", [⟨.text, ascii "Peru"⟩, ⟨.text, ascii "Brazil"⟩], 2⟩,
    ⟨ascii "P885", [], [⟨.unknown, []⟩], 1⟩]

/-- The second country does not fit, the end of its line does. With one byte less the line
has no end. -/
theorem country_dropped :
    acqWikiRenderFacts 45 river = ascii "Wikidata facts for Rio (Q1)\n- country: Peru\n" ∧
    ¬ Whole river (acqWikiRenderFacts 45 river) ∧
    acqWikiRenderFacts 44 river = ascii "Wikidata facts for Rio (Q1)\n- country: Peru" ∧
    ¬ Whole river (acqWikiRenderFacts 44 river) := by
  refine ⟨?_, ?_, ?_, ?_⟩
  all_goals decide +kernel

theorem render_whole_river :
    Clean 59 (header river).length river.facts ∧ Whole river (acqWikiRenderFacts 59 river) := by
  have clean : Clean 59 (header river).length river.facts := by
    simp only [Clean, river]
    decide +kernel
  exact ⟨clean, (render_whole_iff river).mpr clean⟩

end BotManager.WikiFacts
