import BotManager.IrcSend
import BotManager.IrcParse

/-! A text on its way from one bot to another. The server puts `:nick!user@host ` before the
lines it relays; `IRC_PRIVMSG_LINE_BUDGET` leaves headroom for it. -/

namespace BotManager.IrcRelay
open List CText IrcSend IrcParse StepRun
open IrcBuffer hiding render ircLineSz

def relay (origin : Origin) (line : Bytes) : Bytes := 58 :: (origin.text ++ 32 :: line)

structure Addressed (origin : Origin) (target : Bytes) : Prop where
  formed : origin.WellFormed
  headroom : origin.text.length ≤ 108
  word : target ≠ [] ∧ 32 ∉ target ∧ target.head? ≠ some 58
  short : target.length ≤ 386
  plain : ∀ b ∈ origin.text ++ target, b ≠ 0 ∧ b ≠ 13 ∧ b ≠ 10

def message (origin : Origin) (target piece : Bytes) : Message :=
  ⟨some origin, ascii "PRIVMSG", [target], some piece⟩

/-- The driver that reads these events parses messages of the sender to the target whose texts
make up the text with its line breaks folded. -/
def ReadBack (origin : Origin) (target text : Bytes) (events : List Bytes) : Prop :=
  ∃ (t : Driver) (pieces : List Bytes), Run (step fun _ => false) Fits created events t ∧
      t.handled.map ircParseLine = pieces.map (fun p => some (message origin target p).parsed) ∧
      pieces.flatten = ircFoldLineBreaks text

variable {origin : Origin} {target piece text : Bytes}

theorem render_message :
    render (message origin target piece) = relay origin (privmsg target piece) := by
  have command : ascii "PRIVMSG " = ascii "PRIVMSG" ++ [32] := by decide
  have mark : ascii " :" = [32, 58] := by decide
  simp [render, message, renderParams, relay, privmsg, command, mark]

section Line
variable (h : Addressed origin target) (fits : target.length + piece.length ≤ 390)
include h fits

theorem Addressed.parse : ircParseLine (relay origin (privmsg target piece)) =
    some (message origin target piece).parsed := by
  have params : (intercalate [32] [target]).length < ircLineSz := by
    rw [intercalate_singleton, ircLineSz]
    omega
  have command : ascii "PRIVMSG" ≠ [] ∧ 32 ∉ ascii "PRIVMSG" ∧
      (ascii "PRIVMSG").length < commandSz := by decide
  have formed : (message origin target piece).WellFormed :=
    ⟨fun _ same => Option.some.inj same ▸ h.formed, command.1, command.2.1, command.2.2,
      by simp [message], forall_mem_singleton.mpr h.word, params,
      fun _ same => Option.some.inj same ▸ by rw [ircLineSz]; omega⟩
  rw [← render_message, ircParseLine, parseOrigin_render formed]
  exact parseCommand_render formed (.inl (by simp [message]))

theorem Addressed.sendable (noNul : 0 ∉ piece) (single : NoBreak piece) :
    Sendable (relay origin (privmsg target piece)) := by
  have absent (b : UInt8) (fixed : b ∉ 58 :: 32 :: ascii "PRIVMSG " ++ ascii " :")
      (named : b ∉ origin.text ++ target) (own : b ∉ piece) :
      b ∉ relay origin (privmsg target piece) := by
    simp_all [relay, privmsg]
  refine ⟨?_, absent 0 (by decide) (fun mem => (h.plain 0 mem).1 rfl) noNul,
    absent 13 (by decide) (fun mem => (h.plain 13 mem).2.1 rfl) fun mem => (single 13 mem).1 rfl,
    absent 10 (by decide) (fun mem => (h.plain 10 mem).2.2 rfl) fun mem => (single 10 mem).2 rfl⟩
  have size := length_privmsg target piece
  have room := h.headroom
  simp only [relay, length_cons, length_append]
  omega

end Line

theorem relayed_text_read_back {turns : ℕ} (h : Addressed origin target) (noNul : 0 ∉ text)
    (enough : text.length ≤ turns) :
    ∃ lines, ircSendPrivmsg turns target text = some (true, lines) ∧
      ∀ events, (∀ data ∈ events, 0 < data.length ∧ data.length ≤ 3584) →
        events.flatten = lines.flatMap (relay origin) → ReadBack origin target text events := by
  obtain ⟨ps, sent, whole, each⟩ := privmsg_pieces h.short enough
  refine ⟨_, sent, fun events small stream => ?_⟩
  have clean : NoBreak target := fun b mem => (h.plain b (mem_append_right _ mem)).2
  have fits : ∀ p ∈ ps, target.length + (ircFoldLineBreaks p).length ≤ 390 := by
    intro p mem
    rw [ircFoldLineBreaks, length_map]
    exact (each p mem).2.1
  -- the lines of the relayed stream, without their ends
  let bodies := ps.map fun p => relay origin (privmsg target (ircFoldLineBreaks p))
  have sendable : ∀ body ∈ bodies, Sendable body := by
    refine forall_mem_map.mpr fun p mem => h.sendable (fits p mem) (fun zero => ?_) noBreak_fold
    obtain ⟨b, here, folded⟩ := mem_map.mp zero
    split_ifs at folded
    · cases folded
    · exact noNul (whole ▸ mem_flatten.mpr ⟨p, mem, folded ▸ here⟩)
  have stream : [] ++ events.flatten = IrcBuffer.render bodies := by
    rw [nil_append, stream, IrcBuffer.render, flatMap_map, flatMap_map]
    refine flatMap_congr fun p mem => ?_
    simp [sendRaw_privmsg clean (each p mem).2.1, relay]
  obtain ⟨holds, unfinished⟩ := fresh_holds created rfl bodies
  obtain ⟨t, run⟩ := short_reads_fit (fun _ => rfl) small holds sendable unfinished stream
  have handled := run_lines (fun _ => rfl) run holds sendable unfinished stream
  have kept : nonEmpty bodies = bodies := by simp [bodies, relay]
  refine ⟨t, ps.map ircFoldLineBreaks, run, ?_, ?_⟩
  · rw [handled, kept, map_map]
    exact (map_map ..).trans (map_congr_left fun p mem => h.parse (fits p mem))
  · rw [← whole, ircFoldLineBreaks, map_flatten]
    rfl

theorem hello_read_back : ReadBack (.peer (ascii "n") (ascii "u") (ascii "h")) (ascii "#c")
    (ascii "hi") [ascii ":n!u@h PRIV", ascii "MSG #c :hi" ++ crlf] := by
  have addressed : Addressed (.peer (ascii "n") (ascii "u") (ascii "h")) (ascii "#c") :=
    ⟨by unfold Origin.WellFormed; decide, by decide, by decide, by decide, by decide +kernel⟩
  obtain ⟨lines, sent, back⟩ := relayed_text_read_back addressed
    (show 0 ∉ ascii "hi" by decide) (show (ascii "hi").length ≤ 2 by decide)
  have line : ircSendPrivmsg 2 (ascii "#c") (ascii "hi") =
    some (true, [privmsg (ascii "#c") (ascii "hi") ++ crlf]) := by decide
  cases line.symm.trans sent
  exact back _ (by decide) (by decide)

end BotManager.IrcRelay
