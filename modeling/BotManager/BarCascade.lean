import Mathlib.Algebra.BigOperators.Group.List.Basic
import Mathlib.Algebra.Ring.Divisibility.Basic
import Mathlib.Data.List.Induction
import Mathlib.Data.List.Nodup
import Mathlib.Tactic.Linarith
import BotManager.Aggregator

/-! The bars of the higher grains. The cascade is taken apart into one transducer for each
grain, which reads the bars of the grain below and keeps one bucket. Each of them turns bars
that cover their windows exactly into bars that cover the longer windows exactly, and so by
induction over the grains every bar is the summary of the minutes of its window. -/

namespace BotManager.BarCascade
open List Aggregator

variable {bars : List Bar}

variable {xs srcs post pre : List Bar} {g : Gran} {x src : Bar} {hi lo : ℤ} {b : Bucket} {o : Ohlcv}

section Summary

def summary : List Bar → Option Ohlcv
  | [] => none
  | x :: rest => some (rest.foldl (fun o b => o.merge b.toOhlcv) x.toOhlcv)

theorem merge_assoc (a b c : Ohlcv) : (a.merge b).merge c = a.merge (b.merge c) := by
  unfold Ohlcv.merge
  congr 1
  · dsimp only
    split_ifs <;> linarith
  · dsimp only
    split_ifs <;> linarith
  · exact add_assoc _ _ _

theorem foldl_merge (rest : List Bar) (a b : Ohlcv) :
    rest.foldl (fun o x => o.merge x.toOhlcv) (a.merge b) =
      a.merge (rest.foldl (fun o x => o.merge x.toOhlcv) b) := by
  induction rest generalizing b with
  | nil => rfl
  | cons x rest ih => rw [foldl_cons, foldl_cons, merge_assoc, ih]

theorem summary_append {first second : List Bar} {a b : Ohlcv} (left : summary first = some a)
    (right : summary second = some b) : summary (first ++ second) = some (a.merge b) := by
  cases first with
  | nil => cases left
  | cons x first =>
    cases second with
    | nil => cases right
    | cons y second =>
      rw [summary] at left right
      rw [cons_append, summary, foldl_append, foldl_cons,
        Option.some.inj left, foldl_merge, Option.some.inj right]

structure Summarises (bars : List Bar) (o : Ohlcv) : Prop where
  openPx : bars.head?.map (fun b => b.openPx) = some o.openPx
  close : bars.getLast?.map (fun b => b.close) = some o.close
  high_le : ∀ b ∈ bars, b.high ≤ o.high
  high_mem : ∃ b ∈ bars, b.high = o.high
  low_le : ∀ b ∈ bars, o.low ≤ b.low
  low_mem : ∃ b ∈ bars, b.low = o.low
  volume : o.volume = (bars.map fun b => b.volume).sum

theorem Summarises.snoc (all : Summarises bars o) (x : Bar) :
    Summarises (bars ++ [x]) (o.merge x.toOhlcv) := by
  constructor
  case openPx =>
    cases bars with
    | nil =>
      have none := all.openPx
      cases none
    | cons a rest => exact all.openPx
  case close => simp [Ohlcv.merge]
  case high_le =>
    dsimp only [Ohlcv.merge]
    refine forall_mem_append.mpr ⟨fun b old => ?_, forall_mem_singleton.mpr ?_⟩
    · have := all.high_le b old
      split_ifs <;> linarith
    · split_ifs <;> linarith
  case high_mem =>
    dsimp only [Ohlcv.merge]
    split_ifs
    · exact ⟨x, by simp, rfl⟩
    · obtain ⟨b, mem, same⟩ := all.high_mem
      exact ⟨b, mem_append_left _ mem, same⟩
  case low_le =>
    dsimp only [Ohlcv.merge]
    refine forall_mem_append.mpr ⟨fun b old => ?_, forall_mem_singleton.mpr ?_⟩
    · have := all.low_le b old
      split_ifs <;> linarith
    · split_ifs <;> linarith
  case low_mem =>
    dsimp only [Ohlcv.merge]
    split_ifs
    · exact ⟨x, by simp, rfl⟩
    · obtain ⟨b, mem, same⟩ := all.low_mem
      exact ⟨b, mem_append_left _ mem, same⟩
  case volume =>
    rw [map_append, sum_append, ← all.volume, map_singleton, sum_singleton]
    rfl

theorem summarises_single : Summarises [x] x.toOhlcv := by
  constructor <;> simp

theorem summarises_of_summary (made : summary bars = some o) : Summarises bars o := by
  cases bars with
  | nil => cases made
  | cons x rest =>
    obtain rfl := Option.some.inj made
    induction rest using reverseRecOn with
    | nil => exact summarises_single
    | append_singleton rest y ih =>
      rw [foldl_append, ← cons_append]
      exact (ih rfl).snoc y

end Summary

section Windows

def between (lo hi : ℤ) (xs : List Bar) : List Bar :=
  xs.filter fun x => decide (lo < x.tsCloseMs ∧ x.tsCloseMs ≤ hi)

theorem mem_between : x ∈ between lo hi xs ↔ x ∈ xs ∧ lo < x.tsCloseMs ∧ x.tsCloseMs ≤ hi := by
  rw [between, mem_filter, decide_eq_true_iff]

theorem between_congr {lo' hi' : ℤ}
    (same : ∀ x ∈ xs, lo < x.tsCloseMs ∧ x.tsCloseMs ≤ hi ↔ lo' < x.tsCloseMs ∧ x.tsCloseMs ≤ hi') :
    between lo hi xs = between lo' hi' xs :=
  filter_congr fun x mem => decide_eq_decide.mpr (same x mem)

theorem between_split {mid : ℤ}
    (ascending : xs.Pairwise fun a b => a.tsCloseMs < b.tsCloseMs) (low : lo ≤ mid)
    (high : mid ≤ hi) : between lo hi xs = between lo mid xs ++ between mid hi xs := by
  have parts := filter_append_perm (fun x : Bar => decide (x.tsCloseMs ≤ mid)) (between lo hi xs)
  have first : (between lo hi xs).filter (fun x => decide (x.tsCloseMs ≤ mid)) =
      between lo mid xs := by
    rw [between, filter_filter]
    refine filter_congr fun x _ => ?_
    rw [← Bool.decide_and, decide_eq_decide]
    omega
  have second : (between lo hi xs).filter (fun x => !decide (x.tsCloseMs ≤ mid)) =
      between mid hi xs := by
    rw [between, filter_filter]
    refine filter_congr fun x _ => ?_
    rw [← decide_not, ← Bool.decide_and, decide_eq_decide]
    omega
  rw [first, second] at parts
  refine parts.symm.eq_of_pairwise (fun a b _ _ before behind => ?_) (ascending.filter _)
    (pairwise_append.mpr ⟨ascending.filter _, ascending.filter _, fun a mem b mem' => ?_⟩)
  · omega
  · have := (mem_between.mp mem).2
    have := (mem_between.mp mem').2
    omega

end Windows

section Transducer

variable (srcStep step : ℤ)

def absorb (st : Option Bucket × List Bar) (src : Bar) :
    Option Bucket × List Bar :=
  let st := match st.1 with
    | none => st
    | some w =>
      if w.barStartMs + step ≤ src.tsCloseMs - srcStep then (none, st.2 ++ [w.bar step]) else st
  let w := match st.1 with
    | none => bucketStart step src
    | some w => { w with toOhlcv := w.toOhlcv.merge src.toOhlcv }
  if w.barStartMs + step ≤ src.tsCloseMs then (none, st.2 ++ [w.bar step]) else (some w, st.2)

def closeAt (step : ℤ) (out : List Bar) (w : Bucket) (src : Bar) : Option Bucket × List Bar :=
  if w.barStartMs + step ≤ src.tsCloseMs then (none, out ++ [w.bar step]) else (some w, out)

theorem absorb_none :
    absorb srcStep step (none, out) src = closeAt step out (bucketStart step src) src :=
  rfl

variable {w : Bucket} {last hi : ℤ} {ys : List Bar} {y : Bar} {out : List Bar}

theorem absorb_crossed {srcStep step : ℤ}
    (crossed : w.barStartMs + step ≤ src.tsCloseMs - srcStep) :
    absorb srcStep step (some w, out) src =
      closeAt step (out ++ [w.bar step]) (bucketStart step src) src := by
  unfold absorb closeAt
  simp only [if_pos crossed]

theorem absorb_merged {srcStep step : ℤ}
    (inside : ¬ w.barStartMs + step ≤ src.tsCloseMs - srcStep) :
    absorb srcStep step (some w, out) src =
      closeAt step out { w with toOhlcv := w.toOhlcv.merge src.toOhlcv } src := by
  unfold absorb closeAt
  simp only [if_neg inside]

def transduce (srcs : List Bar) : Option Bucket × List Bar :=
  srcs.foldl (absorb srcStep step) (none, [])

theorem transduce_snoc :
    transduce srcStep step (srcs ++ [src]) =
      absorb srcStep step (transduce srcStep step srcs) src :=
  foldl_append

variable {c d : ℤ} {xs : List Bar}

structure Extends (c : ℤ) (xs : List Bar) (last : ℤ) (y : Bar) : Prop where
  aligned : c ∣ y.tsCloseMs
  later : last < y.tsCloseMs
  content : summary (between (y.tsCloseMs - c) y.tsCloseMs xs) = some y.toOhlcv
  gapFree : ∀ x ∈ xs, last < x.tsCloseMs → x.tsCloseMs ≤ y.tsCloseMs →
    y.tsCloseMs - c < x.tsCloseMs

inductive Covers (c : ℤ) (xs : List Bar) : List Bar → ℤ → Prop
  | nil : Covers c xs [] 0
  | snoc {ys : List Bar} {last : ℤ} {y : Bar} (before : Covers c xs ys last)
      (here : Extends c xs last y) : Covers c xs (ys ++ [y]) y.tsCloseMs

section Covers

variable (covers : Covers c xs ys last)
include covers

theorem Covers.dvd : c ∣ last := by
  cases covers with
  | nil => exact dvd_zero c
  | snoc _ here => exact here.aligned

theorem Covers.le_last : 0 ≤ last ∧ ∀ y ∈ ys, y.tsCloseMs ≤ last := by
  induction covers with
  | nil => exact ⟨le_rfl, nofun⟩
  | @snoc ys last y before here ih =>
    have later := here.later
    refine ⟨by omega, forall_mem_append.mpr ⟨fun z old => ?_, forall_mem_singleton.mpr le_rfl⟩⟩
    have := ih.2 z old
    omega

theorem Covers.ascending : ys.Pairwise fun a b => a.tsCloseMs < b.tsCloseMs := by
  induction covers with
  | nil => exact .nil
  | snoc before here ih =>
    rw [pairwise_append]
    refine ⟨ih, pairwise_singleton _ _, fun a mem b new => ?_⟩
    have below := before.le_last.2 a mem
    have later := here.later
    rw [mem_singleton.mp new]
    omega

theorem Covers.label_inj {a b : Bar} (left : a ∈ ys) (right : b ∈ ys)
    (same : a.tsCloseMs = b.tsCloseMs) : a = b := by
  have distinct : (ys.map fun y => y.tsCloseMs).Nodup :=
    pairwise_map.mpr (covers.ascending.imp ne_of_lt)
  exact inj_on_of_nodup_map distinct left right same

theorem Covers.last_mem (pos : 0 < last) : ∃ y ∈ ys, y.tsCloseMs = last := by
  cases covers with
  | nil => exact absurd pos (lt_irrefl 0)
  | snoc _ _ => exact ⟨_, by simp, rfl⟩

theorem Covers.exact :
    ∀ y ∈ ys, c ∣ y.tsCloseMs ∧
      summary (between (y.tsCloseMs - c) y.tsCloseMs xs) = some y.toOhlcv := by
  induction covers with
  | nil => exact nofun
  | snoc _ here ih =>
    exact forall_mem_append.mpr ⟨ih, forall_mem_singleton.mpr ⟨here.aligned, here.content⟩⟩

theorem Covers.window (mem : x ∈ xs) (pos : 0 < x.tsCloseMs) (le : x.tsCloseMs ≤ last) :
    ∃ y ∈ ys, y.tsCloseMs - c < x.tsCloseMs ∧ x.tsCloseMs ≤ y.tsCloseMs := by
  induction covers with
  | nil => omega
  | @snoc ys last y before here ih =>
    by_cases old : x.tsCloseMs ≤ last
    · obtain ⟨z, member, inside⟩ := ih old
      exact ⟨z, mem_append_left _ member, inside⟩
    · refine ⟨y, by simp, here.gapFree x mem (by omega) le, le⟩

end Covers

structure Inv (c d : ℤ) (xs : List Bar) (hi : ℤ) (w : Option Bucket) (out : List Bar) (last : ℤ) :
    Prop where
  out : Covers d xs out last
  last_le : last ≤ hi
  aligned : c ∣ hi
  idle : w = none → ∀ x ∈ xs, last < x.tsCloseMs → hi < x.tsCloseMs
  busy : ∀ b, w = some b → d ∣ b.barStartMs ∧ last ≤ b.barStartMs ∧ b.barStartMs < hi ∧
    hi < b.barStartMs + d ∧ summary (between b.barStartMs hi xs) = some b.toOhlcv ∧
    ∀ x ∈ xs, last < x.tsCloseMs → x.tsCloseMs ≤ hi → b.barStartMs < x.tsCloseMs

theorem le_sub_of_dvd {a b : ℤ} (da : c ∣ a) (db : c ∣ b) (lt : a < b) : a ≤ b - c := by
  have apart := Int.le_of_dvd (by omega) (dvd_sub db da)
  omega

theorem eq_of_window {a b x : ℤ} (da : c ∣ a) (db : c ∣ b) (here : a - c < x ∧ x ≤ a)
    (there : b - c < x ∧ x ≤ b) : a = b := by
  by_contra other
  rcases lt_or_gt_of_ne other with before | behind
  · have := le_sub_of_dvd da db before
    omega
  · have := le_sub_of_dvd db da behind
    omega

theorem Extends.bar (pos : 0 < d) (start : d ∣ w.barStartMs) (low : last ≤ w.barStartMs)
    (content : summary (between w.barStartMs (w.barStartMs + d) xs) = some w.toOhlcv)
    (rest : ∀ x ∈ xs, last < x.tsCloseMs → x.tsCloseMs ≤ w.barStartMs + d →
      w.barStartMs < x.tsCloseMs) : Extends d xs last (w.bar d) := by
  have label : (w.bar d).tsCloseMs - d = w.barStartMs := add_sub_cancel_right _ _
  refine ⟨dvd_add start dvd_rfl, ?_, ?_, ?_⟩
  · omega
  · rw [label]
    exact content
  · rw [label]
    exact rest

theorem Inv.finish (before : Covers d xs out last) (aligned : c ∣ y.tsCloseMs)
    (start : d ∣ w.barStartMs) (low : last ≤ w.barStartMs) (inside : w.barStartMs < y.tsCloseMs)
    (within : y.tsCloseMs ≤ w.barStartMs + d)
    (content : summary (between w.barStartMs y.tsCloseMs xs) = some w.toOhlcv)
    (rest : ∀ x ∈ xs, last < x.tsCloseMs → x.tsCloseMs ≤ y.tsCloseMs →
      w.barStartMs < x.tsCloseMs) :
    ∃ last', Inv c d xs y.tsCloseMs (closeAt d out w y).1 (closeAt d out w y).2 last' := by
  by_cases complete : w.barStartMs + d ≤ y.tsCloseMs
  · have label : w.barStartMs + d = y.tsCloseMs := le_antisymm complete within
    rw [← label] at content rest
    have bar := Extends.bar (by omega) start low content rest
    refine ⟨(w.bar d).tsCloseMs, ?_⟩
    have closed : closeAt d out w y = (none, out ++ [w.bar d]) := if_pos complete
    rw [closed]
    have same : (w.bar d).tsCloseMs = y.tsCloseMs := label
    exact ⟨before.snoc bar, same.le, aligned, fun _ x _ after => by omega, nofun⟩
  · refine ⟨last, ?_⟩
    have stays : closeAt d out w y = (some w, out) := if_neg complete
    rw [stays]
    refine ⟨before, by omega, aligned, fun h => (nomatch h), fun b h => ?_⟩
    cases h
    exact ⟨start, low, inside, by omega, content, rest⟩

theorem Inv.begin (before : Covers d xs out last) (fine : c ∣ d) (pos : 0 < d)
    (here : Extends c xs hi y) (low : 0 < y.tsCloseMs) (behind : last < y.tsCloseMs)
    (free : ∀ x ∈ xs, last < x.tsCloseMs → x.tsCloseMs ≤ y.tsCloseMs →
      y.tsCloseMs - c < x.tsCloseMs) :
    ∃ last', Inv c d xs y.tsCloseMs (closeAt d out (bucketStart d y) y).1
      (closeAt d out (bucketStart d y) y).2 last' := by
  have value : (bucketStart d y).barStartMs = (y.tsCloseMs - 1) / d * d := by
    show (y.tsCloseMs - 1).tdiv d * d = _
    rw [Int.tdiv_eq_ediv_of_nonneg (by omega)]
  have parts := Int.emod_add_mul_ediv (y.tsCloseMs - 1) d
  rw [mul_comm d] at parts
  have rest := Int.emod_nonneg (y.tsCloseMs - 1) pos.ne'
  have short := Int.emod_lt_of_pos (y.tsCloseMs - 1) pos
  have start : d ∣ (bucketStart d y).barStartMs := by
    rw [value]
    exact dvd_mul_left _ _
  have under : (bucketStart d y).barStartMs ≤ y.tsCloseMs - c :=
    le_sub_of_dvd (fine.trans start) here.aligned (by omega)
  have after : last ≤ (bucketStart d y).barStartMs := by
    by_contra beyond
    have := le_sub_of_dvd start before.dvd (by omega)
    omega
  refine Inv.finish before here.aligned start after (by omega) (by omega) ?_ fun x mem h upto => ?_
  · refine Eq.trans ?_ here.content
    refine congrArg summary (between_congr fun x mem => ⟨fun inside => ?_, fun inside => ?_⟩)
    · exact ⟨free x mem (by omega) inside.2, inside.2⟩
    · exact ⟨by omega, inside.2⟩
  · have := free x mem h upto
    omega

theorem Inv.crossed (inv : Inv c d xs hi (some b) out last)
    (here : Extends c xs hi y) (coarse : 0 < c) (crossed : b.barStartMs + d ≤ y.tsCloseMs - c) :
    Extends d xs last (b.bar d) := by
  obtain ⟨dvd, low, inside, within, content, rest⟩ := inv.busy b rfl
  refine Extends.bar (by omega) dvd low ?_ fun x mem after upto => ?_
  · rw [← content]
    refine congrArg summary (between_congr fun x mem => ⟨fun h => ⟨h.1, ?_⟩, fun h => ?_⟩)
    · by_contra beyond
      have := here.gapFree x mem (by omega) (by omega)
      omega
    · exact ⟨h.1, by omega⟩
  · by_cases old : x.tsCloseMs ≤ hi
    · exact rest x mem after old
    · omega

variable (ascending : xs.Pairwise fun a b => a.tsCloseMs < b.tsCloseMs)
include ascending

theorem Inv.merged (inv : Inv c d xs hi (some b) out last)
    (here : Extends c xs hi y) :
    summary (between b.barStartMs y.tsCloseMs xs) = some (b.toOhlcv.merge y.toOhlcv) := by
  obtain ⟨-, -, inside, -, content, -⟩ := inv.busy b rfl
  have later := here.later
  have apart := le_sub_of_dvd inv.aligned here.aligned later
  have window : between hi y.tsCloseMs xs = between (y.tsCloseMs - c) y.tsCloseMs xs :=
    between_congr fun x mem =>
      ⟨fun h => ⟨here.gapFree x mem h.1 h.2, h.2⟩, fun h => ⟨by omega, h.2⟩⟩
  rw [between_split ascending inside.le later.le, window]
  exact summary_append content here.content

theorem Inv.absorb {w : Option Bucket} (inv : Inv c d xs hi w out last) (coarse : 0 < c) (fine : c ∣ d)
    (pos : 0 < d) (here : Extends c xs hi y) (start : 0 ≤ hi) :
    ∃ last', Inv c d xs y.tsCloseMs (absorb c d (w, out) y).1 (absorb c d (w, out) y).2 last' := by
  have later := here.later
  have last_le := inv.last_le
  cases w with
  | none =>
    rw [absorb_none]
    exact Inv.begin inv.out fine pos here (by omega) (by omega)
      fun x mem after upto => here.gapFree x mem (inv.idle rfl x mem after) upto
  | some b =>
    obtain ⟨dvd, low, inside, within, content, rest⟩ := inv.busy b rfl
    by_cases crossed : b.barStartMs + d ≤ y.tsCloseMs - c
    · have label : (b.bar d).tsCloseMs = b.barStartMs + d := rfl
      rw [absorb_crossed crossed]
      exact Inv.begin (inv.out.snoc (inv.crossed here coarse crossed)) fine pos here
        (by omega) (by omega) fun x mem after upto => here.gapFree x mem (by omega) upto
    · have short : y.tsCloseMs ≤ b.barStartMs + d := by
        by_contra beyond
        exact crossed (le_sub_of_dvd (fine.trans (dvd_add dvd dvd_rfl)) here.aligned (by omega))
      rw [absorb_merged crossed]
      refine Inv.finish inv.out here.aligned dvd low (inside.trans later) short
        (inv.merged ascending here) fun x mem after upto => ?_
      by_cases old : x.tsCloseMs ≤ hi
      · exact rest x mem after old
      · show b.barStartMs < x.tsCloseMs
        omega

theorem Covers.transduce (covers : Covers c xs ys hi)
    (positive : ∀ x ∈ xs, 0 < x.tsCloseMs) (coarse : 0 < c) (fine : c ∣ d) (pos : 0 < d) :
    ∃ last, Inv c d xs hi (transduce c d ys).1 (transduce c d ys).2 last := by
  induction covers with
  | nil =>
    exact ⟨0, .nil, le_rfl, dvd_zero c, fun _ x mem _ => positive x mem, nofun⟩
  | @snoc ys hi y before here ih =>
    obtain ⟨last, inv⟩ := ih
    rw [transduce_snoc]
    exact inv.absorb ascending coarse fine pos here before.le_last.1

omit ascending

theorem Inv.emitted {T : ℤ} {w : Option Bucket} (inv : Inv c d xs hi w out last)
    (mem : x ∈ xs) (pos : 0 < x.tsCloseMs) (aligned : d ∣ T) (after : T - d < x.tsCloseMs)
    (upto : x.tsCloseMs ≤ T) (past : T ≤ hi) : ∃ e ∈ out, e.tsCloseMs = T := by
  by_cases old : x.tsCloseMs ≤ last
  · obtain ⟨e, member, low, high⟩ := inv.out.window mem pos old
    have label := (inv.out.exact e member).1
    exact ⟨e, member, eq_of_window label aligned ⟨low, high⟩ ⟨after, upto⟩⟩
  · cases w with
    | none =>
      have := inv.idle rfl x mem (by omega)
      omega
    | some b =>
      obtain ⟨dvd, -, -, within, -, rest⟩ := inv.busy b rfl
      have open_ := rest x mem (by omega) (by omega)
      have := le_sub_of_dvd dvd aligned (by omega)
      omega

end Transducer

section Linked

variable {I : Type*} (pass : List (Candle I) → Bar → I)

def emitted (s : Agg I) (g : Gran) : List Bar := (s.level g).ring.map fun c => c.toBar

def Unbounded (s : Agg I) : Prop := ∀ g, (s.level g).cap = none

def Linked (s : Agg I) : Gran → List Gran → List Bar → Prop
  | _, [], _ => True
  | p, g :: up, srcs =>
    ((s.level g).work, emitted s g) = transduce (stepMs p) (stepMs g) srcs ∧
      Linked s g up (emitted s g)

theorem emitted_congr {s s' : Agg I} (same : s'.level g = s.level g) :
    emitted s' g = emitted s g := by
  unfold emitted
  rw [same]

theorem Linked.frame {s s' : Agg I} {p : Gran} {targets : List Gran}
    (linked : Linked s p targets srcs) (same : ∀ q ∈ targets, s'.level q = s.level q) :
    Linked s' p targets srcs := by
  induction targets generalizing p srcs with
  | nil => trivial
  | cons g up ih =>
    have here := same g mem_cons_self
    refine ⟨?_, ?_⟩
    · rw [emitted_congr here, here]
      exact linked.1
    · rw [emitted_congr here]
      exact ih linked.2 fun q mem => same q (mem_cons_of_mem _ mem)

theorem pushBar_unbounded {s : Agg I} (bounds : Unbounded s) (g : Gran) (bar : Bar) :
    emitted (pushBar pass s g bar) g = emitted s g ++ [bar] ∧
      ((pushBar pass s g bar).level g).ring.getLast?.map (fun c => c.toBar) = some bar ∧
      Unbounded (pushBar pass s g bar) := by
  have grows : trimmed (s.level g) = (s.level g).ring := by
    unfold trimmed
    rw [bounds g]
    exact if_neg (nomatch ·)
  have room : ¬ (s.level g).cap = some 0 := by
    rw [bounds g]
    exact (nomatch ·)
  have pushed : (pushBar pass s g bar).level g = { s.level g with
      ring := (s.level g).ring ++ [⟨bar, pass (s.level g).ring bar, s.repairs⟩]
      lastCloseMs := bar.tsCloseMs } := by
    rw [pushBar_same pass room, grows]
  refine ⟨?_, ?_, fun q => ?_⟩
  · unfold emitted
    rw [pushed, map_append]
    rfl
  · rw [pushed]
    simp
  · by_cases other : q = g
    · rw [other, pushed]
      exact bounds g
    · rw [pushBar_other pass other]
      exact bounds q

theorem setWork_unbounded {s : Agg I} (bounds : Unbounded s) (g : Gran) (w : Option Bucket) :
    Unbounded (setWork s g w) := by
  intro q
  by_cases other : q = g
  · rw [other, setWork, setLevel_same]
    exact bounds g
  · rw [setWork_other other]
    exact bounds q

theorem setWork_emitted : emitted (setWork s g w) q = emitted s q := by
  by_cases other : q = g
  · rw [other]
    unfold emitted setWork
    rw [setLevel_same]
  · exact emitted_congr (setWork_other other w)

structure At (s : Agg I) (g : Gran) (up : List Gran) (st : Option Bucket × List Bar) : Prop where
  work : (s.level g).work = st.1
  bars : emitted s g = st.2
  linked : Linked s g up st.2
  unbounded : Unbounded s

def Carries (g : Gran) (up : List Gran) : Prop :=
  ∀ (s : Agg I) (src : Bar) (srcs : List Bar), Unbounded s → Linked s g up srcs →
    Linked (cascadeTo pass g up s src) g up (srcs ++ [src]) ∧
      Unbounded (cascadeTo pass g up s src)

variable {pass} {g : Gran} {up : List Gran} {s : Agg I} {st : Option Bucket × List Bar}

variable (here : At s g up st)
include here

theorem At.setWork (fresh : g ∉ up) (w : Option Bucket) :
    At (setWork s g w) g up (w, st.2) where
  work := by rw [Aggregator.setWork, setLevel_same]
  bars := by rw [setWork_emitted, here.bars]
  linked := here.linked.frame fun _ mem => setWork_other (ne_of_mem_of_not_mem mem fresh) w
  unbounded := setWork_unbounded here.unbounded g w

theorem At.emit (fresh : g ∉ up) (above : Carries pass g up) (w : Bucket) :
    At (bucketEmit pass g up s w) g up (none, st.2 ++ [w.bar (stepMs g)]) := by
  obtain ⟨grown, top, free⟩ := pushBar_unbounded pass here.unbounded g (w.bar (stepMs g))
  set pushed := Aggregator.setWork (pushBar pass s g (w.bar (stepMs g))) g none with pushed_def
  have others : ∀ q, q ≠ g → pushed.level q = s.level q := fun q other => by
    rw [pushed_def, setWork_other other, pushBar_other pass other]
  have last : (pushed.level g).ring.getLast?.map (fun c => c.toBar) = some (w.bar (stepMs g)) := by
    rw [pushed_def, Aggregator.setWork, setLevel_same]
    exact top
  obtain ⟨bar, found, same⟩ := Option.map_eq_some_iff.mp last
  have run : bucketEmit pass g up s w = cascadeTo pass g up pushed (w.bar (stepMs g)) := by
    unfold bucketEmit
    dsimp only
    rw [← pushed_def, found, ← same]
  obtain ⟨linked, bounds⟩ := above pushed (w.bar (stepMs g)) st.2 (setWork_unbounded free g none)
    (here.linked.frame fun q mem => others q (ne_of_mem_of_not_mem mem fresh))
  have level := cascadeTo_other pass (p := g) fresh pushed (w.bar (stepMs g))
  rw [run]
  refine ⟨?_, ?_, linked, bounds⟩
  · rw [level, pushed_def, Aggregator.setWork, setLevel_same]
  · rw [emitted_congr level, pushed_def, setWork_emitted, grown, here.bars]

theorem At.closeAt (fresh : g ∉ up) (above : Carries pass g up) (w : Bucket)
    (src : Bar) :
    At (if w.barStartMs + stepMs g ≤ src.tsCloseMs then
        bucketEmit pass g up (Aggregator.setWork s g (some w)) w
      else Aggregator.setWork s g (some w)) g up (closeAt (stepMs g) st.2 w src) := by
  have set := here.setWork fresh (some w)
  unfold BarCascade.closeAt
  by_cases complete : w.barStartMs + stepMs g ≤ src.tsCloseMs
  · rw [if_pos complete, if_pos complete]
    exact set.emit fresh above w
  · rw [if_neg complete, if_neg complete]
    exact set

theorem At.absorb (fresh : g ∉ up) (above : Carries pass g up) (p : Gran)
    (src : Bar) :
    At (cascadeTo pass p (g :: up) s src) g up (absorb (stepMs p) (stepMs g) st src) := by
  obtain ⟨w, out⟩ := st
  have work := here.work
  rw [cascadeTo_cons]
  cases w with
  | none =>
    rw [absorb_none]
    simp only [work]
    exact here.closeAt fresh above _ src
  | some b =>
    by_cases crossed : b.barStartMs + stepMs g ≤ src.tsCloseMs - stepMs p
    · have next := here.emit fresh above b
      have idle := next.work
      rw [absorb_crossed crossed]
      simp only [work, if_pos crossed, idle]
      exact next.closeAt fresh above _ src
    · rw [absorb_merged crossed]
      simp only [work, if_neg crossed]
      exact here.closeAt fresh above { b with toOhlcv := b.toOhlcv.merge src.toOhlcv } src

omit here

variable (pass)

theorem cascadeTo_carries (p : Gran) (distinct : targets.Nodup) : Carries pass p targets := by
  induction targets generalizing p with
  | nil => exact fun _ _ _ bounds _ => ⟨trivial, bounds⟩
  | cons g up ih =>
    intro s src srcs bounds linked
    obtain ⟨fresh, rest⟩ := nodup_cons.mp distinct
    have start : At s g up (transduce (stepMs p) (stepMs g) srcs) := by
      rw [← linked.1]
      exact ⟨rfl, rfl, linked.2, bounds⟩
    have next := start.absorb fresh (ih g rest) p src
    refine ⟨⟨?_, ?_⟩, next.unbounded⟩
    · rw [transduce_snoc, next.work, next.bars]
    · rw [next.bars]
      exact next.linked

end Linked

section Stream

variable {I : Type*} (pass : List (Candle I) → Bar → I)

structure Stream (bars : List Bar) : Prop where
  ascending : bars.Pairwise fun a b => a.tsCloseMs < b.tsCloseMs
  positive : ∀ b ∈ bars, 0 < b.tsCloseMs
  aligned : ∀ b ∈ bars, stepMs .m1 ∣ b.tsCloseMs

def feed (bars : List Bar) : Agg I := bars.foldl (feedMinute pass) (empty fun _ => none)

/-- The minutes whose close lies in the window of the grain that ends at `T`. -/
def window (g : Gran) (T : ℤ) (bars : List Bar) : List Bar := between (T - stepMs g) T bars

def source : Gran → Gran
  | .m1 => .m1
  | .m5 => .m1
  | .m15 => .m5
  | .h1 => .m15
  | .h4 => .h1
  | .d1 => .h4

theorem feedMinute_spec {s : Agg I} (bounds : Unbounded s)
    (linked : Linked s .m1 cascaded srcs) (bar : Bar) :
    Linked (feedMinute pass s bar) .m1 cascaded (srcs ++ [bar]) ∧
      emitted (feedMinute pass s bar) .m1 = emitted s .m1 ++ [bar] ∧
      Unbounded (feedMinute pass s bar) := by
  obtain ⟨grown, top, free⟩ := pushBar_unbounded pass bounds .m1 bar
  obtain ⟨c, found, same⟩ := Option.map_eq_some_iff.mp top
  have run : feedMinute pass s bar = cascadeTo pass .m1 cascaded (pushBar pass s .m1 bar) bar := by
    unfold feedMinute
    dsimp only
    rw [found, ← same]
  have apart : Gran.m1 ∉ cascaded := by decide
  have kept := linked.frame fun _ mem =>
    pushBar_other pass (ne_of_mem_of_not_mem mem apart) bar
  obtain ⟨next, bounds⟩ :=
    cascadeTo_carries pass .m1 (by decide) (pushBar pass s .m1 bar) bar srcs free kept
  rw [run]
  refine ⟨next, ?_, bounds⟩
  rw [emitted_congr (cascadeTo_other pass apart _ bar), grown]

theorem feed_spec (bars : List Bar) :
    Linked (feed pass bars) .m1 cascaded bars ∧ emitted (feed pass bars) .m1 = bars ∧
      Unbounded (feed pass bars) := by
  induction bars using reverseRecOn with
  | nil => exact ⟨⟨rfl, rfl, rfl, rfl, rfl, trivial⟩, rfl, fun _ => rfl⟩
  | append_singleton bars bar ih =>
    obtain ⟨linked, here, bounds⟩ := ih
    obtain ⟨next, grown, free⟩ := feedMinute_spec pass bounds linked bar
    unfold feed at next grown free here ⊢
    rw [foldl_append]
    exact ⟨next, by rw [foldl_cons, foldl_nil, grown, here], free⟩

theorem feed_transduce (above : g ≠ .m1) :
    (((feed pass bars).level g).work, emitted (feed pass bars) g) =
      transduce (stepMs (source g)) (stepMs g) (emitted (feed pass bars) (source g)) := by
  obtain ⟨⟨five, fifteen, hour, four, day, -⟩, minutes, -⟩ := feed_spec pass bars
  cases g with
  | m1 => exact absurd rfl above
  | m5 =>
    show _ = transduce _ _ (emitted (feed pass bars) .m1)
    rw [minutes]
    exact five
  | m15 => exact fifteen
  | h1 => exact hour
  | h4 => exact four
  | d1 => exact day

theorem Stream.minute {y : Bar} (stream : Stream (pre ++ y :: post)) :
    between (y.tsCloseMs - stepMs .m1) y.tsCloseMs (pre ++ y :: post) = [y] := by
  obtain ⟨-, rest, before⟩ := pairwise_append.mp stream.ascending
  have after := (pairwise_cons.mp rest).1
  have aligned := stream.aligned y (by simp)
  have first : between (y.tsCloseMs - stepMs .m1) y.tsCloseMs pre = [] := by
    refine filter_eq_nil_iff.mpr fun x mem inside => ?_
    have inside := of_decide_eq_true inside
    have := le_sub_of_dvd (stream.aligned x (mem_append_left _ mem)) aligned
      (before x mem y mem_cons_self)
    omega
  have last : between (y.tsCloseMs - stepMs .m1) y.tsCloseMs post = [] := by
    refine filter_eq_nil_iff.mpr fun x mem inside => ?_
    have inside := of_decide_eq_true inside
    have := after x mem
    omega
  have here : y.tsCloseMs - stepMs .m1 < y.tsCloseMs ∧ y.tsCloseMs ≤ y.tsCloseMs :=
    ⟨sub_lt_self _ (by decide), le_rfl⟩
  unfold between at first last ⊢
  rw [filter_append, filter_cons_of_pos (by simpa using here), first, last]
  rfl

theorem Stream.covers_initial (stream : Stream (pre ++ post)) :
    ∃ last, Covers (stepMs .m1) (pre ++ post) pre last := by
  induction pre using reverseRecOn generalizing post with
  | nil => exact ⟨0, .nil⟩
  | append_singleton pre y ih =>
    rw [append_assoc, singleton_append] at stream ⊢
    obtain ⟨last, covers⟩ := ih stream
    obtain ⟨-, rest, before⟩ := pairwise_append.mp stream.ascending
    have after := (pairwise_cons.mp rest).1
    refine ⟨_, covers.snoc ⟨stream.aligned y (by simp), ?_, ?_, fun x mem behind upto => ?_⟩⟩
    · cases covers with
      | nil => exact stream.positive y (by simp)
      | snoc _ _ => exact before _ (by simp) y mem_cons_self
    · rw [stream.minute]
      rfl
    · have own : x.tsCloseMs = y.tsCloseMs := by
        rcases mem_append.mp mem with old | new
        · have := covers.le_last.2 x old
          omega
        · rcases mem_cons.mp new with rfl | later
          · rfl
          · have := after x later
            omega
      rw [own]
      exact sub_lt_self _ (by decide)

theorem stepMs_pos (g : Gran) : 0 < stepMs g := by
  cases g <;> decide

theorem source_dvd (g : Gran) : stepMs (source g) ∣ stepMs g := by
  cases g <;> decide

variable (stream : Stream bars)
include stream

theorem Stream.covers :
    ∃ last, Covers (stepMs .m1) bars bars last := by
  have whole : Stream (bars ++ []) := by rwa [append_nil]
  have covers := whole.covers_initial
  rwa [append_nil] at covers

theorem Stream.follows (above : g ≠ .m1)
    (below : Covers (stepMs (source g)) bars (emitted (feed pass bars) (source g)) hi) :
    ∃ last, Inv (stepMs (source g)) (stepMs g) bars hi ((feed pass bars).level g).work
      (emitted (feed pass bars) g) last := by
  have follows := below.transduce stream.ascending stream.positive (stepMs_pos _) (source_dvd g)
    (stepMs_pos g)
  rwa [← feed_transduce pass above] at follows

theorem Stream.covers_grain (g : Gran) :
    ∃ last, Covers (stepMs g) bars (emitted (feed pass bars) g) last := by
  have up : ∀ g, g ≠ .m1 → (∃ hi, Covers (stepMs (source g)) bars
      (emitted (feed pass bars) (source g)) hi) →
      ∃ last, Covers (stepMs g) bars (emitted (feed pass bars) g) last := by
    rintro g above ⟨hi, below⟩
    obtain ⟨last, inv⟩ := stream.follows pass above below
    exact ⟨last, inv.out⟩
  have minutes : ∃ last, Covers (stepMs .m1) bars (emitted (feed pass bars) .m1) last := by
    rw [(feed_spec pass bars).2.1]
    exact stream.covers
  have five := up .m5 (by decide) minutes
  have fifteen := up .m15 (by decide) five
  have hour := up .h1 (by decide) fifteen
  have four := up .h4 (by decide) hour
  cases g with
  | m1 => exact minutes
  | m5 => exact five
  | m15 => exact fifteen
  | h1 => exact hour
  | h4 => exact four
  | d1 => exact up .d1 (by decide) four

theorem Stream.closes_iff {T : ℤ}
    (aligned : stepMs g ∣ T) (inside : x ∈ window g T bars) :
    (∃ e ∈ emitted (feed pass bars) g, e.tsCloseMs = T) ↔
      ∃ m ∈ emitted (feed pass bars) (source g), T ≤ m.tsCloseMs := by
  obtain ⟨mem, after, upto⟩ := mem_between.mp inside
  have pos := stream.positive x mem
  by_cases above : g = .m1
  · subst above
    show _ ↔ ∃ m ∈ emitted (feed pass bars) .m1, T ≤ m.tsCloseMs
    have own : x.tsCloseMs = T := by
      by_contra other
      have := le_sub_of_dvd (stream.aligned x mem) aligned (lt_of_le_of_ne upto other)
      omega
    rw [(feed_spec pass bars).2.1]
    exact ⟨fun _ => ⟨x, mem, own.ge⟩, fun _ => ⟨x, mem, own⟩⟩
  · obtain ⟨hi, below⟩ := stream.covers_grain pass (source g)
    obtain ⟨last, inv⟩ := stream.follows pass above below
    constructor
    · rintro ⟨e, member, label⟩
      have reached := inv.out.le_last.2 e member
      have last_le := inv.last_le
      obtain ⟨m, source, same⟩ := below.last_mem (by omega)
      exact ⟨m, source, by omega⟩
    · rintro ⟨m, member, past⟩
      exact inv.emitted mem pos aligned after upto (past.trans (below.le_last.2 m member))

omit stream

theorem bars_cover_windows {bars : List Bar} (stream : Stream bars) (g : Gran) :
    (∀ e ∈ emitted (feed pass bars) g, stepMs g ∣ e.tsCloseMs ∧
      Summarises (window g e.tsCloseMs bars) e.toOhlcv) ∧
    (emitted (feed pass bars) g).Pairwise (fun a b => a.tsCloseMs < b.tsCloseMs) ∧
    (∀ x, ∀ e ∈ emitted (feed pass bars) g, ∀ e' ∈ emitted (feed pass bars) g,
      x ∈ window g e.tsCloseMs bars → x ∈ window g e'.tsCloseMs bars → e = e') ∧
    ∀ T, stepMs g ∣ T → ∀ x ∈ window g T bars,
      ((∃ e ∈ emitted (feed pass bars) g, e.tsCloseMs = T) ↔
        ∃ m ∈ emitted (feed pass bars) (source g), T ≤ m.tsCloseMs) := by
  obtain ⟨last, covers⟩ := stream.covers_grain pass g
  refine ⟨fun e mem => ?_, covers.ascending, fun x e mem e' mem' inside inside' => ?_,
    fun T aligned x inside => stream.closes_iff pass aligned inside⟩
  · obtain ⟨aligned, content⟩ := covers.exact e mem
    exact ⟨aligned, summarises_of_summary content⟩
  · have here := (mem_between.mp inside).2
    have there := (mem_between.mp inside').2
    have label := (covers.exact e mem).1
    have label' := (covers.exact e' mem').1
    exact covers.label_inj mem mem' (eq_of_window label label' here there)

def flatBar (tsCloseMs : ℤ) : Bar := ⟨⟨1, 1, 1, 1, 1⟩, tsCloseMs⟩

theorem bars_cover_windows_sample :
    let bars := [60000, 120000, 300000, 360000].map flatBar
    Stream bars ∧ emitted (feed (fun _ _ => ()) bars) .m5 = [⟨⟨1, 1, 1, 1, 3⟩, 300000⟩] ∧
      ∀ e ∈ emitted (feed (fun _ _ => ()) bars) .m5, stepMs .m5 ∣ e.tsCloseMs ∧
        Summarises (window .m5 e.tsCloseMs bars) e.toOhlcv := by
  intro bars
  have stream : Stream bars := ⟨by decide +kernel, by decide +kernel, by decide +kernel⟩
  exact ⟨stream, by decide +kernel, (bars_cover_windows (fun _ _ => ()) stream .m5).1⟩

/-- A later minute does not close the windows of the grains above the second: after a gap the
quarter hour waits for the next bar of five minutes. -/
theorem not_closed_by_later_minute :
    ¬ ∀ (bars : List Bar) (g : Gran) (T : ℤ), Stream bars → stepMs g ∣ T →
      ∀ x ∈ window g T bars, (∃ y ∈ bars, T < y.tsCloseMs) →
        ∃ e ∈ emitted (feed (fun _ _ => ()) bars) g, e.tsCloseMs = T := by
  intro all
  have stream : Stream ([60000, 960000].map flatBar) :=
    ⟨by decide +kernel, by decide +kernel, by decide +kernel⟩
  have closed := all _ .m15 900000 stream (by decide +kernel) (flatBar 60000) (by decide +kernel)
    ⟨flatBar 960000, by decide +kernel, by decide +kernel⟩
  revert closed
  decide +kernel

end Stream

end BotManager.BarCascade
