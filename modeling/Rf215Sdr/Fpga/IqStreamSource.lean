import Mathlib.Data.List.Nodup
import Mathlib.Data.Nat.Init
import Rf215Sdr.Lib.Machine

/-!
# The Stream Source `iq_stream_source_change`

Model of `iq_stream_source_change.sv`, the Avalon-ST source between the LVDS receiver and
the FIFO. It captures a word when `word_valid_in` pulses, holds it while `pending`, and lets
`stream_tvalid` follow `pending` one clock later; `pending` itself is cleared by
`stream_tready` without a look at `stream_tvalid`.

An input trace is a function of the edge number; the state before edge `n` is
`sourceAt tr n`. The edges at which a word is captured and those at which a beat is
transferred are read off the registers and the inputs at that edge.

## Main results

- `sourceAt_window`: how `pending` and `stream_tvalid` frame the edges after a capture.
- `exactlyOnce_iff`: every captured word is delivered once and in order exactly when the
  sink shows `stream_tready`, right after the first ready edge behind a capture, the way it
  showed it right after the capture.
-/

namespace Rf215Sdr.Fpga

open Rf215Sdr.Lib

/-! ## Registers and the clock edge -/

/-- The registers of `iq_stream_source_change`. -/
@[ext]
structure IqStreamSource where
  pending : Bool
  prevWord : BitVec 32
  dataReg : BitVec 32
  streamTvalid : Bool
  streamTstart : Bool
  streamTlast : Bool
  deriving DecidableEq, Repr

/-- The inputs sampled at one edge. -/
structure SourceIn where
  iqWordIn : BitVec 32
  wordValidIn : Bool
  streamTready : Bool
  deriving DecidableEq, Repr

/-- `{iq_word_in[7:0], iq_word_in[15:8], iq_word_in[23:16], iq_word_in[31:24]}`. -/
def byteReverse (w : BitVec 32) : BitVec 32 :=
  w.extractLsb' 0 8 ++ w.extractLsb' 8 8 ++ w.extractLsb' 16 8 ++ w.extractLsb' 24 8

namespace IqStreamSource

/-- The registers while `reset` is high. -/
def reset : IqStreamSource where
  pending := false
  prevWord := 0
  dataReg := 0
  streamTvalid := false
  streamTstart := false
  streamTlast := false

/-- One rising edge of `clk` with `reset` low. -/
def clock (s : IqStreamSource) (i : SourceIn) : IqStreamSource :=
  -- the packet markers are low unless a word is captured
  let s := { s with streamTstart := false, streamTlast := false, streamTvalid := s.pending }
  -- `pending` wins over `word_valid_in`: a word offered meanwhile is not captured
  if !s.pending && i.wordValidIn then
    { s with
      dataReg := byteReverse i.iqWordIn
      prevWord := i.iqWordIn
      pending := true
      streamTstart := true
      streamTlast := true }
  else if s.pending && i.streamTready then { s with pending := false }
  else s

/-- `assign stream_tdata = data_reg`. -/
def streamTdata (s : IqStreamSource) : BitVec 32 :=
  s.dataReg

@[simp] theorem clock_streamTvalid (s : IqStreamSource) (i : SourceIn) :
    (s.clock i).streamTvalid = s.pending := by
  unfold clock
  dsimp only
  split_ifs <;> rfl

theorem clock_pending (s : IqStreamSource) (i : SourceIn) :
    (s.clock i).pending = if s.pending then !i.streamTready else i.wordValidIn := by
  unfold clock
  dsimp only
  cases s.pending <;> cases i.wordValidIn <;> cases i.streamTready <;> rfl

theorem clock_dataReg (s : IqStreamSource) (i : SourceIn) :
    (s.clock i).dataReg =
      if !s.pending && i.wordValidIn then byteReverse i.iqWordIn else s.dataReg := by
  unfold clock
  dsimp only
  split_ifs <;> rfl

end IqStreamSource

/-- The source as a clocked machine. -/
def iqStreamSource : Machine IqStreamSource SourceIn where
  reset := IqStreamSource.reset
  step := IqStreamSource.clock

/-! ## Traces -/

/-- The registers before edge `n` of an input trace from reset. -/
def sourceAt (tr : ℕ → SourceIn) (n : ℕ) : IqStreamSource :=
  iqStreamSource.stateAt tr n

/-- A word is captured at edge `n`: `pending = 0` and `word_valid_in = 1`. -/
def captures (tr : ℕ → SourceIn) (n : ℕ) : Bool :=
  !(sourceAt tr n).pending && (tr n).wordValidIn

/-- A beat is transferred at edge `n`: `stream_tvalid = 1` and `stream_tready = 1`. -/
def transfers (tr : ℕ → SourceIn) (n : ℕ) : Bool :=
  (sourceAt tr n).streamTvalid && (tr n).streamTready

/-- The edge at which the word in `data_reg` before edge `n` was captured. -/
def owner (tr : ℕ → SourceIn) : ℕ → ℕ
  | 0 => 0
  | n + 1 => if captures tr n then n else owner tr n

/-- The words captured at the first `n` edges, byte-reversed, each with its capture edge. -/
def captured (tr : ℕ → SourceIn) (n : ℕ) : List (ℕ × BitVec 32) :=
  ((List.range n).filter (captures tr)).map fun t => (t, byteReverse (tr t).iqWordIn)

/-- The beats transferred at the first `n` edges: `stream_tdata`, with the edge at which the
word was captured. -/
def transferred (tr : ℕ → SourceIn) (n : ℕ) : List (ℕ × BitVec 32) :=
  ((List.range n).filter (transfers tr)).map fun u => (owner tr u, (sourceAt tr u).streamTdata)

/-- Delivery of each captured word exactly once and in order, except that the last one may
not have been transferred yet. -/
def ExactlyOnce (tr : ℕ → SourceIn) (n : ℕ) : Prop :=
  transferred tr n = captured tr n ∨ transferred tr n = (captured tr n).dropLast

/-- The first edge behind `t` with `stream_tready = 1`. -/
def FirstReady (tr : ℕ → SourceIn) (t r : ℕ) : Prop :=
  t < r ∧ (tr r).streamTready = true ∧ ∀ i, t < i → i < r → (tr i).streamTready = false

/-- The sink is regular on the first `n` edges: behind each capture edge `t` and its first
ready edge `r`, `stream_tready` at edge `r + 1` is what it was at edge `t + 1`. A sink that
is ready at `t + 1` and not at `t + 2` is still fine if no word is captured later. -/
def SinkRegular (tr : ℕ → SourceIn) (n : ℕ) : Prop :=
  ∀ t r, captures tr t = true → FirstReady tr t r → r + 1 < n →
    (r ≠ t + 1 → (tr (r + 1)).streamTready = false) ∧
      (r = t + 1 → (tr (r + 1)).streamTready = true ∨
        ∀ t', t < t' → t' < n → captures tr t' = false)

/-! ## One more edge -/

theorem sourceAt_succ (tr : ℕ → SourceIn) (n : ℕ) :
    sourceAt tr (n + 1) = (sourceAt tr n).clock (tr n) := rfl

theorem streamTvalid_succ (tr : ℕ → SourceIn) (n : ℕ) :
    (sourceAt tr (n + 1)).streamTvalid = (sourceAt tr n).pending := by
  rw [sourceAt_succ, IqStreamSource.clock_streamTvalid]

theorem pending_succ (tr : ℕ → SourceIn) (n : ℕ) :
    (sourceAt tr (n + 1)).pending =
      if (sourceAt tr n).pending then !(tr n).streamTready else (tr n).wordValidIn := by
  rw [sourceAt_succ, IqStreamSource.clock_pending]

theorem dataReg_succ (tr : ℕ → SourceIn) (n : ℕ) :
    (sourceAt tr (n + 1)).dataReg =
      if captures tr n then byteReverse (tr n).iqWordIn else (sourceAt tr n).dataReg := by
  rw [sourceAt_succ, IqStreamSource.clock_dataReg]
  rfl

theorem owner_succ (tr : ℕ → SourceIn) (n : ℕ) :
    owner tr (n + 1) = if captures tr n then n else owner tr n := rfl

theorem captured_succ (tr : ℕ → SourceIn) (n : ℕ) :
    captured tr (n + 1) = captured tr n ++
      (if captures tr n then [(n, byteReverse (tr n).iqWordIn)] else []) := by
  simp only [captured, List.range_succ, List.filter_append, List.map_append, List.filter_cons,
    List.filter_nil]
  split <;> rfl

theorem transferred_succ (tr : ℕ → SourceIn) (n : ℕ) :
    transferred tr (n + 1) = transferred tr n ++
      (if transfers tr n then [(owner tr n, (sourceAt tr n).streamTdata)] else []) := by
  simp only [transferred, List.range_succ, List.filter_append, List.map_append,
    List.filter_cons, List.filter_nil]
  split <;> rfl

theorem transferred_prefix (tr : ℕ → SourceIn) {m n : ℕ} (h : m ≤ n) :
    transferred tr m <+: transferred tr n := by
  induction n, h using Nat.le_induction with
  | base => exact List.prefix_rfl
  | succ n _ ih =>
    rw [transferred_succ]
    exact ih.trans (List.prefix_append _ _)

/-- No capture edge occurs twice among the captured words. -/
theorem nodup_captured (tr : ℕ → SourceIn) (n : ℕ) : (captured tr n).Nodup := by
  refine List.Nodup.map_on ?_ (List.nodup_range.filter _)
  intro a _ b _ hab
  exact (Prod.mk.inj hab).1

theorem mem_captured_iff (tr : ℕ → SourceIn) (n : ℕ) (c : ℕ × BitVec 32) :
    c ∈ captured tr n ↔
      c.1 < n ∧ captures tr c.1 = true ∧ c.2 = byteReverse (tr c.1).iqWordIn := by
  obtain ⟨t, w⟩ := c
  simp only [captured, List.mem_map, List.mem_filter, List.mem_range, Prod.mk.injEq]
  constructor
  · rintro ⟨t', ⟨hlt, hcap⟩, rfl, rfl⟩
    exact ⟨hlt, hcap, rfl⟩
  · rintro ⟨hlt, hcap, rfl⟩
    exact ⟨t, ⟨hlt, hcap⟩, rfl, rfl⟩

/-! ## The edges behind a capture -/

/-- `data_reg` holds the last captured word, and `owner` is its capture edge. -/
theorem getLast?_captured (tr : ℕ → SourceIn) (n : ℕ) :
    captured tr n = [] ∨
      (captured tr n).getLast? = some (owner tr n, (sourceAt tr n).streamTdata) := by
  induction n with
  | zero => exact Or.inl rfl
  | succ n ih =>
    unfold IqStreamSource.streamTdata at ih ⊢
    rw [captured_succ, dataReg_succ, owner_succ]
    by_cases hc : captures tr n = true
    · right
      simp [hc]
    · simpa [hc] using ih

/-- Before the first capture nothing is pending and nothing is offered. -/
theorem idle_of_captured_nil (tr : ℕ → SourceIn) {n : ℕ} (h : captured tr n = []) :
    (sourceAt tr n).pending = false ∧ (sourceAt tr n).streamTvalid = false := by
  induction n with
  | zero => exact ⟨rfl, rfl⟩
  | succ n ih =>
    rw [captured_succ] at h
    obtain ⟨hnil, hno⟩ := List.append_eq_nil_iff.mp h
    obtain ⟨hp, -⟩ := ih hnil
    have hcap : captures tr n = false := by
      cases hc : captures tr n with
      | false => rfl
      | true => simp [hc] at hno
    have hvalid : (tr n).wordValidIn = false := by
      simpa [captures, hp] using hcap
    exact ⟨by rw [pending_succ, hp]; simpa using hvalid, by rw [streamTvalid_succ, hp]⟩

/-- **The window of a capture**: as long as no other word is captured, `pending` covers the
edges behind `t` up to the first ready edge `r`, and `stream_tvalid` the same edges one clock
later. -/
theorem sourceAt_window {tr : ℕ → SourceIn} {t r : ℕ} (hcap : captures tr t = true)
    (hr : FirstReady tr t r) {u : ℕ} (hu : t < u)
    (hnone : ∀ t', t < t' → t' < u → captures tr t' = false) :
    (sourceAt tr u).pending = decide (u ≤ r) ∧
      (sourceAt tr u).streamTvalid = decide (t + 2 ≤ u ∧ u ≤ r + 1) := by
  obtain ⟨htr, hready, hbefore⟩ := hr
  simp only [captures, Bool.and_eq_true, Bool.not_eq_true'] at hcap
  induction u, hu using Nat.le_induction with
  | base =>
    refine ⟨?_, ?_⟩
    · rw [pending_succ, hcap.1, if_neg Bool.false_ne_true, hcap.2]
      exact (decide_eq_true htr).symm
    · rw [streamTvalid_succ, hcap.1, decide_eq_false]
      omega
  | succ u hu ih =>
    have hu' : t < u := hu
    -- induction on `u`: the flag follows the ready edges, `stream_tvalid` follows the flag
    obtain ⟨hp, -⟩ := ih fun t' ht ht' => hnone t' ht (Nat.lt_succ_of_lt ht')
    have hcapu := hnone u hu' (Nat.lt_succ_self u)
    refine ⟨?_, ?_⟩
    · rw [pending_succ, hp]
      by_cases hur : u ≤ r
      · rw [decide_eq_true hur, if_pos rfl]
        by_cases hlast : u = r
        · rw [hlast, hready]
          exact (decide_eq_false (by omega)).symm
        · rw [hbefore u hu' (by omega)]
          exact (decide_eq_true (by omega)).symm
      · -- nothing pending and nothing captured: the flag stays down
        have hvalid : (tr u).wordValidIn = false := by
          simpa [captures, hp, hur] using hcapu
        rw [decide_eq_false hur, if_neg Bool.false_ne_true, hvalid]
        exact (decide_eq_false (by omega)).symm
    · rw [streamTvalid_succ, hp, decide_eq_decide]
      omega

/-- As long as the sink has not been ready, the word stays pending and nothing new is
captured. -/
theorem pending_until_ready {tr : ℕ → SourceIn} {t : ℕ} (hcap : captures tr t = true) {u : ℕ}
    (hu : t < u) (hwait : ∀ i, t < i → i < u → (tr i).streamTready = false) :
    (sourceAt tr u).pending = true := by
  induction u, hu using Nat.le_induction with
  | base =>
    simp only [captures, Bool.and_eq_true, Bool.not_eq_true'] at hcap
    rw [pending_succ, hcap.1, if_neg Bool.false_ne_true, hcap.2]
  | succ u hu ih =>
    have hp := ih fun i hi hi' => hwait i hi (Nat.lt_succ_of_lt hi')
    rw [pending_succ, hp, if_pos rfl, hwait u hu (Nat.lt_succ_self u)]
    rfl

/-- Between a capture and its first ready edge, that edge included, nothing is captured. -/
theorem not_captures_of_le_ready {tr : ℕ → SourceIn} {t r : ℕ} (hcap : captures tr t = true)
    (hr : FirstReady tr t r) {u : ℕ} (hu : t < u) (hur : u ≤ r) : captures tr u = false := by
  have hp := pending_until_ready hcap hu fun i hi hi' => hr.2.2 i hi (by omega)
  simp [captures, hp]

/-- The owner is a capture edge, and nothing is captured behind it. -/
theorem owner_spec {tr : ℕ → SourceIn} {n : ℕ} (h : captured tr n ≠ []) :
    captures tr (owner tr n) = true ∧ owner tr n < n ∧
      ∀ t', owner tr n < t' → t' < n → captures tr t' = false := by
  induction n with
  | zero => exact absurd rfl h
  | succ n ih =>
    rw [owner_succ]
    by_cases hc : captures tr n = true
    · rw [if_pos hc]
      exact ⟨hc, Nat.lt_succ_self n, fun t' ht ht' => by omega⟩
    · rw [if_neg hc]
      have hne : captured tr n ≠ [] := by
        intro hnil
        rw [captured_succ, hnil, if_neg hc] at h
        exact h rfl
      obtain ⟨hown, hlt, hnone⟩ := ih hne
      refine ⟨hown, Nat.lt_succ_of_lt hlt, fun t' ht ht' => ?_⟩
      rcases Nat.lt_succ_iff_lt_or_eq.mp ht' with hlt' | rfl
      · exact hnone t' ht hlt'
      · simpa using hc

/-- Dropping the last captured word and offering `data_reg` again restores the list. -/
theorem dropLast_append_owner {tr : ℕ → SourceIn} {n : ℕ} (h : captured tr n ≠ []) :
    (captured tr n).dropLast ++ [(owner tr n, (sourceAt tr n).streamTdata)] =
      captured tr n := by
  have hlast := (getLast?_captured tr n).resolve_left h
  rw [List.getLast?_eq_some_getLast h, Option.some.injEq] at hlast
  rw [← hlast, List.dropLast_append_getLast h]

/-- While a word is pending, `stream_tvalid` is up from the second edge behind its capture. -/
theorem streamTvalid_while_waiting {tr : ℕ → SourceIn} {t : ℕ} (hcap : captures tr t = true)
    {u : ℕ} (hu : t < u) (hwait : ∀ i, t < i → i < u → (tr i).streamTready = false) :
    (sourceAt tr u).streamTvalid = decide (u ≠ t + 1) := by
  obtain ⟨v, rfl⟩ : ∃ v, u = v + 1 := ⟨u - 1, by omega⟩
  rw [streamTvalid_succ]
  by_cases hv : v = t
  · simp only [captures, Bool.and_eq_true, Bool.not_eq_true'] at hcap
    rw [hv, hcap.1, decide_eq_false]
    exact fun h => h rfl
  · rw [pending_until_ready hcap (by omega) fun i hi hi' => hwait i hi (by omega),
      decide_eq_true]
    omega

/-! ## Exactly-once delivery -/

/-- In an exactly-once delivery no beat occurs twice. -/
theorem ExactlyOnce.nodup {tr : ℕ → SourceIn} {n : ℕ} (h : ExactlyOnce tr n) :
    (transferred tr n).Nodup := by
  rcases h with h | h
  · rw [h]
    exact nodup_captured tr n
  · rw [h]
    exact (nodup_captured tr n).sublist (List.dropLast_sublist _)

/-- Every word but the last one captured has been transferred. -/
theorem ExactlyOnce.mem_transferred {tr : ℕ → SourceIn} {n t : ℕ} (h : ExactlyOnce tr n)
    (hcap : captures tr t = true) (hne : captured tr n ≠ []) (hlater : t < owner tr n) :
    (t, byteReverse (tr t).iqWordIn) ∈ transferred tr n := by
  have hlt := Nat.lt_trans hlater (owner_spec hne).2.1
  have hin : (t, byteReverse (tr t).iqWordIn) ∈ captured tr n :=
    (mem_captured_iff tr n _).mpr ⟨hlt, hcap, rfl⟩
  rcases h with h | h
  · rw [h]
    exact hin
  · rw [h]
    rw [← dropLast_append_owner hne] at hin
    rcases List.mem_append.mp hin with hin | hin
    · exact hin
    · obtain ⟨rfl, -⟩ : t = owner tr n ∧ _ := by simpa using hin
      omega

/-- The edge that transfers a word is in the window of its capture. -/
theorem exists_transfer {tr : ℕ → SourceIn} {n t : ℕ} {w : BitVec 32}
    (hmem : (t, w) ∈ transferred tr n) :
    ∃ u, transfers tr u = true ∧ t < u ∧ ∀ t', t < t' → t' < u → captures tr t' = false := by
  simp only [transferred, List.mem_map, List.mem_filter, List.mem_range] at hmem
  obtain ⟨u, ⟨-, htrans⟩, hpair⟩ := hmem
  obtain ⟨rfl, -⟩ := Prod.mk.inj hpair
  have hvalid : (sourceAt tr u).streamTvalid = true := by
    unfold transfers at htrans
    exact (Bool.and_eq_true_iff.mp htrans).1
  have hne : captured tr u ≠ [] := by
    intro hnil
    rw [(idle_of_captured_nil tr hnil).2] at hvalid
    exact Bool.false_ne_true hvalid
  exact ⟨u, htrans, (owner_spec hne).2⟩

section SinkRegular

variable {tr : ℕ → SourceIn} {n t r : ℕ} (hcap : captures tr t = true)
  (hr : FirstReady tr t r)

include hcap hr

/-- A sink that is ready once more behind a late ready edge gets the word again. -/
theorem not_ready_of_nodup (hnodup : (transferred tr n).Nodup) (hrn : r + 1 < n)
    (hrt : r ≠ t + 1) : (tr (r + 1)).streamTready = false := by
  by_contra hready
  have htr := hr.1
  have hnone : ∀ t', t < t' → t' < r + 1 → captures tr t' = false :=
    fun t' ht ht' => not_captures_of_le_ready hcap hr ht (Nat.lt_succ_iff.mp ht')
  -- `r` itself transfers the word, and so does a ready edge `r + 1`
  have hfirst : transfers tr r = true := by
    have hv := (sourceAt_window hcap hr htr fun t' ht ht' => hnone t' ht (by omega)).2
    rw [transfers, hv, hr.2.1, decide_eq_true (by omega)]
    rfl
  have hsecond : transfers tr (r + 1) = true := by
    have hv := (sourceAt_window hcap hr (Nat.lt_succ_of_lt htr) hnone).2
    rw [transfers, hv, decide_eq_true (by omega)]
    simpa using hready
  -- both edges show the same register
  have hbeats : transferred tr (r + 1 + 1) = transferred tr r ++
      [(owner tr r, (sourceAt tr r).streamTdata)] ++
      [(owner tr r, (sourceAt tr r).streamTdata)] := by
    have hdata : (sourceAt tr (r + 1)).streamTdata = (sourceAt tr r).streamTdata := by
      unfold IqStreamSource.streamTdata
      rw [dataReg_succ, hnone r htr (Nat.lt_succ_self r), if_neg Bool.false_ne_true]
    have howner : owner tr (r + 1) = owner tr r := by
      rw [owner_succ, hnone r htr (Nat.lt_succ_self r), if_neg Bool.false_ne_true]
    rw [transferred_succ, transferred_succ, if_pos hfirst, if_pos hsecond, hdata, howner]
  have hprefix := transferred_prefix tr (m := r + 1 + 1) (n := n) (by omega)
  have htwice := hnodup.sublist hprefix.sublist
  rw [hbeats, List.append_assoc] at htwice
  have hpair := (List.nodup_append.mp htwice).2.1
  simp at hpair

/-- A sink that is ready right behind the capture and then not again misses the word. -/
theorem ready_of_transfer {u : ℕ} (htrans : transfers tr u = true) (htu : t < u)
    (hnone : ∀ t', t < t' → t' < u → captures tr t' = false) (hrt : r = t + 1) :
    (tr (r + 1)).streamTready = true := by
  simp only [transfers, Bool.and_eq_true] at htrans
  -- only the last edge of the window is left
  have hv := (sourceAt_window hcap hr htu hnone).2
  rw [htrans.1] at hv
  have hwin := of_decide_eq_true hv.symm
  obtain rfl : u = r + 1 := by omega
  exact htrans.2

end SinkRegular

/-- A sink that is not regular makes the source repeat a word or lose one. -/
theorem sinkRegular_of_exactlyOnce {tr : ℕ → SourceIn} {n : ℕ} (h : ExactlyOnce tr n) :
    SinkRegular tr n := by
  intro t r hcap hr hrn
  refine ⟨not_ready_of_nodup hcap hr h.nodup hrn, fun hrt => ?_⟩
  by_cases hready : (tr (r + 1)).streamTready = true
  · exact Or.inl hready
  · refine Or.inr fun t' ht' ht'n => ?_
    by_contra hcap'
    have hne : captured tr n ≠ [] := List.ne_nil_of_mem
      ((mem_captured_iff tr n (t, byteReverse (tr t).iqWordIn)).mpr ⟨by omega, hcap, rfl⟩)
    -- a later word was captured, so this one is not the last one
    have hlater : t < owner tr n := by
      by_contra hle
      exact hcap' ((owner_spec hne).2.2 t' (by omega) ht'n)
    obtain ⟨u, htrans, htu, hnone⟩ := exists_transfer (h.mem_transferred hcap hne hlater)
    exact hready (ready_of_transfer hcap hr htrans htu hnone hrt)

/-- Where the source stands before edge `m`, on a run of `n` edges with a regular sink: what
has been transferred, in each combination of `pending` and `stream_tvalid`. -/
structure Progress (tr : ℕ → SourceIn) (n m : ℕ) : Prop where
  idle : (sourceAt tr m).pending = false → (sourceAt tr m).streamTvalid = false →
    transferred tr m = captured tr m ∨
      transferred tr m = (captured tr m).dropLast ∧
        ∀ t', m ≤ t' → t' < n → captures tr t' = false
  waiting : (sourceAt tr m).pending = true →
    transferred tr m = (captured tr m).dropLast ∧
      ∀ i, owner tr m < i → i < m → (tr i).streamTready = false
  drained : (sourceAt tr m).pending = false → (sourceAt tr m).streamTvalid = true →
    ∃ r, m = r + 1 ∧ FirstReady tr (owner tr m) r ∧
      (r = owner tr m + 1 → transferred tr m = (captured tr m).dropLast) ∧
      (r ≠ owner tr m + 1 → transferred tr m = captured tr m)

/-- Nothing is captured while a word is pending. -/
theorem not_captures_of_pending {tr : ℕ → SourceIn} {m : ℕ}
    (hp : (sourceAt tr m).pending = true) : captures tr m = false := by
  simp [captures, hp]

/-- A register that shows `pending` or `stream_tvalid` has captured something. -/
theorem captured_ne_nil {tr : ℕ → SourceIn} {m : ℕ}
    (h : (sourceAt tr m).pending = true ∨ (sourceAt tr m).streamTvalid = true) :
    captured tr m ≠ [] := by
  intro hnil
  obtain ⟨hp, hv⟩ := idle_of_captured_nil tr hnil
  rw [hp, hv] at h
  simp at h

/-- A word captured at edge `m` behind complete delivery is the one still to come. -/
theorem progress_of_captures {tr : ℕ → SourceIn} {n m : ℕ} (hcap : captures tr m = true)
    (hdone : transferred tr (m + 1) = captured tr m) : Progress tr n (m + 1) := by
  have hp : (sourceAt tr (m + 1)).pending = true := by
    simp only [captures, Bool.and_eq_true, Bool.not_eq_true'] at hcap
    rw [pending_succ, hcap.1, if_neg Bool.false_ne_true, hcap.2]
  refine ⟨fun h => absurd (h.symm.trans hp) Bool.false_ne_true, fun _ => ⟨?_, ?_⟩,
    fun h => absurd (h.symm.trans hp) Bool.false_ne_true⟩
  · rw [hdone, captured_succ, if_pos hcap, List.dropLast_concat]
  · intro i hi hi'
    rw [owner_succ, if_pos hcap] at hi
    omega

/-- An edge without a pending word, with everything delivered behind it or nothing more to come. -/
theorem progress_of_not_pending {tr : ℕ → SourceIn} {n m : ℕ} (hmn : m < n)
    (hp : (sourceAt tr m).pending = false)
    (hT : transferred tr (m + 1) = captured tr m ∨
      transferred tr (m + 1) = (captured tr m).dropLast ∧
        ∀ t', m ≤ t' → t' < n → captures tr t' = false) :
    Progress tr n (m + 1) := by
  by_cases hcap : captures tr m = true
  · -- a word is captured at this very edge, so nothing was lost
    apply progress_of_captures hcap
    refine hT.resolve_right fun hno => ?_
    rw [hno.2 m (Nat.le_refl m) hmn] at hcap
    cases hcap
  · have hC : captured tr (m + 1) = captured tr m := by
      rw [captured_succ, if_neg hcap, List.append_nil]
    have hp' : (sourceAt tr (m + 1)).pending = false := by
      rw [pending_succ, hp, if_neg Bool.false_ne_true]
      simpa [captures, hp] using hcap
    have hv' : (sourceAt tr (m + 1)).streamTvalid = false := by
      rw [streamTvalid_succ, hp]
    refine ⟨fun _ _ => ?_, fun h => absurd (hp'.symm.trans h) Bool.false_ne_true,
      fun _ h => absurd (hv'.symm.trans h) Bool.false_ne_true⟩
    rw [hC]
    exact hT.imp_right fun hno => ⟨hno.1, fun t' ht' => hno.2 t' (by omega)⟩

/-- Step lemma: a pending word. -/
theorem Progress.step_waiting {tr : ℕ → SourceIn} {n m : ℕ} (h : Progress tr n m)
    (hp : (sourceAt tr m).pending = true) : Progress tr n (m + 1) := by
  obtain ⟨hT, hwait⟩ := h.waiting hp
  have hne := captured_ne_nil (Or.inl hp)
  have hnocap := not_captures_of_pending hp
  obtain ⟨hown, hlt, -⟩ := owner_spec hne
  have hC : captured tr (m + 1) = captured tr m := by
    rw [captured_succ, hnocap, if_neg Bool.false_ne_true, List.append_nil]
  have hO : owner tr (m + 1) = owner tr m := by
    rw [owner_succ, hnocap, if_neg Bool.false_ne_true]
  have hv := streamTvalid_while_waiting hown hlt hwait
  cases hready : (tr m).streamTready with
  | false =>
    -- no ready edge yet, nothing is transferred
    have hp' : (sourceAt tr (m + 1)).pending = true := by
      rw [pending_succ, hp, if_pos rfl, hready]
      rfl
    refine ⟨fun h => absurd (h.symm.trans hp') Bool.false_ne_true, fun _ => ⟨?_, ?_⟩,
      fun h => absurd (h.symm.trans hp') Bool.false_ne_true⟩
    · rw [hC, transferred_succ, hT]
      simp [transfers, hready]
    · intro i hi hi'
      rw [hO] at hi
      rcases Nat.lt_succ_iff_lt_or_eq.mp hi' with hi' | rfl
      · exact hwait i hi hi'
      · exact hready
  | true =>
    -- the first ready edge: the beat goes through unless it is the edge behind the capture
    have hp' : (sourceAt tr (m + 1)).pending = false := by
      rw [pending_succ, hp, if_pos rfl, hready]
      rfl
    have hv' : (sourceAt tr (m + 1)).streamTvalid = true := by
      rw [streamTvalid_succ, hp]
    refine ⟨fun _ h => absurd (h.symm.trans hv') Bool.false_ne_true,
      fun h => absurd (hp'.symm.trans h) Bool.false_ne_true,
      fun _ _ => ⟨m, rfl, ⟨by rw [hO]; exact hlt, hready, by rw [hO]; exact hwait⟩, ?_, ?_⟩⟩
    · intro hm
      rw [hO] at hm
      have hoff : transfers tr m = false := by
        rw [transfers, hv, decide_eq_false (fun hne => hne hm), Bool.false_and]
      rw [hC, transferred_succ, hT, hoff, if_neg Bool.false_ne_true, List.append_nil]
    · intro hm
      rw [hO] at hm
      have hon : transfers tr m = true := by
        rw [transfers, hv, decide_eq_true hm, hready]
        rfl
      rw [hC, transferred_succ, hT, if_pos hon, dropLast_append_owner hne]

/-- Step lemma: `pending` has just been cleared. -/
theorem Progress.step_drained {tr : ℕ → SourceIn} {n m : ℕ} (h : Progress tr n m)
    (hreg : SinkRegular tr n) (hmn : m < n) (hp : (sourceAt tr m).pending = false)
    (hv : (sourceAt tr m).streamTvalid = true) : Progress tr n (m + 1) := by
  obtain ⟨r, rfl, hr, hlost, hsent⟩ := h.drained hp hv
  have hne := captured_ne_nil (Or.inr hv)
  obtain ⟨hown, hlt, -⟩ := owner_spec hne
  obtain ⟨hdup, hloss⟩ := hreg _ r hown hr hmn
  have hbeat : transfers tr (r + 1) = (tr (r + 1)).streamTready := by
    rw [transfers, hv, Bool.true_and]
  have hT : transferred tr (r + 1 + 1) = captured tr (r + 1) ∨
      transferred tr (r + 1 + 1) = (captured tr (r + 1)).dropLast ∧
        ∀ t', r + 1 ≤ t' → t' < n → captures tr t' = false := by
    -- ready right behind the capture: the beat is still to come, at this edge or never
    by_cases hrt : r = owner tr (r + 1) + 1
    · rcases hloss hrt with hready | hlast
      · left
        rw [transferred_succ, hbeat, hready, if_pos rfl, hlost hrt, dropLast_append_owner hne]
      · cases hready : (tr (r + 1)).streamTready with
        | true =>
          left
          rw [transferred_succ, hbeat, hready, if_pos rfl, hlost hrt,
            dropLast_append_owner hne]
        | false =>
          right
          refine ⟨?_, fun t' ht' ht'n => hlast t' (by omega) ht'n⟩
          rw [transferred_succ, hbeat, hready, if_neg Bool.false_ne_true, List.append_nil,
            hlost hrt]
    · left
      rw [transferred_succ, hbeat, hdup hrt, if_neg Bool.false_ne_true, List.append_nil,
        hsent hrt]
  exact progress_of_not_pending hmn hp hT

/-- Step lemma: nothing under way. -/
theorem Progress.step_idle {tr : ℕ → SourceIn} {n m : ℕ} (h : Progress tr n m) (hmn : m < n)
    (hp : (sourceAt tr m).pending = false) (hv : (sourceAt tr m).streamTvalid = false) :
    Progress tr n (m + 1) := by
  have hT : transferred tr (m + 1) = transferred tr m := by
    rw [transferred_succ]
    simp [transfers, hv]
  apply progress_of_not_pending hmn hp
  rw [hT]
  exact h.idle hp hv

/-- Run lemma: with a regular sink, the source is in order before every edge. -/
theorem progress_of_sinkRegular {tr : ℕ → SourceIn} {n : ℕ} (hreg : SinkRegular tr n) {m : ℕ}
    (hm : m ≤ n) : Progress tr n m := by
  induction m with
  | zero =>
    exact ⟨fun _ _ => Or.inl rfl, fun h => absurd h Bool.false_ne_true,
      fun _ h => absurd h Bool.false_ne_true⟩
  | succ m ih =>
    have h := ih (Nat.le_of_succ_le hm)
    cases hp : (sourceAt tr m).pending with
    | true => exact h.step_waiting hp
    | false =>
      cases hv : (sourceAt tr m).streamTvalid with
      | true => exact h.step_drained hreg hm hp hv
      | false => exact h.step_idle hm hp hv

/-- A pending word has met no ready edge yet. -/
theorem not_ready_of_pending {tr : ℕ → SourceIn} {n : ℕ}
    (hp : (sourceAt tr n).pending = true) {i : ℕ} (hi : owner tr n < i) (hin : i < n) :
    (tr i).streamTready = false := by
  induction n with
  | zero => exact absurd hin (Nat.not_lt_zero i)
  | succ n ih =>
    rw [owner_succ] at hi
    cases hpn : (sourceAt tr n).pending with
    | true =>
      rw [not_captures_of_pending hpn, if_neg Bool.false_ne_true] at hi
      rw [pending_succ, hpn, if_pos rfl, Bool.not_eq_true'] at hp
      rcases Nat.lt_succ_iff_lt_or_eq.mp hin with hlt | rfl
      · exact ih hpn hi hlt
      · exact hp
    | false =>
      -- the word was captured at edge `n` itself
      rw [pending_succ, hpn, if_neg Bool.false_ne_true] at hp
      have hcap : captures tr n = true := by simp [captures, hpn, hp]
      rw [if_pos hcap] at hi
      omega

/-- **Exactly-once delivery, exact law**: on every trace, every captured word is delivered
exactly once and in order, the last one possibly still to come, if and only if the sink is
regular. -/
theorem exactlyOnce_iff (tr : ℕ → SourceIn) (n : ℕ) :
    ExactlyOnce tr n ↔ SinkRegular tr n := by
  refine ⟨sinkRegular_of_exactlyOnce, fun hreg => ?_⟩
  have h := progress_of_sinkRegular hreg (Nat.le_refl n)
  cases hp : (sourceAt tr n).pending with
  | true => exact Or.inr (h.waiting hp).1
  | false =>
    cases hv : (sourceAt tr n).streamTvalid with
    | false => exact (h.idle hp hv).imp_right And.left
    | true =>
      obtain ⟨r, -, -, hlost, hsent⟩ := h.drained hp hv
      by_cases hrt : r = owner tr n + 1
      · exact Or.inr (hlost hrt)
      · exact Or.inl (hsent hrt)

/-- A sink that stays ready is regular. -/
theorem sinkRegular_of_ready {tr : ℕ → SourceIn} (h : ∀ n, (tr n).streamTready = true) (n : ℕ) :
    SinkRegular tr n := by
  intro t r _ hr _
  have hnext : r = t + 1 := by
    by_contra hne
    have hlater := hr.2.2 (t + 1) (Nat.lt_succ_self t) (by have := hr.1; omega)
    rw [h] at hlater
    cases hlater
  exact ⟨fun hne => absurd hnext hne, fun _ => Or.inl (h _)⟩

/-- A word captured while the sink stalls for one edge and is ready for two: it is
transferred twice. -/
def stalledTrace (n : ℕ) : SourceIn :=
  [⟨0x80004000, true, false⟩, ⟨0x80004000, false, false⟩, ⟨0x80004000, false, true⟩,
    ⟨0x80004000, false, true⟩].getD n ⟨0, false, false⟩

theorem stalledTrace_delivers_twice :
    ¬ ∀ (tr : ℕ → SourceIn) (n : ℕ),
      (transferred tr n).map Prod.snd = (captured tr n).map Prod.snd ∨
        (transferred tr n).map Prod.snd = ((captured tr n).map Prod.snd).dropLast := by
  intro hclaim
  have h := hclaim stalledTrace 4
  revert h
  decide

end Rf215Sdr.Fpga
