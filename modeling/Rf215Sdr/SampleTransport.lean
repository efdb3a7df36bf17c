import Mathlib.Tactic.NormNum
import Rf215Sdr.Fpga.IqStreamSource
import Rf215Sdr.Fpga.LvdsFraming
import Rf215Sdr.Hps.Datagram
import Rf215Sdr.Host.UdpIqSource

/-!
# Samples from the Stream Source to GNU Radio

A sample crosses four byte orders on its way: the byte reversal of the stream source, the
symbol order in which beats reach memory, the little-endian loads and `htonl` of `dma_loop`,
and the big-endian view of the receiver. FIFO, width adapter and write master are taken to
move bytes in order and without loss.

## Main results

- `transferred_of_ready`: into a sink that is always ready, every captured word is
  transferred two edges later.
- `memoryImage_beats`: words presented far enough apart lie in memory lowest byte first.
- `samples_survive`: the receiver numbers the datagrams in order and puts out the samples of
  the words that were presented.
-/

namespace Rf215Sdr

open Lib Fpga Hps Host

/-! ## Presenting words to the stream source -/

/-- A trace from reset that presents the words `ws` to the stream source, one pulse of
`word_valid_in` each, at least 16 clocks apart, with `stream_tready` always 1. -/
structure Presentation (ws : List (BitVec 32)) where
  trace : ℕ → SourceIn
  /-- The pulses all come at the first `edges` edges. -/
  edges : ℕ
  ready : ∀ n, (trace n).streamTready = true
  spaced : ∀ i j, (trace i).wordValidIn = true → (trace j).wordValidIn = true → i < j →
    i + 16 ≤ j
  presented : ((List.range edges).filter fun n => (trace n).wordValidIn).map
    (fun n => (trace n).iqWordIn) = ws
  quiet : ∀ n, edges ≤ n → (trace n).wordValidIn = false

/-- The beats transferred, up to the edge at which the last word has left the source. -/
def Presentation.beats {ws : List (BitVec 32)} (p : Presentation ws) : List (BitVec 32) :=
  (transferred p.trace (p.edges + 2)).map Prod.snd

/-- The bytes of the beats at ascending addresses, first symbol first. The interface has
`firstSymbolInHighOrderBits` set. -/
def memoryImage (beats : List (BitVec 32)) : List Byte :=
  beats.flatMap (beBytes 4)

/-- The words presented in the first `16 * k` clocks when every sixteenth presents one. -/
theorem presented_every_sixteen (ws : List (BitVec 32)) {k : ℕ} (hk : k ≤ ws.length) :
    ((List.range (16 * k)).filter fun n =>
      decide (n % 16 = 0) && decide (n / 16 < ws.length)).map (fun n => ws.getD (n / 16) 0) =
        ws.take k := by
  induction k with
  | zero => rfl
  | succ k ih =>
    -- of sixteen clocks, the first one counts
    have hfirst : (List.range 16).filter ((fun n =>
        decide (n % 16 = 0) && decide (n / 16 < ws.length)) ∘ (16 * k + ·)) =
          (List.range 16).filter (· == 0) := by
      apply List.filter_congr
      intro j hj
      rw [List.mem_range] at hj
      show (decide ((16 * k + j) % 16 = 0) && decide ((16 * k + j) / 16 < ws.length)) = (j == 0)
      rw [Bool.eq_iff_iff]
      simp only [Bool.and_eq_true, decide_eq_true_eq, beq_iff_eq]
      omega
    have hlast : ((List.range 16).map (16 * k + ·)).filter (fun n =>
        decide (n % 16 = 0) && decide (n / 16 < ws.length)) = [16 * k] := by
      rw [List.filter_map, hfirst]
      rfl
    have hword : [ws.getD k 0] = ws[k]?.toList := by
      rw [List.getD_eq_getElem _ _ hk, List.getElem?_eq_getElem hk]
      rfl
    rw [Nat.mul_succ, List.range_add, List.filter_append, List.map_append, hlast,
      ih (Nat.le_of_succ_le hk), List.take_add_one, List.map_cons, List.map_nil,
      Nat.mul_div_cancel_left k (by decide), hword]

/-- Presenting one word every 16 clocks. -/
def Presentation.everySixteen (ws : List (BitVec 32)) : Presentation ws where
  trace n :=
    { iqWordIn := ws.getD (n / 16) 0
      wordValidIn := decide (n % 16 = 0) && decide (n / 16 < ws.length)
      streamTready := true }
  edges := 16 * ws.length
  ready _ := rfl
  spaced i j hi hj hij := by
    simp only [Bool.and_eq_true, decide_eq_true_eq] at hi hj
    omega
  presented := (presented_every_sixteen ws le_rfl).trans (List.take_length)
  quiet n hn := by
    simp only [Bool.and_eq_false_iff, decide_eq_false_iff_not]
    omega

/-! ## The beats -/

/-- Into a sink that is always ready, the word captured at an edge is transferred two edges
later, and nothing else is. -/
theorem transferred_of_ready {tr : ℕ → SourceIn} (hready : ∀ n, (tr n).streamTready = true)
    (n : ℕ) : transferred tr (n + 2) = captured tr n := by
  -- with the sink ready, a word is pending for one edge
  have hpending : ∀ m, (sourceAt tr (m + 1)).pending = captures tr m := by
    intro m
    rw [pending_succ, hready m]
    unfold captures
    cases (sourceAt tr m).pending <;> rfl
  induction n with
  | zero =>
    have hidle : transfers tr 1 = false := by
      unfold transfers
      rw [streamTvalid_succ]
      rfl
    rw [transferred_succ, hidle]
    rfl
  | succ n ih =>
    have htransfer : transfers tr (n + 2) = captures tr n := by
      unfold transfers
      rw [hready, Bool.and_true, streamTvalid_succ, hpending]
    rw [transferred_succ, captured_succ, ih, htransfer]
    congr 1
    by_cases hcap : captures tr n = true
    · -- the next edge captures nothing, so data and owner are still those of edge `n`
      have hnext : captures tr (n + 1) = false := by
        unfold captures
        rw [hpending, hcap]
        rfl
      rw [if_pos hcap, if_pos hcap, owner_succ, hnext, if_neg Bool.false_ne_true, owner_succ,
        if_pos hcap]
      unfold IqStreamSource.streamTdata
      rw [dataReg_succ, hnext, if_neg Bool.false_ne_true, dataReg_succ, if_pos hcap]
    · rw [if_neg hcap, if_neg hcap]

namespace Presentation

variable {ws : List (BitVec 32)} (p : Presentation ws)

/-- Every pulse finds the source idle. -/
theorem captures_eq (n : ℕ) : captures p.trace n = (p.trace n).wordValidIn := by
  unfold captures
  cases hvalid : (p.trace n).wordValidIn with
  | false => rw [Bool.and_false]
  | true =>
    cases n with
    | zero => rfl
    | succ n =>
      -- pulses are far apart, so none came at the edge before
      have hbefore : (p.trace n).wordValidIn = false := by
        cases h : (p.trace n).wordValidIn with
        | false => rfl
        | true =>
          have := p.spaced n (n + 1) h hvalid (Nat.lt_succ_self n)
          omega
      rw [pending_succ, p.ready n, hbefore]
      cases (sourceAt p.trace n).pending <;> rfl

/-- The beats are the presented words, each byte-reversed, whatever the spacing. -/
theorem beats_eq : p.beats = ws.map byteReverse := by
  unfold beats
  rw [transferred_of_ready p.ready, captured, List.filter_congr fun n _ => p.captures_eq n,
    List.map_map]
  calc _ = (((List.range p.edges).filter fun n => (p.trace n).wordValidIn).map
        (fun n => (p.trace n).iqWordIn)).map byteReverse := by
        rw [List.map_map]
        rfl
    _ = ws.map byteReverse := by rw [p.presented]

/-- Waiting longer transfers nothing more. -/
theorem beats_final (n : ℕ) :
    (transferred p.trace (p.edges + n + 2)).map Prod.snd = p.beats := by
  unfold beats
  rw [transferred_of_ready p.ready, transferred_of_ready p.ready]
  induction n with
  | zero => rfl
  | succ n ih =>
    rw [← Nat.add_assoc, captured_succ, captures_eq, p.quiet _ (Nat.le_add_right _ _),
      if_neg Bool.false_ne_true, List.append_nil, ih]

/-- The RTL byte reversal and the symbol order make words little-endian in memory. -/
theorem memoryImage_beats : memoryImage p.beats = ws.flatMap (leBytes 4) := by
  rw [beats_eq, memoryImage, List.flatMap_map]
  apply List.flatMap_congr
  intro w _
  exact beBytes_htonl w

end Presentation

/-! ## From memory to samples -/

/-- What the receiver with packet size `chunk + 8` makes of the memory image, cut into
chunks and sent by `dma_loop`: datagram `k` carries the number `number k`, and the samples put
out are those of the words that fill whole chunks, times `scale`. -/
def Survives (number : ℕ → ℕ) (scale : ℚ) (ws : List (BitVec 32)) (image : List Byte)
    (chunk : ℕ) (b : UdpIqSource) : Prop :=
  ∃ (dgrams : List (List Byte)) (outs : List (ℕ × List Sample)),
    dmaDatagrams (BitVec.ofNat 32 chunk) 0 (groups chunk image) = some dgrams ∧
      dgrams.map (decode b) = outs.map some ∧
      outs.map Prod.fst = (List.range (4 * ws.length / chunk)).map number ∧
      outs.flatMap Prod.snd = (ws.take (chunk / 4 * (4 * ws.length / chunk))).map fun w =>
        ⟨(w.extractLsb' 17 13).toInt * scale, (w.extractLsb' 1 13).toInt * scale⟩

/-- A chunk of little-endian words, sent and received. -/
theorem decode_chunk {b : UdpIqSource} {g : List (BitVec 32)} (hg : g.length = b.vecLen)
    (seq : BitVec 64) :
    decode b (beBytes 8 seq ++ (groups 4 (g.flatMap (leBytes 4))).flatMap List.reverse) =
      some (seq.toNat, g.map toSample) := by
  have hbytes : (groups 4 (g.flatMap (leBytes 4))).flatMap List.reverse =
      g.flatMap (beBytes 4) := by
    rw [groups_flatMap_item (by decide) (length_leBytes 4), List.flatMap_map]
    apply List.flatMap_congr
    intro w _
    exact List.reverse_reverse (beBytes 4 w)
  rw [hbytes, decode_beBytes seq hg]

/-- Little-endian words in memory survive `dma_loop` and the receiver. -/
theorem survives_of_leBytes (ws : List (BitVec 32)) {chunk : ℕ} (hpos : 0 < chunk)
    (hwords : 4 ∣ chunk) (hroom : chunk + 8 < 2 ^ 32) {b : UdpIqSource}
    (hb : b.pktSize = chunk + 8) :
    Survives (· % 2 ^ 64) (1 / 4096) ws (ws.flatMap (leBytes 4)) chunk b := by
  obtain ⟨c, rfl⟩ := hwords
  have hc : 0 < c := Nat.pos_of_mul_pos_left hpos
  have hbuf : (BitVec.ofNat 32 (4 * c)).toNat = 4 * c := by
    rw [BitVec.toNat_ofNat]
    exact Nat.mod_eq_of_lt (by omega)
  have hvec : b.vecLen = c := by
    unfold UdpIqSource.vecLen hdrSize
    omega
  have hcount : 4 * ws.length / (4 * c) = ws.length / c :=
    Nat.mul_div_mul_left ws.length c (by decide)
  -- chunks of bytes are groups of words
  have hcut : groups (4 * c) (ws.flatMap (leBytes 4)) =
      (groups c ws).map fun g => g.flatMap (leBytes 4) :=
    groups_flatMap (by decide) hc (length_leBytes 4) ws
  have hwords : 4 ∣ (BitVec.ofNat 32 (4 * c)).toNat := by
    rw [hbuf]
    exact Nat.dvd_mul_right 4 c
  have hsize : (BitVec.ofNat 32 (4 * c)).toNat + 8 < 2 ^ 32 := by
    rw [hbuf]
    exact hroom
  have hwhole : ∀ buf ∈ groups (4 * c) (ws.flatMap (leBytes 4)),
      buf.length = (BitVec.ofNat 32 (4 * c)).toNat :=
    fun buf h => (length_of_mem_groups h).trans hbuf.symm
  have hsend := dmaDatagrams_eq hwords hsize hwhole 0
  refine ⟨_, (groups c ws).mapIdx fun k g => (k % 2 ^ 64, g.map toSample), hsend, ?_, ?_, ?_⟩
  · -- datagram `k` decodes to number `k` and the samples of group `k`
    rw [hcut]
    apply List.ext_getElem
    · simp
    · intro k hk _
      simp only [List.length_map, List.length_mapIdx] at hk
      have hg : (groups c ws)[k].length = b.vecLen := by
        rw [hvec]
        exact length_of_mem_groups (List.getElem_mem hk)
      simp only [List.getElem_map, List.getElem_mapIdx]
      rw [decode_chunk hg]
      simp
  · rw [hcount]
    apply List.ext_getElem
    · simp
    · intro k _ _
      simp
  · rw [hcount, Nat.mul_div_cancel_left c (by decide), ← flatten_groups hc]
    have hout : ((groups c ws).mapIdx fun k g => (k % 2 ^ 64, g.map toSample)).map Prod.snd =
        (groups c ws).map fun g => g.map toSample := by
      apply List.ext_getElem
      · simp
      · intro k _ _
        simp
    -- sample by sample: dividing by 4096 is scaling by 1/4096
    rw [List.flatMap_def, hout, List.map_flatten]
    congr 1
    apply List.map_congr_left
    intro g _
    apply List.map_congr_left
    intro w _
    rw [toSample_eq]
    simp only [div_eq_mul_inv, one_mul]

/-- **Sample transport**: words presented to the stream source come out of the receiver as
their signed 13-bit fields over 4096, chunk by chunk and in order, and the `k`-th datagram
carries the number `k`, modulo 2^64. -/
theorem samples_survive (ws : List IqWord) (p : Presentation (ws.map IqWord.word)) (chunk : ℕ)
    (hpos : 0 < chunk) (h8 : 8 ∣ chunk) (hmax : chunk ≤ 131072) (b : UdpIqSource)
    (hb : b.pktSize = chunk + 8) :
    Survives (· % 2 ^ 64) (1 / 4096) (ws.map IqWord.word) (memoryImage p.beats) chunk b := by
  rw [p.memoryImage_beats]
  apply survives_of_leBytes _ hpos
  · exact Nat.dvd_trans (by decide) h8
  · omega
  · exact hb

/-- Three words with I = 1, -1 and 0, in chunks of two words. -/
theorem samples_survive_three :
    let ws : List IqWord :=
      [⟨0x80024000, by decide⟩, ⟨0xBFFE7FFE, by decide⟩, ⟨0x80004000, by decide⟩]
    Survives (· % 2 ^ 64) (1 / 4096) (ws.map IqWord.word)
      (memoryImage (Presentation.everySixteen (ws.map IqWord.word)).beats) 8
      ⟨16, 4096, by decide, by decide⟩ :=
  samples_survive _ _ 8 (by decide) (by decide) (by decide) _ rfl

/-- The receiver divides by 4096, not by 4: two words with I = 1 in one chunk. -/
theorem not_survives_quarter :
    ¬ ∀ (ws : List IqWord) (p : Presentation (ws.map IqWord.word)) (chunk : ℕ),
      0 < chunk → 8 ∣ chunk → chunk ≤ 131072 → ∀ b : UdpIqSource, b.pktSize = chunk + 8 →
        Survives id (1 / 4) (ws.map IqWord.word) (memoryImage p.beats) chunk b := by
  intro hclaim
  have hquarter := hclaim [⟨0x80024000, by decide⟩, ⟨0x80024000, by decide⟩]
    (Presentation.everySixteen _) 8 (by decide) (by decide) (by decide)
    ⟨16, 4096, by decide, by decide⟩ rfl
  rw [Presentation.memoryImage_beats] at hquarter
  have hcode := survives_of_leBytes [0x80024000, 0x80024000] (b := ⟨16, 4096, by decide, by decide⟩)
    (show 0 < 8 by decide) (by decide) (by decide) rfl
  obtain ⟨dgrams, outs, hsend, hdecode, -, houts⟩ := hquarter
  obtain ⟨dgrams', outs', hsend', hdecode', -, houts'⟩ := hcode
  -- the datagrams and what they decode to are determined, the scales are not equal
  obtain rfl : dgrams = dgrams' := Option.some.inj (hsend.symm.trans hsend')
  obtain rfl : outs = outs' :=
    List.map_injective_iff.mpr (Option.some_injective _) (hdecode.symm.trans hdecode')
  have hsame := congrArg (fun l => l.head?.map Sample.re) (houts.symm.trans houts')
  have hone : ((0x80024000 : BitVec 32).extractLsb' 17 13).toInt = 1 := by decide
  have hscale : ((1 : ℤ) : ℚ) * (1 / 4) = ((1 : ℤ) : ℚ) * (1 / 4096) := by
    rw [← hone]
    exact Option.some.inj hsame
  norm_num at hscale

end Rf215Sdr
