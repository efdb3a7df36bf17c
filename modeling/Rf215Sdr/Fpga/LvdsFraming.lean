import Mathlib.Data.Prod.Basic
import Rf215Sdr.Fpga.LvdsOutput

/-!
# Framing of the LVDS Receiver

What `rf215_lvds_rx` emits on framed input: after reset, after a run of zero bits, and on
gapless data from an arbitrary register state. Each result is the library's result about
hunt-and-lock synchronisers, read back along `LvdsRx.toSync`.

## Main results

- `frames_from_reset`: after reset, exactly the useful words but the first come out, each at
  the clock that shifts its last pair in, and zero words never break the lock.
- `frames_after_zeros`: behind 32 zero bits, any register state recovers at the price of at
  most one useful word.
- `frames_after_sixteen`: on gapless data no straddling window of which looks useful, every
  word after the sixteenth comes out, from any register state.
- `emitted_frame_or_imitation`: on gapless data a receiver started anywhere emits sent words
  and straddling windows that imitate one, nothing else, in one phase for each lock.
-/

namespace Rf215Sdr.Fpga

open Rf215Sdr.Lib

/-! ## Words on the line -/

/-- A frame as the transceiver sends it: a zero word or a useful word. -/
structure LineFrame where
  word : BitVec 32
  zero_or_useful : word = 0 ∨ wellFormed word = true

/-- A useful word. -/
structure IqWord where
  word : BitVec 32
  useful : wellFormed word = true

/-- A useful word is a frame. -/
def IqWord.toLine (f : IqWord) : LineFrame :=
  ⟨f.word, Or.inr f.useful⟩

/-- Frames sent back to back, most significant pair first. -/
def onLine (fs : List LineFrame) : List (BitVec 2) :=
  fs.flatMap fun f => bitPairs f.word

/-- The useful words among the frames, in order. -/
def usefulWords (fs : List LineFrame) : List (BitVec 32) :=
  (fs.filter fun f => wellFormed f.word).map LineFrame.word

/-- The 32-bit window `o` pairs into `w`, reaching into the following word `w'`. -/
def straddle (w w' : BitVec 32) (o : ℕ) : BitVec 32 :=
  (w ++ w').extractLsb' (2 * (16 - o)) 32

/-- No window straddling two consecutive words carries both synchronisation patterns. -/
def NoImitation (w w' : BitVec 32) : Prop :=
  ∀ o < 16, 0 < o → wellFormed (straddle w w' o) = false

/-! ## Frames of the synchroniser -/

/-- The frame seen by the synchroniser. -/
def LineFrame.toFrame (f : LineFrame) : iqFormat.Frame where
  symbols := bitPairs f.word
  length_eq := length_bitPairs f.word
  idle_or_valid := by
    rcases f.zero_or_useful with hz | hw
    · exact Or.inl ((iqFormat_idle_bitPairs _).mpr hz)
    · exact Or.inr (by rw [iqFormat_valid_bitPairs, hw])

@[simp] theorem symbols_toFrame (f : LineFrame) : f.toFrame.symbols = bitPairs f.word := rfl

theorem serialize_toFrame (fs : List LineFrame) :
    iqFormat.serialize (fs.map LineFrame.toFrame) = onLine fs := by
  simp only [FrameFormat.serialize, onLine, List.flatMap_map, symbols_toFrame]

theorem valid_toFrame (f : LineFrame) :
    iqFormat.valid f.toFrame.symbols = wellFormed f.word :=
  iqFormat_valid_bitPairs f.word

theorem straddle_toFrame (f g : LineFrame) {o : ℕ} (ho : o ≤ 16) :
    iqFormat.straddle f.toFrame g.toFrame o = bitPairs (straddle f.word g.word o) :=
  (symbols_straddle (b := 2) (n := 16) f.word g.word ho).symm

theorem filter_valid_toFrame (fs : List LineFrame) :
    ((fs.map LineFrame.toFrame).filter fun f => iqFormat.valid f.symbols).map
        FrameFormat.Frame.symbols =
      (usefulWords fs).map bitPairs := by
  induction fs with
  | nil => rfl
  | cons f fs ih =>
    simp only [usefulWords, List.map_cons, List.filter_cons, valid_toFrame] at ih ⊢
    cases wellFormed f.word with
    | true => simpa using ih
    | false => simpa using ih

/-! ## Transport along the refinement -/

theorem wf_toSync {s : LvdsRx} (h : s.CountOk) : iqFormat.Wf s.toSync where
  window_length := length_bitPairs s.shiftReg
  lock_lt c hc := by
    unfold LvdsRx.CountOk at h
    unfold LvdsRx.toSync at hc
    cases hst : s.state with
    | HUNT => simp [hst] at hc
    | SYNCED =>
      obtain rfl : s.bitCnt.toNat = c := by simpa [hst] using hc
      exact Nat.lt_succ_of_le h

/-- `word_valid` pulses are the synchroniser's emissions. -/
theorem emitted_toSync {s : LvdsRx} (h : s.CountOk) (p : BitVec 2) :
    iqFormat.emitted s.toSync p = (validWord s p).map bitPairs := by
  have hout := congrArg Sync.out (LvdsRx.toSync_clock h p)
  rw [FrameFormat.sync_step] at hout
  rw [FrameFormat.emitted, ← hout, validWord, LvdsRx.toSync]
  cases (s.clock p).wordValid <;> rfl

theorem eventsAt_toSync {s : LvdsRx} (h : s.CountOk) (n : ℕ) (ps : List (BitVec 2)) :
    iqFormat.sync.eventsAt iqFormat.emitted s.toSync n ps =
      (lvdsRx.eventsAt validWord s n ps).map (Prod.map bitPairs id) :=
  Machine.eventsAt_simulation (m := lvdsRx) (P := LvdsRx.CountOk) LvdsRx.toSync bitPairs
    (fun _ p hs => hs.clock p) (fun _ p hs => LvdsRx.toSync_clock hs p)
    (fun _ p hs => emitted_toSync hs p) h n ps

theorem events_toSync {s : LvdsRx} (h : s.CountOk) (ps : List (BitVec 2)) :
    iqFormat.sync.events iqFormat.emitted s.toSync ps =
      (lvdsRx.events validWord s ps).map bitPairs := by
  rw [Machine.events, Machine.events, eventsAt_toSync h]
  simp

theorem run_toSync {s : LvdsRx} (h : s.CountOk) (ps : List (BitVec 2)) :
    (lvdsRx.run s ps).toSync = iqFormat.sync.run s.toSync ps :=
  Machine.run_simulation (m := lvdsRx) (P := LvdsRx.CountOk) LvdsRx.toSync
    (fun _ p hs => hs.clock p) (fun _ p hs => LvdsRx.toSync_clock hs p) h ps

theorem countOk_run {s : LvdsRx} (h : s.CountOk) (ps : List (BitVec 2)) :
    (lvdsRx.run s ps).CountOk :=
  lvdsRx.run_invariant (P := LvdsRx.CountOk) (fun _ p hs => hs.clock p) h ps

/-- The events of the receiver are determined by those of the synchroniser. -/
theorem events_eq_of_toSync {s : LvdsRx} (h : s.CountOk) (ps : List (BitVec 2))
    {ws : List (BitVec 32)}
    (hev : iqFormat.sync.events iqFormat.emitted s.toSync ps = ws.map bitPairs) :
    lvdsRx.events validWord s ps = ws := by
  rw [events_toSync h] at hev
  exact List.map_injective_iff.mpr bitPairs_injective hev

/-- Zero pairs are quiet. -/
theorem quiet_zeros (n : ℕ) : iqFormat.Quiet (List.replicate n 0b00#2) := by
  intro p hp
  rw [List.eq_of_mem_replicate hp]
  rfl

/-! ## After reset -/

/-- **Frame extraction from reset**: after `z` zero pairs and any frames, the words `iq_word`
takes while `word_valid` is 1 are the useful frames but the first, and the pulse of frame `k`
comes at the clock that shifts in its last pair, the pair number `z + 16 * (k + 1)`. Once a
useful frame has passed, the receiver is SYNCED at every later clock. -/
theorem frames_from_reset (z : ℕ) (fs : List LineFrame) :
    lvdsRx.eventsAt validWord lvdsRx.reset 0 (List.replicate z 0b00#2 ++ onLine fs) =
        ((fs.zipIdx.filter fun p => wellFormed p.1.word).tail.map
          fun p => (p.1.word, z + 16 * (p.2 + 1))) ∧
      ∀ pre post ps, fs = pre ++ post → (∃ f ∈ pre, wellFormed f.word = true) →
        ps <+: onLine post →
        (lvdsRx.run lvdsRx.reset (List.replicate z 0b00#2 ++ onLine pre ++ ps)).state =
          .SYNCED := by
  have hok : lvdsRx.reset.CountOk := LvdsRx.countOk_reset
  -- the zero pairs in front find nothing and leave the window quiet
  obtain ⟨hlock, hquiet, hsilent⟩ := FrameFormat.run_quiet (F := iqFormat)
    (s := iqFormat.sync.reset) rfl FrameFormat.quiet_reset _ (quiet_zeros z) 0
  have hwf : iqFormat.Wf (iqFormat.sync.run iqFormat.sync.reset (List.replicate z 0b00#2)) :=
    FrameFormat.wf_reset.run _
  have hreset : lvdsRx.reset.toSync = iqFormat.sync.reset := LvdsRx.toSync_reset
  refine ⟨?_, ?_⟩
  · -- the synchroniser's events, stamps included, determine the receiver's
    have hinj : Function.Injective (Prod.map bitPairs (id : ℕ → ℕ)) :=
      Function.Injective.prodMap bitPairs_injective Function.injective_id
    apply List.map_injective_iff.mpr hinj
    have hacq := FrameFormat.eventsAt_acquire hwf hlock hquiet (fs.map LineFrame.toFrame) z 0
    rw [← eventsAt_toSync hok, hreset, Machine.eventsAt_append, hsilent, List.nil_append,
      List.length_replicate, ← serialize_toFrame]
    rw [iqFormat_len, Nat.mul_zero, Nat.add_zero] at hacq
    rw [Nat.zero_add, hacq, List.zipIdx_map, List.filter_map, ← List.map_tail, List.map_map,
      List.map_map]
    rfl
  · intro pre post ps hsplit hex hps
    -- a useful frame has gone by, so the synchroniser is locked, and locked means SYNCED
    have hex' : ∃ f ∈ pre.map LineFrame.toFrame, iqFormat.valid f.symbols = true := by
      obtain ⟨f, hf, hw⟩ := hex
      exact ⟨f.toFrame, List.mem_map_of_mem hf, by rw [valid_toFrame, hw]⟩
    have hps' : ps <+: iqFormat.serialize (post.map LineFrame.toFrame) := by
      rw [serialize_toFrame]
      exact hps
    have hlocked := FrameFormat.locked_after_valid hwf hlock hquiet (pre.map LineFrame.toFrame)
      (post.map LineFrame.toFrame) hex' hps'
    rw [serialize_toFrame, ← Machine.run_append, ← hreset, ← run_toSync hok,
      ← List.append_assoc] at hlocked
    cases hst : (lvdsRx.run lvdsRx.reset
        (List.replicate z 0b00#2 ++ onLine pre ++ ps)).state with
    | SYNCED => rfl
    | HUNT =>
      apply absurd _ hlocked
      unfold LvdsRx.toSync
      simp only [hst]

/-! ## After 32 zero bits -/

/-- Sixteen zero pairs fill the shift register. -/
theorem quiet_after_zeros {s : LvdsRx} (h : s.CountOk) {n : ℕ} (hn : 16 ≤ n) :
    iqFormat.Quiet (lvdsRx.run s (List.replicate n 0b00#2)).toSync.window := by
  rw [run_toSync h, FrameFormat.run_window (wf_toSync h), List.length_replicate,
    List.drop_append, List.drop_eq_nil_of_le, List.nil_append]
  · intro p hp
    exact quiet_zeros n p (List.mem_of_mem_drop hp)
  · rw [(wf_toSync h).window_length]
    exact hn

/-- **Self-resynchronisation**: from any register state, behind at least 16 zero pairs, the
words emitted are the useful frames in order, with at most the first one missing. -/
theorem frames_after_zeros (s : RxReg) (n : ℕ) (hn : 16 ≤ n) (fs : List LineFrame) :
    lvdsRx.events validWord (lvdsRx.run s.toLvdsRx (List.replicate n 0b00#2)) (onLine fs) =
        usefulWords fs ∨
      lvdsRx.events validWord (lvdsRx.run s.toLvdsRx (List.replicate n 0b00#2)) (onLine fs) =
        (usefulWords fs).tail := by
  have hok := countOk_run s.countOk (List.replicate n 0b00#2)
  -- the zero pairs have flushed the window, not the lock
  have hsync := FrameFormat.events_resync (wf_toSync hok) (quiet_after_zeros s.countOk hn)
    (fs.map LineFrame.toFrame)
  simp only [serialize_toFrame, filter_valid_toFrame, ← List.map_tail] at hsync
  rcases hsync with hall | htail
  · exact Or.inl (events_eq_of_toSync hok _ hall)
  · exact Or.inr (events_eq_of_toSync hok _ htail)

/-- A receiver stuck at phase 7 over stale bits: of two useful words and the zero word between
them, sent behind 32 zero bits, it emits the second useful one. -/
theorem frames_after_zeros_stuck :
    let s : RxReg := ⟨⟨.SYNCED, 7, 0xA5A5A5A5, 0, false, false⟩, by decide⟩
    let fs : List LineFrame := [⟨0x80004000, Or.inr (by decide)⟩, ⟨0, Or.inl rfl⟩,
      ⟨0x80024004, Or.inr (by decide)⟩]
    let emitted := lvdsRx.events validWord (lvdsRx.run s.toLvdsRx (List.replicate 16 0b00#2))
      (onLine fs)
    emitted = [0x80024004] ∧ (emitted = usefulWords fs ∨ emitted = (usefulWords fs).tail) :=
  ⟨by decide +kernel, frames_after_zeros _ 16 (Nat.le_refl 16) _⟩

/-! ## Gapless data -/

/-- Useful words sent back to back. -/
def gapless (fs : List IqWord) : List (BitVec 2) :=
  onLine (fs.map IqWord.toLine)

/-- The words sent. -/
def sentWords (fs : List IqWord) : List (BitVec 32) :=
  fs.map IqWord.word

/-- The frames the synchroniser sees. -/
private def gaplessFrames (fs : List IqWord) : List iqFormat.Frame :=
  (fs.map IqWord.toLine).map LineFrame.toFrame

private theorem serialize_gaplessFrames (fs : List IqWord) :
    iqFormat.serialize (gaplessFrames fs) = gapless fs :=
  serialize_toFrame _

private theorem symbols_gaplessFrames (fs : List IqWord) :
    (gaplessFrames fs).map FrameFormat.Frame.symbols = (sentWords fs).map bitPairs := by
  simp only [gaplessFrames, sentWords, List.map_map]
  rfl

private theorem valid_gaplessFrames (fs : List IqWord) :
    ∀ f ∈ gaplessFrames fs, iqFormat.valid f.symbols = true := by
  intro f hf
  obtain ⟨g, hg, rfl⟩ := List.mem_map.mp hf
  obtain ⟨w, -, rfl⟩ := List.mem_map.mp hg
  rw [valid_toFrame]
  exact w.useful

/-- The absence of imitations, as the synchroniser sees it. -/
private theorem chain_gaplessFrames {fs : List IqWord}
    (h : (sentWords fs).IsChain NoImitation) :
    (gaplessFrames fs).IsChain FrameFormat.NoImitation := by
  rw [sentWords, List.isChain_map] at h
  rw [gaplessFrames, List.map_map, List.isChain_map]
  refine h.imp fun f g hfg o ho ho16 => ?_
  have hlt : o < 16 := ho16
  show iqFormat.valid (iqFormat.straddle f.toLine.toFrame g.toLine.toFrame o) = false
  rw [straddle_toFrame _ _ (Nat.le_of_lt hlt), iqFormat_valid_bitPairs]
  exact hfg o hlt ho

/-- **Lock within 16 frames**: from any register state, on useful words sent back to back
such that no window straddling two of them looks useful, the words emitted after the 256th
pair are the seventeenth word and all that follow, in order. -/
theorem frames_after_sixteen (s : RxReg) (fs : List IqWord)
    (himit : (sentWords fs).IsChain NoImitation) :
    lvdsRx.events validWord (lvdsRx.run s.toLvdsRx (gapless (fs.take 16)))
        (gapless (fs.drop 16)) =
      sentWords (fs.drop 16) := by
  have hok := countOk_run s.countOk (gapless (fs.take 16))
  apply events_eq_of_toSync hok
  -- the library's result, its frames read back as words
  have hlock := FrameFormat.events_after_len_frames (wf_toSync s.countOk) (gaplessFrames fs)
    (valid_gaplessFrames fs) (chain_gaplessFrames himit)
  have htake : (gaplessFrames fs).take iqFormat.len = gaplessFrames (fs.take 16) := by
    simp only [gaplessFrames, List.map_take, iqFormat_len]
  have hdrop : (gaplessFrames fs).drop iqFormat.len = gaplessFrames (fs.drop 16) := by
    simp only [gaplessFrames, List.map_drop, iqFormat_len]
  rw [htake, hdrop, serialize_gaplessFrames, serialize_gaplessFrames, symbols_gaplessFrames]
    at hlock
  rw [run_toSync s.countOk, hlock]

/-- A word with a bare head repeats without imitating itself. -/
theorem frames_after_sixteen_repeat :
    let s : RxReg := ⟨⟨.SYNCED, 15, 0xA5A5A5A5, 0, false, false⟩, by decide⟩
    let fs : List IqWord := List.replicate 18 ⟨0x80004000, by decide⟩
    lvdsRx.events validWord (lvdsRx.run s.toLvdsRx (gapless (fs.take 16)))
        (gapless (fs.drop 16)) =
      sentWords (fs.drop 16) := by
  apply frames_after_sixteen
  show (List.map IqWord.word (List.replicate 18 _)).IsChain NoImitation
  -- equal neighbours: one check for all
  rw [List.map_replicate]
  apply List.isChain_replicate_of_rel
  unfold NoImitation
  decide

/-! ## Gapless data from reset -/

/-- What `word_valid` and `sync_ok` together show after an edge. -/
def syncedWord (s : LvdsRx) (bitPair : BitVec 2) : Option (BitVec 32) :=
  if (s.clock bitPair).wordValid && (s.clock bitPair).syncOk then some (s.clock bitPair).iqWord
  else none

theorem syncedWord_eq_validWord : syncedWord = validWord := by
  funext s p
  unfold syncedWord validWord
  cases hv : (s.clock p).wordValid with
  | false => rfl
  | true => rw [syncOk_of_wordValid hv]; rfl

/-- The words shown with their times, starting at pair `k` of useful words sent back to back: the
word shown at time `t` ends with pair `k + t`. -/
def pulsesFrom (fs : List IqWord) (k : ℕ) : List (BitVec 32 × ℕ) :=
  lvdsRx.eventsAt syncedWord lvdsRx.reset 0 ((gapless fs).drop k)

/-- `w` is the word sent that ends with pair `n`. -/
def SentAt (fs : List IqWord) (n : ℕ) (w : BitVec 32) : Prop :=
  n % 16 = 0 ∧ (sentWords fs)[n / 16 - 1]? = some w

/-- `w` is the window that ends with pair `n`, inside a word sent, and carries both
synchronisation patterns. -/
def ImitationAt (fs : List IqWord) (n : ℕ) (w : BitVec 32) : Prop :=
  0 < n % 16 ∧ ∃ u v, (sentWords fs)[n / 16 - 1]? = some u ∧ (sentWords fs)[n / 16]? = some v ∧
    w = straddle u v (n % 16) ∧ wellFormed w = true

/-- The pairs from pair `n` to the end of the word it belongs to. -/
def slip (n : ℕ) : ℕ :=
  (16 - n % 16) % 16

/-- Words are sent as the synchroniser's frames. -/
private theorem getElem?_gaplessFrames {fs : List IqWord} {i : ℕ} {f : iqFormat.Frame}
    (h : (gaplessFrames fs)[i]? = some f) :
    ∃ u : IqWord, (sentWords fs)[i]? = some u.word ∧ f = u.toLine.toFrame := by
  rw [gaplessFrames, List.map_map, List.getElem?_map, Option.map_eq_some_iff] at h
  obtain ⟨u, hu, rfl⟩ := h
  refine ⟨u, ?_, rfl⟩
  rw [sentWords, List.getElem?_map, hu]
  rfl

/-- What the synchroniser emits. -/
private theorem eventsAt_pulsesFrom (fs : List IqWord) (k : ℕ) :
    iqFormat.sync.eventsAt iqFormat.emitted iqFormat.sync.reset 0 ((gapless fs).drop k) =
      (pulsesFrom fs k).map (Prod.map bitPairs id) := by
  have hreset : lvdsRx.reset.toSync = iqFormat.sync.reset := LvdsRx.toSync_reset
  have h := eventsAt_toSync (s := lvdsRx.reset) LvdsRx.countOk_reset 0 ((gapless fs).drop k)
  rw [hreset] at h
  rw [pulsesFrom, syncedWord_eq_validWord, h]

private theorem mem_pulsesFrom {fs : List IqWord} {k : ℕ} {w : BitVec 32} {t : ℕ}
    (h : (w, t) ∈ pulsesFrom fs k) : (bitPairs w, t) ∈
      iqFormat.sync.eventsAt iqFormat.emitted iqFormat.sync.reset 0 ((gapless fs).drop k) := by
  rw [eventsAt_pulsesFrom]
  exact List.mem_map.mpr ⟨(w, t), h, rfl⟩

/-- A word shown is the window that ends with the last pair received: a word sent, or an
imitation. -/
theorem sentAt_or_imitationAt {fs : List IqWord} {k : ℕ} {w : BitVec 32} {t : ℕ}
    (h : (w, t) ∈ pulsesFrom fs k) : SentAt fs (k + t) w ∨ ImitationAt fs (k + t) w := by
  obtain ⟨hvalid, pre, post, hsplit, -, -, ht⟩ :=
    FrameFormat.mem_eventsAt_from_reset (mem_pulsesFrom h)
  rw [iqFormat_valid_bitPairs] at hvalid
  rw [iqFormat_len] at ht
  -- the window in the whole concatenation
  have hlen : pre.length + 16 + post.length = (gapless fs).length - k := by
    have hl := congrArg List.length hsplit
    simp only [List.length_drop, List.length_append, length_bitPairs] at hl
    omega
  have hwin : ((gapless fs).drop (k + pre.length)).take 16 = bitPairs w := by
    rw [← List.drop_drop, hsplit, List.append_assoc, List.drop_left,
      List.take_left' (length_bitPairs w)]
  have hcut := FrameFormat.window_of_serialize (gaplessFrames fs) (p := k + pre.length)
    (by rw [serialize_gaplessFrames, iqFormat_len]; omega)
  rw [serialize_gaplessFrames, iqFormat_len, hwin] at hcut
  -- its end is one word behind its start
  have hdiv : (k + t) / 16 = (k + pre.length) / 16 + 1 := by omega
  have hmod : (k + t) % 16 = (k + pre.length) % 16 := by omega
  unfold SentAt ImitationAt
  rw [hdiv, hmod, Nat.add_sub_cancel]
  rcases hcut with ⟨hzero, f, hf, hfw⟩ | ⟨hpos, f, g, hf, hg, hfw⟩
  · obtain ⟨u, hu, rfl⟩ := getElem?_gaplessFrames hf
    rw [bitPairs_injective hfw]
    exact Or.inl ⟨hzero, hu⟩
  · obtain ⟨u, hu, rfl⟩ := getElem?_gaplessFrames hf
    obtain ⟨v, hv, rfl⟩ := getElem?_gaplessFrames hg
    refine Or.inr ⟨hpos, u.word, v.word, hu, hv, bitPairs_injective ?_, hvalid⟩
    rw [hfw]
    exact straddle_toFrame u.toLine v.toLine (Nat.le_of_lt (Nat.mod_lt _ (by decide)))

/-- Started with a word, the receiver shows all words but the first. -/
theorem pulsesFrom_of_dvd (fs : List IqWord) {k : ℕ} (hk : 16 ∣ k) :
    (pulsesFrom fs k).map Prod.fst = (sentWords fs).drop (k / 16 + 1) := by
  obtain ⟨i, rfl⟩ := hk
  have hdrop : (gapless fs).drop (16 * i) = gapless (fs.drop i) := by
    have hfront : (gapless (fs.take i)).length = 16 * (fs.take i).length := by
      rw [← serialize_gaplessFrames, FrameFormat.length_serialize, iqFormat_len]
      simp [gaplessFrames]
    have hsplit : gapless fs = gapless (fs.take i) ++ gapless (fs.drop i) := by
      rw [gapless, gapless, gapless, onLine, onLine, onLine, ← List.flatMap_append,
        ← List.map_append, List.take_append_drop]
    by_cases hi : i ≤ fs.length
    · rw [hsplit, List.drop_left' (by rw [hfront, List.length_take, Nat.min_eq_left hi])]
    · have hnil : fs.drop i = [] := List.drop_eq_nil_of_le (Nat.le_of_not_le hi)
      rw [hnil, List.drop_eq_nil_of_le]
      · rfl
      · rw [hsplit, hnil, List.length_append, hfront, List.length_take]
        show _ + 0 ≤ _
        omega
  rw [pulsesFrom, hdrop, syncedWord_eq_validWord, Machine.eventsAt_map_fst]
  apply events_eq_of_toSync LvdsRx.countOk_reset
  rw [LvdsRx.toSync_reset, ← serialize_gaplessFrames,
    FrameFormat.events_from_boundary (valid_gaplessFrames _), List.map_tail,
    symbols_gaplessFrames, ← List.map_tail, sentWords, sentWords, List.map_drop,
    Nat.mul_div_cancel_left _ (by decide), List.tail_drop]

/-- **What a late receiver emits**: reception starts at pair `k` of useful words sent back to back.
If a word starts there, all words behind it are shown, and nothing else. In any case a word shown
is one of the words sent, in its place, or a window straddling two of them that itself carries
both synchronisation patterns; one lock has one phase, so that its words are multiples of 16 pairs
apart; from lock to lock the phase only gets nearer to that of the words sent, so that behind a
first one of these no window is shown any more; and if no straddling window carries both
patterns, only words that were sent are shown. -/
theorem emitted_frame_or_imitation (fs : List IqWord) (k : ℕ) :
    (16 ∣ k → (pulsesFrom fs k).map Prod.fst = (sentWords fs).drop (k / 16 + 1)) ∧
      (∀ w t, (w, t) ∈ pulsesFrom fs k → SentAt fs (k + t) w ∨ ImitationAt fs (k + t) w) ∧
      (∀ w w' t t', (w, t) ∈ pulsesFrom fs k → (w', t') ∈ pulsesFrom fs k → t ≤ t' →
        (∀ j, t ≤ j → j ≤ t' →
          (lvdsRx.run lvdsRx.reset (((gapless fs).drop k).take j)).state = .SYNCED) →
        16 ∣ t' - t) ∧
      (pulsesFrom fs k).Pairwise (fun e e' => slip (k + e'.2) ≤ slip (k + e.2)) ∧
      ((sentWords fs).IsChain NoImitation →
        ∀ w t, (w, t) ∈ pulsesFrom fs k → SentAt fs (k + t) w) := by
  refine ⟨pulsesFrom_of_dvd fs, fun w t h => sentAt_or_imitationAt h, ?_, ?_, ?_⟩
  · intro w w' t t' h h' hle hsynced
    apply FrameFormat.emissions_in_lock (mem_pulsesFrom h) (mem_pulsesFrom h') hle
    intro j hj hj'
    -- SYNCED means locked
    have hreset : lvdsRx.reset.toSync = iqFormat.sync.reset := LvdsRx.toSync_reset
    have hok : lvdsRx.reset.CountOk := LvdsRx.countOk_reset
    rw [← hreset, ← run_toSync hok]
    unfold LvdsRx.toSync
    rw [hsynced j hj hj']
    exact Option.some_ne_none _
  · have hslips := FrameFormat.slips_from_reset (valid_gaplessFrames fs) k
    rw [serialize_gaplessFrames, eventsAt_pulsesFrom, List.pairwise_map] at hslips
    exact hslips
  · intro himit w t h
    rcases sentAt_or_imitationAt h with hsent | ⟨ho, u, v, hu, hv, rfl, hvalid⟩
    · exact hsent
    · -- an imitation contradicts the hypothesis on the words sent
      have hone : 16 ≤ k + t := by
        obtain ⟨-, pre, post, -, -, -, ht⟩ :=
          FrameFormat.mem_eventsAt_from_reset (mem_pulsesFrom h)
        rw [iqFormat_len] at ht
        omega
      have hnext : (k + t) / 16 = (k + t) / 16 - 1 + 1 := by omega
      rw [hnext] at hv
      obtain ⟨hi, rfl⟩ := List.getElem?_eq_some_iff.mp hu
      obtain ⟨hi', rfl⟩ := List.getElem?_eq_some_iff.mp hv
      have hno := List.isChain_iff_getElem.mp himit _ hi' _ (Nat.mod_lt _ (by decide)) ho
      rw [hvalid] at hno
      cases hno

/-- A word whose second pair and tenth pair are `10` and `01` too, sent three times: reception
from its second pair on emits a word that was never sent. -/
theorem imitation_emitted :
    ¬ ∀ (fs : List IqWord) (k : ℕ),
      ∀ w ∈ lvdsRx.events syncedWord lvdsRx.reset ((gapless fs).drop k), w ∈ sentWords fs := by
  intro hclaim
  have hw := hclaim (List.replicate 3 ⟨0xA0005000, by decide⟩) 1 0x80014002 (by decide)
  revert hw
  decide

end Rf215Sdr.Fpga
