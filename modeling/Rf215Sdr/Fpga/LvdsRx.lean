import Rf215Sdr.Lib.Resync
import Rf215Sdr.Lib.Symbols

/-!
# The LVDS Receiver `rf215_lvds_rx`

Model of section 2 of `lvds_rx.sv`: the 32-bit shift register, the counter `bit_cnt` and the
HUNT / SYNCED state machine clocked by `delayedCLK`. The deserialiser in front of it
delivers one `bit_pair` per clock. `rst_n` low is the `reset` of the clocked machine; every
edge modelled here has `rst_n` high.

## Architecture

- **Registers**: `LvdsRx`, one field per `reg` of the always block.
- **Edges**: `LvdsRx.Edge` says once what an edge can do; `edge` says that `clock` does one of
  these.
- **Valid registers**: `RxReg` carries `bit_cnt ≤ 15`, which every edge keeps.
- **Abstraction**: `RxReg.toSync` reads the registers as a hunt-and-lock synchroniser over
  bit pairs, and `toSync_step` says that it commutes with every clock edge. All framing
  results are transported along it.
-/

namespace Rf215Sdr.Fpga

open Rf215Sdr.Lib

/-! ## Words -/

/-- `I_SYNC = 10` at bits 31:30. -/
def iSync (w : BitVec 32) : Bool :=
  w.extractLsb' 30 2 == 0b10#2

/-- `Q_SYNC = 01` at bits 15:14. -/
def qSync (w : BitVec 32) : Bool :=
  w.extractLsb' 14 2 == 0b01#2

/-- A useful word: both synchronisation patterns in place. -/
def wellFormed (w : BitVec 32) : Bool :=
  iSync w && qSync w

/-- The bit pairs of a word in the order they come over the line. -/
def bitPairs (w : BitVec 32) : List (BitVec 2) :=
  symbols 2 16 w

@[simp] theorem length_bitPairs (w : BitVec 32) : (bitPairs w).length = 16 :=
  length_symbols 2 16 w

theorem bitPairs_injective : Function.Injective bitPairs :=
  fun _ _ h => symbols_injective (by decide) rfl h

/-- `{shift_reg[29:0], bit_pair}`. -/
def nextShift (shiftReg : BitVec 32) (bitPair : BitVec 2) : BitVec 32 :=
  shiftReg.extractLsb' 0 30 ++ bitPair

theorem bitPairs_nextShift (w : BitVec 32) (p : BitVec 2) :
    bitPairs (nextShift w p) = (bitPairs w).tail ++ [p] :=
  symbols_shiftIn (b := 2) (n := 15) w p

/-! ## Registers and the clock edge -/

/-- `state` of the receiver. -/
inductive RxState where
  | HUNT
  | SYNCED
  deriving DecidableEq, Repr

/-- The registers of `rf215_lvds_rx`. -/
@[ext]
structure LvdsRx where
  state : RxState
  bitCnt : BitVec 5
  shiftReg : BitVec 32
  iqWord : BitVec 32
  wordValid : Bool
  syncOk : Bool
  deriving DecidableEq, Repr

namespace LvdsRx

/-- The registers while `rst_n` is low. -/
def reset : LvdsRx where
  state := .HUNT
  bitCnt := 0
  shiftReg := 0
  iqWord := 0
  wordValid := false
  syncOk := false

/-- One rising edge of `delayedCLK` with `rst_n` high. -/
def clock (s : LvdsRx) (bitPair : BitVec 2) : LvdsRx :=
  let next := nextShift s.shiftReg bitPair
  -- shifting goes on in every state, and `word_valid` is low unless set below
  let s' := { s with shiftReg := next, wordValid := false }
  match s.state with
  | .HUNT =>
    -- a bare head `I_SYNC = 10` is enough to leave HUNT
    if iSync next then { s' with state := .SYNCED, bitCnt := 0, syncOk := false }
    else s'
  | .SYNCED =>
    if s.bitCnt = 15 then
      if next = 0 then
        -- zero word: still aligned, no data
        { s' with bitCnt := 0, syncOk := false }
      else if iSync next && qSync next then
        { s' with bitCnt := 0, iqWord := next, syncOk := true, wordValid := true }
      else
        -- framing error: back to HUNT
        { s' with bitCnt := 0, syncOk := false, state := .HUNT }
    -- in the middle of a word
    else { s' with bitCnt := s.bitCnt + 1 }

/-- What an edge can do, with `next` the word that is shifted in. -/
inductive Edge (s : LvdsRx) (next : BitVec 32) : LvdsRx → Prop where
  /-- A head ends the hunt. -/
  | head (hst : s.state = .HUNT) (hi : iSync next = true) :
      Edge s next { s with
        state := .SYNCED, bitCnt := 0, shiftReg := next, wordValid := false, syncOk := false }
  /-- The hunt goes on. -/
  | hunt (hst : s.state = .HUNT) (hi : iSync next = false) :
      Edge s next { s with shiftReg := next, wordValid := false }
  /-- Between two word boundaries the receiver counts. -/
  | count (hst : s.state = .SYNCED) (hc : s.bitCnt ≠ 15) :
      Edge s next { s with bitCnt := s.bitCnt + 1, shiftReg := next, wordValid := false }
  /-- A zero word keeps the alignment. -/
  | zero (hst : s.state = .SYNCED) (hc : s.bitCnt = 15) (hz : next = 0) :
      Edge s next { s with bitCnt := 0, shiftReg := next, wordValid := false, syncOk := false }
  /-- A useful word is shown. -/
  | word (hst : s.state = .SYNCED) (hc : s.bitCnt = 15) (hz : next ≠ 0)
      (hw : wellFormed next = true) :
      Edge s next { s with
        bitCnt := 0, shiftReg := next, iqWord := next, syncOk := true, wordValid := true }
  /-- Anything else is a framing error. -/
  | framing (hst : s.state = .SYNCED) (hc : s.bitCnt = 15) (hz : next ≠ 0)
      (hw : wellFormed next = false) :
      Edge s next { s with
        state := .HUNT, bitCnt := 0, shiftReg := next, syncOk := false, wordValid := false }

/-- Every edge does one of these. -/
theorem edge (s : LvdsRx) (p : BitVec 2) :
    Edge s (nextShift s.shiftReg p) (s.clock p) := by
  unfold clock
  dsimp only
  split
  next hst =>
    split
    next hi => exact .head hst hi
    next hi => exact .hunt hst (Bool.eq_false_of_not_eq_true hi)
  next hst =>
    split
    next hc =>
      split
      next hz => exact .zero hst hc hz
      next hz =>
        split
        next hw => exact .word hst hc hz hw
        next hw => exact .framing hst hc hz (Bool.eq_false_of_not_eq_true hw)
    next hc => exact .count hst hc

end LvdsRx

/-- The receiver as a clocked machine. -/
def lvdsRx : Machine LvdsRx (BitVec 2) where
  reset := LvdsRx.reset
  step := LvdsRx.clock

/-- What `word_valid` shows after an edge: the word in `iq_word`. -/
def validWord (s : LvdsRx) (bitPair : BitVec 2) : Option (BitVec 32) :=
  if (s.clock bitPair).wordValid then some (s.clock bitPair).iqWord else none

/-! ## Valid register states -/

/-- `bit_cnt` counts 0..15 in its five bits. -/
def LvdsRx.CountOk (s : LvdsRx) : Prop :=
  s.bitCnt.toNat ≤ 15

instance (s : LvdsRx) : Decidable s.CountOk :=
  inferInstanceAs (Decidable (s.bitCnt.toNat ≤ 15))

theorem LvdsRx.countOk_reset : LvdsRx.reset.CountOk := by
  decide

theorem LvdsRx.Edge.countOk {s t : LvdsRx} {next : BitVec 32} (e : s.Edge next t)
    (h : s.CountOk) : t.CountOk := by
  unfold CountOk at h ⊢
  -- the counter goes back to 0 at 15, whatever the word was
  cases e with
  | head hst hi => simp
  | hunt hst hi => exact h
  | count hst hc =>
    have hne : s.bitCnt.toNat ≠ 15 := fun he => hc (BitVec.eq_of_toNat_eq he)
    simp
    omega
  | zero hst hc hz => simp
  | word hst hc hz hw => simp
  | framing hst hc hz hw => simp

theorem LvdsRx.CountOk.clock {s : LvdsRx} (h : s.CountOk) (p : BitVec 2) :
    (s.clock p).CountOk :=
  (s.edge p).countOk h

/-- A register state with `bit_cnt` in 0..15: either FSM state, any such count, any shift
register and any outputs. -/
structure RxReg extends LvdsRx where
  countOk : toLvdsRx.CountOk

/-- Every state the receiver can reach from reset is one of these. -/
theorem countOk_of_reachable {s : LvdsRx} (h : lvdsRx.Reachable s) : s.CountOk :=
  Machine.Reachable.invariant lvdsRx LvdsRx.countOk_reset (fun _ p hs => hs.clock p) h

/-! ## The receiver as a synchroniser -/

/-- The transceiver's frame format over bit pairs: 16 pairs, `10` in front of a useful word
and `01` half way, zero words as fill. -/
def iqFormat : FrameFormat (BitVec 2) where
  len := 16
  head p := p == 0b10#2
  idle w := w.all (· == 0b00#2)
  valid w := w[0]? == some 0b10#2 && w[8]? == some 0b01#2
  blank := 0b00#2
  len_pos := by decide
  head_blank := by decide
  head_of_valid a w h := by
    simp only [List.getElem?_cons_zero, Bool.and_eq_true, beq_iff_eq, Option.some.injEq] at h
    simp [h.1]
  not_head_of_idle w h a ha := by
    have hz := List.all_eq_true.mp h a ha
    simp only [beq_iff_eq] at hz
    simp [hz]

@[simp] theorem iqFormat_len : iqFormat.len = 16 := rfl

theorem iqFormat_valid_bitPairs (w : BitVec 32) :
    iqFormat.valid (bitPairs w) = wellFormed w := by
  simp only [iqFormat, bitPairs, wellFormed, iSync, qSync,
    getElem?_symbols (b := 2) w (show 0 < 16 by decide),
    getElem?_symbols (b := 2) w (show 8 < 16 by decide)]
  rfl

theorem bitPairs_zero : bitPairs 0 = List.replicate 16 0b00#2 := by
  decide

theorem iqFormat_idle_bitPairs (w : BitVec 32) :
    iqFormat.idle (bitPairs w) = true ↔ w = 0 := by
  rw [← bitPairs_injective.eq_iff, bitPairs_zero, List.eq_replicate_iff]
  simp [iqFormat]

theorem iSync_eq_head (w : BitVec 32) :
    (bitPairs w).head?.any iqFormat.head = iSync w := by
  rw [List.head?_eq_getElem?, bitPairs, getElem?_symbols (b := 2) w (show 0 < 16 by decide)]
  rfl

/-- The registers read as a synchroniser: the shift register is the window, `bit_cnt` counts
from the last boundary, `word_valid` says whether `iq_word` was emitted at the last edge. -/
def LvdsRx.toSync (s : LvdsRx) : Sync (BitVec 2) where
  window := bitPairs s.shiftReg
  lock := match s.state with
    | .HUNT => none
    | .SYNCED => some s.bitCnt.toNat
  out := if s.wordValid then some (bitPairs s.iqWord) else none

theorem LvdsRx.toSync_reset : LvdsRx.reset.toSync = iqFormat.sync.reset := by
  simp only [toSync, reset, FrameFormat.sync, bitPairs_zero]
  rfl

/-- **Refinement**: one clock edge of the RTL is one step of the synchroniser. -/
theorem LvdsRx.toSync_clock {s : LvdsRx} (h : s.CountOk) (p : BitVec 2) :
    (s.clock p).toSync = iqFormat.sync.step s.toSync p := by
  have hwin : s.toSync.window.tail ++ [p] = bitPairs (nextShift s.shiftReg p) :=
    (bitPairs_nextShift s.shiftReg p).symm
  -- `bit_cnt` is the lock, and 15 is the last symbol before a boundary
  have hhunt : s.state = .HUNT → s.toSync.lock = none := fun hst => by simp [toSync, hst]
  have hlock : s.state = .SYNCED → s.toSync.lock = some s.bitCnt.toNat :=
    fun hst => by simp [toSync, hst]
  have hlast : s.bitCnt = 15 → s.bitCnt.toNat + 1 = iqFormat.len := fun hc => by rw [hc]; rfl
  rw [FrameFormat.sync_step]
  have hedge := s.edge p
  generalize s.clock p = t at hedge ⊢
  cases hedge with
  | head hst hi =>
    rw [FrameFormat.syncStep_hunting (hhunt hst), hwin, iSync_eq_head, hi]
    simp [toSync]
  | hunt hst hi =>
    rw [FrameFormat.syncStep_hunting (hhunt hst), hwin, iSync_eq_head, hi]
    simp [toSync, hst]
  | count hst hc =>
    -- five bits are enough for the count
    have hne : s.bitCnt.toNat ≠ 15 := fun he => hc (BitVec.eq_of_toNat_eq he)
    have hmid : s.bitCnt.toNat + 1 ≠ iqFormat.len := by simp [hne]
    have hcount : (s.bitCnt + 1).toNat = s.bitCnt.toNat + 1 := by
      unfold CountOk at h
      simp
      omega
    rw [FrameFormat.syncStep_counting (hlock hst) hmid, hwin]
    simp only [toSync, hst, hcount]
    rfl
  | zero hst hc hz =>
    -- the zero word is fill and never useful
    have hidle := (iqFormat_idle_bitPairs _).mpr hz
    have hw : wellFormed (nextShift s.shiftReg p) = false := by rw [hz]; rfl
    rw [FrameFormat.syncStep_boundary (hlock hst) (hlast hc), hwin, iqFormat_valid_bitPairs]
    simp [toSync, hidle, hw, hst]
  | word hst hc hz hw =>
    rw [FrameFormat.syncStep_boundary (hlock hst) (hlast hc), hwin, iqFormat_valid_bitPairs]
    simp [toSync, hst, hw]
  | framing hst hc hz hw =>
    have hidle : iqFormat.idle (bitPairs (nextShift s.shiftReg p)) = false := by
      simpa using mt (iqFormat_idle_bitPairs _).mp hz
    rw [FrameFormat.syncStep_boundary (hlock hst) (hlast hc), hwin, iqFormat_valid_bitPairs]
    simp [toSync, hidle, hw]

end Rf215Sdr.Fpga
