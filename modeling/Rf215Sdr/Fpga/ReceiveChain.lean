import Rf215Sdr.Fpga.IqStreamSource
import Rf215Sdr.Fpga.LvdsOutput

/-!
# Receiver and Stream Source on One Clock

`DE10_NANO_SoC_GHRD.sv` connects `iq_word` and `word_valid` of `rf215_lvds_rx` to
`iq_word_in` and `word_valid_in` of the stream source, both clocked by `delayedCLK`. The
joint invariant has two sides: pulses of `word_valid` are at least 16 clocks apart, and a
word pending for `k` clocks has met `k` edges without `stream_tready`.
-/

namespace Rf215Sdr.Fpga

open Rf215Sdr.Lib

/-! ## Composition -/

/-- One edge samples a bit pair on the receiver's side and `stream_tready` on the sink's. -/
structure ChainIn where
  bitPair : BitVec 2
  streamTready : Bool
  deriving DecidableEq, Repr

/-- The registers of both modules. -/
structure Chain where
  rx : LvdsRx
  source : IqStreamSource

/-- Both modules take the same edge; the source samples the receiver's registers as they
were before it. -/
def Chain.clock (s : Chain) (i : ChainIn) : Chain where
  rx := s.rx.clock i.bitPair
  source := s.source.clock
    { iqWordIn := s.rx.iqWord, wordValidIn := s.rx.wordValid, streamTready := i.streamTready }

/-- The two modules as one clocked machine. -/
def chain : Machine Chain ChainIn where
  reset := { rx := LvdsRx.reset, source := IqStreamSource.reset }
  step := Chain.clock

/-- The registers before edge `n`. -/
def chainAt (w : ℕ → ChainIn) (n : ℕ) : Chain :=
  chain.stateAt w n

/-- What the source samples at each edge of a run of the composed system. -/
def sourceTrace (w : ℕ → ChainIn) (n : ℕ) : SourceIn where
  iqWordIn := (chainAt w n).rx.iqWord
  wordValidIn := (chainAt w n).rx.wordValid
  streamTready := (w n).streamTready

theorem chainAt_succ (w : ℕ → ChainIn) (n : ℕ) :
    chainAt w (n + 1) = (chainAt w n).clock (w n) := rfl

/-- The receiver side runs on the bit pairs alone. -/
theorem chainAt_rx (w : ℕ → ChainIn) (n : ℕ) :
    (chainAt w n).rx = lvdsRx.stateAt (fun k => (w k).bitPair) n := by
  induction n with
  | zero => rfl
  | succ n ih =>
    rw [chainAt_succ, Machine.stateAt_succ, ← ih]
    rfl

/-- The source side runs on what it samples. -/
theorem chainAt_source (w : ℕ → ChainIn) (n : ℕ) :
    (chainAt w n).source = sourceAt (sourceTrace w) n := by
  induction n with
  | zero => rfl
  | succ n ih =>
    rw [chainAt_succ, sourceAt_succ, ← ih]
    rfl

/-! ## No word is lost between the two modules -/

/-- **No capture loss under bounded stalls**: if any 15 consecutive edges contain one with
`stream_tready = 1`, then at every edge where the source sees `word_valid_in = 1` it is not
pending, so it captures the word the receiver shows; and `data_reg` does not change while
`pending` is 1. -/
theorem every_word_captured (w : ℕ → ChainIn)
    (hready : ∀ n, ∃ i < 15, (w (n + i)).streamTready = true) (n : ℕ) :
    ((chainAt w n).rx.wordValid = true →
      (chainAt w n).source.pending = false ∧
        (chainAt w (n + 1)).source.pending = true ∧
        (chainAt w (n + 1)).source.dataReg = byteReverse (chainAt w n).rx.iqWord) ∧
      ((chainAt w n).source.pending = true →
        (chainAt w (n + 1)).source.dataReg = (chainAt w n).source.dataReg) := by
  refine ⟨fun hvalid => ?_, fun hp => ?_⟩
  · have hfree : (chainAt w n).source.pending = false := by
      by_contra hbusy
      have hp : (sourceAt (sourceTrace w) n).pending = true := by
        rw [← chainAt_source]
        simpa using hbusy
      -- the pending word was captured at a pulse at least 16 clocks ago ...
      obtain ⟨hown, hlt, -⟩ := owner_spec (captured_ne_nil (Or.inl hp))
      have hpulse : (chainAt w (owner (sourceTrace w) n)).rx.wordValid = true := by
        unfold captures at hown
        exact (Bool.and_eq_true _ _ ▸ hown).2
      rw [chainAt_rx] at hpulse hvalid
      have hspaced := wordValid_spaced hpulse hvalid hlt
      -- ... and has met 15 edges none of which was ready
      obtain ⟨i, hi, hr⟩ := hready (owner (sourceTrace w) n + 1)
      have hstall := not_ready_of_pending hp
        (show owner (sourceTrace w) n < owner (sourceTrace w) n + 1 + i by omega) (by omega)
      change (w _).streamTready = false at hstall
      rw [hr] at hstall
      cases hstall
    refine ⟨hfree, ?_, ?_⟩
    · rw [chainAt_succ, Chain.clock, IqStreamSource.clock_pending, hfree,
        if_neg Bool.false_ne_true, hvalid]
    · rw [chainAt_succ, Chain.clock, IqStreamSource.clock_dataReg, hfree, hvalid]
      rfl
  · rw [chainAt_succ, Chain.clock, IqStreamSource.clock_dataReg, hp]
    rfl

/-- The word `0x80004000` over and over, into a sink that is ready at every fifteenth edge
only. -/
theorem every_word_captured_tight :
    let w : ℕ → ChainIn := fun n =>
      ⟨if n % 16 = 0 then 0b10#2 else if n % 16 = 8 then 0b01#2 else 0b00#2,
        decide (n % 15 = 14)⟩
    ∀ n, ((chainAt w n).rx.wordValid = true →
      (chainAt w n).source.pending = false ∧
        (chainAt w (n + 1)).source.pending = true ∧
        (chainAt w (n + 1)).source.dataReg = byteReverse (chainAt w n).rx.iqWord) ∧
      ((chainAt w n).source.pending = true →
        (chainAt w (n + 1)).source.dataReg = (chainAt w n).source.dataReg) := by
  intro w
  apply every_word_captured
  -- the next edge with remainder 14
  intro n
  refine ⟨14 - n % 15, by omega, ?_⟩
  apply decide_eq_true
  omega

end Rf215Sdr.Fpga
