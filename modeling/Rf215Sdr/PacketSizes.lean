import Rf215Sdr.Host.Receiver
import Rf215Sdr.Hps.DmaLoop

/-!
# Packet Sizes of Sender and Receiver

The length test of `_rx_loop` looks at what `recvfrom(pkt_size)` has returned. A datagram that
is too short is told apart, one that is too long has been cut to the right length before the
test.

## Main results

- `receive_short`, `receive_long`: what becomes of a datagram by its length.
- `checked_iff`: the test tells the sizes apart exactly for senders whose datagrams are not
  longer than `pkt_size`.
-/

namespace Rf215Sdr

open Rf215Sdr.Lib Rf215Sdr.Host Rf215Sdr.Hps

/-- Number and samples of the datagram are in the hands of `_rx_loop`, and the expected number has
moved on. -/
def Decoded (b : UdpIqSource) (dgram : List Byte) (t : Receiver) : Prop :=
  ∃ n vec, decode b dgram = some (n, vec) ∧ t.rx = .putting n vec ∧
    t.seq = some ((n + 1) &&& 0xFFFFFFFFFFFFFFFF)

/-- The datagram was reported as ignored, `_seq` and the queue are as before. -/
def Ignored (s t : Receiver) : Prop :=
  t.seq = s.seq ∧ t.queue = s.queue ∧ t.rx = s.rx ∧
    ∃ bytes, t.log = s.log ++ [.ignored bytes]

/-- Whenever the receiver takes the datagram off its socket, it is decoded if the sizes agree
and ignored if they do not. -/
def Checked (b : UdpIqSource) (chunk : ℕ) (dgram : List Byte) : Prop :=
  ∀ s, (receiver b).Reachable s → ∀ second t, s.step b (.recv dgram second) = some t →
    (Decoded b dgram t ↔ 8 + chunk = b.pktSize) ∧ (8 + chunk ≠ b.pktSize → Ignored s t)

variable {b : UdpIqSource} {dgram : List Byte} {s t : Receiver} {second : Bool}

/-- A datagram shorter than `pkt_size` is ignored. -/
theorem receive_short (hlen : dgram.length < b.pktSize)
    (hstep : s.step b (.recv dgram second) = some t) : Ignored s t ∧ ¬ Decoded b dgram t := by
  have hnone : ¬ (decode b dgram).isSome := by
    rw [decode_isSome]
    exact Nat.not_le.mpr hlen
  cases Receiver.stepped_of_step hstep with
  | ignored hrx hdecode bytes =>
    refine ⟨⟨rfl, rfl, rfl, bytes, rfl⟩, ?_⟩
    -- the loop is waiting for the next datagram
    rintro ⟨n, vec, -, hputting, -⟩
    rw [show s.rx = _ from hputting] at hrx
    cases hrx
  | accepted hrx hdecode =>
    rw [hdecode] at hnone
    exact absurd rfl hnone

/-- Any longer one is decoded from its first `pkt_size` bytes. -/
theorem receive_long (hlen : b.pktSize ≤ dgram.length)
    (hstep : s.step b (.recv dgram second) = some t) : Decoded b dgram t := by
  have hsome := (decode_isSome b dgram).mpr hlen
  cases Receiver.stepped_of_step hstep with
  | ignored hrx hdecode bytes =>
    rw [hdecode] at hsome
    cases hsome
  | accepted hrx hdecode => exact ⟨_, _, hdecode, rfl, rfl⟩

/-- **When the sizes are checked**: `dma_loop` builds datagrams of `8 + chunk` bytes, and a
datagram of that size is decoded if and only if the sizes agree, and ignored otherwise, exactly
if it is not longer than `pkt_size`. -/
theorem checked_iff (b : UdpIqSource) (cfg : DmaConfig) :
    (∀ lw stream ddr s, (dmaLoop lw cfg stream ddr).Reachable s →
      ∀ d ∈ s.sent, d.1.length = 8 + cfg.chunkBytes.toNat) ∧
    ∀ dgram : List Byte, dgram.length = 8 + cfg.chunkBytes.toNat →
      (Checked b cfg.chunkBytes.toNat dgram ↔ 8 + cfg.chunkBytes.toNat ≤ b.pktSize) := by
  refine ⟨fun lw stream ddr s => length_of_sent, ?_⟩
  intro dgram hlen
  constructor
  · intro hchecked
    -- right after `start` the receiver waits for a datagram
    obtain ⟨hdecoded, -⟩ := hchecked _ (receiver b).reachable_init false _ rfl
    by_contra hlong
    have hstep : Receiver.init.step b (.recv dgram false) =
        some (Receiver.init.receive b dgram false) := rfl
    have hdone := receive_long (by omega) hstep
    have := hdecoded.mp hdone
    omega
  · intro hfit s _ second t hstep
    by_cases heq : 8 + cfg.chunkBytes.toNat = b.pktSize
    · refine ⟨⟨fun _ => heq, fun _ => ?_⟩, fun hne => absurd heq hne⟩
      exact receive_long (by omega) hstep
    · obtain ⟨hignored, hnot⟩ := receive_short (by omega) hstep
      exact ⟨⟨fun hdone => absurd hdone hnot, fun h => absurd h heq⟩, fun _ => hignored⟩

/-- A receiver for chunks of eight bytes, and a sender of such chunks. -/
theorem checked_eight :
    Checked ⟨16, 4096, by decide, by decide⟩ 8 (List.replicate 16 0) :=
  ((checked_iff _ ⟨8, true, false⟩).2 (List.replicate 16 0) rfl).mpr (by decide)

/-- The first datagram of a sender of chunks of sixteen bytes: it is cut to sixteen bytes and
decoded, half of its samples are lost without a word. -/
theorem not_checked_sixteen :
    ∃ d, datagram 0 16 (List.replicate 16 0) = some d ∧
      ¬ Checked ⟨16, 4096, by decide, by decide⟩ 16 d := by
  refine ⟨_, rfl, ?_⟩
  intro hchecked
  obtain ⟨hdecoded, -⟩ := hchecked _ (receiver _).reachable_init false _ rfl
  exact absurd (hdecoded.mp ⟨_, _, rfl, rfl, rfl⟩) (by decide)

end Rf215Sdr
