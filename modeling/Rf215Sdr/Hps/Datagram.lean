import Rf215Sdr.Lib.Bytes

/-!
# Building One Datagram

The udp branch of `dma_loop` in `dma.c`, once the words of the buffer have been read: every
word is swapped with `htonl` into `out_words`, the two halves of `seq_counter` are swapped
into the header, and header and words are copied into `pkt`. The CPU is little-endian and
`size_t` has 32 bits, as on the board.

## Main results

- `loadWord_storeWord`, `storeWord_htonl`: what a load, a store and `htonl` do to bytes.
- `datagram_eq`: the datagram of a buffer of whole words is the big-endian sequence number
  and the words of the buffer in network order.
- `dmaDatagrams_eq`: consecutive buffers travel under consecutive sequence numbers.
-/

namespace Rf215Sdr.Hps

open Rf215Sdr.Lib

/-! ## Words in memory -/

/-- `htonl` on a little-endian CPU. -/
def htonl (w : BitVec 32) : BitVec 32 :=
  w.extractLsb' 0 8 ++ w.extractLsb' 8 8 ++ w.extractLsb' 16 8 ++ w.extractLsb' 24 8

/-- The `uint32_t` the CPU loads from four bytes at ascending addresses. -/
def loadWord (bs : List Byte) : BitVec 32 :=
  BitVec.ofNat 32 (ofLeBytes bs)

/-- The four bytes at ascending addresses that hold a `uint32_t`. -/
def storeWord (w : BitVec 32) : List Byte :=
  leBytes 4 w

@[simp] theorem length_storeWord (w : BitVec 32) : (storeWord w).length = 4 :=
  length_leBytes 4 w

@[simp] theorem loadWord_storeWord (w : BitVec 32) : loadWord (storeWord w) = w := by
  unfold loadWord storeWord
  rw [ofLeBytes_leBytes (n := 4) w, BitVec.ofNat_toNat]
  exact BitVec.setWidth_eq w

theorem storeWord_loadWord {bs : List Byte} (h : bs.length = 4) :
    storeWord (loadWord bs) = bs :=
  leBytes_ofLeBytes h

/-- The bytes of a word cut out of another, lowest first. -/
theorem beBytes_htonl (w : BitVec 32) : beBytes 4 (htonl w) = leBytes 4 w := by
  unfold beBytes htonl leBytes
  rw [symbols_append, symbols_append, symbols_append]
  simp [beBytes, symbols, List.range_succ]

/-- `htonl` stored by the CPU is the word highest byte first. -/
theorem storeWord_htonl (w : BitVec 32) : storeWord (htonl w) = beBytes 4 w := by
  unfold storeWord
  rw [leBytes, beBytes_htonl, leBytes, List.reverse_reverse]

/-! ## The packet -/

/-- `out_words[wi] = htonl(in_words[wi])` for the words of a buffer. -/
def outWords (buf : List Byte) : List (BitVec 32) :=
  (groups 4 buf).map fun g => htonl (loadWord g)

/-- `seq_hi` and `seq_lo` in network order: the first eight bytes of `pkt`. -/
def header (seqCounter : BitVec 64) : List Byte :=
  let seqHi : BitVec 32 := (seqCounter >>> 32).setWidth 32
  let seqLo : BitVec 32 := (seqCounter &&& 0xFFFFFFFF).setWidth 32
  storeWord (htonl seqHi) ++ storeWord (htonl seqLo)

/-- `size_t pkt_size = 8 + buf_size`. -/
def pktSize (bufSize : BitVec 32) : BitVec 32 :=
  8 + bufSize

/-- The bytes handed to `sendto`. `none` when a `memcpy` reads past the end of `out_words`
or writes past the end of `pkt`. -/
def packet (seqCounter : BitVec 64) (bufSize : BitVec 32) (out : List (BitVec 32)) :
    Option (List Byte) :=
  let outBytes := out.flatMap storeWord
  -- the two copies: out of `out_words`, and behind the header of `pkt`
  if bufSize.toNat ≤ outBytes.length ∧ 8 + bufSize.toNat ≤ (pktSize bufSize).toNat then
    some (header seqCounter ++ outBytes.take bufSize.toNat)
  else none

/-- The datagram for the buffer contents `buf`. -/
def datagram (seqCounter : BitVec 64) (bufSize : BitVec 32) (buf : List Byte) :
    Option (List Byte) :=
  packet seqCounter bufSize (outWords buf)

/-- One datagram for each buffer, `seq_counter++` after each. -/
def dmaDatagrams (bufSize : BitVec 32) :
    BitVec 64 → List (List Byte) → Option (List (List Byte))
  | _, [] => some []
  | seqCounter, buf :: bufs => do
    let d ← datagram seqCounter bufSize buf
    let ds ← dmaDatagrams bufSize (seqCounter + 1) bufs
    return d :: ds

/-! ## What a packet holds -/

/-- The header is the sequence number, highest byte first. -/
theorem header_eq (seqCounter : BitVec 64) : header seqCounter = beBytes 8 seqCounter := by
  -- the two halves of the counter, as parts of the word
  have hhi : (seqCounter >>> 32).setWidth 32 = seqCounter.extractLsb' 32 32 := rfl
  have hlo : (seqCounter &&& 0xFFFFFFFF).setWidth 32 = seqCounter.extractLsb' 0 32 := by
    apply BitVec.eq_of_toNat_eq
    rw [BitVec.toNat_setWidth, BitVec.toNat_and, BitVec.extractLsb'_toNat]
    show (seqCounter.toNat &&& (2 ^ 32 - 1)) % 2 ^ 32 = _
    rw [Nat.and_two_pow_sub_one_eq_mod, Nat.mod_mod, Nat.shiftRight_zero]
  unfold header
  dsimp only
  rw [hhi, hlo, storeWord_htonl, storeWord_htonl]
  unfold beBytes
  rw [symbols_extractLsb' (b := 8) (n := 4) seqCounter (Nat.le_refl 32)]
  exact (symbols_add 8 4 4 seqCounter).symm

@[simp] theorem length_header (seqCounter : BitVec 64) : (header seqCounter).length = 8 := by
  rw [header_eq, length_beBytes]

/-- A packet always has the size it announces. -/
theorem length_of_packet {seqCounter : BitVec 64} {bufSize : BitVec 32} {out : List (BitVec 32)}
    {d : List Byte} (h : packet seqCounter bufSize out = some d) :
    d.length = 8 + bufSize.toNat := by
  unfold packet at h
  dsimp only at h
  split_ifs at h with hfit
  obtain rfl := Option.some.inj h
  rw [List.length_append, length_header, List.length_take, Nat.min_eq_left hfit.1]

/-- The words of a buffer in network order. -/
theorem flatMap_outWords (buf : List Byte) :
    (outWords buf).flatMap storeWord = (groups 4 buf).flatMap List.reverse := by
  unfold outWords
  rw [List.flatMap_map]
  apply List.flatMap_congr
  intro g hg
  have hlen := length_of_mem_groups hg
  show storeWord (htonl (loadWord g)) = g.reverse
  calc storeWord (htonl (loadWord g)) = beBytes 4 (loadWord g) := storeWord_htonl _
    _ = (storeWord (loadWord g)).reverse := by rw [storeWord, leBytes, List.reverse_reverse]
    _ = g.reverse := by rw [storeWord_loadWord hlen]

theorem length_flatMap_outWords (buf : List Byte) :
    ((outWords buf).flatMap storeWord).length = 4 * (buf.length / 4) := by
  rw [length_flatMap_const length_storeWord, outWords, List.length_map, length_groups]

/-- **The datagram of a buffer of whole words**: the sequence number, highest byte first,
and the words of the buffer with their bytes in network order. -/
theorem datagram_eq {bufSize : BitVec 32} {buf : List Byte} (seqCounter : BitVec 64)
    (hlen : buf.length = bufSize.toNat) (hwords : 4 ∣ bufSize.toNat)
    (hroom : bufSize.toNat + 8 < 2 ^ 32) :
    datagram seqCounter bufSize buf =
      some (beBytes 8 seqCounter ++ (groups 4 buf).flatMap List.reverse) := by
  have hbytes : ((outWords buf).flatMap storeWord).length = bufSize.toNat := by
    rw [length_flatMap_outWords, hlen, Nat.mul_div_cancel' hwords]
  -- `size_t` does not wrap around
  have hpkt : (pktSize bufSize).toNat = 8 + bufSize.toNat := by
    unfold pktSize
    rw [BitVec.toNat_add]
    exact Nat.mod_eq_of_lt (by show 8 + bufSize.toNat < 2 ^ 32; omega)
  unfold datagram packet
  dsimp only
  rw [if_pos ⟨Nat.le_of_eq hbytes.symm, Nat.le_of_eq hpkt.symm⟩, ← hbytes, List.take_length,
    header_eq, flatMap_outWords]

/-- Buffers of whole words all make it into a datagram, under consecutive numbers. -/
theorem dmaDatagrams_eq {bufSize : BitVec 32} (hwords : 4 ∣ bufSize.toNat)
    (hroom : bufSize.toNat + 8 < 2 ^ 32) {bufs : List (List Byte)}
    (hlen : ∀ buf ∈ bufs, buf.length = bufSize.toNat) (seqCounter : BitVec 64) :
    dmaDatagrams bufSize seqCounter bufs =
      some (bufs.mapIdx fun k buf =>
        beBytes 8 (seqCounter + BitVec.ofNat 64 k) ++ (groups 4 buf).flatMap List.reverse) := by
  induction bufs generalizing seqCounter with
  | nil => rfl
  | cons buf bufs ih =>
    have hhead := datagram_eq seqCounter (hlen buf List.mem_cons_self) hwords hroom
    have htail := ih (fun b hb => hlen b (List.mem_cons_of_mem buf hb)) (seqCounter + 1)
    show (do
      let d ← datagram seqCounter bufSize buf
      let ds ← dmaDatagrams bufSize (seqCounter + 1) bufs
      return d :: ds) = _
    rw [hhead, htail, List.mapIdx_cons]
    -- the numbers of the rest start one later
    have hnext : ∀ k : ℕ,
        seqCounter + 1 + BitVec.ofNat 64 k = seqCounter + BitVec.ofNat 64 (k + 1) := by
      intro k
      rw [BitVec.ofNat_add, BitVec.add_assoc, BitVec.add_comm (BitVec.ofNat 64 k)]
      rfl
    have hzero : seqCounter + BitVec.ofNat 64 0 = seqCounter := BitVec.add_zero seqCounter
    simp only [hnext, hzero]
    rfl

end Rf215Sdr.Hps
