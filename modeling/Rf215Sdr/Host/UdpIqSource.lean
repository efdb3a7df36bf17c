import Mathlib.Data.Nat.Bitwise
import Mathlib.Data.Rat.Defs
import Rf215Sdr.Lib.Bytes

/-!
# Decoding a Datagram in GNU Radio

The block `udp_iq_vec_source_c` of `eval_setup.grc`: its parameters, and what `_rx_loop` does
with the bytes of one datagram up to the vector it puts in the queue. `complex64` samples are
pairs of rationals: every value built here is a 13-bit integer over 4096 and exact in
`float32`.

## Main results

- `toInt_signed13`: `_signed13_arr` reads bits 13 to 1 as a signed number.
- `decode_beBytes`: a datagram of a sequence number and big-endian words decodes to them.
-/

namespace Rf215Sdr.Host

open Rf215Sdr.Lib

/-! ## The block -/

/-- `_HDR_SIZE`: the sequence number, 64 bits. -/
def hdrSize : ℕ := 8

/-- The block after `__init__` with a `pkt_size` that leaves room for the header. The check
`(pkt_size - _HDR_SIZE) % 4` has passed. -/
structure UdpIqSource where
  pktSize : ℕ
  /-- `maxsize` of the queue; a queue of size zero or less is unbounded. -/
  queueLen : ℤ
  header_le : hdrSize ≤ pktSize
  whole_words : 4 ∣ pktSize - hdrSize

/-- `vec_len = (pkt_size - _HDR_SIZE) // 4`. -/
def UdpIqSource.vecLen (b : UdpIqSource) : ℕ :=
  (b.pktSize - hdrSize) / 4

/-- One `complex64`. -/
@[ext]
structure Sample where
  re : ℚ
  im : ℚ
  deriving DecidableEq

/-! ## Decoding -/

/-- `recvfrom(n)` on a UDP socket: the first `n` bytes of the datagram. -/
def recvfrom (n : ℕ) (dgram : List Byte) : List Byte :=
  dgram.take n

/-- `struct.unpack_from(">Q", dat, 0)`. -/
def unpackSeq (dat : List Byte) : ℕ :=
  ofBeBytes (dat.take hdrSize)

/-- `np.frombuffer(memoryview(dat)[hdr_size:], dtype=">u4", count=vec_len)`. -/
def frombuffer (b : UdpIqSource) (dat : List Byte) : List (BitVec 32) :=
  ((groups 4 (dat.drop hdrSize)).take b.vecLen).map fun g => BitVec.ofNat 32 (ofBeBytes g)

/-- `_signed13_arr` on one element: `uint32` to `int16`. -/
def signed13 (u14 : BitVec 32) : BitVec 16 :=
  let s16 : BitVec 16 := (u14 >>> 1).setWidth 16
  if s16 &&& 0x1000 ≠ 0 then s16 - (1 : BitVec 16) <<< 13 else s16

/-- `i_raw = (words >> 16) & 0x3FFF`. -/
def iRaw (word : BitVec 32) : BitVec 32 :=
  word >>> 16 &&& 0x3FFF

/-- `q_raw = words & 0x3FFF`. -/
def qRaw (word : BitVec 32) : BitVec 32 :=
  word &&& 0x3FFF

/-- `_signed13_arr(..).astype(np.float32) / 4096.0` for both parts, then `i + 1j*q`. -/
def toSample (word : BitVec 32) : Sample where
  re := (signed13 (iRaw word)).toInt / 4096
  im := (signed13 (qRaw word)).toInt / 4096

/-- The vector made of an accepted datagram. -/
def vectorOf (b : UdpIqSource) (dat : List Byte) : List Sample :=
  (frombuffer b dat).map toSample

/-- What `_rx_loop` reads out of one datagram: nothing when the length is wrong, else the
sequence number and the vector. -/
def decode (b : UdpIqSource) (dgram : List Byte) : Option (ℕ × List Sample) :=
  let dat := recvfrom b.pktSize dgram
  if dat.length ≠ b.pktSize then none
  else some (unpackSeq dat, vectorOf b dat)

/-! ## Signed fields -/

/-- The thirteen bits above bit `j` of a masked field. -/
theorem field13 (word : BitVec 32) (j : ℕ) :
    ((word >>> j &&& 0x3FFF) >>> 1).toNat = (word.extractLsb' (j + 1) 13).toNat := by
  rw [BitVec.toNat_ushiftRight, BitVec.toNat_and, BitVec.toNat_ushiftRight,
    BitVec.extractLsb'_toNat]
  show (word.toNat >>> j &&& (2 ^ 14 - 1)) >>> 1 = _
  rw [Nat.and_two_pow_sub_one_eq_mod, Nat.shiftRight_eq_div_pow, Nat.shiftRight_eq_div_pow,
    Nat.shiftRight_eq_div_pow, Nat.pow_succ 2 j, ← Nat.div_div_eq_div_mul]
  omega

/-- `_signed13_arr` on a field of thirteen bits over one spare bit. -/
theorem toInt_signed13 {u14 : BitVec 32} {x : BitVec 13} (h : (u14 >>> 1).toNat = x.toNat) :
    (signed13 u14).toInt = x.toInt := by
  have hx := x.isLt
  have hs16 : ((u14 >>> 1).setWidth 16).toNat = x.toNat := by
    rw [BitVec.toNat_setWidth, h]
    exact Nat.mod_eq_of_lt (by omega)
  -- the sign bit of the field
  have hsign : (u14 >>> 1).setWidth 16 &&& (0x1000 : BitVec 16) ≠ 0 ↔ 2 ^ 12 ≤ x.toNat := by
    rw [Ne, ← BitVec.toNat_inj, BitVec.toNat_and, hs16]
    show ¬ x.toNat &&& 2 ^ 12 = 0 ↔ _
    rw [Nat.and_two_pow, Nat.testBit_eq_decide_div_mod_eq]
    simp only [Nat.reducePow, mul_eq_zero, Bool.toNat_eq_zero, decide_eq_false_iff_not,
      Nat.mod_two_not_eq_one, OfNat.ofNat_ne_zero, or_false, Nat.mod_two_not_eq_zero]
    omega
  unfold signed13
  dsimp only
  -- subtracting 2 ^ 13 extends the sign
  split_ifs with hneg
  · have hge := hsign.mp hneg
    have hsub : ((u14 >>> 1).setWidth 16 - (1 : BitVec 16) <<< 13).toNat =
        (2 ^ 16 - 2 ^ 13 + x.toNat) % 2 ^ 16 := by
      rw [BitVec.toNat_sub, hs16]
      rfl
    rw [BitVec.toInt_eq_toNat_cond, BitVec.toInt_eq_toNat_cond, hsub, if_neg (by omega),
      if_neg (by omega)]
    omega
  · have hlt : x.toNat < 2 ^ 12 := Nat.lt_of_not_le fun hge => hneg (hsign.mpr hge)
    rw [BitVec.toInt_eq_toNat_cond, BitVec.toInt_eq_toNat_cond, hs16, if_pos (by omega),
      if_pos (by omega)]

/-- **The two fields of a word**: bits 29 to 17 and bits 13 to 1, signed. -/
theorem toSample_eq (word : BitVec 32) :
    toSample word =
      ⟨(word.extractLsb' 17 13).toInt / 4096, (word.extractLsb' 1 13).toInt / 4096⟩ := by
  have hi : (signed13 (iRaw word)).toInt = _ := toInt_signed13 (field13 word 16)
  have hq : (signed13 (qRaw word)).toInt = _ := toInt_signed13 (field13 word 0)
  unfold toSample
  rw [hi, hq]

/-! ## Whole datagrams -/

/-- A datagram is accepted exactly when at least `pkt_size` bytes arrive. -/
theorem decode_isSome (b : UdpIqSource) (dgram : List Byte) :
    (decode b dgram).isSome ↔ b.pktSize ≤ dgram.length := by
  unfold decode recvfrom
  dsimp only
  rw [List.length_take]
  split_ifs with h
  · simp only [Option.isSome_none, Bool.false_eq_true, false_iff]
    omega
  · simp only [Option.isSome_some, true_iff]
    omega

/-- The sequence number read has 64 bits. -/
theorem seq_lt_of_decode {b : UdpIqSource} {dgram : List Byte} {p : ℕ × List Sample}
    (h : decode b dgram = some p) : p.1 < 2 ^ 64 := by
  unfold decode at h
  dsimp only at h
  split_ifs at h
  obtain rfl := Option.some.inj h
  calc unpackSeq (recvfrom b.pktSize dgram)
      < 2 ^ (8 * ((recvfrom b.pktSize dgram).take hdrSize).length) := ofSymbols_lt _
    _ ≤ 2 ^ (8 * 8) := by
        apply Nat.pow_le_pow_right (by decide)
        apply Nat.mul_le_mul_left
        exact List.length_take_le _ _

/-- **A sequence number and `vec_len` words, highest byte first, are read back.** -/
theorem decode_beBytes {b : UdpIqSource} (seq : BitVec 64) {words : List (BitVec 32)}
    (hlen : words.length = b.vecLen) :
    decode b (beBytes 8 seq ++ words.flatMap (beBytes 4)) =
      some (seq.toNat, words.map toSample) := by
  -- `vec_len` words behind the header fill the packet
  have hpkt : b.pktSize = hdrSize + 4 * b.vecLen := by
    have := Nat.mul_div_cancel' b.whole_words
    have := b.header_le
    unfold UdpIqSource.vecLen
    omega
  have hhdr : (beBytes 8 seq).length = hdrSize := length_beBytes 8 seq
  have htotal : (beBytes 8 seq ++ words.flatMap (beBytes 4)).length = b.pktSize := by
    rw [List.length_append, hhdr, length_flatMap_const (length_beBytes 4), hlen, hpkt]
  have hwords : frombuffer b (beBytes 8 seq ++ words.flatMap (beBytes 4)) = words := by
    unfold frombuffer
    rw [← hhdr, List.drop_left, groups_flatMap_item (by decide) (length_beBytes 4), ← hlen,
      List.take_of_length_le (by rw [List.length_map]), List.map_map]
    -- each word is read in the order in which it was written
    conv_rhs => rw [← List.map_id words]
    apply List.map_congr_left
    intro w _
    show BitVec.ofNat 32 (ofBeBytes (beBytes 4 w)) = w
    rw [ofBeBytes_beBytes (n := 4) w]
    exact BitVec.ofNat_toNat 32 w |>.trans (BitVec.setWidth_eq w)
  unfold decode recvfrom
  dsimp only
  rw [← htotal, List.take_length, if_neg (not_not.mpr rfl), vectorOf, hwords]
  congr 2
  unfold unpackSeq
  rw [← hhdr, List.take_left]
  exact ofBeBytes_beBytes (n := 8) seq

end Rf215Sdr.Host
