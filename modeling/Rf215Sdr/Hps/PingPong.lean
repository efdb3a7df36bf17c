import Rf215Sdr.Hps.DmaLoop

/-!
# Ping-Pong Safety of `dma_loop`

The invariant of the loop counts the transfers: transfer `m` copies chunk `m` of the stream
into buffer `m % 2`, while the CPU works on chunk `m - 1` in the other buffer. It holds
whether or not the engine has raised its busy bit when the CPU samples it, because the read of
the response register blocks until the transfer is finished.

## Main results

- `inv_of_reachable`: the invariant, in every interleaving.
- `pingPong_safe`: no buffer is read while it is being filled, and the `n`-th datagram carries
  the number `n`, modulo 2^64, and chunk `n` of the stream.
- `pingPong_safe_generated`: so it is with the bits of the length that the controller counts.
-/

namespace Rf215Sdr.Hps

open Rf215Sdr.Lib

variable {lw : ℕ} {cfg : DmaConfig} {stream ddr : ℕ → Byte}

/-! ## Chunks and buffers -/

/-- Chunk `n` of the stream. -/
def chunkAt (cfg : DmaConfig) (stream : ℕ → Byte) (n : ℕ) : List Byte :=
  load stream (n * cfg.chunkBytes.toNat) cfg.chunkBytes.toNat

/-- The words of a chunk as they travel, each highest byte first. -/
def networkOrder (buf : List Byte) : List Byte :=
  (groups 4 buf).flatMap List.reverse

/-- The datagram for chunk `n`. -/
def chunkDatagram (cfg : DmaConfig) (stream : ℕ → Byte) (n : ℕ) : List Byte :=
  beBytes 8 (BitVec.ofNat 64 n) ++ networkOrder (chunkAt cfg stream n)

/-- What the invariant needs: both buffers are mapped, and what is sent are whole words that the
engine counts in full. -/
structure Supported (lw : ℕ) (cfg : DmaConfig) : Prop where
  mapped : 2 * cfg.chunkBytes.toNat ≤ ddrMapSize
  words : cfg.udpMode = true → 8 ∣ cfg.chunkBytes.toNat
  counts : cfg.udpMode = true → cfg.chunkBytes.toNat < 2 ^ lw

/-- The bytes of a filled buffer that the transfer into the other one leaves alone. -/
def kept (lw : ℕ) (cfg : DmaConfig) : ℕ :=
  min (counted lw cfg.chunkBytes) (8 * (cfg.chunkBytes.toNat / 8))

/-- Buffer `j % 2` holds what is kept of transfer `j`. -/
def Holds (lw : ℕ) (cfg : DmaConfig) (stream : ℕ → Byte) (s : Board) (j : ℕ) : Prop :=
  load s.ddr (wordBase (bufAddr cfg (j % 2))) (kept lw cfg) =
    load stream (j * consumed lw cfg.chunkBytes) (kept lw cfg)

/-- Buffer addresses do not wrap around. -/
theorem Supported.toNat_bufAddr (h : Supported lw cfg) (b : ℕ) :
    (bufAddr cfg b).toNat = ddrBufferBase.toNat + (bufOffset cfg b).toNat := by
  have hmapped := h.mapped
  have hbase : ddrBufferBase.toNat = 0x01000000 := rfl
  have hoff : (bufOffset cfg b).toNat ≤ cfg.chunkBytes.toNat := by
    unfold bufOffset
    split_ifs
    · exact Nat.zero_le _
    · exact Nat.le_refl _
  unfold bufAddr
  unfold ddrMapSize at hmapped
  rw [BitVec.toNat_add]
  exact Nat.mod_eq_of_lt (by omega)

/-- The base is a whole word, so a buffer starts in the word of its offset. -/
theorem Supported.wordBase_bufAddr (h : Supported lw cfg) (b : ℕ) :
    wordBase (bufAddr cfg b) = ddrBufferBase.toNat + 8 * ((bufOffset cfg b).toNat / 8) := by
  have hbase : ddrBufferBase.toNat = 0x01000000 := rfl
  unfold wordBase
  rw [h.toNat_bufAddr]
  omega

/-- A transfer leaves what is kept of the other buffer alone; with a chunk that is no multiple of
8 it reaches into the last bytes of buffer 0, or the first ones of buffer 1. -/
theorem Supported.kept_disjoint (h : Supported lw cfg) {j m : ℕ} (hjm : j % 2 ≠ m % 2)
    (hwhole : 8 ∣ cfg.chunkBytes.toNat ∨ j % 2 = 0) :
    wordBase (bufAddr cfg (j % 2)) + kept lw cfg ≤ wordBase (bufAddr cfg (m % 2)) ∨
      wordBase (bufAddr cfg (m % 2)) + counted lw cfg.chunkBytes ≤
        wordBase (bufAddr cfg (j % 2)) := by
  have hcount := counted_le lw cfg.chunkBytes
  have hzero : (0 : BitVec 32).toNat = 0 := rfl
  rw [h.wordBase_bufAddr, h.wordBase_bufAddr]
  unfold bufOffset kept
  -- one index is 0, the other 1
  split_ifs with hj hm hm
  · omega
  · left
    omega
  · right
    omega
  · omega

section Whole

variable (h : Supported lw cfg) (hudp : cfg.udpMode = true)

include h hudp

/-- In udp mode the whole chunk is transferred, -/
theorem Supported.counted_eq : counted lw cfg.chunkBytes = cfg.chunkBytes.toNat :=
  Nat.mod_eq_of_lt (h.counts hudp)

/-- no byte of the stream is dropped, -/
theorem Supported.consumed_eq : consumed lw cfg.chunkBytes = cfg.chunkBytes.toNat := by
  rw [consumed, h.counted_eq hudp, wholeWords_of_dvd (h.words hudp)]

/-- and the whole buffer is kept. -/
theorem Supported.kept_eq : kept lw cfg = cfg.chunkBytes.toNat := by
  rw [kept, h.counted_eq hudp, Nat.mul_div_cancel' (h.words hudp), Nat.min_self]

/-- The engine starts with the first byte of the buffer. -/
theorem Supported.wordBase_eq (b : ℕ) : wordBase (bufAddr cfg b) = (bufAddr cfg b).toNat := by
  have hwords := h.words hudp
  rw [h.wordBase_bufAddr, h.toNat_bufAddr]
  unfold bufOffset
  split_ifs
  · rfl
  · rw [Nat.mul_div_cancel' hwords]

end Whole

/-- The datagram of the words of chunk `n`. -/
theorem Supported.packet_outWords (h : Supported lw cfg) (hudp : cfg.udpMode = true) (n : ℕ) :
    packet (BitVec.ofNat 64 n) cfg.chunkBytes (outWords (chunkAt cfg stream n)) =
      some (chunkDatagram cfg stream n) := by
  have hmapped := h.mapped
  unfold ddrMapSize at hmapped
  exact datagram_eq _ (length_load _ _ _) (Nat.dvd_trans (by decide) (h.words hudp)) (by omega)

/-! ## The invariant -/

/-- The datagrams built and the counter after `n` chunks. In test mode there are none. -/
structure SentOk (cfg : DmaConfig) (stream : ℕ → Byte) (sent : List (List Byte × Bool))
    (seqCounter : BitVec 64) (n : ℕ) : Prop where
  sent_eq : sent.map Prod.fst =
    (List.range (if cfg.udpMode then n else 0)).map (chunkDatagram cfg stream)
  counter_eq : seqCounter = BitVec.ofNat 64 (if cfg.udpMode then n else 0)

/-- What the CPU has done, when transfer `m` is being set up, in flight or just finished. -/
def CpuOk (cfg : DmaConfig) (stream : ℕ → Byte) (s : Board) (m : ℕ) : Prop :=
  match s.pc with
  -- the pre-fill is transfer 0; the registers hold what has been written so far
  | .program first reg =>
    (first = true ↔ m = 0) ∧ SentOk cfg stream s.sent s.seqCounter (m - 1) ∧
      (reg ≠ .writeAddr → s.engine.writeAddr = bufAddr cfg (m % 2)) ∧
      (reg = .control → s.engine.length = cfg.chunkBytes)
  | .log _ => 0 < m ∧ SentOk cfg stream s.sent s.seqCounter (m - 1)
  -- `out_words` holds the first words of chunk `m - 1`, swapped
  | .convert words =>
    0 < m ∧ cfg.udpMode = true ∧ SentOk cfg stream s.sent s.seqCounter (m - 1) ∧
      words.length ≤ numWords cfg ∧
      words = (outWords (chunkAt cfg stream (m - 1))).take words.length
  | .print _ =>
    0 < m ∧ cfg.udpMode = false ∧ SentOk cfg stream s.sent s.seqCounter (m - 1)
  | .poll first | .response first | .pop first =>
    (first = true ↔ m = 0) ∧ SentOk cfg stream s.sent s.seqCounter m
  -- transfer `m` is done, its buffer becomes the current one
  | .swap => 0 < m ∧ SentOk cfg stream s.sent s.seqCounter m

/-- The engine's part in an iteration. -/
inductive Stage where
  | idle
  | inFlight
  | finished
  | swapping
  deriving DecidableEq

/-- The stage at each place of the code. -/
def Pc.stage : Pc → Stage
  | .program _ _ => .idle
  | .pop _ => .finished
  | .swap => .swapping
  | _ => .inFlight

/-- What the engine is doing at each stage. -/
def EngineOk (lw : ℕ) (cfg : DmaConfig) (stream : ℕ → Byte) (s : Board) (m : ℕ) : Prop :=
  match s.pc.stage with
  | .idle => Quiet s.engine (m * consumed lw cfg.chunkBytes)
  | .inFlight =>
    InFlight lw stream s.engine s.ddr (bufAddr cfg (m % 2)) cfg.chunkBytes
      (m * consumed lw cfg.chunkBytes)
  | .finished =>
    Finished lw stream s.engine s.ddr (bufAddr cfg (m % 2)) cfg.chunkBytes
      (m * consumed lw cfg.chunkBytes)
  | .swapping => Quiet s.engine ((m + 1) * consumed lw cfg.chunkBytes)

/-- **The loop invariant** for transfer `m`: the CPU owns buffer `(m - 1) % 2` with what transfer
`m - 1` has left in it, the engine owns the other one until the indices are swapped. -/
structure Inv (lw : ℕ) (cfg : DmaConfig) (stream : ℕ → Byte) (s : Board) (m : ℕ) : Prop where
  current_eq : s.current = (m - 1) % 2
  next_eq : s.next = 1 - (m - 1) % 2
  cpu : CpuOk cfg stream s m
  engine : EngineOk lw cfg stream s m
  held : s.pc ≠ .swap → ∀ j, j + 1 = m → 8 ∣ cfg.chunkBytes.toNat ∨ j % 2 = 0 →
    Holds lw cfg stream s j
  filled : s.pc = .swap → Holds lw cfg stream s m

theorem inv_init : Inv lw cfg stream (Board.init ddr) 0 where
  current_eq := rfl
  next_eq := rfl
  cpu := by
    refine ⟨by decide, ⟨?_, ?_⟩, ?_, ?_⟩
    · simp [Board.init]
    · simp [Board.init]
    · exact fun h => absurd rfl h
    · exact fun h => nomatch h
  engine := ⟨rfl, rfl, rfl, by simp [Board.init, Engine.init]⟩
  held := fun _ j hj => nomatch hj
  filled := fun h => nomatch h

/-- An engine step changes neither the CPU nor the descriptor registers. -/
theorem CpuOk.of_engine {s : Board} {m : ℕ} (h : CpuOk cfg stream s m) {e : Engine}
    (haddr : e.writeAddr = s.engine.writeAddr) (hlen : e.length = s.engine.length)
    (ddr' : ℕ → Byte) : CpuOk cfg stream { s with engine := e, ddr := ddr' } m := by
  unfold CpuOk at h ⊢
  dsimp only
  rw [haddr, hlen]
  exact h

/-- Every engine step keeps the invariant. -/
theorem Inv.engineStep (hsup : Supported lw cfg) {s : Board} {m : ℕ} (h : Inv lw cfg stream s m)
    {act : EngineAct} {e : Engine} {ddr' : ℕ → Byte}
    (hstep : engineStep lw stream s.engine s.ddr act = some (e, ddr')) :
    Inv lw cfg stream { s with engine := e, ddr := ddr' } m := by
  have hengine := h.engine
  unfold EngineOk at hengine
  -- outside a transfer the engine is not able to take a step
  cases hstage : s.pc.stage with
  | idle =>
    simp only [hstage] at hengine
    rw [hengine.engineStep_eq_none] at hstep
    cases hstep
  | finished =>
    simp only [hstage] at hengine
    rw [hengine.engineStep_eq_none] at hstep
    cases hstep
  | swapping =>
    simp only [hstage] at hengine
    rw [hengine.engineStep_eq_none] at hstep
    cases hstep
  | inFlight =>
    simp only [hstage] at hengine
    have hswap : s.pc ≠ .swap := by
      intro hpc
      rw [hpc] at hstage
      cases hstage
    obtain ⟨haddr, hlen⟩ := engineStep_regs hstep
    refine ⟨h.current_eq, h.next_eq, h.cpu.of_engine haddr hlen ddr', ?_, ?_, ?_⟩
    · unfold EngineOk
      simp only [hstage]
      exact hengine.engineStep hstep
    · intro _ j hj hwhole
      -- the buffer of chunk `m - 1` is not the one being filled
      have hdisjoint := hsup.kept_disjoint (show j % 2 ≠ m % 2 by omega) hwhole
      show load ddr' _ _ = _
      rw [hengine.engineStep_frame hstep hdisjoint]
      exact h.held hswap j hj hwhole
    · exact fun hpc => absurd hpc hswap

/-- In udp mode the buffer the CPU owns holds the whole chunk. -/
theorem Inv.chunk_held (hsup : Supported lw cfg) (hudp : cfg.udpMode = true) {s : Board} {m : ℕ}
    (h : Inv lw cfg stream s m) (hpos : 0 < m) (hswap : s.pc ≠ .swap) :
    load s.ddr (bufAddr cfg ((m - 1) % 2)).toNat cfg.chunkBytes.toNat =
      chunkAt cfg stream (m - 1) := by
  have hheld := h.held hswap (m - 1) (Nat.succ_pred_eq_of_pos hpos) (Or.inl (hsup.words hudp))
  rw [Holds, hsup.kept_eq hudp, hsup.consumed_eq hudp, hsup.wordBase_eq hudp] at hheld
  exact hheld

/-- The word the udp branch reads is the next word of the chunk it owns. -/
theorem Inv.word_read (hsup : Supported lw cfg) (hudp : cfg.udpMode = true) {s : Board} {m : ℕ}
    (h : Inv lw cfg stream s m) (hpos : 0 < m) (hswap : s.pc ≠ .swap) {wi : ℕ}
    (hwi : wi < numWords cfg) :
    (outWords (chunkAt cfg stream (m - 1)))[wi]? =
      some (htonl (loadWord (load s.ddr
        (ddrBufferBase.toNat + ((bufOffset cfg s.current).toNat + 4 * wi)) 4))) := by
  have hheld := h.chunk_held hsup hudp hpos hswap
  have hroom : 4 * wi + 4 ≤ cfg.chunkBytes.toNat := by
    unfold numWords at hwi
    omega
  -- buffer `current` is buffer `(m - 1) % 2`
  have haddr : ddrBufferBase.toNat + ((bufOffset cfg s.current).toNat + 4 * wi) =
      (bufAddr cfg ((m - 1) % 2)).toNat + 4 * wi := by
    rw [hsup.toNat_bufAddr, h.current_eq, Nat.add_assoc]
  have hcount : wi < (chunkAt cfg stream (m - 1)).length / 4 := by
    rw [chunkAt, length_load]
    exact hwi
  rw [outWords, List.getElem?_map, getElem?_groups hcount, Option.map_some, chunkAt,
    take_drop_load _ _ hroom, haddr]
  rw [load_part hheld hroom]

/-- One more iteration done: one more datagram sent. -/
theorem SentOk.send {s : Board} {m : ℕ} (hudp : cfg.udpMode = true) (hpos : 0 < m)
    (h : SentOk cfg stream s.sent s.seqCounter (m - 1)) (sendOk : Bool) :
    SentOk cfg stream (s.sent ++ [(chunkDatagram cfg stream (m - 1), sendOk)])
      (s.seqCounter + 1) m := by
  obtain ⟨n, rfl⟩ : ∃ n, m = n + 1 := ⟨m - 1, by omega⟩
  obtain ⟨hsent, hcounter⟩ := h
  -- the counter wraps around together with the number
  simp only [hudp, if_true, Nat.add_sub_cancel] at hsent hcounter ⊢
  refine ⟨?_, ?_⟩
  · simp only [hudp, if_true]
    rw [List.map_append, hsent, List.range_succ, List.map_append]
    rfl
  · simp only [hudp, if_true]
    rw [hcounter, BitVec.ofNat_add]
    rfl

/-- In test mode nothing is ever sent. -/
theorem SentOk.of_test {sent : List (List Byte × Bool)} {seqCounter : BitVec 64} {n m : ℕ}
    (htest : cfg.udpMode = false) (h : SentOk cfg stream sent seqCounter n) :
    SentOk cfg stream sent seqCounter m := by
  obtain ⟨hsent, hcounter⟩ := h
  simp only [htest, Bool.false_eq_true, if_false] at hsent hcounter
  refine ⟨?_, ?_⟩ <;> simp only [htest, Bool.false_eq_true, if_false]
  · exact hsent
  · exact hcounter

/-- `^= 1` turns the parity around. -/
theorem xor_one_eq (k : ℕ) : k % 2 ^^^ 1 = (k + 1) % 2 := by
  obtain ⟨hk, hk'⟩ | ⟨hk, hk'⟩ : k % 2 = 0 ∧ (k + 1) % 2 = 1 ∨ k % 2 = 1 ∧ (k + 1) % 2 = 0 := by
    omega
  · rw [hk, hk']
    rfl
  · rw [hk, hk']
    rfl

/-- A step within an iteration leaves the buffers to their owners. -/
theorem Inv.move {s t : Board} {m : ℕ} (h : Inv lw cfg stream s m) (hs : s.pc ≠ .swap)
    (ht : t.pc ≠ .swap) (hsame : t.current = s.current ∧ t.next = s.next ∧ t.ddr = s.ddr)
    (hcpu : CpuOk cfg stream t m) (hengine : EngineOk lw cfg stream t m) :
    Inv lw cfg stream t m := by
  obtain ⟨hcurrent, hnext, hddr⟩ := hsame
  refine ⟨hcurrent.trans h.current_eq, hnext.trans h.next_eq, hcpu, hengine, ?_, ?_⟩
  · intro _ j hj hwhole
    have hheld := h.held hs j hj hwhole
    unfold Holds at hheld ⊢
    rw [hddr]
    exact hheld
  · exact fun hswap => absurd hswap ht

/-- The pre-fill programs buffer `current`, the loop buffer `next`: buffer `m % 2` both times. -/
theorem Inv.programmed {s : Board} {m : ℕ} (h : Inv lw cfg stream s m) {first : Bool}
    (hfirst : first = true ↔ m = 0) : (if first then s.current else s.next) = m % 2 := by
  rw [h.current_eq, h.next_eq]
  cases first with
  | true =>
    obtain rfl := hfirst.mp rfl
    rfl
  | false =>
    have : m ≠ 0 := fun h0 => Bool.false_ne_true (hfirst.mpr h0)
    simp only [Bool.false_eq_true, if_false]
    omega

theorem later_iff {m : ℕ} : (false = true ↔ m = 0) ↔ 0 < m := by
  rw [Nat.pos_iff_ne_zero]
  simp

/-- When all words are converted, the packet is the datagram of the chunk. -/
theorem packet_of_converted (hsup : Supported lw cfg) (hudp : cfg.udpMode = true) {s : Board}
    {m : ℕ} (hsent : SentOk cfg stream s.sent s.seqCounter (m - 1)) {words : List (BitVec 32)}
    (hfull : numWords cfg ≤ words.length)
    (hwords : words = (outWords (chunkAt cfg stream (m - 1))).take words.length) :
    packet s.seqCounter cfg.chunkBytes words = some (chunkDatagram cfg stream (m - 1)) := by
  have hall : words = outWords (chunkAt cfg stream (m - 1)) := by
    rw [hwords, List.take_of_length_le]
    rw [outWords, List.length_map, length_groups, chunkAt, length_load]
    exact hfull
  have hcounter := hsent.counter_eq
  simp only [hudp, if_true] at hcounter
  rw [hall, hcounter, hsup.packet_outWords hudp]

/-- **Every CPU step keeps the invariant**, possibly for the next transfer. -/
theorem Inv.cpuStep (hsup : Supported lw cfg) {s t : Board} {m : ℕ} (h : Inv lw cfg stream s m)
    {sendOk : Bool} (hstep : CpuStepped cfg s sendOk t) : ∃ m', Inv lw cfg stream t m' := by
  have hcpu := h.cpu
  have hengine := h.engine
  cases hstep with
  | @writeAddr first hpc =>
    simp only [CpuOk, hpc] at hcpu
    simp only [EngineOk, hpc, Pc.stage] at hengine
    obtain ⟨hfirst, hsent, -, -⟩ := hcpu
    refine ⟨m, h.move (by simp [hpc]) (by simp) ⟨rfl, rfl, rfl⟩
      ⟨hfirst, hsent, fun _ => ?_, fun hc => by cases hc⟩ ?_⟩
    · show bufAddr cfg (if first then s.current else s.next) = _
      rw [h.programmed hfirst]
    · exact ⟨hengine.descs_eq, hengine.busy_eq, hengine.responses_eq, hengine.pos_eq⟩
  | @length first hpc =>
    simp only [CpuOk, hpc] at hcpu
    simp only [EngineOk, hpc, Pc.stage] at hengine
    obtain ⟨hfirst, hsent, haddr, -⟩ := hcpu
    refine ⟨m, h.move (by simp [hpc]) (by simp) ⟨rfl, rfl, rfl⟩
      ⟨hfirst, hsent, fun _ => haddr (by decide), fun _ => rfl⟩ ?_⟩
    exact ⟨hengine.descs_eq, hengine.busy_eq, hengine.responses_eq, hengine.pos_eq⟩
  | @control first hpc =>
    simp only [CpuOk, hpc] at hcpu
    simp only [EngineOk, hpc, Pc.stage] at hengine
    obtain ⟨hfirst, hsent, haddr, hlen⟩ := hcpu
    -- GO starts the transfer that the two registers describe
    have hgo : InFlight lw stream s.engine.go s.ddr s.engine.writeAddr s.engine.length
        (m * consumed lw cfg.chunkBytes) := hengine.go
    rw [haddr (by decide), hlen trivial] at hgo
    cases first with
    | true =>
      obtain rfl := hfirst.mp rfl
      exact ⟨0, h.move (by simp [hpc]) (by simp) ⟨rfl, rfl, rfl⟩ ⟨hfirst, hsent⟩ hgo⟩
    | false =>
      exact ⟨m, h.move (by simp [hpc]) (by simp) ⟨rfl, rfl, rfl⟩ ⟨later_iff.mp hfirst, hsent⟩ hgo⟩
  | @logWord wi hpc bytes =>
    simp only [CpuOk, hpc] at hcpu
    simp only [EngineOk, hpc, Pc.stage] at hengine
    exact ⟨m, h.move (by simp [hpc]) (by simp) ⟨rfl, rfl, rfl⟩ hcpu hengine⟩
  | @logged wi hpc =>
    simp only [CpuOk, hpc] at hcpu
    simp only [EngineOk, hpc, Pc.stage] at hengine
    obtain ⟨hpos, hsent⟩ := hcpu
    cases hudp : cfg.udpMode with
    | true =>
      exact ⟨m, h.move (by simp [hpc]) (by simp) ⟨rfl, rfl, rfl⟩
        ⟨hpos, hudp, hsent, Nat.zero_le _, rfl⟩ hengine⟩
    | false =>
      exact ⟨m, h.move (by simp [hpc]) (by simp) ⟨rfl, rfl, rfl⟩ ⟨hpos, hudp, hsent⟩ hengine⟩
  | @convertWord words hpc hlt =>
    simp only [CpuOk, hpc] at hcpu
    simp only [EngineOk, hpc, Pc.stage] at hengine
    obtain ⟨hpos, hudp, hsent, -, hwords⟩ := hcpu
    -- the word comes from chunk `m - 1`, which the engine does not touch
    have hswap : s.pc ≠ .swap := by simp [hpc]
    have hword := h.word_read hsup hudp hpos hswap hlt
    refine ⟨m, h.move hswap (by simp) ⟨rfl, rfl, rfl⟩ ⟨hpos, hudp, hsent, ?_, ?_⟩ hengine⟩
    · rw [List.length_append]
      exact hlt
    · rw [List.length_append, List.length_singleton, List.take_add_one, ← hwords, hword]
      rfl
  | @send words pkt hpc hfull hpkt =>
    simp only [CpuOk, hpc] at hcpu
    simp only [EngineOk, hpc, Pc.stage] at hengine
    obtain ⟨hpos, hudp, hsent, hle, hwords⟩ := hcpu
    rw [packet_of_converted hsup hudp hsent hfull hwords] at hpkt
    obtain rfl := Option.some.inj hpkt
    exact ⟨m, h.move (by simp [hpc]) (by simp) ⟨rfl, rfl, rfl⟩
      ⟨later_iff.mpr hpos, hsent.send hudp hpos sendOk⟩ hengine⟩
  | @printWord i hpc bytes =>
    simp only [CpuOk, hpc] at hcpu
    simp only [EngineOk, hpc, Pc.stage] at hengine
    obtain ⟨hpos, htest, hsent⟩ := hcpu
    by_cases hmore : i + 1 < 16
    · simp only [hmore, if_true]
      exact ⟨m, h.move (by simp [hpc]) (by simp) ⟨rfl, rfl, rfl⟩ ⟨hpos, htest, hsent⟩ hengine⟩
    · simp only [hmore, if_false]
      exact ⟨m, h.move (by simp [hpc]) (by simp) ⟨rfl, rfl, rfl⟩
        ⟨later_iff.mpr hpos, hsent.of_test htest⟩ hengine⟩
  | busy => exact ⟨m, h⟩
  | @ready first hpc =>
    simp only [CpuOk, hpc] at hcpu
    simp only [EngineOk, hpc, Pc.stage] at hengine
    exact ⟨m, h.move (by simp [hpc]) (by simp) ⟨rfl, rfl, rfl⟩ hcpu hengine⟩
  | @response first hpc hresp =>
    simp only [CpuOk, hpc] at hcpu
    simp only [EngineOk, hpc, Pc.stage] at hengine
    -- the read returned, so the transfer is finished even if `busy` was sampled too early
    exact ⟨m, h.move (by simp [hpc]) (by simp) ⟨rfl, rfl, rfl⟩ hcpu
      (hengine.finished_of_response hresp)⟩
  | @pop first hpc hresp =>
    simp only [CpuOk, hpc] at hcpu
    simp only [EngineOk, hpc, Pc.stage] at hengine
    obtain ⟨hfirst, hsent⟩ := hcpu
    -- the response is taken, buffer `m % 2` holds chunk `m`
    have hholds : Holds lw cfg stream s m :=
      load_part hengine.copied (j := 0) ((Nat.zero_add _).trans_le (Nat.min_le_left _ _))
    have hquiet := hengine.pop
    rw [← Nat.succ_mul] at hquiet
    cases first with
    | true =>
      obtain rfl := hfirst.mp rfl
      refine ⟨1, h.current_eq, h.next_eq, ⟨by decide, hsent, fun hc => absurd rfl hc,
        fun hc => by cases hc⟩, hquiet, fun _ j hj _ => ?_, fun hc => by cases hc⟩
      obtain rfl : j = 0 := by omega
      exact hholds
    | false =>
      exact ⟨m, h.current_eq, h.next_eq, ⟨later_iff.mp hfirst, hsent⟩, hquiet,
        fun hc => absurd rfl hc, fun _ => hholds⟩
  | swap hpc =>
    simp only [CpuOk, hpc] at hcpu
    simp only [EngineOk, hpc, Pc.stage] at hengine
    obtain ⟨hpos, hsent⟩ := hcpu
    -- from here on `m + 1` counts: the buffers have changed their roles
    refine ⟨m + 1, ?_, ?_, ⟨later_iff.mpr (Nat.succ_pos m), hsent, fun hc => absurd rfl hc,
      fun hc => by cases hc⟩, hengine, fun _ j hj _ => ?_, fun hc => by cases hc⟩
    · show s.current ^^^ 1 = (m + 1 - 1) % 2
      rw [h.current_eq, xor_one_eq, Nat.add_sub_cancel, Nat.sub_add_cancel hpos]
    · show s.next ^^^ 1 = 1 - (m + 1 - 1) % 2
      have hnext : s.next = m % 2 := by
        rw [h.next_eq]
        omega
      rw [hnext, xor_one_eq]
      omega
    · obtain rfl : j = m := by omega
      exact h.filled hpc

/-- **The invariant holds in every interleaving.** -/
theorem inv_of_reachable (hsup : Supported lw cfg) {s : Board}
    (h : (dmaLoop lw cfg stream ddr).Reachable s) : ∃ m, Inv lw cfg stream s m := by
  apply h.invariant (P := fun s => ∃ m, Inv lw cfg stream s m)
  · exact ⟨0, inv_init⟩
  · rintro s a t hstep ⟨m, hs⟩
    cases a with
    | cpu sendOk => exact hs.cpuStep hsup (stepped_of_cpuStep hstep)
    | engine act =>
      obtain ⟨⟨e, ddr'⟩, hact, rfl⟩ := Option.map_eq_some_iff.mp hstep
      exact ⟨m, hs.engineStep hsup hact⟩

/-! ## Safety and continuity -/

/-- The `n`-th datagram carries the number `number n` and chunk `n` of the stream, its words in
network order. -/
def Continuous (number : ℕ → ℕ) (cfg : DmaConfig) (stream : ℕ → Byte) (s : Board) : Prop :=
  ∀ n d, s.sent[n]? = some d →
    ofBeBytes (d.1.take 8) = number n ∧ d.1.drop 8 = networkOrder (chunkAt cfg stream n)

/-- No byte the CPU reads next belongs to the buffer of an outstanding descriptor. -/
def ReadsSafe (cfg : DmaConfig) (s : Board) : Prop :=
  ∀ r, cpuReads cfg s = some r → ∀ d ∈ s.engine.descs, ∀ x, r.offset ≤ x →
    x < r.offset + r.size →
      ¬ (d.addr.toNat ≤ ddrBufferBase.toNat + x ∧
        ddrBufferBase.toNat + x < d.addr.toNat + d.length.toNat)

/-- At most one descriptor and one response, and a descriptor is that of buffer `m % 2`. -/
theorem Inv.descs {s : Board} {m : ℕ} (h : Inv lw cfg stream s m) :
    s.engine.descs.length ≤ 1 ∧ s.engine.responses ≤ 1 ∧
      ∀ d ∈ s.engine.descs, d.addr = bufAddr cfg (m % 2) ∧ d.length = cfg.chunkBytes := by
  have hengine := h.engine
  unfold EngineOk at hengine
  cases hstage : s.pc.stage <;> simp only [hstage] at hengine
  case inFlight => exact hengine.descs
  all_goals
    rw [hengine.descs_eq, hengine.responses_eq]
    exact ⟨Nat.zero_le _, by decide, fun d hd => absurd hd List.not_mem_nil⟩

/-- A word of buffer `current` is outside the buffer being filled. -/
theorem Inv.word_safe (hsup : Supported lw cfg) (hudp : cfg.udpMode = true) {s : Board} {m : ℕ}
    (h : Inv lw cfg stream s m) (hpos : 0 < m) {wi : ℕ} (hwi : wi < numWords cfg) {x : ℕ}
    (hle : (bufOffset cfg s.current).toNat + 4 * wi ≤ x)
    (hlt : x < (bufOffset cfg s.current).toNat + 4 * wi + 4) :
    ¬ ((bufAddr cfg (m % 2)).toNat ≤ ddrBufferBase.toNat + x ∧
      ddrBufferBase.toNat + x < (bufAddr cfg (m % 2)).toNat + cfg.chunkBytes.toNat) := by
  have hroom : 4 * wi + 4 ≤ cfg.chunkBytes.toNat := by
    unfold numWords at hwi
    omega
  have haddr := hsup.toNat_bufAddr ((m - 1) % 2)
  rw [← h.current_eq] at haddr
  have hdisjoint := hsup.kept_disjoint (show (m - 1) % 2 ≠ m % 2 by omega)
    (Or.inl (hsup.words hudp))
  rw [hsup.kept_eq hudp, hsup.counted_eq hudp, hsup.wordBase_eq hudp, hsup.wordBase_eq hudp,
    ← h.current_eq] at hdisjoint
  omega

/-- In udp mode the CPU reads no buffer that is being filled. -/
theorem Inv.readsSafe (hsup : Supported lw cfg) (hudp : cfg.udpMode = true) {s : Board} {m : ℕ}
    (h : Inv lw cfg stream s m) : ReadsSafe cfg s := by
  intro r hr d hd x hle hlt
  obtain ⟨haddr, hlen⟩ := h.descs.2.2 d hd
  have hcpu := h.cpu
  unfold cpuReads at hr
  cases hpc : s.pc with
  | log wi =>
    simp only [CpuOk, hpc] at hcpu
    simp only [hpc] at hr
    split_ifs at hr with hread
    obtain rfl := Option.some.inj hr
    have hwi : wi < numWords cfg := of_decide_eq_true (Bool.and_eq_true_iff.mp hread).2
    rw [haddr, hlen]
    exact h.word_safe hsup hudp hcpu.1 hwi hle hlt
  | convert words =>
    simp only [CpuOk, hpc] at hcpu
    simp only [hpc] at hr
    split_ifs at hr with hread
    obtain rfl := Option.some.inj hr
    rw [haddr, hlen]
    exact h.word_safe hsup hudp hcpu.1 hread hle hlt
  | print i =>
    simp only [CpuOk, hpc] at hcpu
    exact absurd (hudp.symm.trans hcpu.2.1) (by decide)
  | _ => simp [hpc] at hr

/-- The datagrams sent so far, whatever `sendto` reported. -/
theorem Inv.sent_eq (hudp : cfg.udpMode = true) {s : Board} {m : ℕ} (h : Inv lw cfg stream s m) :
    ∃ n, s.sent.map Prod.fst = (List.range n).map (chunkDatagram cfg stream) := by
  have hcpu := h.cpu
  unfold CpuOk at hcpu
  -- every place of the code has its count of datagrams
  have hsent : ∀ {k : ℕ}, SentOk cfg stream s.sent s.seqCounter k →
      ∃ n, s.sent.map Prod.fst = (List.range n).map (chunkDatagram cfg stream) := by
    intro k hk
    have := hk.sent_eq
    rw [hudp, if_pos rfl] at this
    exact ⟨k, this⟩
  cases hpc : s.pc <;> simp only [hpc] at hcpu
  case program => exact hsent hcpu.2.1
  case log => exact hsent hcpu.2
  case convert => exact hsent hcpu.2.2.1
  case print => exact hsent hcpu.2.2
  case poll => exact hsent hcpu.2
  case response => exact hsent hcpu.2
  case pop => exact hsent hcpu.2
  case swap => exact hsent hcpu.2

theorem Inv.continuous (hudp : cfg.udpMode = true) {s : Board} {m : ℕ}
    (h : Inv lw cfg stream s m) : Continuous (· % 2 ^ 64) cfg stream s := by
  intro n d hd
  obtain ⟨k, hsent⟩ := h.sent_eq hudp
  have hget := congrArg (fun l => l[n]?) hsent
  simp only [List.getElem?_map, hd, Option.map_some] at hget
  -- a number that was sent is below the count
  have hn : n < k := by
    by_contra hge
    rw [List.getElem?_eq_none (by simpa using hge)] at hget
    cases hget
  rw [List.getElem?_range hn, Option.map_some] at hget
  rw [Option.some.inj hget, chunkDatagram, List.take_left' (length_beBytes 8 _),
    List.drop_left' (length_beBytes 8 _)]
  refine ⟨?_, rfl⟩
  rw [ofBeBytes_beBytes (n := 8), BitVec.toNat_ofNat]

/-- Ping-pong safety and continuity with an engine that counts the whole length. -/
theorem pingPong_of_counts (hsup : Supported lw cfg) (hudp : cfg.udpMode = true) {s : Board}
    (h : (dmaLoop lw cfg stream ddr).Reachable s) :
    ReadsSafe cfg s ∧ s.engine.descs.length ≤ 1 ∧ s.engine.responses ≤ 1 ∧
      Continuous (· % 2 ^ 64) cfg stream s := by
  obtain ⟨m, hinv⟩ := inv_of_reachable hsup h
  exact ⟨hinv.readsSafe hsup hudp, hinv.descs.1, hinv.descs.2.1, hinv.continuous hudp⟩

/-- **Ping-pong safety and continuity**: in udp mode, in every interleaving with an engine that
transfers as many bytes as it was asked for, the CPU never reads a buffer that is being filled,
at most one descriptor is outstanding and at most one response queued, and the `n`-th datagram
carries the number `n`, modulo 2^64, and chunk `n` of the stream, whether or not `sendto`
succeeds. -/
theorem pingPong_safe (cfg : DmaConfig) (hudp : cfg.udpMode = true)
    (h8 : 8 ∣ cfg.chunkBytes.toNat)
    (hmap : 2 * cfg.chunkBytes.toNat ≤ ddrMapSize) (stream ddr : ℕ → Byte) (s : Board)
    (h : (dmaLoop registerWidth cfg stream ddr).Reachable s) :
    ReadsSafe cfg s ∧ s.engine.descs.length ≤ 1 ∧ s.engine.responses ≤ 1 ∧
      Continuous (· % 2 ^ 64) cfg stream s :=
  pingPong_of_counts ⟨hmap, fun _ => h8, fun _ => cfg.chunkBytes.isLt⟩ hudp h

/-- The generated controller counts 18 bits, which is enough for chunks below 2^18 bytes. -/
theorem pingPong_safe_generated (hudp : cfg.udpMode = true) (h8 : 8 ∣ cfg.chunkBytes.toNat)
    (hlt : cfg.chunkBytes.toNat < 2 ^ lengthWidth) {s : Board}
    (h : (dmaLoop lengthWidth cfg stream ddr).Reachable s) :
    ReadsSafe cfg s ∧ s.engine.descs.length ≤ 1 ∧ s.engine.responses ≤ 1 ∧
      Continuous (· % 2 ^ 64) cfg stream s := by
  have hmap : 2 * cfg.chunkBytes.toNat ≤ ddrMapSize := by
    unfold lengthWidth at hlt
    unfold ddrMapSize
    omega
  exact pingPong_of_counts ⟨hmap, fun _ => h8, fun _ => hlt⟩ hudp h

/-- Chunks of two words, in udp mode. -/
def twoWords : DmaConfig :=
  ⟨8, true, false⟩

theorem twoWords_supported : Supported registerWidth twoWords :=
  ⟨by decide, fun _ => by decide, fun _ => by decide⟩

/-- One iteration in which the engine raises its busy bit only after the CPU has sampled it, and
`sendto` fails. -/
def lateIteration : List DmaAct :=
  [.cpu false, .cpu false, .cpu false, .cpu false, .engine .raiseBusy, .engine (.write 3),
    .engine (.write 5), .engine .done, .cpu false, .cpu false, .cpu false, .cpu false, .cpu false,
    .cpu false, .cpu false, .cpu false, .cpu false, .engine .raiseBusy]

theorem pingPong_safe_late :
    ∃ s, (dmaLoop registerWidth twoWords (BitVec.ofNat 8) (BitVec.ofNat 8)).run
        (Board.init (BitVec.ofNat 8)) lateIteration = some s ∧
      s.sent.map Prod.snd = [false] ∧ ReadsSafe twoWords s ∧ s.engine.descs.length ≤ 1 ∧
        s.engine.responses ≤ 1 ∧ Continuous (· % 2 ^ 64) twoWords (BitVec.ofNat 8) s := by
  refine ⟨_, rfl, rfl, ?_⟩
  exact pingPong_safe twoWords rfl (by decide) (by decide) _ _ _ ⟨lateIteration, rfl⟩

/-! ## Byte order and the width of the counter -/

/-- The `n`-th datagram carries the number `n` and the bytes of chunk `n` as they are. -/
def Verbatim (cfg : DmaConfig) (stream : ℕ → Byte) (s : Board) : Prop :=
  ∀ n d, s.sent[n]? = some d →
    ofBeBytes (d.1.take 8) = n ∧ d.1.drop 8 = chunkAt cfg stream n

/-- Ping-pong safety, with `P` for what the datagrams carry. -/
def PingPongWith (P : DmaConfig → (ℕ → Byte) → Board → Prop) : Prop :=
  ∀ cfg : DmaConfig, cfg.udpMode = true → 0 < cfg.chunkBytes.toNat → 8 ∣ cfg.chunkBytes.toNat →
    2 * cfg.chunkBytes.toNat ≤ ddrMapSize →
      ∀ (stream ddr : ℕ → Byte) (s : Board), (dmaLoop registerWidth cfg stream ddr).Reachable s →
        ReadsSafe cfg s ∧ s.engine.descs.length ≤ 1 ∧ s.engine.responses ≤ 1 ∧ P cfg stream s

/-- `htonl` turns the bytes of every word around. -/
theorem lateIteration_swapped :
    ∃ s d, (dmaLoop registerWidth twoWords (BitVec.ofNat 8) (BitVec.ofNat 8)).run
        (Board.init (BitVec.ofNat 8)) lateIteration = some s ∧ s.sent[0]? = some (d, false) ∧
      d.drop 8 = [3, 2, 1, 0, 7, 6, 5, 4] ∧
      chunkAt twoWords (BitVec.ofNat 8) 0 = [0, 1, 2, 3, 4, 5, 6, 7] :=
  ⟨_, _, rfl, rfl, rfl, rfl⟩

/-- So the very first datagram does not carry the bytes of the stream as they are. -/
theorem not_pingPongWith_verbatim : ¬ PingPongWith Verbatim := by
  intro hclaim
  obtain ⟨s, d, hrun, hget, hswapped, hchunk⟩ := lateIteration_swapped
  obtain ⟨-, -, -, hverbatim⟩ := hclaim twoWords rfl (by decide) (by decide) (by decide) _ _ s
    ⟨lateIteration, hrun⟩
  have hbytes := (hverbatim 0 _ hget).2
  rw [hswapped, hchunk] at hbytes
  exact absurd hbytes (by decide)

/-- A loop iteration in which the engine finishes before the CPU looks. -/
def oneIteration : List DmaAct :=
  [.cpu true, .cpu true, .cpu true, .engine (.write 8), .engine .done, .cpu true, .cpu true,
    .cpu true, .cpu true, .cpu true, .cpu true, .cpu true, .cpu true]

theorem oneIteration_sends (stream ddr : ℕ → Byte) {s : Board}
    (hpc : s.pc = .program false .writeAddr) (hcur : s.current = 0 ∨ s.current = 1) {p : ℕ}
    (hquiet : Quiet s.engine p) :
    ∃ t, (dmaLoop registerWidth twoWords stream ddr).run s oneIteration = some t ∧
      t.pc = .program false .writeAddr ∧ t.sent.length = s.sent.length + 1 := by
  obtain ⟨pc, current, next, seqCounter, sent, logged, shown, ⟨wa, len, descs, busy, resp, pos⟩,
    mem⟩ := s
  obtain ⟨rfl, rfl, rfl, -⟩ := hquiet
  obtain rfl := hpc
  -- the run is the same whichever buffer is current
  rcases hcur with rfl | rfl
  · refine ⟨_, rfl, rfl, ?_⟩
    show (sent ++ [_]).length = sent.length + 1
    exact List.length_append
  · refine ⟨_, rfl, rfl, ?_⟩
    show (sent ++ [_]).length = sent.length + 1
    exact List.length_append

/-- Any number of datagrams can be sent. -/
theorem exists_reachable_sent (stream ddr : ℕ → Byte) (n : ℕ) :
    ∃ s, (dmaLoop registerWidth twoWords stream ddr).Reachable s ∧ s.pc = .program false .writeAddr ∧
      s.sent.length = n := by
  induction n with
  | zero =>
    refine ⟨_, ⟨[.cpu true, .cpu true, .cpu true, .engine (.write 8), .engine .done, .cpu true,
      .cpu true, .cpu true], rfl⟩, rfl, rfl⟩
  | succ n ih =>
    obtain ⟨s, hs, hpc, hlen⟩ := ih
    obtain ⟨m, hinv⟩ := inv_of_reachable twoWords_supported hs
    have hquiet := hinv.engine
    simp only [EngineOk, hpc, Pc.stage] at hquiet
    have hcur : s.current = 0 ∨ s.current = 1 := by
      rw [hinv.current_eq]
      omega
    obtain ⟨t, hrun, hpct, hsent⟩ := oneIteration_sends stream ddr hpc hcur hquiet
    exact ⟨t, hs.run hrun, hpct, by rw [hsent, hlen]⟩

/-- The counter is 64 bits wide: datagram 2^64 carries the number 0. -/
theorem not_pingPongWith_unbounded : ¬ PingPongWith (Continuous id) := by
  intro hclaim
  obtain ⟨s, hs, -, hlen⟩ := exists_reachable_sent (fun _ => 0) (fun _ => 0) (2 ^ 64 + 1)
  -- number 2 ^ 64 has been sent, and the header says 0
  obtain ⟨-, -, -, hid⟩ := hclaim twoWords rfl (by decide) (by decide) (by decide) _ _ s hs
  obtain ⟨m, hinv⟩ := inv_of_reachable twoWords_supported hs
  have hlt : 2 ^ 64 < s.sent.length := by
    rw [hlen]
    exact Nat.lt_succ_self _
  have hget := List.getElem?_eq_getElem hlt
  have hwrap := (hinv.continuous rfl _ _ hget).1
  have hnumber := (hid _ _ hget).1
  rw [hwrap] at hnumber
  exact absurd hnumber (by decide)

/-- **Neither bytes as they are nor numbers without bound**: the first datagram carries its words
turned around, and datagram 2^64 the number 0. -/
theorem not_pingPong_verbatim :
    ¬ PingPongWith Verbatim ∧
      (∃ s d, (dmaLoop registerWidth twoWords (BitVec.ofNat 8) (BitVec.ofNat 8)).run
          (Board.init (BitVec.ofNat 8)) lateIteration = some s ∧ s.sent[0]? = some (d, false) ∧
        d.drop 8 = [3, 2, 1, 0, 7, 6, 5, 4] ∧
        chunkAt twoWords (BitVec.ofNat 8) 0 = [0, 1, 2, 3, 4, 5, 6, 7]) ∧
      ¬ PingPongWith (Continuous id) :=
  ⟨not_pingPongWith_verbatim, lateIteration_swapped, not_pingPongWith_unbounded⟩

end Rf215Sdr.Hps
