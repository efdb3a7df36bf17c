import Rf215Sdr.Hps.Datagram
import Rf215Sdr.Hps.DmaEngine
import Rf215Sdr.Lib.Interleaving

/-!
# The Streaming Loop `dma_loop`

`dma_loop` of `dma.c`, interleaved with the DMA engine: two buffers take turns, one being
read by the CPU while the engine fills the other. Every access of the CPU to a register or to
a word of a buffer is a step of its own. The pre-fill in front of the loop programs buffer
`current`, the loop programs buffer `next`; both wait for the engine in the same way.

## Main results

- `stepped_of_cpuStep`: everything the CPU can do, one case for each place in the code.
- `length_of_sent`: every datagram has eight bytes more than `config_chunk_bytes`.
-/

namespace Rf215Sdr.Hps

open Rf215Sdr.Lib

/-! ## Program and state -/

/-- `DDR_BUFFER_BASE`. -/
def ddrBufferBase : BitVec 32 := 0x01000000

/-- `DDR_MAP_SIZE`. -/
def ddrMapSize : ℕ := 0x01000000

/-- What `dma_loop` is started with. -/
structure DmaConfig where
  /-- `config_chunk_bytes`. -/
  chunkBytes : BitVec 32
  /-- `udp_mode_global`. -/
  udpMode : Bool
  /-- `DEBUG_TXT` is set and the debug file is open. -/
  debugTxt : Bool

/-- The three registers of a descriptor, in the order in which they are written. -/
inductive DescReg where
  | writeAddr
  | length
  | control
  deriving DecidableEq, Repr

/-- The next access of the CPU. `first` marks the pre-fill. -/
inductive Pc where
  | program (first : Bool) (reg : DescReg)
  /-- `debug_txt_log_iq_data`, at word `wi`. -/
  | log (wi : ℕ)
  /-- The udp branch with `out_words` filled so far; `sendto` when it is full. -/
  | convert (outWords : List (BitVec 32))
  /-- `print_data`, at `data[i]`. -/
  | print (i : ℕ)
  /-- The status register is read. -/
  | poll (first : Bool)
  /-- The response register is read. -/
  | response (first : Bool)
  /-- The response register is read at offset 4. -/
  | pop (first : Bool)
  | swap
  deriving DecidableEq, Repr

/-- CPU, engine and memory. -/
structure Board where
  pc : Pc
  current : ℕ
  next : ℕ
  seqCounter : BitVec 64
  /-- The datagrams built so far, each with whether `sendto` succeeded. -/
  sent : List (List Byte × Bool)
  /-- The words read for the debug log. -/
  logged : List (BitVec 32)
  /-- The elements of `data` printed in test mode. -/
  shown : List (List Byte)
  engine : Engine
  ddr : ℕ → Byte

/-- At the start of `dma_loop`. -/
def Board.init (ddr : ℕ → Byte) : Board where
  pc := .program true .writeAddr
  current := 0
  next := 1
  seqCounter := 0
  sent := []
  logged := []
  shown := []
  engine := Engine.init
  ddr := ddr

/-- The offset of a buffer in the mapped memory: `buf_ptr[b] - ddr_buf`. -/
def bufOffset (cfg : DmaConfig) (b : ℕ) : BitVec 32 :=
  if b = 0 then 0 else cfg.chunkBytes

/-- `buf_addr[b]`. -/
def bufAddr (cfg : DmaConfig) (b : ℕ) : BitVec 32 :=
  ddrBufferBase + bufOffset cfg b

/-- `num_words = buf_size / sizeof(uint32_t)`. -/
def numWords (cfg : DmaConfig) : ℕ :=
  cfg.chunkBytes.toNat / 4

/-- A run of bytes of the mapped memory, counted from `ddr_buf`. -/
structure Region where
  offset : ℕ
  size : ℕ
  deriving DecidableEq, Repr

/-- The bytes of the mapped memory the CPU reads next. -/
def cpuReads (cfg : DmaConfig) (s : Board) : Option Region :=
  match s.pc with
  | .log wi =>
    if cfg.debugTxt && wi < numWords cfg then
      some ⟨(bufOffset cfg s.current).toNat + 4 * wi, 4⟩
    else none
  -- `in_words[wi]` of buffer `current`
  | .convert outWords =>
    if outWords.length < numWords cfg then
      some ⟨(bufOffset cfg s.current).toNat + 4 * outWords.length, 4⟩
    else none
  -- `data` is `ddr_buf`, whichever buffer is current
  | .print i => some ⟨8 * i, 8⟩
  | _ => none

/-! ## Steps -/

/-- What the CPU does with the bytes it has read. -/
def consume (s : Board) (bytes : List Byte) : Board :=
  match s.pc with
  | .log wi => { s with pc := .log (wi + 1), logged := s.logged ++ [loadWord bytes] }
  | .convert outWords => { s with pc := .convert (outWords ++ [htonl (loadWord bytes)]) }
  | .print i =>
    { s with pc := if i + 1 < 16 then .print (i + 1) else .poll false, shown := s.shown ++ [bytes] }
  | _ => s

/-- A step of the CPU that reads no mapped memory; `sendOk` is what `sendto` reports. -/
def control (cfg : DmaConfig) (s : Board) (sendOk : Bool) : Option Board :=
  match s.pc with
  | .program first .writeAddr =>
    some { s with
      pc := .program first .length
      engine := { s.engine with writeAddr := bufAddr cfg (if first then s.current else s.next) } }
  | .program first .length =>
    some { s with
      pc := .program first .control
      engine := { s.engine with length := cfg.chunkBytes } }
  | .program first .control =>
    some { s with pc := if first then .poll true else .log 0, engine := s.engine.go }
  | .log _ => some { s with pc := if cfg.udpMode then .convert [] else .print 0 }
  | .convert outWords => do
    let pkt ← packet s.seqCounter cfg.chunkBytes outWords
    return { s with
      pc := .poll false
      seqCounter := s.seqCounter + 1
      sent := s.sent ++ [(pkt, sendOk)] }
  | .print _ => none
  -- the loop around the status register
  | .poll first => if s.engine.busy then some s else some { s with pc := .response first }
  -- reading an empty response FIFO blocks
  | .response first => if s.engine.responses = 0 then none else some { s with pc := .pop first }
  | .pop first =>
    if s.engine.responses = 0 then none
    else some { s with
      pc := if first then .program false .writeAddr else .swap
      engine := { s.engine with responses := s.engine.responses - 1 } }
  | .swap =>
    some { s with
      pc := .program false .writeAddr
      current := s.current ^^^ 1
      next := s.next ^^^ 1 }

/-- One step of the CPU. Reading past the mapping is a fault. -/
def cpuStep (cfg : DmaConfig) (s : Board) (sendOk : Bool) : Option Board :=
  match cpuReads cfg s with
  | some r =>
    -- the mapping ends at `DDR_MAP_SIZE`
    if r.offset + r.size ≤ ddrMapSize then
      some (consume s (load s.ddr (ddrBufferBase.toNat + r.offset) r.size))
    else none
  | none => control cfg s sendOk

/-- One step of either party. -/
inductive DmaAct where
  | cpu (sendOk : Bool)
  | engine (act : EngineAct)
  deriving DecidableEq, Repr

/-- The state after a step. -/
def Board.step (lw : ℕ) (cfg : DmaConfig) (stream : ℕ → Byte) (s : Board) :
    DmaAct → Option Board
  | .cpu sendOk => cpuStep cfg s sendOk
  | .engine act =>
    (engineStep lw stream s.engine s.ddr act).map fun p => { s with engine := p.1, ddr := p.2 }

/-- `dma_loop` and an engine that counts `lw` bits of a length and is fed with `stream`,
interleaved, from memory contents `ddr`. -/
def dmaLoop (lw : ℕ) (cfg : DmaConfig) (stream ddr : ℕ → Byte) : System Board DmaAct where
  init := Board.init ddr
  step := Board.step lw cfg stream

/-! ## What a CPU step can do -/

/-- The effect of a CPU step, one case for each place in the code. -/
inductive CpuStepped (cfg : DmaConfig) (s : Board) (sendOk : Bool) : Board → Prop
  | writeAddr {first} (hpc : s.pc = .program first .writeAddr) :
    CpuStepped cfg s sendOk { s with
      pc := .program first .length
      engine := { s.engine with writeAddr := bufAddr cfg (if first then s.current else s.next) } }
  | length {first} (hpc : s.pc = .program first .length) :
    CpuStepped cfg s sendOk { s with
      pc := .program first .control
      engine := { s.engine with length := cfg.chunkBytes } }
  | control {first} (hpc : s.pc = .program first .control) :
    CpuStepped cfg s sendOk
      { s with pc := if first then .poll true else .log 0, engine := s.engine.go }
  | logWord {wi} (hpc : s.pc = .log wi) (bytes : List Byte) :
    CpuStepped cfg s sendOk
      { s with pc := .log (wi + 1), logged := s.logged ++ [loadWord bytes] }
  | logged {wi} (hpc : s.pc = .log wi) :
    CpuStepped cfg s sendOk { s with pc := if cfg.udpMode then .convert [] else .print 0 }
  | convertWord {outWords} (hpc : s.pc = .convert outWords) (hlt : outWords.length < numWords cfg) :
    CpuStepped cfg s sendOk { s with
      pc := .convert (outWords ++ [htonl (loadWord (load s.ddr
        (ddrBufferBase.toNat + ((bufOffset cfg s.current).toNat + 4 * outWords.length)) 4))]) }
  | send {outWords pkt} (hpc : s.pc = .convert outWords) (hfull : numWords cfg ≤ outWords.length)
      (hpkt : packet s.seqCounter cfg.chunkBytes outWords = some pkt) :
    CpuStepped cfg s sendOk { s with
      pc := .poll false
      seqCounter := s.seqCounter + 1
      sent := s.sent ++ [(pkt, sendOk)] }
  | printWord {i} (hpc : s.pc = .print i) (bytes : List Byte) :
    CpuStepped cfg s sendOk { s with
      pc := if i + 1 < 16 then .print (i + 1) else .poll false
      shown := s.shown ++ [bytes] }
  | busy {first} (hpc : s.pc = .poll first) : CpuStepped cfg s sendOk s
  | ready {first} (hpc : s.pc = .poll first) :
    CpuStepped cfg s sendOk { s with pc := .response first }
  | response {first} (hpc : s.pc = .response first) (hresp : s.engine.responses ≠ 0) :
    CpuStepped cfg s sendOk { s with pc := .pop first }
  | pop {first} (hpc : s.pc = .pop first) (hresp : s.engine.responses ≠ 0) :
    CpuStepped cfg s sendOk { s with
      pc := if first then .program false .writeAddr else .swap
      engine := { s.engine with responses := s.engine.responses - 1 } }
  | swap (hpc : s.pc = .swap) :
    CpuStepped cfg s sendOk { s with
      pc := .program false .writeAddr
      current := s.current ^^^ 1
      next := s.next ^^^ 1 }

theorem stepped_of_cpuStep {cfg : DmaConfig} {s t : Board} {sendOk : Bool}
    (h : cpuStep cfg s sendOk = some t) : CpuStepped cfg s sendOk t := by
  unfold cpuStep at h
  cases hpc : s.pc with
  -- the registers of the engine are no mapped memory
  | program first reg =>
    have hreads : cpuReads cfg s = none := by simp [cpuReads, hpc]
    simp only [hreads] at h
    cases reg with
    | writeAddr =>
      simp only [control, hpc, Option.some.injEq] at h
      subst h
      exact .writeAddr hpc
    | length =>
      simp only [control, hpc, Option.some.injEq] at h
      subst h
      exact .length hpc
    | control =>
      simp only [control, hpc, Option.some.injEq] at h
      subst h
      exact .control hpc
  | log wi =>
    -- one word more for the log, or the end of logging
    by_cases hread : (cfg.debugTxt && wi < numWords cfg) = true
    · simp only [cpuReads, hpc, hread, if_true] at h
      split_ifs at h
      simp only [consume, hpc, Option.some.injEq] at h
      subst h
      exact .logWord hpc _
    · simp only [cpuReads, hpc, hread, Bool.false_eq_true, if_false] at h
      simp only [control, hpc, Option.some.injEq] at h
      subst h
      exact .logged hpc
  | convert outWords =>
    -- one word more for the packet, or `sendto`
    by_cases hlt : outWords.length < numWords cfg
    · simp only [cpuReads, hpc, hlt, if_true] at h
      split_ifs at h
      simp only [consume, hpc, Option.some.injEq] at h
      subst h
      exact .convertWord hpc hlt
    · simp only [cpuReads, hpc, hlt, if_false] at h
      simp only [control, hpc] at h
      obtain ⟨pkt, hpkt, hdone⟩ := Option.bind_eq_some_iff.mp h
      obtain rfl := Option.some.inj hdone
      exact .send hpc (Nat.le_of_not_lt hlt) hpkt
  | print i =>
    simp only [cpuReads, hpc] at h
    split_ifs at h
    simp only [consume, hpc, Option.some.injEq] at h
    subst h
    exact .printWord hpc _
  | poll first =>
    have hreads : cpuReads cfg s = none := by simp [cpuReads, hpc]
    simp only [hreads, control, hpc] at h
    split_ifs at h
    · obtain rfl := Option.some.inj h
      exact .busy hpc
    · obtain rfl := Option.some.inj h
      exact .ready hpc
  | response first =>
    have hreads : cpuReads cfg s = none := by simp [cpuReads, hpc]
    simp only [hreads, control, hpc] at h
    split_ifs at h with hresp
    obtain rfl := Option.some.inj h
    exact .response hpc hresp
  | pop first =>
    have hreads : cpuReads cfg s = none := by simp [cpuReads, hpc]
    simp only [hreads, control, hpc] at h
    by_cases hresp : s.engine.responses = 0
    · rw [if_pos hresp] at h
      cases h
    · rw [if_neg hresp] at h
      obtain rfl := Option.some.inj h
      exact .pop hpc hresp
  | swap =>
    have hreads : cpuReads cfg s = none := by simp [cpuReads, hpc]
    simp only [hreads, control, hpc, Option.some.injEq] at h
    subst h
    exact .swap hpc

/-! ## The size of a datagram -/

/-- Every datagram `dma_loop` builds has eight bytes more than `config_chunk_bytes`, in every
interleaving and whatever the engine does. -/
theorem length_of_sent {lw : ℕ} {cfg : DmaConfig} {stream ddr : ℕ → Byte} {s : Board}
    (h : (dmaLoop lw cfg stream ddr).Reachable s) :
    ∀ d ∈ s.sent, d.1.length = 8 + cfg.chunkBytes.toNat := by
  -- only one place of the code builds a datagram
  apply h.invariant (P := fun s => ∀ d ∈ s.sent, d.1.length = 8 + cfg.chunkBytes.toNat)
  · exact fun d hd => absurd hd List.not_mem_nil
  · intro s a t hstep hs
    cases a with
    | engine act =>
      obtain ⟨p, -, rfl⟩ := Option.map_eq_some_iff.mp hstep
      exact hs
    | cpu sendOk =>
      cases stepped_of_cpuStep hstep with
      | send hpc hfull hpkt =>
        intro d hd
        rcases List.mem_append.mp hd with hold | hnew
        · exact hs d hold
        · obtain rfl := List.mem_singleton.mp hnew
          exact length_of_packet hpkt
      | _ => exact hs

end Rf215Sdr.Hps
