import Rf215Sdr.Hps.Config
import Rf215Sdr.Hps.DmaLoop

/-!
# From the Command Line to the Buffers

`main` and `dma_init`: the mode and the address taken from the command line, and what the
unchecked value of `config_chunk_bytes` means for the buffers of `dma_loop`.

## Main results

- `descOk_of_reachable`: the descriptors `dma_loop` programs are those of its two buffers.
- `inBounds_iff`: no buffer is overrun exactly for whole 64-bit words, two chunks within the
  mapping and an address of at most 15 characters.
-/

namespace Rf215Sdr.Hps

open Rf215Sdr.Lib

/-! ## The command line -/

/-- What `main` makes of the command line. -/
structure Arguments where
  udpMode : Bool
  /-- `NULL` without a third argument. -/
  udpIp : Option (List Byte)
  udpPort : BitVec 16
  deriving DecidableEq, Repr

/-- The arguments in `argv`, program name first; `none` when `main` gives up. -/
def mainArgs (argv : List (List Byte)) : Option Arguments :=
  match argv[1]? with
  | none => none
  | some mode =>
    if cstring mode = ascii "test".toList then some ⟨false, none, 0⟩
    else if cstring mode = ascii "udp".toList then
      some ⟨true, argv[2]?, (argv[3]?.map fun port => (atoi (cstring port)).setWidth 16).getD 0⟩
    else none

/-! ## `dma_init` -/

/-- `INET_ADDRSTRLEN`. -/
def inetAddrStrLen : ℕ := 16

/-- `DEFAULT_UDP_IP`, in an array of `INET_ADDRSTRLEN` bytes. -/
def defaultUdpIp : List Byte :=
  strncpy inetAddrStrLen (ascii "10.42.0.1".toList)

/-- `udp_ip_global` when `inet_aton` reads it. -/
def udpIpGlobal (a : Arguments) : List Byte :=
  match a.udpIp with
  | some ip => strncpy inetAddrStrLen ip
  | none => defaultUdpIp

/-- `DEFAULT_UDP_PORT`. -/
def defaultUdpPort : BitVec 16 := 5000

/-- `udp_port_global`; port 0 keeps the default. -/
def udpPortGlobal (a : Arguments) : BitVec 16 :=
  if a.udpPort ≠ 0 then a.udpPort else defaultUdpPort

/-- The destination of the datagrams; `none` when `inet_aton` refuses the address and
`dma_init` exits. -/
def udpDest {ι : Type*} (inetAton : List Byte → Option ι) (a : Arguments) :
    Option (ι × BitVec 16) :=
  (inetAton (cstring (udpIpGlobal a))).map fun ip => (ip, udpPortGlobal a)

/-- `dma_init` returns, and `dma_loop` is entered. -/
def entersLoop {ι : Type*} (inetAton : List Byte → Option ι) (a : Arguments) : Bool :=
  !a.udpMode || (udpDest inetAton a).isSome

/-- What `dma_loop` is started with. -/
def loopConfig (file : Option (List Byte)) (a : Arguments) (debugTxt : Bool) : DmaConfig :=
  ⟨(configLoad file).configChunkBytes, a.udpMode, debugTxt⟩

/-! ## Descriptors -/

/-- The address of one of the two buffers. -/
def IsBufAddr (cfg : DmaConfig) (addr : BitVec 32) : Prop :=
  addr = bufAddr cfg 0 ∨ addr = bufAddr cfg 1

theorem isBufAddr (cfg : DmaConfig) (b : ℕ) : IsBufAddr cfg (bufAddr cfg b) := by
  by_cases hb : b = 0
  · rw [hb]
    exact Or.inl rfl
  · right
    unfold bufAddr bufOffset
    rw [if_neg hb, if_neg (by decide : ¬ (1 : ℕ) = 0)]

/-- The descriptors outstanding, and the registers written so far, are those of a buffer. -/
structure DescOk (cfg : DmaConfig) (s : Board) : Prop where
  descs : ∀ d ∈ s.engine.descs, IsBufAddr cfg d.addr ∧ d.length = cfg.chunkBytes
  writeAddr : ∀ first reg, s.pc = .program first reg → reg ≠ .writeAddr →
    IsBufAddr cfg s.engine.writeAddr
  length : ∀ first, s.pc = .program first .control → s.engine.length = cfg.chunkBytes

/-- An engine step starts no descriptor. -/
theorem descs_of_engineStep {lw : ℕ} {stream : ℕ → Byte} {e e' : Engine} {m m' : ℕ → Byte}
    {act : EngineAct} (h : engineStep lw stream e m act = some (e', m')) {d : Descriptor}
    (hd : d ∈ e'.descs) :
    ∃ d' ∈ e.descs, d.addr = d'.addr ∧ d.length = d'.length := by
  unfold engineStep at h
  split at h
  · cases h
  · next d₀ rest hdescs =>
    rw [hdescs]
    cases act with
    | write k =>
      dsimp only at h
      split_ifs at h
      obtain ⟨rfl, -⟩ := Prod.mk.inj (Option.some.inj h)
      rcases List.mem_cons.mp hd with rfl | hrest
      · exact ⟨d₀, List.mem_cons_self, rfl, rfl⟩
      · exact ⟨d, List.mem_cons_of_mem _ hrest, rfl, rfl⟩
    | raiseBusy =>
      obtain ⟨rfl, -⟩ := Prod.mk.inj (Option.some.inj h)
      exact ⟨d, hdescs ▸ hd, rfl, rfl⟩
    | done =>
      dsimp only at h
      split_ifs at h
      obtain ⟨rfl, -⟩ := Prod.mk.inj (Option.some.inj h)
      exact ⟨d, List.mem_cons_of_mem _ hd, rfl, rfl⟩

/-- Away from the writes of length and control nothing is asked of the registers. -/
theorem DescOk.leave {cfg : DmaConfig} {s t : Board} (h : DescOk cfg s)
    (hdescs : t.engine.descs = s.engine.descs)
    (hpc : ∀ first reg, t.pc = .program first reg → reg = .writeAddr) : DescOk cfg t := by
  refine ⟨?_, ?_, ?_⟩
  · rw [hdescs]
    exact h.descs
  · exact fun first reg hc hreg => absurd (hpc first reg hc) hreg
  · intro first hc
    cases hpc first _ hc

/-- Every CPU step keeps the descriptors to the two buffers. -/
theorem DescOk.cpuStep {cfg : DmaConfig} {s t : Board} {sendOk : Bool} (h : DescOk cfg s)
    (hstep : CpuStepped cfg s sendOk t) : DescOk cfg t := by
  cases hstep with
  | @writeAddr first hpc =>
    refine ⟨h.descs, fun _ _ _ _ => isBufAddr cfg _, ?_⟩
    intro _ hc
    cases hc
  | @length first hpc =>
    exact ⟨h.descs, fun _ _ _ _ => h.writeAddr _ _ hpc (by decide), fun _ _ => rfl⟩
  | @control first hpc =>
    -- the two registers become a descriptor
    refine ⟨?_, ?_, ?_⟩
    · intro d hd
      rcases List.mem_append.mp hd with hold | hnew
      · exact h.descs d hold
      · obtain rfl := List.mem_singleton.mp hnew
        exact ⟨h.writeAddr _ _ hpc (by decide), h.length _ hpc⟩
    · intro _ _ hc
      cases first <;> cases hc
    · intro _ hc
      cases first <;> cases hc
  | logged hpc =>
    refine h.leave ?_ ?_
    · rfl
    · intro _ _ hc
      dsimp only at hc
      split_ifs at hc
  | printWord hpc bytes =>
    refine h.leave ?_ ?_
    · rfl
    · intro _ _ hc
      dsimp only at hc
      split_ifs at hc
  | busy hpc => exact h
  | @pop first hpc _ =>
    refine h.leave ?_ ?_
    · rfl
    · intro _ reg hc
      cases first with
      | true =>
        cases hc
        rfl
      | false => cases hc
  | swap hpc =>
    refine h.leave ?_ ?_
    · rfl
    · intro _ reg hc
      cases hc
      rfl
  | _ =>
    refine h.leave ?_ ?_
    · rfl
    · exact fun _ _ hc => Pc.noConfusion hc

/-- **The descriptors `dma_loop` programs are those of its two buffers**, whatever the chunk
size. -/
theorem descOk_of_reachable {lw : ℕ} {cfg : DmaConfig} {stream ddr : ℕ → Byte} {s : Board}
    (h : (dmaLoop lw cfg stream ddr).Reachable s) : DescOk cfg s := by
  apply h.invariant (P := DescOk cfg)
  · refine ⟨fun d hd => absurd hd List.not_mem_nil, ?_, ?_⟩
    · intro _ _ hc hreg
      cases hc
      exact absurd rfl hreg
    · intro _ hc
      cases hc
  · intro s a t hstep hs
    cases a with
    | cpu sendOk => exact hs.cpuStep (stepped_of_cpuStep hstep)
    | engine act =>
      obtain ⟨p, hact, rfl⟩ := Option.map_eq_some_iff.mp hstep
      obtain ⟨hwrite, hlength⟩ := engineStep_regs hact
      refine ⟨?_, ?_, ?_⟩
      · intro d hd
        obtain ⟨d', hd', haddr, hlen⟩ := descs_of_engineStep hact hd
        rw [haddr, hlen]
        exact hs.descs d' hd'
      · intro first reg hpc hreg
        show IsBufAddr cfg p.1.writeAddr
        rw [hwrite]
        exact hs.writeAddr first reg hpc hreg
      · intro first hpc
        exact hlength.trans (hs.length first hpc)

/-- A transfer that has been started is carried out and reported, unless its length counts as 0. -/
theorem reachable_transfer {lw : ℕ} {cfg : DmaConfig} {stream ddr : ℕ → Byte} {s : Board}
    (hs : (dmaLoop lw cfg stream ddr).Reachable s) {addr len : BitVec 32} {rest : List Descriptor}
    (hdescs : s.engine.descs = ⟨addr, len, 0⟩ :: rest) (hpos : counted lw len ≠ 0) :
    (dmaLoop lw cfg stream ddr).Reachable { s with
      engine := { s.engine with
        descs := rest
        pos := s.engine.pos + counted lw len + (wholeWords (counted lw len) - counted lw len)
        busy := false
        responses := s.engine.responses + 1 }
      ddr := store s.ddr (wordBase addr) (load stream s.engine.pos (counted lw len)) } := by
  have hwrite : (dmaLoop lw cfg stream ddr).step s (.engine (.write (counted lw len))) =
      some { s with
        engine := { s.engine with
          descs := ⟨addr, len, counted lw len⟩ :: rest
          pos := s.engine.pos + counted lw len }
        ddr := store s.ddr (wordBase addr) (load stream s.engine.pos (counted lw len)) } := by
    simp [dmaLoop, Board.step, engineStep, hdescs]
  apply (hs.step hwrite).step (a := .engine .done)
  simp [dmaLoop, Board.step, engineStep, hpos]

/-- Both descriptors are programmed sooner or later, if the first one can be finished. -/
theorem reachable_descriptor {lw : ℕ} {cfg : DmaConfig} (hpos : counted lw cfg.chunkBytes ≠ 0)
    (stream ddr : ℕ → Byte) (b : ℕ) :
    ∃ s, (dmaLoop lw cfg stream ddr).Reachable s ∧
      ⟨bufAddr cfg b, cfg.chunkBytes, 0⟩ ∈ s.engine.descs := by
  have hprefill : (dmaLoop lw cfg stream ddr).Reachable _ :=
    ⟨[.cpu true, .cpu true, .cpu true], rfl⟩
  -- the pre-fill is waited for, and buffer 1 comes next
  have hpoll := (reachable_transfer hprefill rfl hpos).step (a := .cpu true) rfl
  have hresponse := hpoll.step (a := .cpu true) rfl
  have hpop := hresponse.step (a := .cpu true) rfl
  have hwriteAddr := hpop.step (a := .cpu true) rfl
  have hlength := hwriteAddr.step (a := .cpu true) rfl
  have hcontrol := hlength.step (a := .cpu true) rfl
  have hboth : ∀ addr, IsBufAddr cfg addr → ∃ s, (dmaLoop lw cfg stream ddr).Reachable s ∧
      s.engine.descs = [⟨addr, cfg.chunkBytes, 0⟩] := by
    rintro addr (rfl | rfl)
    · exact ⟨_, hprefill, rfl⟩
    · exact ⟨_, hcontrol, rfl⟩
  obtain ⟨s, hs, hdescs⟩ := hboth _ (isBufAddr cfg b)
  exact ⟨s, hs, hdescs ▸ List.mem_singleton_self _⟩

/-! ## Bounds -/

/-- No buffer of `dma_init` and `dma_loop` is used outside of its bounds. What concerns
`dma_loop` matters only if it is entered. -/
structure InBounds {ι : Type*} (inetAton : List Byte → Option ι) (a : Arguments)
    (cfg : DmaConfig) : Prop where
  /-- `inet_aton` finds the end of its string. -/
  terminated : a.udpMode = true → (0 : Byte) ∈ udpIpGlobal a
  /-- `memcpy` of `buf_size` bytes out of `out_words`. -/
  copied : entersLoop inetAton a = true → a.udpMode = true →
    cfg.chunkBytes.toNat ≤ 4 * numWords cfg
  /-- `pkt` holds the header and `buf_size` bytes. -/
  packed : entersLoop inetAton a = true → a.udpMode = true →
    8 + cfg.chunkBytes.toNat ≤ (pktSize cfg.chunkBytes).toNat
  /-- Both buffers are in the window mapped by `dma_init`. -/
  mapped : entersLoop inetAton a = true → ∀ b < 2,
    ddrBufferBase.toNat ≤ (bufAddr cfg b).toNat ∧
      (bufAddr cfg b).toNat + cfg.chunkBytes.toNat ≤ ddrBufferBase.toNat + ddrMapSize
  /-- The write master has no unaligned access. -/
  aligned : entersLoop inetAton a = true → ∀ stream ddr s,
    (dmaLoop lengthWidth cfg stream ddr).Reachable s → ∀ d ∈ s.engine.descs, 8 ∣ d.addr.toNat

theorem toNat_bufAddr_zero (cfg : DmaConfig) : (bufAddr cfg 0).toNat = 0x01000000 := rfl

theorem toNat_bufAddr_one (cfg : DmaConfig) :
    (bufAddr cfg 1).toNat = (0x01000000 + cfg.chunkBytes.toNat) % 2 ^ 32 := by
  show (ddrBufferBase + cfg.chunkBytes).toNat = _
  rw [BitVec.toNat_add]
  rfl

/-- In udp mode the address is the third argument. -/
theorem udpIp_of_mainArgs {argv : List (List Byte)} {a : Arguments} (h : mainArgs argv = some a)
    (hudp : a.udpMode = true) : a.udpIp = argv[2]? := by
  unfold mainArgs at h
  split at h
  · cases h
  · split_ifs at h
    · obtain rfl := Option.some.inj h
      cases hudp
    · obtain rfl := Option.some.inj h
      rfl

/-- The address is terminated unless it fills its array. -/
theorem terminated_iff {argv : List (List Byte)} {a : Arguments} (h : mainArgs argv = some a)
    (hudp : a.udpMode = true) :
    (0 : Byte) ∈ udpIpGlobal a ↔ ∀ ip ∈ argv[2]?, (cstring ip).length < inetAddrStrLen := by
  rw [← udpIp_of_mainArgs h hudp]
  unfold udpIpGlobal
  cases a.udpIp with
  | none =>
    simp only [Option.not_mem_none, false_implies, implies_true, iff_true]
    decide
  | some ip =>
    simp only [Option.mem_def, Option.some.injEq, forall_eq']
    exact zero_mem_strncpy_iff _ ip

/-- **When no buffer is overrun**: for every configuration file, every accepted command line and
whatever `inet_aton` takes for an address, exactly if the address on the command line has less
than 16 characters and, once `dma_loop` is entered, `config_chunk_bytes` is a multiple of 8 and
two chunks fit the mapping. -/
theorem inBounds_iff {ι : Type*} (inetAton : List Byte → Option ι) (file : Option (List Byte))
    (argv : List (List Byte)) (a : Arguments) (hmain : mainArgs argv = some a) (debugTxt : Bool) :
    InBounds inetAton a (loopConfig file a debugTxt) ↔
      (a.udpMode = true → ∀ ip ∈ argv[2]?, (cstring ip).length < inetAddrStrLen) ∧
        (entersLoop inetAton a = true → 8 ∣ (configLoad file).configChunkBytes.toNat ∧
          2 * (configLoad file).configChunkBytes.toNat ≤ ddrMapSize) := by
  have hchunk : (loopConfig file a debugTxt).chunkBytes = (configLoad file).configChunkBytes := rfl
  have hbase : ddrBufferBase.toNat = 0x01000000 := rfl
  have hsize : ddrMapSize = 0x01000000 := rfl
  have hzero := toNat_bufAddr_zero (loopConfig file a debugTxt)
  have hone := toNat_bufAddr_one (loopConfig file a debugTxt)
  rw [hchunk] at hone
  constructor
  · rintro ⟨hterm, -, -, hmapped, haligned⟩
    refine ⟨fun hudp => (terminated_iff hmain hudp).mp (hterm hudp), fun henters => ?_⟩
    -- buffer 0 in the window keeps the address of buffer 1 from wrapping around
    have hfirst := (hmapped henters 0 (by decide)).2
    have hsecond := (hmapped henters 1 (by decide)).2
    rw [hchunk, hzero, hbase, hsize] at hfirst
    rw [hchunk, hone, hbase, hsize] at hsecond
    refine ⟨?_, by omega⟩
    by_cases hcounted : counted lengthWidth (loopConfig file a debugTxt).chunkBytes = 0
    · -- such a length is a multiple of 2^18
      rw [counted, hchunk] at hcounted
      exact Nat.dvd_trans (by decide) (Nat.dvd_of_mod_eq_zero hcounted)
    · obtain ⟨s, hs, hmem⟩ := reachable_descriptor hcounted (fun _ => 0) (fun _ => 0) 1
      have hdvd : 8 ∣ (bufAddr (loopConfig file a debugTxt) 1).toNat :=
        haligned henters _ _ s hs _ hmem
      rw [hone] at hdvd
      omega
  · rintro ⟨hip, hloop⟩
    refine ⟨fun hudp => (terminated_iff hmain hudp).mpr (hip hudp), ?_, ?_, ?_, ?_⟩
    · intro henters _
      obtain ⟨hdvd, -⟩ := hloop henters
      unfold numWords
      rw [hchunk]
      omega
    · intro henters _
      obtain ⟨-, hfit⟩ := hloop henters
      unfold pktSize
      rw [BitVec.toNat_add, hchunk]
      have h8 : (8 : BitVec 32).toNat = 8 := rfl
      omega
    · intro henters b hb
      obtain ⟨-, hfit⟩ := hloop henters
      rw [hchunk, hbase, hsize]
      obtain rfl | rfl : b = 0 ∨ b = 1 := by omega
      · rw [hzero]
        omega
      · rw [hone]
        omega
    · intro henters stream ddr s hs d hd
      obtain ⟨hdvd, hfit⟩ := hloop henters
      -- every descriptor is that of one of the two buffers
      rcases ((descOk_of_reachable hs).descs d hd).1 with hd0 | hd1
      · rw [hd0, hzero]
        decide
      · rw [hd1, hone]
        omega

/-- Chunks of 4096 bytes, to an address of nine characters, which `inet_aton` reads. -/
theorem inBounds_addressed :
    let inetAton : List Byte → Option (BitVec 32) :=
      fun s => if s = ascii "10.42.0.7".toList then some 0x0A2A0007 else none
    let a : Arguments := ⟨true, some (ascii "10.42.0.7".toList), 5001⟩
    entersLoop inetAton a = true ∧
      (configLoad (some (ascii "# size\nchunk_bytes=4096".toList))).configChunkBytes = 4096 ∧
      InBounds inetAton a
        (loopConfig (some (ascii "# size\nchunk_bytes=4096".toList)) a false) := by
  intro inetAton a
  have hmain : mainArgs [ascii "example_spi_dma".toList, ascii "udp".toList,
      ascii "10.42.0.7".toList, ascii "5001".toList] = some a := by decide
  have hchunk : (configLoad (some (ascii "# size\nchunk_bytes=4096".toList))).configChunkBytes =
      4096 := by decide
  refine ⟨by decide, hchunk, (inBounds_iff inetAton _ _ a hmain false).mpr
    ⟨fun _ ip hip => ?_, fun _ => ?_⟩⟩
  · obtain rfl := Option.some.inj hip
    decide
  · rw [hchunk]
    decide

/-- `chunk_bytes=6`, and an address of sixteen characters. -/
theorem not_inBounds_six :
    ∃ a, mainArgs [ascii "example_spi_dma".toList, ascii "udp".toList,
        ascii "192.168.0100.200".toList] = some a ∧
      let cfg := loopConfig (some (ascii "chunk_bytes=6".toList)) a false
      cfg.chunkBytes = 6 ∧ (0 : Byte) ∉ udpIpGlobal a ∧ 4 * numWords cfg < cfg.chunkBytes.toNat ∧
        ¬ 8 ∣ (bufAddr cfg 1).toNat ∧ ¬ InBounds (fun s => some s) a cfg := by
  refine ⟨_, rfl, ?_⟩
  have hterm : (0 : Byte) ∉ udpIpGlobal ⟨true, some (ascii "192.168.0100.200".toList), 0⟩ := by
    decide
  refine ⟨by decide, hterm, by decide, by decide, fun hbounds => hterm (hbounds.terminated rfl)⟩

end Rf215Sdr.Hps
