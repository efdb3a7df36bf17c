import Rf215Sdr.Host.CfgSender
import Rf215Sdr.Host.UdpIqSource
import Rf215Sdr.Hps.ConfigDaemon
import Rf215Sdr.Hps.PingPong

/-!
# From the Parameters in GNU Radio to the Board

The text that `rf215_cfg_sender` sends goes through `config_daemon.py` and `config.txt` into
the globals of `config.c`, and sizes the datagrams that come back.

## Main results

- `configLoad_cfgLines`: `config_load` reads every value of the text back.
- `request_cfgTxt`: the daemon takes the text for an update.
- `config_round_trip`: the whole way, up to the size of the datagrams.
-/

namespace Rf215Sdr

open Rf215Sdr.Lib Rf215Sdr.Host Rf215Sdr.Hps

/-! ## Register lines -/

/-- A key of the text as it is written there, and the register it sets. -/
structure RegisterKey where
  key : List Char
  set : Config → BitVec 8 → Config
  printable : Printable key := by decide
  ne_nil : key ≠ [] := by decide
  visible_head : (key.head?.all fun k => !isBlank (ch k) && k != '#') = true := by decide
  no_equals : '=' ∉ key := by decide
  assign_eq : ∀ (cfg : Config) (valstr : List Byte), cfg.assign (trim (ascii key)) valstr =
    set cfg ((strtoul 0 valstr).setWidth 8) := by exact fun _ _ => rfl

/-- The line that gives a register the value `n`. -/
def RegisterKey.line (r : RegisterKey) (n : ℕ) : List Char :=
  r.key ++ '=' :: '0' :: 'x' :: fmt02X n

/-- **A register line sets its register.** -/
theorem loadLine_register (r : RegisterKey) (cfg : Config) {n : ℕ} (hn : n < 256) :
    cfg.loadLine (ascii (r.line n)) = r.set cfg (BitVec.ofNat 8 n) := by
  obtain ⟨key, set, hkey, hne, hhead, heq, hassign⟩ := r
  have hvisible : Visible ('0' :: 'x' :: fmt02X n) := by
    refine ⟨List.cons_ne_nil _ _, ?_⟩
    simp only [List.forall_mem_cons]
    exact ⟨by decide, by decide, (fmt02X_visible hn).2⟩
  cases key with
  | nil => exact absurd rfl hne
  | cons k key =>
    obtain ⟨hblank, hcomment⟩ : isBlank (ch k) = false ∧ k ≠ '#' := by simpa using hhead
    have hline := loadLine_assign cfg hkey hblank hcomment heq hvisible
    -- `strtoul` reads the two digits, the cast keeps all of them
    rw [hassign, strtoul_fmt02X hn, BitVec.setWidth_ofNat_of_le (by decide)] at hline
    exact hline

/-- The line `chunk_bytes=..` sets the size of the chunks. -/
theorem loadLine_chunkBytes (cfg : Config) {chunk : ℤ} (hpos : 0 ≤ chunk) (hmax : chunk < 2 ^ 31) :
    cfg.loadLine (ascii ("chunk_bytes=".toList ++ pyStr chunk)) =
      { cfg with configChunkBytes := BitVec.ofNat 32 chunk.toNat } := by
  have hkey : Printable ('c' :: "hunk_bytes".toList) := by decide
  have hline := loadLine_assign cfg hkey rfl (by decide) (by decide) (pyStr_visible chunk)
  have hvalue : atoi (ascii (pyStr chunk)) = BitVec.ofNat 32 chunk.toNat := by
    rw [pyStr_of_nonneg hpos]
    exact atoi_toDigits (by omega)
  rw [← hvalue]
  exact hline

/-- Several register lines, one after the other. -/
theorem foldl_loadLine_registers {settings : List (RegisterKey × ℕ)}
    (h : ∀ p ∈ settings, p.2 < 256) (cfg : Config) :
    (settings.map fun p => p.1.line p.2).foldl (fun cfg l => cfg.loadLine (ascii l)) cfg =
      settings.foldl (fun cfg p => p.1.set cfg (BitVec.ofNat 8 p.2)) cfg := by
  induction settings generalizing cfg with
  | nil => rfl
  | cons p settings ih =>
    rw [List.map_cons, List.foldl_cons, List.foldl_cons,
      loadLine_register p.1 cfg (h p List.mem_cons_self)]
    exact ih (fun q hq => h q (List.mem_cons_of_mem p hq)) _

/-! ## Reading the text back -/

/-- The register lines of the text, with their padding. -/
def settings (b : CfgSender) (ccf0 : ℕ) : List (RegisterKey × ℕ) :=
  [ ({ key := "IQIFC1".toList, set := fun cfg v => { cfg with cfgIQIFC1 := v } }, 0x42),
    ({ key := "CS    ".toList, set := fun cfg v => { cfg with cfgCS := v } }, 0x08),
    ({ key := "CCF0L ".toList, set := fun cfg v => { cfg with cfgCCF0L := v } }, ccf0 &&& 0xFF),
    ({ key := "CCF0H ".toList, set := fun cfg v => { cfg with cfgCCF0H := v } }, ccf0 >>> 8),
    ({ key := "CNL   ".toList, set := fun cfg v => { cfg with cfgCNL := v } }, 0x00),
    ({ key := "CNM   ".toList, set := fun cfg v => { cfg with cfgCNM := v } }, 0x00),
    ({ key := "RXBWC ".toList, set := fun cfg v => { cfg with cfgRXBWC := v } }, 0x18),
    ({ key := "RXDFE ".toList, set := fun cfg v => { cfg with cfgRXDFE := v } }, b.rxdfeVal),
    ({ key := "R09_AGCC".toList, set := fun cfg v => { cfg with cfgR09AGCC := v } }, b.r09Agcc),
    ({ key := "RF09_AGCS".toList, set := fun cfg v => { cfg with cfgRF09AGCS := v } },
      b.rf09Agcs) ]

/-- The configuration that the values computed by `start` stand for. -/
def configOf (b : CfgSender) (ccf0 : ℕ) : Config where
  configChunkBytes := BitVec.ofNat 32 b.chunk.toNat
  cfgIQIFC1 := 0x42
  cfgCS := 0x08
  cfgCCF0L := BitVec.ofNat 8 (ccf0 &&& 0xFF)
  cfgCCF0H := BitVec.ofNat 8 (ccf0 >>> 8)
  cfgCNL := 0x00
  cfgCNM := 0x00
  cfgRXBWC := 0x18
  cfgRXDFE := BitVec.ofNat 8 b.rxdfeVal
  cfgR09AGCC := BitVec.ofNat 8 b.r09Agcc
  cfgRF09AGCS := BitVec.ofNat 8 b.rf09Agcs

theorem settings_lt (b : CfgSender) {ccf0 : ℕ} (hccf0 : ccf0 < 2 ^ 16) :
    ∀ p ∈ settings b ccf0, p.2 < 256 := by
  simp only [settings, List.forall_mem_cons]
  exact ⟨by decide, by decide, CfgSender.ccf0_low_lt ccf0, CfgSender.ccf0_high_lt hccf0,
    by decide, by decide, by decide, b.rxdfeVal_lt, b.r09Agcc_lt, b.rf09Agcs_lt,
    fun p hp => absurd hp List.not_mem_nil⟩

/-- **`config_load` reads every value of the text back.** -/
theorem configLoad_cfgLines (b : CfgSender) {ccf0 : ℕ} (hccf0 : ccf0 < 2 ^ 16)
    (hpos : 0 ≤ b.chunk) (hmax : b.chunk < 2 ^ 31) :
    configLoad (some (ascii (joinLines (b.cfgLines ccf0)))) = configOf b ccf0 := by
  -- the comment, the chunk size, and the registers one by one
  have hlines : b.cfgLines ccf0 = "# Update from config_daemon".toList ::
      ("chunk_bytes=".toList ++ pyStr b.chunk) ::
        (settings b ccf0).map fun p => p.1.line p.2 := rfl
  have hcomment : Config.default.loadLine (ascii "# Update from config_daemon".toList) =
      Config.default := loadLine_comment _ (by decide)
  have hne : b.cfgLines ccf0 ≠ [] := List.cons_ne_nil _ _
  rw [configLoad_joinLines hne]
  · rw [hlines, List.foldl_cons, List.foldl_cons, hcomment, loadLine_chunkBytes _ hpos hmax,
      foldl_loadLine_registers (settings_lt b hccf0)]
    rfl
  · intro l hl
    have hline := b.isLine_of_mem hccf0 l hl
    have hlen := b.length_of_mem hccf0 hpos hmax l hl
    exact ⟨hline.ne_nil, hline.1, Nat.le_trans (Nat.add_le_add_right hlen 2) (by decide)⟩

/-! ## The way through the daemon -/

/-- The daemon takes off the last newline of the text, and nothing else. -/
theorem strip_cfgLines (b : CfgSender) (ccf0 : ℕ) :
    strip (joinLines (b.cfgLines ccf0) ++ ['\n']) = joinLines (b.cfgLines ccf0) := by
  -- the text ends with a hexadecimal digit
  have hlast : fmt02X b.rf09Agcs = [hexDigit (b.rf09Agcs / 16), hexDigit (b.rf09Agcs % 16)] :=
    fmt02X_eq b.rf09Agcs_lt
  have hlines : b.cfgLines ccf0 = (b.cfgLines ccf0).dropLast ++
      ["RF09_AGCS=0x".toList ++ fmt02X b.rf09Agcs] := rfl
  have htrim : strip (joinLines (b.cfgLines ccf0) ++ ['\n']) =
      strip (joinLines (b.cfgLines ccf0)) := by
    apply trimBy_append_right
    intro c hc
    rw [List.mem_singleton.mp hc]
    rfl
  rw [htrim]
  apply trimBy_eq_self
  · intro c hc
    obtain rfl : '#' = c := Option.some.inj hc
    rfl
  · intro c hc
    rw [hlines, getLast?_joinLines (by simp), List.getLast?_append, hlast] at hc
    obtain rfl : hexDigit (b.rf09Agcs % 16) = c := Option.some.inj hc
    have hdigit : ∀ d < 16, isPySpace (hexDigit d) = false := by decide
    exact hdigit _ (Nat.mod_lt _ (by decide))

theorem isAscii_cfgLines (b : CfgSender) {ccf0 : ℕ} (hccf0 : ccf0 < 2 ^ 16) :
    IsAscii (joinLines (b.cfgLines ccf0)) := by
  intro c hc
  rcases mem_joinLines hc with rfl | ⟨l, hl, hcl⟩
  · decide
  · exact Nat.lt_succ_of_lt ((b.isLine_of_mem hccf0 l hl).1 c hcl).2

/-- The text fits a datagram that the daemon receives whole. -/
theorem size_cfgTxt_le (b : CfgSender) {ccf0 : ℕ} (hccf0 : ccf0 < 2 ^ 16) (hpos : 0 ≤ b.chunk)
    (hmax : b.chunk < 2 ^ 31) :
    (utf8Encode (joinLines (b.cfgLines ccf0) ++ ['\n'])).size ≤ recvSize := by
  have hlen : (joinLines (b.cfgLines ccf0)).length ≤ 12 * 28 :=
    length_joinLines_le (b.length_of_mem hccf0 hpos hmax)
  rw [size_utf8Encode]
  · rw [List.length_append]
    exact Nat.le_trans (Nat.add_le_add_right hlen _) (by decide)
  · intro c hc
    rcases List.mem_append.mp hc with hline | hnewline
    · exact isAscii_cfgLines b hccf0 c hline
    · rw [List.mem_singleton.mp hnewline]
      decide

/-- **The daemon takes the text for an update.** -/
theorem request_cfgTxt (b : CfgSender) {ccf0 : ℕ} (hccf0 : ccf0 < 2 ^ 16) (hpos : 0 ≤ b.chunk)
    (hmax : b.chunk < 2 ^ 31) :
    request (utf8Encode (joinLines (b.cfgLines ccf0) ++ ['\n'])) =
      some (.update (joinLines (b.cfgLines ccf0))) := by
  -- the text starts with `#`
  have hstop : isStop (joinLines (b.cfgLines ccf0)) = false :=
    isStop_eq_false (c := '#') (by decide) (by decide)
  rw [request_utf8Encode (size_cfgTxt_le b hccf0 hpos hmax), strip_cfgLines, hstop]
  rfl

/-- The configuration after an update with the text, written without an error. -/
theorem configLoad_handle {b : CfgSender} {data : ByteArray} (hstart : b.start = some data)
    (hpos : 0 ≤ b.chunk) (hmax : b.chunk < 2 ^ 31) (d : Daemon) (launch : Bool) :
    ∃ d' ccf0, d.handle data .done launch = some d' ∧ ccf0FromFreq b.cf = some ccf0 ∧
      configLoad d'.configFile = configOf b ccf0 := by
  obtain ⟨ccf0, hfreq, rfl⟩ := b.start_eq hstart
  have hccf0 := ccf0FromFreq_lt hfreq
  have hfile := d.configFile_handle launch (request_cfgTxt b hccf0 hpos hmax)
  obtain ⟨d', hd', hcontent⟩ := Option.map_eq_some_iff.mp hfile
  refine ⟨d', ccf0, hd', hfreq, ?_⟩
  -- the daemon's own comment is skipped like the first line of the text
  rw [hcontent, configLoad_fileContent, bytesOf_utf8Encode (isAscii_cfgLines b hccf0)]
  exact configLoad_cfgLines b hccf0 hpos hmax

/-! ## The whole way -/

/-- **From the parameters of the block to the board and back.** The text of `start` reaches the
daemon and is written without an error; a fresh process then loads the values `start` computed,
and every datagram its `dma_loop` builds has the length that a receiver for chunks of this size
demands. -/
theorem config_round_trip (cf : PyFloat) (chunk sr agcOn agcTarget manualGain : ℤ)
    (hpos : 0 < chunk) (hmax : chunk < 2 ^ 31 - 8) (hwords : 4 ∣ chunk) {data : ByteArray}
    (hstart : (CfgSender.init cf chunk sr agcOn agcTarget manualGain).start = some data)
    (d : Daemon) (launch : Bool) :
    ∃ d' ccf0, d.handle data .done launch = some d' ∧ ccf0FromFreq cf = some ccf0 ∧
      let b := CfgSender.init cf chunk sr agcOn agcTarget manualGain
      let cfg := configLoad d'.configFile
      cfg.configChunkBytes.toNat = chunk ∧
        cfg.cfgCCF0H.toNat * 256 + cfg.cfgCCF0L.toNat = ccf0 ∧
        cfg.cfgRXDFE.toNat = 0x80 ||| maskBits 3 sr ∧
        cfg.cfgR09AGCC.toNat = b.r09Agcc ∧ cfg.cfgRF09AGCS.toNat = b.rf09Agcs ∧
        cfg.cfgIQIFC1 = 0x42 ∧ cfg.cfgCS = 0x08 ∧ cfg.cfgCNL = 0x00 ∧ cfg.cfgCNM = 0x00 ∧
        cfg.cfgRXBWC = 0x18 ∧
        (∃ rx : UdpIqSource, rx.pktSize = chunk + 8) ∧
        ∀ lw udpMode debugTxt stream ddr s,
          (dmaLoop lw ⟨cfg.configChunkBytes, udpMode, debugTxt⟩ stream ddr).Reachable s →
            ∀ p ∈ s.sent, (p.1.length : ℤ) = chunk + 8 ∧
              ∀ rx : UdpIqSource, rx.pktSize = chunk + 8 → (decode rx p.1).isSome := by
  obtain ⟨d', ccf0, hd', hfreq, hload⟩ :=
    configLoad_handle hstart hpos.le (Int.lt_trans hmax (by decide)) d launch
  have hccf0 := ccf0FromFreq_lt hfreq
  have hbyte : ∀ {n : ℕ}, n < 256 → (BitVec.ofNat 8 n).toNat = n :=
    fun hn => Nat.mod_eq_of_lt hn
  have hchunk : ((BitVec.ofNat 32 chunk.toNat).toNat : ℤ) = chunk := by
    rw [BitVec.toNat_ofNat, Nat.mod_eq_of_lt (by omega), Int.toNat_of_nonneg hpos.le]
  refine ⟨d', ccf0, hd', hfreq, ?_⟩
  dsimp only
  rw [hload]
  refine ⟨hchunk, ?_, hbyte (CfgSender.rxdfeVal_lt _), hbyte (CfgSender.r09Agcc_lt _),
    hbyte (CfgSender.rf09Agcs_lt _), rfl, rfl, rfl, rfl, rfl, ?_, ?_⟩
  · -- the two bytes of `ccf0`
    show (BitVec.ofNat 8 (ccf0 >>> 8)).toNat * 256 + (BitVec.ofNat 8 (ccf0 &&& 0xFF)).toNat = ccf0
    rw [hbyte (CfgSender.ccf0_high_lt hccf0), hbyte (CfgSender.ccf0_low_lt ccf0),
      Nat.shiftRight_eq_div_pow, show 0xFF = 2 ^ 8 - 1 from rfl, Nat.and_two_pow_sub_one_eq_mod]
    exact Nat.div_add_mod' ccf0 256
  · -- a block with this packet size can be built
    obtain ⟨words, hwords⟩ := hwords
    refine ⟨⟨8 + 4 * words.toNat, 0, Nat.le_add_right _ _, ?_⟩, ?_⟩
    · rw [hdrSize, Nat.add_sub_cancel_left]
      exact Nat.dvd_mul_right 4 _
    · show ((8 + 4 * words.toNat : ℕ) : ℤ) = chunk + 8
      omega
  · intro lw udpMode debugTxt stream ddr s hs p hp
    -- `8 + buf_size` is the size of every datagram
    have hlen := length_of_sent hs p hp
    have hsize : (p.1.length : ℤ) = chunk + 8 := by
      rw [hlen, Nat.cast_add, Int.add_comm]
      exact congrArg (· + 8) hchunk
    refine ⟨hsize, ?_⟩
    intro rx hrx
    rw [decode_isSome]
    omega

/-- 868 MHz is 34720 steps, 800 kS/s is code 5; with chunks of eight bytes the first datagram has
sixteen, as a receiver of such packets demands. -/
theorem config_round_trip_eight :
    ∃ data d', (CfgSender.init (.finite 868000000) 8 5 0 4 17).start = some data ∧
      Daemon.handle ⟨none, none, ∅, 0⟩ data .done true = some d' ∧
      (configLoad d'.configFile).configChunkBytes.toNat = (8 : ℤ) ∧
      (configLoad d'.configFile).cfgCCF0H.toNat * 256 + (configLoad d'.configFile).cfgCCF0L.toNat =
        34720 ∧
      (configLoad d'.configFile).cfgRXDFE.toNat = 0x85 ∧
      ∃ s p, (dmaLoop lengthWidth ⟨(configLoad d'.configFile).configChunkBytes, true, false⟩
          (BitVec.ofNat 8) (BitVec.ofNat 8)).Reachable s ∧ s.sent = [p] ∧
        (p.1.length : ℤ) = 8 + 8 ∧ (decode ⟨16, 4096, by decide, by decide⟩ p.1).isSome := by
  have hfreq : ccf0FromFreq (.finite 868000000) = some 34720 := by
    rw [show (868000000 : ℚ) = 25000 * (34720 : ℕ) by norm_num]
    exact ccf0FromFreq_grid (by decide)
  have hstart : (CfgSender.init (.finite 868000000) 8 5 0 4 17).start =
      some (utf8Encode ((CfgSender.init (.finite 868000000) 8 5 0 4 17).cfgTxt 34720)) := by
    show (ccf0FromFreq (.finite 868000000)).bind _ = _
    rw [hfreq]
    rfl
  obtain ⟨d', ccf0, hd', hccf0, hchunk, hfields, hrxdfe, -, -, -, -, -, -, -, -, hsent⟩ :=
    config_round_trip (.finite 868000000) 8 5 0 4 17 (by decide) (by decide) (by decide)
      hstart ⟨none, none, ∅, 0⟩ true
  obtain rfl : 34720 = ccf0 := Option.some.inj (hfreq.symm.trans hccf0)
  have hbytes : (configLoad d'.configFile).configChunkBytes = 8 :=
    BitVec.eq_of_toNat_eq (Int.ofNat_inj.mp hchunk)
  -- one iteration of `dma_loop` with this configuration
  obtain ⟨s, p, hs, hp⟩ : ∃ s p, (dmaLoop lengthWidth twoWords (BitVec.ofNat 8)
      (BitVec.ofNat 8)).Reachable s ∧ s.sent = [p] := ⟨_, _, ⟨lateIteration, rfl⟩, rfl⟩
  have hloop : (⟨(configLoad d'.configFile).configChunkBytes, true, false⟩ : DmaConfig) =
      twoWords := by
    rw [hbytes]
    rfl
  rw [← hloop] at hs
  have hmem : p ∈ s.sent := by
    rw [hp]
    exact List.mem_singleton_self p
  obtain ⟨hlen, hdecode⟩ := hsent _ true false _ _ s hs p hmem
  exact ⟨_, d', hstart, hd', hchunk, hfields, hrxdfe, s, p, hs, hp, hlen, hdecode _ rfl⟩

end Rf215Sdr
