import Rf215Sdr.Hps.PingPong

/-!
# The Display in Test Mode

In test mode `dma_loop` calls `print_data`, which shows the first 128 bytes of the mapped
memory, whichever buffer is current. The buffers take turns, so every other display looks at
the buffer the engine is filling. The generated write master counts 18 bits of a length, so a
transfer fills less than a chunk when the chunk has 2^18 bytes or more.

## Main results

- `shownOk_of_reachable`: the current buffer alternates with the displays.
- `display_iff`: a display is that of the last transfer in every other iteration, when at least
  128 bytes of a chunk are counted.
-/

namespace Rf215Sdr.Hps

open Rf215Sdr.Lib

variable {lw : ℕ} {cfg : DmaConfig} {stream ddr : ℕ → Byte}

/-! ## Regions -/

/-- The mapped bytes of a buffer. -/
def bufRegion (cfg : DmaConfig) (b : ℕ) : Region :=
  ⟨(bufOffset cfg b).toNat, cfg.chunkBytes.toNat⟩

/-- The mapped bytes that a transfer into a buffer fills. -/
def filledRegion (lw : ℕ) (cfg : DmaConfig) (b : ℕ) : Region :=
  ⟨8 * ((bufOffset cfg b).toNat / 8), counted lw cfg.chunkBytes⟩

theorem filledRegion_zero : filledRegion lw cfg 0 = ⟨0, counted lw cfg.chunkBytes⟩ := by
  simp [filledRegion, bufOffset]

theorem filledRegion_one :
    filledRegion lw cfg 1 = ⟨8 * (cfg.chunkBytes.toNat / 8), counted lw cfg.chunkBytes⟩ := by
  simp [filledRegion, bufOffset]

/-- No byte is in both regions. -/
def Region.Apart (r r' : Region) : Prop :=
  ∀ x, r.offset ≤ x → x < r.offset + r.size → ¬ (r'.offset ≤ x ∧ x < r'.offset + r'.size)

/-- Every byte of the first region is in the second. -/
def Region.Within (r r' : Region) : Prop :=
  ∀ x, r.offset ≤ x → x < r.offset + r.size → r'.offset ≤ x ∧ x < r'.offset + r'.size

/-- What `print_data` reads in this iteration is outside buffer `next` and what the engine writes
for it, is filled by the transfer completed last, which has the number `m`, and holds the bytes
of that transfer. -/
def DisplaySafe (lw : ℕ) (cfg : DmaConfig) (stream : ℕ → Byte) (m : ℕ) (s : Board) : Prop :=
  ∀ i < 16, ∀ r, cpuReads cfg { s with pc := .print i } = some r →
    r.Apart (bufRegion cfg s.next) ∧ r.Apart (filledRegion lw cfg s.next) ∧
      r.Within (filledRegion lw cfg s.current) ∧
      load s.ddr (ddrBufferBase.toNat + r.offset) r.size =
        load stream (m * consumed lw cfg.chunkBytes +
          (r.offset - (filledRegion lw cfg s.current).offset)) r.size

/-- A display that finds its bytes in the last transfer is one of buffer 0, and 128 bytes are
counted. -/
theorem DisplaySafe.current_eq {s : Board} {m : ℕ} (h : DisplaySafe lw cfg stream m s)
    (hcur : s.current = 0 ∨ s.current = 1) :
    s.current = 0 ∧ 128 ≤ counted lw cfg.chunkBytes := by
  have hcount := counted_le lw cfg.chunkBytes
  -- the first and the last byte read
  obtain ⟨-, -, hfirst, -⟩ := h 0 (by decide) ⟨0, 8⟩ rfl
  obtain ⟨-, -, hlast, -⟩ := h 15 (by decide) ⟨120, 8⟩ rfl
  have hzero := (hfirst 0 (by decide) (by decide)).1
  have hend := (hlast 127 (by decide) (by decide)).2
  rcases hcur with hcur | hcur
  · rw [hcur, filledRegion_zero] at hend
    dsimp only at hend
    exact ⟨hcur, by omega⟩
  · -- buffer 1 starts behind byte 0, or it has too few bytes
    rw [hcur, filledRegion_one] at hzero hend
    dsimp only at hzero hend
    omega

/-- With 128 bytes of a chunk counted, they are what buffer 0 shows. -/
theorem displaySafe_of_held {s : Board} {m : ℕ} (hcur : s.current = 0) (hnext : s.next = 1)
    (hsize : 128 ≤ counted lw cfg.chunkBytes)
    (hheld : load s.ddr ddrBufferBase.toNat (kept lw cfg) =
      load stream (m * consumed lw cfg.chunkBytes) (kept lw cfg)) :
    DisplaySafe lw cfg stream m s := by
  have hcount := counted_le lw cfg.chunkBytes
  have hkept : 128 ≤ kept lw cfg := by
    unfold kept
    omega
  intro i hi r hr
  obtain rfl := Option.some.inj hr
  rw [hcur, hnext, filledRegion_zero, filledRegion_one]
  refine ⟨?_, ?_, ?_, ?_⟩
  · rintro x - hlt ⟨hbuf, -⟩
    have hlt : x < 8 * i + 8 := hlt
    have hbuf : cfg.chunkBytes.toNat ≤ x := hbuf
    omega
  · rintro x - hlt ⟨hbuf, -⟩
    have hlt : x < 8 * i + 8 := hlt
    have hbuf : 8 * (cfg.chunkBytes.toNat / 8) ≤ x := hbuf
    omega
  · rintro x - hlt
    have hlt : x < 8 * i + 8 := hlt
    refine ⟨Nat.zero_le x, ?_⟩
    show x < 0 + counted lw cfg.chunkBytes
    omega
  · exact load_part hheld (j := 8 * i) (k := 8) (by omega)

/-! ## Counting displays -/

/-- The elements of `data` shown so far in an iteration. -/
def Pc.displayed : Pc → ℕ
  | .print i => i
  | .poll first | .response first | .pop first => if first then 0 else 16
  | .swap => 16
  | _ => 0

/-- The places of the code that test mode comes to. -/
def Pc.InTest : Pc → Prop
  | .print i => i < 16
  | .convert _ => False
  | _ => True

/-- After `k` iterations of test mode buffer `k % 2` is current, and `16 * k` elements have been
shown, with those of this iteration on top. -/
def ShownOk (s : Board) : Prop :=
  ∃ k, s.current = k % 2 ∧ s.shown.length = 16 * k + s.pc.displayed ∧ s.pc.InTest

/-- **Every CPU step in test mode keeps the count.** -/
theorem ShownOk.cpuStep (htest : cfg.udpMode = false) {s t : Board} (h : ShownOk s)
    {sendOk : Bool} (hstep : CpuStepped cfg s sendOk t) : ShownOk t := by
  obtain ⟨k, hcur, hshown, hplace⟩ := h
  cases hstep with
  | writeAddr hpc =>
    rw [hpc] at hshown
    exact ⟨k, hcur, hshown, trivial⟩
  | length hpc =>
    rw [hpc] at hshown
    exact ⟨k, hcur, hshown, trivial⟩
  | @control first hpc =>
    rw [hpc] at hshown
    cases first with
    | false => exact ⟨k, hcur, hshown, trivial⟩
    | true => exact ⟨k, hcur, hshown, trivial⟩
  | logWord hpc bytes =>
    rw [hpc] at hshown
    exact ⟨k, hcur, hshown, trivial⟩
  | logged hpc =>
    rw [hpc] at hshown
    -- the display starts
    simp only [htest, Bool.false_eq_true, if_false]
    exact ⟨k, hcur, hshown, Nat.succ_pos 15⟩
  | convertWord hpc _ =>
    rw [hpc] at hplace
    exact hplace.elim
  | send hpc _ _ =>
    rw [hpc] at hplace
    exact hplace.elim
  | @printWord i hpc bytes =>
    rw [hpc] at hshown hplace
    have hlt : i < 16 := hplace
    have hmore : (s.shown ++ [bytes]).length = 16 * k + (i + 1) := by
      rw [List.length_append, hshown]
      rfl
    by_cases hlast : i + 1 < 16
    · simp only [hlast, if_true]
      exact ⟨k, hcur, hmore, hlast⟩
    · simp only [hlast, if_false]
      obtain rfl : i = 15 := by omega
      exact ⟨k, hcur, hmore, trivial⟩
  | busy hpc => exact ⟨k, hcur, hshown, hplace⟩
  | ready hpc =>
    rw [hpc] at hshown
    exact ⟨k, hcur, hshown, trivial⟩
  | response hpc _ =>
    rw [hpc] at hshown
    exact ⟨k, hcur, hshown, trivial⟩
  | @pop first hpc _ =>
    rw [hpc] at hshown
    cases first with
    | false => exact ⟨k, hcur, hshown, trivial⟩
    | true => exact ⟨k, hcur, hshown, trivial⟩
  | swap hpc =>
    rw [hpc] at hshown
    -- one iteration more, the other buffer
    refine ⟨k + 1, ?_, hshown, trivial⟩
    show s.current ^^^ 1 = (k + 1) % 2
    rw [hcur, xor_one_eq]

theorem shownOk_of_reachable (htest : cfg.udpMode = false) {s : Board}
    (h : (dmaLoop lw cfg stream ddr).Reachable s) : ShownOk s := by
  apply h.invariant (P := ShownOk)
  · exact ⟨0, rfl, rfl, trivial⟩
  · intro s a t hstep hs
    cases a with
    | cpu sendOk => exact hs.cpuStep htest (stepped_of_cpuStep hstep)
    | engine act =>
      obtain ⟨p, -, rfl⟩ := Option.map_eq_some_iff.mp hstep
      exact hs

/-! ## Displays -/

/-- **When a display is safe**: while `print_data` runs, the transfer into buffer `next` is under
way and the one before it was completed last; the display reads the bytes of that transfer and
nothing of buffer `next` exactly in the iterations with an even number, counted from 0, and when
the generated engine counts at least 128 bytes of a chunk. -/
theorem display_iff (cfg : DmaConfig) (htest : cfg.udpMode = false)
    (hmap : 2 * cfg.chunkBytes.toNat ≤ ddrMapSize) (stream ddr : ℕ → Byte) (s : Board)
    (h : (dmaLoop lengthWidth cfg stream ddr).Reachable s) (i : ℕ) (hpc : s.pc = .print i) :
    ∃ m, InFlight lengthWidth stream s.engine s.ddr (bufAddr cfg s.next) cfg.chunkBytes
        ((m + 1) * consumed lengthWidth cfg.chunkBytes) ∧
      (DisplaySafe lengthWidth cfg stream m s ↔
        2 ∣ s.shown.length / 16 ∧ 128 ≤ cfg.chunkBytes.toNat % 2 ^ 18) := by
  have hsup : Supported lengthWidth cfg :=
    ⟨hmap, fun hudp => absurd (htest.symm.trans hudp) (by decide),
      fun hudp => absurd (htest.symm.trans hudp) (by decide)⟩
  obtain ⟨m, hinv⟩ := inv_of_reachable hsup h
  obtain ⟨k, hcur, hshown, hplace⟩ := shownOk_of_reachable htest h
  rw [hpc] at hshown hplace
  have hlt : i < 16 := hplace
  have hcpu := hinv.cpu
  have hengine := hinv.engine
  simp only [CpuOk, hpc] at hcpu
  simp only [EngineOk, hpc, Pc.stage] at hengine
  obtain ⟨n, rfl⟩ : ∃ n, m = n + 1 := ⟨m - 1, by have := hcpu.1; omega⟩
  have hcurrent : s.current = n % 2 := hinv.current_eq
  have hnext : s.next = (n + 1) % 2 := by
    rw [hinv.next_eq, Nat.add_sub_cancel]
    omega
  -- the iteration is number `k`
  have hk : s.shown.length / 16 = k := by
    rw [hshown]
    show (16 * k + i) / 16 = k
    omega
  refine ⟨n, ?_, ?_⟩
  · rw [hnext]
    exact hengine
  · rw [hk, Nat.dvd_iff_mod_eq_zero, ← hcur]
    constructor
    · exact fun hsafe => hsafe.current_eq (by omega)
    · rintro ⟨hzero, hsize⟩
      have hheld := hinv.held (by simp [hpc]) n rfl (Or.inr (by omega))
      have heven : n % 2 = 0 := hcurrent.symm.trans hzero
      have hbase : wordBase (bufAddr cfg 0) = ddrBufferBase.toNat := by
        simp [hsup.wordBase_bufAddr, bufOffset]
      rw [Holds, heven, hbase] at hheld
      exact displaySafe_of_held hzero (by omega) hsize hheld

/-- Chunks of 128 bytes, in test mode. -/
def testChunks : DmaConfig :=
  ⟨128, false, false⟩

/-- From the first register access up to the first display. -/
def firstDisplay : List DmaAct :=
  [.cpu true, .cpu true, .cpu true, .engine (.write 128), .engine .done, .cpu true, .cpu true,
    .cpu true, .cpu true, .cpu true, .cpu true, .cpu true]

/-- The first display is a safe one. -/
theorem display_first :
    ∃ s m, (dmaLoop lengthWidth testChunks (BitVec.ofNat 8) (BitVec.ofNat 8)).run
        (Board.init (BitVec.ofNat 8)) firstDisplay = some s ∧ s.pc = .print 0 ∧
      DisplaySafe lengthWidth testChunks (BitVec.ofNat 8) m s := by
  have hrun : ∃ s, (dmaLoop lengthWidth testChunks (BitVec.ofNat 8) (BitVec.ofNat 8)).run
      (Board.init (BitVec.ofNat 8)) firstDisplay = some s ∧ s.pc = .print 0 ∧ s.shown = [] :=
    ⟨_, rfl, rfl, rfl⟩
  obtain ⟨s, hrun, hpc, hshown⟩ := hrun
  obtain ⟨m, -, hsafe⟩ := display_iff testChunks rfl (by decide) (BitVec.ofNat 8) (BitVec.ofNat 8)
    s ⟨firstDisplay, hrun⟩ 0 hpc
  refine ⟨s, m, hrun, hpc, hsafe.mpr ⟨?_, by decide⟩⟩
  rw [hshown]
  decide

/-- From there to the second display. -/
def secondDisplay : List DmaAct :=
  List.replicate 16 (.cpu true) ++ [.engine (.write 128), .engine .done, .cpu true, .cpu true,
    .cpu true, .cpu true, .cpu true, .cpu true, .cpu true, .cpu true]

/-- The second display starts with bytes that the engine is about to write. -/
theorem display_second :
    ∃ s r d, (dmaLoop lengthWidth testChunks (BitVec.ofNat 8) (BitVec.ofNat 8)).run
        (Board.init (BitVec.ofNat 8)) (firstDisplay ++ secondDisplay) = some s ∧
      cpuReads testChunks s = some r ∧ s.engine.descs = [d] ∧ d.written = 0 ∧
      d.addr.toNat = ddrBufferBase.toNat + r.offset ∧ r.size ≤ d.length.toNat ∧
      ∀ m, ¬ DisplaySafe lengthWidth testChunks (BitVec.ofNat 8) m s := by
  refine ⟨_, ⟨0, 8⟩, ⟨0x01000000, 128, 0⟩, rfl, rfl, rfl, rfl, rfl, by decide, ?_⟩
  intro m hsafe
  obtain ⟨hapart, -⟩ := hsafe 0 (by decide) ⟨0, 8⟩ rfl
  exact hapart 0 (by decide) (by decide) (by decide)

end Rf215Sdr.Hps
