import Mathlib.Data.BitVec
import Rf215Sdr.Fpga.DcFifo

/-!
# The Dual-Clock FIFO Is a Queue

The invariant speaks of counts that never wrap: how many values were written and read, and
for each pointer register, code and synchronizer stage the earlier count it still holds. All of
them stand in one chain, from the reads the writer knows of up to the writes, and the chain is
never longer than the memory. The registers hold these counts modulo `2 ^ (ADDR_WIDTH + 1)`.

## Main results

- `fifoInv_clock`: every edge keeps the invariant and acts on the queue.
- `dcFifo_refines`: every run is a run of a queue with room for `2 ^ ADDR_WIDTH + 1` values.
- `dcFifo_drains`: nothing stays inside once the reader is ready for long enough.
-/

namespace Rf215Sdr.Fpga

open Rf215Sdr.Lib

variable {ADDR_WIDTH : ℕ} {α : Type*}

/-! ## Counts behind the pointers -/

/-- The counts held by the registers of both sides. `rdSeen` and `wrSeen` are those `full` and
`empty` were computed from. -/
structure FifoCounts where
  rdSeen : ℕ
  rd3 : ℕ
  rd2 : ℕ
  rd1 : ℕ
  rdGray : ℕ
  rd : ℕ
  wrSeen : ℕ
  wr3 : ℕ
  wr2 : ℕ
  wr1 : ℕ
  wrGray : ℕ
  wr : ℕ

namespace FifoCounts

/-- Nothing written or read yet. -/
def start : FifoCounts :=
  ⟨0, 0, 0, 0, 0, 0, 0, 0, 0, 0, 0, 0⟩

/-- The chain from the oldest known read to the newest write. -/
structure Ordered (depth : ℕ) (c : FifoCounts) : Prop where
  rdSeen_le : c.rdSeen ≤ c.rd3
  rd3_le : c.rd3 ≤ c.rd2
  rd2_le : c.rd2 ≤ c.rd1
  rd1_le : c.rd1 ≤ c.rdGray
  rdGray_le : c.rdGray ≤ c.rd
  rd_le_succ : c.rd ≤ c.rdGray + 1
  rd_le : c.rd ≤ c.wrSeen
  wrSeen_le : c.wrSeen ≤ c.wr3
  wr3_le : c.wr3 ≤ c.wr2
  wr2_le : c.wr2 ≤ c.wr1
  wr1_le : c.wr1 ≤ c.wrGray
  wrGray_le : c.wrGray ≤ c.wr
  wr_le_succ : c.wr ≤ c.wrGray + 1
  room : c.wr ≤ c.rdSeen + depth

/-- An edge of `in_clk` that writes `n` values and samples the read count `k`. -/
def inEdge (c : FifoCounts) (n k : ℕ) : FifoCounts :=
  { c with wr := c.wr + n, wrGray := c.wr, rd1 := k, rd2 := c.rd1, rd3 := c.rd2, rdSeen := c.rd3 }

/-- An edge of `out_clk` that reads `n` values and samples the write count `k`. -/
def outEdge (c : FifoCounts) (n k : ℕ) : FifoCounts :=
  { c with rd := c.rd + n, rdGray := c.rd, wr1 := k, wr2 := c.wr1, wr3 := c.wr2, wrSeen := c.wr3 }

theorem ordered_start (depth : ℕ) : start.Ordered depth := by
  constructor <;> simp [start]

variable {depth n m k l : ℕ} {c : FifoCounts}

theorem Ordered.inEdge (h : c.Ordered depth) (hn : n ≤ 1)
    (hroom : 0 < n → c.wr < c.rdSeen + depth) : (c.inEdge n c.rdGray).Ordered depth := by
  obtain ⟨h₁, h₂, h₃, h₄, h₅, h₆, h₇, h₈, h₉, h₁₀, h₁₁, h₁₂, h₁₃, h₁₄⟩ := h
  constructor <;> simp only [FifoCounts.inEdge] <;> omega

theorem Ordered.outEdge (h : c.Ordered depth) (hn : n ≤ 1) (hready : 0 < n → c.rd < c.wrSeen) :
    (c.outEdge n c.wrGray).Ordered depth := by
  obtain ⟨h₁, h₂, h₃, h₄, h₅, h₆, h₇, h₈, h₉, h₁₀, h₁₁, h₁₂, h₁₃, h₁₄⟩ := h
  constructor <;> simp only [FifoCounts.outEdge] <;> omega

/-- Both edges at once: each side samples the other's count from before or after. -/
theorem Ordered.bothEdges (h : c.Ordered depth) (hn : n ≤ 1)
    (hroom : 0 < n → c.wr < c.rdSeen + depth) (hm : m ≤ 1) (hready : 0 < m → c.rd < c.wrSeen)
    (hk : c.rdGray ≤ k ∧ k ≤ c.rd) (hl : c.wrGray ≤ l ∧ l ≤ c.wr) :
    ((c.inEdge n k).outEdge m l).Ordered depth := by
  obtain ⟨h₁, h₂, h₃, h₄, h₅, h₆, h₇, h₈, h₉, h₁₀, h₁₁, h₁₂, h₁₃, h₁₄⟩ := h
  constructor <;> simp only [FifoCounts.outEdge, FifoCounts.inEdge] <;> omega

end FifoCounts

/-! ## The two sides and the memory -/

theorem getElem?_append_of_eq_some {l l' : List α} {i : ℕ} {a : α} (h : l[i]? = some a) :
    (l ++ l')[i]? = some a := by
  obtain ⟨hi, -⟩ := List.getElem?_eq_some_iff.mp h
  rw [List.getElem?_append_left hi, h]

theorem eq_true_of_toNat_pos {b : Bool} (h : 0 < b.toNat) : b = true := by
  cases b
  · cases h
  · rfl

/-- The writer's registers hold its counts. -/
structure WriterInv (s : InSide ADDR_WIDTH) (c : FifoCounts) : Prop where
  inWrPtr : s.inWrPtr = BitVec.ofNat _ c.wr
  inWrPtrGray : s.inWrPtrGray = Gray.code _ c.wrGray
  readCrosser : s.readCrosser = ⟨Gray.code _ c.rd1, Gray.code _ c.rd2, Gray.code _ c.rd3⟩
  full : s.full = decide (c.wr = c.rdSeen + 2 ^ ADDR_WIDTH)

/-- The reader's registers hold its counts, and its payload registers the values in turn. -/
structure ReaderInv (s : OutSide ADDR_WIDTH α) (written : List α) (c : FifoCounts) : Prop where
  outRdPtr : s.outRdPtr = BitVec.ofNat _ c.rd
  outRdPtrGray : s.outRdPtrGray = Gray.code _ c.rdGray
  writeCrosser : s.writeCrosser = ⟨Gray.code _ c.wr1, Gray.code _ c.wr2, Gray.code _ c.wr3⟩
  empty : s.empty = decide (c.rd = c.wrSeen)
  shown : s.empty = false → written[c.rd]? = some s.internalOutPayload
  out : s.outValid = true → ∃ d, c.rd = d + 1 ∧ written[d]? = some s.outPayload

/-- The invariant of the whole FIFO after the values `written` were accepted. -/
structure FifoInv (s : DcFifo ADDR_WIDTH α) (written : List α) (c : FifoCounts) : Prop where
  ordered : c.Ordered (2 ^ ADDR_WIDTH)
  writer : WriterInv s.inSide c
  reader : ReaderInv s.outSide written c
  length : written.length = c.wr
  mem : ∀ i, c.rdSeen ≤ i → i < c.wr → written[i]? = some (s.mem (BitVec.ofNat _ i))

/-- The number of values handed to the reader: the one in the output register is not. -/
def deliveredCount (s : DcFifo ADDR_WIDTH α) (c : FifoCounts) : ℕ :=
  c.rd - s.outSide.outValid.toNat

theorem fifoInv_reset [Zero α] (mem : BitVec ADDR_WIDTH → α) (shown : α) :
    FifoInv (DcFifo.reset mem shown) [] FifoCounts.start where
  ordered := FifoCounts.ordered_start _
  writer := by
    constructor
    case full =>
      have hpos := Nat.two_pow_pos ADDR_WIDTH
      show false = decide (0 = 0 + 2 ^ ADDR_WIDTH)
      exact (decide_eq_false (by omega)).symm
    all_goals simp [DcFifo.reset, FifoCounts.start, Gray.code, Gray.encode]
  reader := by
    constructor <;> simp [DcFifo.reset, FifoCounts.start, Gray.code, Gray.encode]
  length := rfl
  mem := by simp [FifoCounts.start]

/-! ## One edge of `in_clk` -/

section Writer

variable {s : InSide ADDR_WIDTH} {c : FifoCounts}

theorem WriterInv.memWrPtr (h : WriterInv s c) : s.memWrPtr = BitVec.ofNat _ c.wr := by
  rw [InSide.memWrPtr, h.inWrPtr]
  exact BitVec.setWidth_ofNat_of_le (Nat.le_succ _) _

/-- A value is written only into a FIFO that has room. -/
theorem WriterInv.room (h : WriterInv s c) (hc : c.Ordered (2 ^ ADDR_WIDTH)) {i : FifoIn α}
    (hw : s.writes i = true) : c.wr < c.rdSeen + 2 ^ ADDR_WIDTH := by
  have hfree : s.full = false := by
    simp only [InSide.writes, InSide.inReady, Bool.and_eq_true, Bool.not_eq_true'] at hw
    exact hw.2
  rw [h.full, decide_eq_false_iff_not] at hfree
  exact Nat.lt_of_le_of_ne hc.room hfree

theorem WriterInv.nextInWrPtr (h : WriterInv s c) (i : FifoIn α) :
    s.nextInWrPtr i = BitVec.ofNat _ (c.wr + (s.writes i).toNat) := by
  unfold InSide.nextInWrPtr
  rw [h.inWrPtr]
  cases s.writes i
  · rfl
  · exact (Gray.ofNat_succ _).symm

/-- The writer's side after an edge that samples the code of `k` reads. -/
theorem WriterInv.clock (h : WriterInv s c) (hc : c.Ordered (2 ^ ADDR_WIDTH)) (i : FifoIn α)
    {k : ℕ} : WriterInv (s.clock i (Gray.code _ k)) (c.inEdge (s.writes i).toNat k) where
  inWrPtr := h.nextInWrPtr i
  inWrPtrGray := by
    rw [InSide.clock, h.inWrPtr, bin2gray_ofNat]
    rfl
  readCrosser := by
    rw [InSide.clock, h.readCrosser]
    rfl
  full := by
    have hrd : s.nextInRdPtr = BitVec.ofNat _ c.rd3 := by
      rw [InSide.nextInRdPtr, h.readCrosser]
      exact gray2bin_code c.rd3
    have hle : c.rd3 ≤ c.wr + (s.writes i).toNat := by
      obtain ⟨-, h₂, h₃, h₄, h₅, -, h₇, h₈, h₉, h₁₀, h₁₁, h₁₂, -, -⟩ := hc
      omega
    have hroom : c.wr + (s.writes i).toNat ≤ c.rd3 + 2 ^ ADDR_WIDTH := by
      have hseen := hc.rdSeen_le
      cases hw : s.writes i
      · have := hc.room
        simp only [Bool.toNat_false]
        omega
      · have := h.room hc hw
        simp only [Bool.toNat_true]
        omega
    show (_ && _) = _
    rw [h.nextInWrPtr, hrd, BitVec.setWidth_ofNat_of_le (Nat.le_succ _),
      BitVec.setWidth_ofNat_of_le (Nat.le_succ _)]
    exact Gray.wrapped_eq_and_top_ne hle hroom

/-- The other side's edge leaves the writer's counts alone. -/
theorem WriterInv.outEdge (h : WriterInv s c) (m l : ℕ) : WriterInv s (c.outEdge m l) :=
  ⟨h.inWrPtr, h.inWrPtrGray, h.readCrosser, h.full⟩

end Writer

/-! ## One edge of `out_clk` -/

section Reader

variable {s : OutSide ADDR_WIDTH α} {written : List α} {c : FifoCounts}

/-- A value moves to the output register. -/
def OutSide.pops (s : OutSide ADDR_WIDTH α) (outReady : Bool) : Bool :=
  s.internalOutReady outReady && s.internalOutValid

theorem ReaderInv.lt_of_pops (h : ReaderInv s written c) (hc : c.Ordered (2 ^ ADDR_WIDTH))
    {outReady : Bool} (hp : s.pops outReady = true) : c.rd < c.wrSeen := by
  have hsome : s.empty = false := by
    simp only [OutSide.pops, OutSide.internalOutValid, Bool.and_eq_true, Bool.not_eq_true'] at hp
    exact hp.2
  rw [h.empty, decide_eq_false_iff_not] at hsome
  exact Nat.lt_of_le_of_ne hc.rd_le hsome

theorem ReaderInv.nextOutRdPtr (h : ReaderInv s written c) (outReady : Bool) :
    s.nextOutRdPtr outReady = BitVec.ofNat _ (c.rd + (s.pops outReady).toNat) := by
  unfold OutSide.nextOutRdPtr OutSide.pops
  rw [h.outRdPtr]
  cases s.internalOutReady outReady && s.internalOutValid
  · rfl
  · exact (Gray.ofNat_succ _).symm

theorem ReaderInv.memRdPtr (h : ReaderInv s written c) (outReady : Bool) :
    s.memRdPtr outReady = BitVec.ofNat _ (c.rd + (s.pops outReady).toNat) := by
  rw [OutSide.memRdPtr, h.nextOutRdPtr]
  exact BitVec.setWidth_ofNat_of_le (Nat.le_succ _) _

/-- A value moves on only if it is known to be written. -/
theorem ReaderInv.next_le (h : ReaderInv s written c) (hc : c.Ordered (2 ^ ADDR_WIDTH))
    (outReady : Bool) : c.rd + (s.pops outReady).toNat ≤ c.wr3 := by
  have hseen := hc.wrSeen_le
  cases hp : s.pops outReady
  · have := hc.rd_le
    simp only [Bool.toNat_false]
    omega
  · have := h.lt_of_pops hc hp
    simp only [Bool.toNat_true]
    omega

theorem ReaderInv.empty_clock (h : ReaderInv s written c) (hc : c.Ordered (2 ^ ADDR_WIDTH))
    (outReady : Bool) {k : ℕ} {memRead : α} :
    (s.clock outReady (Gray.code _ k) memRead).empty =
      decide (c.rd + (s.pops outReady).toNat = c.wr3) := by
  have hwr : s.nextOutWrPtr = BitVec.ofNat _ c.wr3 := by
    rw [OutSide.nextOutWrPtr, h.writeCrosser]
    exact gray2bin_code c.wr3
  have hle := h.next_le hc outReady
  have hturn : c.wr3 < c.rd + (s.pops outReady).toNat + 2 ^ (ADDR_WIDTH + 1) := by
    have hpow : 2 ^ (ADDR_WIDTH + 1) = 2 ^ ADDR_WIDTH + 2 ^ ADDR_WIDTH := by omega
    have hpos := Nat.two_pow_pos ADDR_WIDTH
    obtain ⟨h₁, h₂, h₃, h₄, h₅, -, -, -, h₉, h₁₀, h₁₁, h₁₂, -, h₁₄⟩ := hc
    omega
  show (s.nextOutRdPtr outReady == s.nextOutWrPtr) = _
  rw [h.nextOutRdPtr, hwr]
  by_cases heq : c.rd + (s.pops outReady).toNat = c.wr3
  · rw [heq, beq_self_eq_true, decide_eq_true rfl]
  · rw [decide_eq_false heq]
    exact beq_false_of_ne fun hptr => heq (Gray.eq_of_ofNat_eq hle hturn hptr)

/-- The reader's side after an edge that samples the code of `k` writes, when the memory shows
the next value that is known to be written. -/
theorem ReaderInv.clock (h : ReaderInv s written c) (hc : c.Ordered (2 ^ ADDR_WIDTH))
    (outReady : Bool) {k : ℕ} {memRead : α}
    (hread : c.rd + (s.pops outReady).toNat < c.wr3 →
      written[c.rd + (s.pops outReady).toNat]? = some memRead) :
    ReaderInv (s.clock outReady (Gray.code _ k) memRead) written
      (c.outEdge (s.pops outReady).toNat k) where
  outRdPtr := h.nextOutRdPtr outReady
  outRdPtrGray := by
    rw [OutSide.clock, h.outRdPtr, bin2gray_ofNat]
    rfl
  writeCrosser := by
    rw [OutSide.clock, h.writeCrosser]
    rfl
  empty := h.empty_clock hc outReady
  shown := by
    intro hsome
    rw [h.empty_clock hc, decide_eq_false_iff_not] at hsome
    exact hread (Nat.lt_of_le_of_ne (h.next_le hc outReady) hsome)
  out := by
    intro hvalid
    simp only [OutSide.clock, FifoCounts.outEdge, OutSide.pops] at hvalid ⊢
    cases hready : s.internalOutReady outReady
    · -- the output register keeps its value
      simp only [hready, Bool.false_and, Bool.toNat_false, Nat.add_zero, Bool.false_eq_true,
        if_false] at hvalid ⊢
      exact h.out hvalid
    · -- the output register takes the value shown by the memory
      simp only [hready, Bool.true_and, if_true] at hvalid ⊢
      rw [hvalid, Bool.toNat_true]
      refine ⟨c.rd, rfl, h.shown ?_⟩
      simpa [OutSide.internalOutValid] using hvalid

/-- The other side's edge leaves the reader's counts alone. -/
theorem ReaderInv.inEdge (h : ReaderInv s written c) (n k : ℕ) :
    ReaderInv s written (c.inEdge n k) :=
  ⟨h.outRdPtr, h.outRdPtrGray, h.writeCrosser, h.empty, h.shown, h.out⟩

/-- More values written do not matter to the reader. -/
theorem ReaderInv.append (h : ReaderInv s written c) (more : List α) :
    ReaderInv s (written ++ more) c where
  outRdPtr := h.outRdPtr
  outRdPtrGray := h.outRdPtrGray
  writeCrosser := h.writeCrosser
  empty := h.empty
  shown hsome := getElem?_append_of_eq_some (h.shown hsome)
  out hvalid := by
    obtain ⟨d, hd, hout⟩ := h.out hvalid
    exact ⟨d, hd, getElem?_append_of_eq_some hout⟩

end Reader

/-! ## The memory -/

section Memory

variable {s : DcFifo ADDR_WIDTH α} {written : List α} {c : FifoCounts}

/-- The values an edge of `in_clk` writes. -/
def DcFifo.newValues (s : DcFifo ADDR_WIDTH α) (i : FifoIn α) : List α :=
  if s.inSide.writes i then [i.inPayload] else []

theorem DcFifo.length_newValues (s : DcFifo ADDR_WIDTH α) (i : FifoIn α) :
    (s.newValues i).length = (s.inSide.writes i).toNat := by
  unfold DcFifo.newValues
  cases s.inSide.writes i <;> rfl

/-- The memory still holds every value from the oldest known read on, and now the new one. -/
theorem FifoInv.mem_writeMem (h : FifoInv s written c) (i : FifoIn α) {j : ℕ}
    (hlow : c.rdSeen ≤ j) (hj : j < c.wr + (s.inSide.writes i).toNat) :
    (written ++ s.newValues i)[j]? = some (s.writeMem i (BitVec.ofNat _ j)) := by
  unfold DcFifo.newValues DcFifo.writeMem
  cases hw : s.inSide.writes i
  · rw [hw, Bool.toNat_false, Nat.add_zero] at hj
    simp only [Bool.false_eq_true, if_false, List.append_nil]
    exact h.mem j hlow hj
  · rw [hw, Bool.toNat_true] at hj
    have hroom := h.writer.room h.ordered hw
    simp only [if_true, h.writer.memWrPtr]
    rcases Nat.lt_succ_iff_lt_or_eq.mp hj with hold | rfl
    · -- an older value sits elsewhere
      have hne : BitVec.ofNat ADDR_WIDTH j ≠ BitVec.ofNat ADDR_WIDTH c.wr := by
        intro heq
        have := Gray.eq_of_ofNat_eq (Nat.le_of_lt hold) (by omega) heq
        omega
      rw [Function.update_of_ne hne]
      exact getElem?_append_of_eq_some (h.mem j hlow hold)
    · rw [Function.update_self, ← h.length, List.getElem?_concat_length]

/-- **What the reader takes is what was written**: the word behind the read pointer is not
the one being written. -/
theorem FifoInv.memRead (h : FifoInv s written c) {outReady : Bool}
    (hlt : c.rd + (s.outSide.pops outReady).toNat < c.wr3) :
    written[c.rd + (s.outSide.pops outReady).toNat]? =
      some (s.mem (s.outSide.memRdPtr outReady)) := by
  rw [h.reader.memRdPtr]
  obtain ⟨h₁, h₂, h₃, h₄, h₅, -, -, -, h₉, h₁₀, h₁₁, h₁₂, -, -⟩ := h.ordered
  exact h.mem _ (by omega) (by omega)

theorem FifoInv.no_clash (h : FifoInv s written c) {i : FifoIn α} {outReady : Bool}
    (hlt : c.rd + (s.outSide.pops outReady).toNat < c.wr3) :
    (s.inSide.writes i && s.inSide.memWrPtr == s.outSide.memRdPtr outReady) = false := by
  cases hw : s.inSide.writes i
  · rfl
  · have hroom := h.writer.room h.ordered hw
    rw [Bool.true_and, h.writer.memWrPtr, h.reader.memRdPtr]
    obtain ⟨h₁, h₂, h₃, h₄, h₅, -, -, -, h₉, h₁₀, h₁₁, h₁₂, -, -⟩ := h.ordered
    apply beq_false_of_ne
    intro heq
    have := Gray.eq_of_ofNat_eq (by omega) (by omega) heq.symm
    omega

end Memory

/-! ## One edge of the FIFO -/

variable {s : DcFifo ADDR_WIDTH α} {written : List α} {c : FifoCounts}

theorem FifoInv.inClk (h : FifoInv s written c) (i : FifoIn α) :
    FifoInv (s.clock (.inClk i)) (written ++ s.newValues i)
      (c.inEdge (s.inSide.writes i).toNat c.rdGray) where
  ordered := h.ordered.inEdge (Bool.toNat_le _) fun hw =>
    h.writer.room h.ordered (eq_true_of_toNat_pos hw)
  writer := by
    simp only [DcFifo.clock, h.reader.outRdPtrGray]
    exact h.writer.clock h.ordered i
  reader := (h.reader.append _).inEdge _ _
  length := by
    rw [List.length_append, h.length, DcFifo.length_newValues]
    rfl
  mem j hlow hj := h.mem_writeMem i (Nat.le_trans h.ordered.rdSeen_le hlow) hj

theorem FifoInv.outClk (h : FifoInv s written c) (outReady : Bool) :
    FifoInv (s.clock (.outClk outReady)) written
      (c.outEdge (s.outSide.pops outReady).toNat c.wrGray) where
  ordered := h.ordered.outEdge (Bool.toNat_le _) fun hp =>
    h.reader.lt_of_pops h.ordered (eq_true_of_toNat_pos hp)
  writer := h.writer.outEdge _ _
  reader := by
    simp only [DcFifo.clock, h.writer.inWrPtrGray]
    exact h.reader.clock h.ordered outReady h.memRead
  length := h.length
  mem := h.mem

/-- At an edge of both clocks each side samples a pointer that is changing, and takes it for
one of its two values. -/
theorem FifoInv.bothClk (h : FifoInv s written c) (i : FifoIn α) (outReady : Bool)
    (wrSel rdSel : BitVec (ADDR_WIDTH + 1)) (clash : α) :
    ∃ k l, (c.rdGray ≤ k ∧ k ≤ c.rd) ∧ (c.wrGray ≤ l ∧ l ≤ c.wr) ∧
      FifoInv (s.clock (.bothClk i outReady wrSel rdSel clash)) (written ++ s.newValues i)
        ((c.inEdge (s.inSide.writes i).toNat k).outEdge (s.outSide.pops outReady).toNat l) := by
  obtain ⟨k, hklow, hkup, hk⟩ := Gray.exists_count_of_mixes h.ordered.rdGray_le
    h.ordered.rd_le_succ (Gray.mixes_mix rdSel (Gray.code (ADDR_WIDTH + 1) c.rdGray) _)
  obtain ⟨l, hllow, hlup, hl⟩ := Gray.exists_count_of_mixes h.ordered.wrGray_le
    h.ordered.wr_le_succ (Gray.mixes_mix wrSel (Gray.code (ADDR_WIDTH + 1) c.wrGray) _)
  refine ⟨k, l, ⟨hklow, hkup⟩, ⟨hllow, hlup⟩, ?_⟩
  constructor
  case ordered =>
    exact h.ordered.bothEdges (Bool.toNat_le _)
      (fun hw => h.writer.room h.ordered (eq_true_of_toNat_pos hw)) (Bool.toNat_le _)
      (fun hp => h.reader.lt_of_pops h.ordered (eq_true_of_toNat_pos hp)) ⟨hklow, hkup⟩
      ⟨hllow, hlup⟩
  case writer =>
    simp only [DcFifo.clock, h.reader.outRdPtrGray, h.reader.outRdPtr, bin2gray_ofNat, hk]
    exact (h.writer.clock h.ordered i).outEdge _ _
  case reader =>
    simp only [DcFifo.clock, h.writer.inWrPtrGray, h.writer.inWrPtr, bin2gray_ofNat, hl]
    refine ((h.reader.append _).clock h.ordered outReady fun hlt => ?_).inEdge _ _
    rw [h.no_clash hlt, if_neg Bool.false_ne_true]
    exact getElem?_append_of_eq_some (h.memRead hlt)
  case length =>
    rw [List.length_append, h.length, DcFifo.length_newValues]
    rfl
  case mem =>
    exact fun j hlow hj => h.mem_writeMem i (Nat.le_trans h.ordered.rdSeen_le hlow) hj

/-! ## Acting on the queue -/

/-- An edge of `out_clk` hands over the value in the output register, or none. -/
theorem ReaderInv.delivered {s : OutSide ADDR_WIDTH α} (h : ReaderInv s written c)
    (outReady : Bool) (g : BitVec (ADDR_WIDTH + 1)) (x : α) :
    c.rd + (s.pops outReady).toNat - (s.clock outReady g x).outValid.toNat =
      c.rd - s.outValid.toNat + (s.outValid && outReady).toNat := by
  have hpos : s.outValid = true → 0 < c.rd := by
    intro hvalid
    obtain ⟨d, hd, -⟩ := h.out hvalid
    omega
  simp only [OutSide.clock, OutSide.pops, OutSide.internalOutReady] at hpos ⊢
  by_cases hvalid : s.outValid = true
  · have := hpos hvalid
    cases outReady <;> cases s.internalOutValid <;> simp [hvalid] <;> omega
  · -- an empty output register is filled or stays empty
    cases s.internalOutValid <;> simp [hvalid]

/-- What the reader gets at an edge of `out_clk`. -/
def DcFifo.handedOver (s : DcFifo ADDR_WIDTH α) (outReady : Bool) : List α :=
  if s.outSide.outValid && outReady then [s.outSide.outPayload] else []

theorem DcFifo.length_handedOver (s : DcFifo ADDR_WIDTH α) (outReady : Bool) :
    (s.handedOver outReady).length = (s.outSide.outValid && outReady).toNat := by
  unfold DcFifo.handedOver
  cases s.outSide.outValid && outReady <;> rfl

theorem DcFifo.queueOps_inClk (s : DcFifo ADDR_WIDTH α) (i : FifoIn α) :
    s.queueOps (.inClk i) = (s.newValues i).map QueueOp.put := by
  simp only [DcFifo.queueOps, DcFifo.delivers, DcFifo.accepts, DcFifo.newValues]
  split_ifs <;> rfl

theorem DcFifo.queueOps_outClk (s : DcFifo ADDR_WIDTH α) (outReady : Bool) :
    s.queueOps (.outClk outReady) = (s.handedOver outReady).map QueueOp.get := by
  simp only [DcFifo.queueOps, DcFifo.delivers, DcFifo.accepts, DcFifo.handedOver]
  split_ifs <;> rfl

theorem DcFifo.queueOps_bothClk (s : DcFifo ADDR_WIDTH α) (i : FifoIn α) (outReady : Bool)
    (wrSel rdSel : BitVec (ADDR_WIDTH + 1)) (clash : α) :
    s.queueOps (.bothClk i outReady wrSel rdSel clash) =
      (s.handedOver outReady).map QueueOp.get ++ (s.newValues i).map QueueOp.put := by
  simp only [DcFifo.queueOps, DcFifo.delivers, DcFifo.accepts, DcFifo.handedOver,
    DcFifo.newValues]
  split_ifs <;> rfl

variable [DecidableEq α]

/-- The queue the FIFO implements: the memory and the output register hold its values. -/
abbrev fifoQueue (ADDR_WIDTH : ℕ) (α : Type*) [DecidableEq α] : System (List α) (QueueOp α) :=
  boundedQueue α (2 ^ ADDR_WIDTH + 1)

/-- The oldest value of the queue is the one in the output register. -/
theorem FifoInv.run_get (h : FifoInv s written c) (outReady : Bool) :
    (fifoQueue ADDR_WIDTH α).run (written.drop (deliveredCount s c))
        ((s.handedOver outReady).map QueueOp.get) =
      some (written.drop (deliveredCount s c + (s.handedOver outReady).length)) := by
  unfold DcFifo.handedOver
  split_ifs with hout
  · obtain ⟨hvalid, -⟩ := Bool.and_eq_true_iff.mp hout
    obtain ⟨d, hd, hpayload⟩ := h.reader.out hvalid
    obtain ⟨hlt, hget⟩ := List.getElem?_eq_some_iff.mp hpayload
    have hcount : deliveredCount s c = d := by
      rw [deliveredCount, hvalid, hd]
      rfl
    rw [hcount, List.drop_eq_getElem_cons hlt, hget]
    exact (System.run_cons_eq_some _).mpr ⟨_, boundedQueue_get.mpr rfl, rfl⟩
  · rfl

/-- A value is written only while the queue has room. -/
theorem FifoInv.run_put (h : FifoInv s written c) (i : FifoIn α) {n : ℕ}
    (hn : c.rd ≤ n + 1) (hle : n ≤ c.wr) :
    (fifoQueue ADDR_WIDTH α).run (written.drop n) ((s.newValues i).map QueueOp.put) =
      some ((written ++ s.newValues i).drop n) := by
  have hlen : n ≤ written.length := by rwa [h.length]
  rw [List.drop_append_of_le_length hlen]
  unfold DcFifo.newValues
  split_ifs with hw
  · have hroom := h.writer.room h.ordered hw
    have hbound : (written.drop n).length < 2 ^ ADDR_WIDTH + 1 := by
      rw [List.length_drop, h.length]
      obtain ⟨h₁, h₂, h₃, h₄, h₅, -, -, -, -, -, -, -, -, -⟩ := h.ordered
      omega
    exact (System.run_cons_eq_some _).mpr ⟨_, boundedQueue_put.mpr ⟨hbound, rfl⟩, rfl⟩
  · rw [List.append_nil]
    rfl

omit [DecidableEq α] in
theorem deliveredCount_bounds (s : DcFifo ADDR_WIDTH α) (c : FifoCounts) :
    c.rd ≤ deliveredCount s c + 1 ∧ deliveredCount s c ≤ c.rd := by
  unfold deliveredCount
  have := Bool.toNat_le s.outSide.outValid
  omega

omit [DecidableEq α] in
theorem FifoInv.rd_le_wr (h : FifoInv s written c) : c.rd ≤ c.wr := by
  obtain ⟨-, -, -, -, -, -, h₇, h₈, h₉, h₁₀, h₁₁, h₁₂, -, -⟩ := h.ordered
  omega

omit [DecidableEq α] in
/-- What an edge makes of the counts. -/
def CountsAfter (s : DcFifo ADDR_WIDTH α) (c : FifoCounts) :
    FifoEdge ADDR_WIDTH α → FifoCounts → Prop
  | .inClk i, c' => c' = c.inEdge (s.inSide.writes i).toNat c.rdGray
  | .outClk outReady, c' => c' = c.outEdge (s.outSide.pops outReady).toNat c.wrGray
  | .bothClk i outReady _ _ _, c' => ∃ k l, (c.rdGray ≤ k ∧ k ≤ c.rd) ∧
      (c.wrGray ≤ l ∧ l ≤ c.wr) ∧
      c' = (c.inEdge (s.inSide.writes i).toNat k).outEdge (s.outSide.pops outReady).toNat l

/-- **One edge of either clock, or of both, acts on the queue**: the values written and not
yet handed over. -/
theorem fifoInv_clock (h : FifoInv s written c) (e : FifoEdge ADDR_WIDTH α) :
    ∃ c', CountsAfter s c e c' ∧ FifoInv (s.clock e) (written ++ putsOf (s.queueOps e)) c' ∧
      (fifoQueue ADDR_WIDTH α).run (written.drop (deliveredCount s c)) (s.queueOps e) =
        some ((written ++ putsOf (s.queueOps e)).drop (deliveredCount (s.clock e) c')) := by
  obtain ⟨hlow, hup⟩ := deliveredCount_bounds s c
  have hrdwr := h.rd_le_wr
  cases e with
  | inClk i =>
    rw [DcFifo.queueOps_inClk, putsOf_map_put]
    exact ⟨_, rfl, h.inClk i, h.run_put i hlow (by omega)⟩
  | outClk outReady =>
    rw [DcFifo.queueOps_outClk, putsOf_map_get, List.append_nil]
    refine ⟨_, rfl, h.outClk outReady, ?_⟩
    have hcount := h.reader.delivered outReady s.inSide.inWrPtrGray
      (s.mem (s.outSide.memRdPtr outReady))
    rw [h.run_get, DcFifo.length_handedOver]
    exact congrArg (fun n => some (written.drop n)) hcount.symm
  | bothClk i outReady wrSel rdSel clash =>
    rw [DcFifo.queueOps_bothClk, putsOf_append, putsOf_map_get, putsOf_map_put, List.nil_append]
    obtain ⟨k, l, hk, hl, hnext⟩ := h.bothClk i outReady wrSel rdSel clash
    refine ⟨_, ⟨k, l, hk, hl, rfl⟩, hnext, ?_⟩
    have hcount := h.reader.delivered outReady
      (Gray.mix wrSel s.inSide.inWrPtrGray (bin2gray s.inSide.inWrPtr))
      (if s.inSide.writes i && s.inSide.memWrPtr == s.outSide.memRdPtr outReady then clash
        else s.mem (s.outSide.memRdPtr outReady))
    apply (System.run_append_eq_some _).mpr
    refine ⟨_, h.run_get outReady, ?_⟩
    rw [DcFifo.length_handedOver]
    have hnextle := h.reader.next_le h.ordered outReady
    obtain ⟨-, -, -, -, -, -, -, -, h₉, h₁₀, h₁₁, h₁₂, -, -⟩ := h.ordered
    rw [h.run_put i (by omega) (by unfold deliveredCount; omega)]
    exact congrArg (fun n => some ((written ++ s.newValues i).drop n)) hcount.symm

/-- The relation between the FIFO and the queue. -/
def Holds (s : DcFifo ADDR_WIDTH α) (q : List α) : Prop :=
  ∃ written c, FifoInv s written c ∧ q = written.drop (deliveredCount s c)

omit [DecidableEq α] in
theorem holds_reset [Zero α] (mem : BitVec ADDR_WIDTH → α) (shown : α) :
    Holds (DcFifo.reset mem shown) [] :=
  ⟨[], FifoCounts.start, fifoInv_reset mem shown, rfl⟩

theorem holds_clock {q : List α} (h : Holds s q) (e : FifoEdge ADDR_WIDTH α) :
    ∃ q', (fifoQueue ADDR_WIDTH α).run q (s.queueOps e) = some q' ∧ Holds (s.clock e) q' := by
  obtain ⟨written, c, hinv, rfl⟩ := h
  obtain ⟨c', -, hnext, hrun⟩ := fifoInv_clock hinv e
  exact ⟨_, hrun, _, c', hnext, rfl⟩

/-- **The FIFO is a queue.** Whatever the memory holds at first, however the edges of the two
clocks interleave or fall together, and whatever a synchronizer makes of the bits that change
while it samples, what goes in and out is a run of a queue with room for
`2 ^ ADDR_WIDTH + 1` values. -/
theorem dcFifo_refines [Zero α] (mem : BitVec ADDR_WIDTH → α) (shown : α)
    (es : List (FifoEdge ADDR_WIDTH α)) :
    ∃ q, (boundedQueue α (2 ^ ADDR_WIDTH + 1)).run []
      ((dcFifo mem shown).trace DcFifo.queueOps (DcFifo.reset mem shown) es) = some q := by
  obtain ⟨q, hrun, -⟩ := Machine.refines (m := dcFifo mem shown) (S := fifoQueue ADDR_WIDTH α)
    (R := Holds) (fun _ _ e h => holds_clock h e) (holds_reset mem shown) es
  exact ⟨q, hrun⟩

/-! ## Along a run -/

omit [DecidableEq α] in
theorem DcFifo.putsOf_queueOps (s : DcFifo ADDR_WIDTH α) (e : FifoEdge ADDR_WIDTH α) :
    putsOf (s.queueOps e) = (s.accepts e).toList := by
  unfold DcFifo.queueOps
  cases s.delivers e <;> cases s.accepts e <;> rfl

omit [DecidableEq α] in
theorem DcFifo.getsOf_queueOps (s : DcFifo ADDR_WIDTH α) (e : FifoEdge ADDR_WIDTH α) :
    getsOf (s.queueOps e) = (s.delivers e).toList := by
  unfold DcFifo.queueOps
  cases s.delivers e <;> cases s.accepts e <;> rfl

/-- After some edges: the invariant holds of all the values written, and the ones handed over
are the first of them. -/
structure FifoHistory (s : DcFifo ADDR_WIDTH α) (written delivered : List α) (c : FifoCounts) :
    Prop where
  inv : FifoInv s written c
  handed : delivered = written.take (deliveredCount s c)

/-- What an edge moves joins the history. -/
theorem FifoHistory.clock {delivered : List α} (h : FifoHistory s written delivered c)
    (e : FifoEdge ADDR_WIDTH α) :
    ∃ c', CountsAfter s c e c' ∧
      FifoHistory (s.clock e) (written ++ (s.accepts e).toList)
        (delivered ++ (s.delivers e).toList) c' := by
  obtain ⟨c', hcounts, hinv, hrun⟩ := fifoInv_clock h.inv e
  rw [DcFifo.putsOf_queueOps] at hinv hrun
  refine ⟨c', hcounts, hinv, ?_⟩
  have hlen : (written.drop (deliveredCount s c)).length ≤ 2 ^ ADDR_WIDTH + 1 := by
    have hlow := (deliveredCount_bounds s c).1
    have hpos := Nat.two_pow_pos ADDR_WIDTH
    obtain ⟨h₁, h₂, h₃, h₄, h₅, -, -, -, -, -, -, -, -, hroom⟩ := h.inv.ordered
    rw [List.length_drop, h.inv.length]
    omega
  obtain ⟨hcons, -⟩ := boundedQueue_conserves hrun hlen
  rw [DcFifo.putsOf_queueOps, DcFifo.getsOf_queueOps] at hcons
  -- both sides continue with the values that stay inside
  apply List.append_cancel_right
  calc delivered ++ (s.delivers e).toList ++ _
      = written.take (deliveredCount s c) ++ ((s.delivers e).toList ++ _) := by
        rw [h.handed, List.append_assoc]
    _ = written.take (deliveredCount s c) ++
          (written.drop (deliveredCount s c) ++ (s.accepts e).toList) := by rw [← hcons]
    _ = written ++ (s.accepts e).toList := by rw [← List.append_assoc, List.take_append_drop]
    _ = _ := (List.take_append_drop _ _).symm

omit [DecidableEq α] in
theorem fifoHistory_reset [Zero α] (mem : BitVec ADDR_WIDTH → α) (shown : α) :
    FifoHistory (DcFifo.reset mem shown) [] [] FifoCounts.start where
  inv := fifoInv_reset mem shown
  handed := rfl

variable [Zero α] (mem : BitVec ADDR_WIDTH → α) (shown : α)

/-- **The history of a run.** -/
theorem FifoHistory.run {delivered : List α} (h : FifoHistory s written delivered c)
    (es : List (FifoEdge ADDR_WIDTH α)) :
    ∃ c', FifoHistory ((dcFifo mem shown).run s es)
      (written ++ (dcFifo mem shown).events DcFifo.accepts s es)
      (delivered ++ (dcFifo mem shown).events DcFifo.delivers s es) c' := by
  induction es generalizing s written delivered c with
  | nil => exact ⟨c, by simpa using h⟩
  | cons e es ih =>
    obtain ⟨c₁, -, hnext⟩ := h.clock e
    obtain ⟨c', hlast⟩ := ih hnext
    refine ⟨c', ?_⟩
    rw [Machine.events_cons, Machine.events_cons, ← List.append_assoc, ← List.append_assoc]
    exact hlast

/-! ## Draining -/

/-- The writer offers nothing at this edge. -/
def FifoEdge.Silent : FifoEdge ADDR_WIDTH α → Prop
  | .inClk i | .bothClk i _ _ _ _ => i.inValid = false
  | .outClk _ => True

/-- `in_clk` has an edge. -/
def FifoEdge.hasIn : FifoEdge ADDR_WIDTH α → Bool
  | .inClk _ | .bothClk _ _ _ _ _ => true
  | .outClk _ => false

/-- `out_clk` has an edge. -/
def FifoEdge.hasOut : FifoEdge ADDR_WIDTH α → Bool
  | .inClk _ => false
  | .outClk _ | .bothClk _ _ _ _ _ => true

/-- The reader is ready at this edge, if it has one. -/
def FifoEdge.Ready : FifoEdge ADDR_WIDTH α → Prop
  | .inClk _ => True
  | .outClk outReady | .bothClk _ outReady _ _ _ => outReady = true

/-- After `n` edges of `out_clk` with a ready reader and a writer that has published its
pointer and stays silent: the write count has come `n` registers far, and from the fourth edge
on a value moves at every edge. -/
structure Draining (n : ℕ) (s : DcFifo ADDR_WIDTH α) (c : FifoCounts) : Prop where
  published : c.wrGray = c.wr
  first : 1 ≤ n → c.wr1 = c.wr
  second : 2 ≤ n → c.wr2 = c.wr
  third : 3 ≤ n → c.wr3 = c.wr
  seen : 4 ≤ n → c.wrSeen = c.wr
  moved : 4 ≤ n → c.wr ≤ c.rd + (2 ^ ADDR_WIDTH + 4 - n)
  handed : 5 ≤ n → c.wr ≤ deliveredCount s c + (2 ^ ADDR_WIDTH + 5 - n)

omit [DecidableEq α] [Zero α] in
theorem Draining.of_published (h : c.wrGray = c.wr) : Draining 0 s c where
  published := h
  first hn := absurd hn (by decide)
  second hn := absurd hn (by decide)
  third hn := absurd hn (by decide)
  seen hn := absurd hn (by decide)
  moved hn := absurd hn (by decide)
  handed hn := absurd hn (by decide)

omit [DecidableEq α] [Zero α] in
theorem not_writes_of_silent {i : FifoIn α} (h : i.inValid = false) (s : InSide ADDR_WIDTH) :
    (s.writes i).toNat = 0 := by
  simp only [InSide.writes, h, Bool.false_and, Bool.toNat_false]

omit [DecidableEq α] [Zero α] in
/-- A ready reader takes a value whenever one is known to be written. -/
theorem ReaderInv.pops_ready {s : OutSide ADDR_WIDTH α} (h : ReaderInv s written c) :
    s.pops true = decide (c.rd ≠ c.wrSeen) := by
  rw [OutSide.pops, OutSide.internalOutReady, Bool.true_or, Bool.true_and,
    OutSide.internalOutValid, h.empty, decide_not]

omit [DecidableEq α] [Zero α] in
theorem OutSide.outValid_clock_ready (s : OutSide ADDR_WIDTH α) (g : BitVec (ADDR_WIDTH + 1))
    (x : α) : (s.clock true g x).outValid = s.pops true := by
  simp [OutSide.clock, OutSide.pops, OutSide.internalOutReady]

omit [DecidableEq α] [Zero α] in
/-- An edge of `in_clk` alone changes nothing the reader is waiting for. -/
theorem Draining.inEdge {n : ℕ} (h : Draining n s c) {i : FifoIn α} (hi : i.inValid = false) :
    Draining n (s.clock (.inClk i)) (c.inEdge (s.inSide.writes i).toNat c.rdGray) := by
  rw [not_writes_of_silent hi]
  exact ⟨rfl, h.first, h.second, h.third, h.seen, h.moved, h.handed⟩

omit [DecidableEq α] [Zero α] in
/-- The reader's part of an edge takes the drain one step further. -/
theorem Draining.outEdge {n : ℕ} (h : Draining n s c) (hinv : FifoInv s written c)
    {s' : DcFifo ADDR_WIDTH α} {c' : FifoCounts} {g : BitVec (ADDR_WIDTH + 1)} {x : α}
    (hside : s'.outSide = s.outSide.clock true g x) (hgray : c'.wrGray = c.wr)
    (hwr : c'.wr = c.wr) (h₁ : c'.wr1 = c.wr) (h₂ : c'.wr2 = c.wr1) (h₃ : c'.wr3 = c.wr2)
    (hseen : c'.wrSeen = c.wr3) (hrd : c'.rd = c.rd + (s.outSide.pops true).toNat) :
    Draining (n + 1) s' c' where
  published := hgray.trans hwr.symm
  first _ := h₁.trans hwr.symm
  second hn := by rw [h₂, hwr, h.first (by omega)]
  third hn := by rw [h₃, hwr, h.second (by omega)]
  seen hn := by rw [hseen, hwr, h.third (by omega)]
  moved hn := by
    rw [hwr, hrd, hinv.reader.pops_ready]
    rcases Nat.lt_or_ge n 4 with hlt | hge
    · -- the memory never holds more than that
      obtain ⟨h₁, h₂, h₃, h₄, h₅, -, -, -, -, -, -, -, -, hroom⟩ := hinv.ordered
      obtain rfl : n = 3 := by omega
      simp only [Nat.reduceAdd, Nat.add_sub_cancel]
      omega
    · have hmoved := h.moved hge
      rw [h.seen hge]
      by_cases hdone : c.rd = c.wr
      · omega
      · rw [decide_eq_true hdone, Bool.toNat_true]
        omega
  handed hn := by
    have hcount : deliveredCount s' c' = c.rd := by
      rw [deliveredCount, hrd, hside, OutSide.outValid_clock_ready]
      exact Nat.add_sub_cancel _ _
    rw [hcount, hwr]
    have hmoved := h.moved (by omega)
    omega

omit [DecidableEq α] [Zero α] in
/-- **One more edge of a draining FIFO.** -/
theorem Draining.clock {n : ℕ} (h : Draining n s c) (hinv : FifoInv s written c)
    {e : FifoEdge ADDR_WIDTH α} (hsilent : e.Silent) (hready : e.Ready) {c' : FifoCounts}
    (hc : CountsAfter s c e c') : Draining (n + e.hasOut.toNat) (s.clock e) c' := by
  cases e with
  | inClk i =>
    obtain rfl := hc
    exact h.inEdge hsilent
  | outClk outReady =>
    obtain rfl : outReady = true := hready
    obtain rfl := hc
    exact h.outEdge hinv rfl h.published rfl h.published rfl rfl rfl rfl
  | bothClk i outReady wrSel rdSel clash =>
    obtain rfl : outReady = true := hready
    obtain ⟨k, l, hk, hl, rfl⟩ := hc
    rw [not_writes_of_silent hsilent]
    have hpublished := h.published
    obtain rfl : l = c.wr := by omega
    exact h.outEdge hinv rfl rfl rfl rfl rfl rfl rfl rfl

omit [DecidableEq α] [Zero α] in
/-- A silent edge accepts nothing. -/
theorem accepts_of_silent {e : FifoEdge ADDR_WIDTH α} (h : e.Silent) (s : DcFifo ADDR_WIDTH α) :
    s.accepts e = none := by
  cases e with
  | outClk outReady => rfl
  | inClk i | bothClk i _ _ _ _ =>
    have hi : i.inValid = false := h
    simp [DcFifo.accepts, InSide.writes, hi]

/-- A run of silent edges with a ready reader. -/
theorem FifoHistory.drain {n : ℕ} {delivered : List α} (h : FifoHistory s written delivered c)
    (hdrain : Draining n s c) {es : List (FifoEdge ADDR_WIDTH α)}
    (hes : ∀ e ∈ es, e.Silent ∧ e.Ready) :
    ∃ c', FifoHistory ((dcFifo mem shown).run s es) written
        (delivered ++ (dcFifo mem shown).events DcFifo.delivers s es) c' ∧
      Draining (n + es.countP FifoEdge.hasOut) ((dcFifo mem shown).run s es) c' := by
  induction es generalizing s written delivered c n with
  | nil => exact ⟨c, by simpa using h, by simpa using hdrain⟩
  | cons e es ih =>
    obtain ⟨hsilent, hready⟩ := hes e List.mem_cons_self
    obtain ⟨c₁, hcounts, hnext⟩ := h.clock e
    rw [accepts_of_silent hsilent, Option.toList_none, List.append_nil] at hnext
    obtain ⟨c', hlast, hdone⟩ := ih hnext (hdrain.clock h.inv hsilent hready hcounts)
      fun f hf => hes f (List.mem_cons_of_mem e hf)
    refine ⟨c', ?_, ?_⟩
    · rw [Machine.events_cons, ← List.append_assoc]
      exact hlast
    · have hcount : n + (e :: es).countP FifoEdge.hasOut =
          n + e.hasOut.toNat + es.countP FifoEdge.hasOut := by
        rw [List.countP_cons, Nat.add_comm (es.countP _), ← Nat.add_assoc]
        cases e.hasOut <;> rfl
      rw [hcount]
      exact hdone

omit [DecidableEq α] [Zero α] in
/-- A silent edge keeps the write pointer published, and one of `in_clk` publishes it. -/
theorem published_of_silent {e : FifoEdge ADDR_WIDTH α} (h : e.Silent) {c' : FifoCounts}
    (hc : CountsAfter s c e c') (hp : c.wrGray = c.wr ∨ e.hasIn = true) :
    c'.wrGray = c'.wr := by
  cases e with
  | outClk outReady =>
    obtain rfl := hc
    exact hp.resolve_right Bool.false_ne_true
  | inClk i =>
    obtain rfl := hc
    rw [not_writes_of_silent h]
    rfl
  | bothClk i outReady wrSel rdSel clash =>
    obtain ⟨k, l, -, -, rfl⟩ := hc
    rw [not_writes_of_silent h]
    rfl

/-- Silent edges write nothing, and one of `in_clk` publishes the write pointer. -/
theorem FifoHistory.publish {delivered : List α} (h : FifoHistory s written delivered c)
    {es : List (FifoEdge ADDR_WIDTH α)} (hes : ∀ e ∈ es, e.Silent)
    (hin : c.wrGray = c.wr ∨ ∃ e ∈ es, e.hasIn = true) :
    ∃ c', FifoHistory ((dcFifo mem shown).run s es) written
        (delivered ++ (dcFifo mem shown).events DcFifo.delivers s es) c' ∧ c'.wrGray = c'.wr := by
  induction es generalizing s delivered c with
  | nil =>
    refine ⟨c, by simpa using h, hin.resolve_right ?_⟩
    rintro ⟨e, hmem, -⟩
    cases hmem
  | cons e es ih =>
    have hsilent := hes e List.mem_cons_self
    obtain ⟨c₁, hcounts, hnext⟩ := h.clock e
    rw [accepts_of_silent hsilent, Option.toList_none, List.append_nil] at hnext
    have hrest : c₁.wrGray = c₁.wr ∨ ∃ f ∈ es, f.hasIn = true := by
      rcases hin with hp | ⟨f, hmem, hf⟩
      · exact Or.inl (published_of_silent hsilent hcounts (Or.inl hp))
      · rcases List.mem_cons.mp hmem with rfl | hlater
        · exact Or.inl (published_of_silent hsilent hcounts (Or.inr hf))
        · exact Or.inr ⟨f, hlater, hf⟩
    obtain ⟨c', hlast, hdone⟩ := ih hnext (fun f hf => hes f (List.mem_cons_of_mem e hf)) hrest
    refine ⟨c', ?_, hdone⟩
    rw [Machine.events_cons, ← List.append_assoc]
    exact hlast

/-- **Nothing stays inside.** Once the writer is silent and its clock has had an edge,
`2 ^ ADDR_WIDTH + 5` edges of `out_clk` with a ready reader hand over everything that was ever
accepted, whatever edges of `in_clk` fall between them. -/
theorem dcFifo_drains (es fs gs : List (FifoEdge ADDR_WIDTH α)) (hfs : ∀ e ∈ fs, e.Silent)
    (hin : ∃ e ∈ fs, e.hasIn = true) (hgs : ∀ e ∈ gs, e.Silent ∧ e.Ready)
    (hmany : 2 ^ ADDR_WIDTH + 5 ≤ gs.countP FifoEdge.hasOut) :
    (dcFifo mem shown).events DcFifo.delivers (DcFifo.reset mem shown) (es ++ fs ++ gs) =
      (dcFifo mem shown).events DcFifo.accepts (DcFifo.reset mem shown) es := by
  have hreset := fifoHistory_reset mem shown
  obtain ⟨c₁, hbefore⟩ := hreset.run mem shown es
  obtain ⟨c₂, hquiet, hpublished⟩ :=
    hbefore.publish mem shown hfs (Or.inr hin)
  obtain ⟨c₃, hlast, hdrained⟩ := hquiet.drain mem shown (Draining.of_published hpublished) hgs
  -- the count handed over has reached the count written
  have hmany' : 5 ≤ 0 + gs.countP FifoEdge.hasOut := by
    rw [Nat.zero_add]
    exact Nat.le_trans (Nat.le_add_left 5 _) hmany
  have hall := hdrained.handed hmany'
  rw [Nat.zero_add, Nat.sub_eq_zero_of_le hmany, Nat.add_zero, ← hlast.inv.length] at hall
  have hhanded := hlast.handed
  rw [List.take_of_length_le hall] at hhanded
  rw [List.append_assoc, Machine.events_append, Machine.events_append, ← List.append_assoc]
  simpa using hhanded

/-- A FIFO of two bytes that is full refuses the third, and hands over the two it has. -/
theorem dcFifo_drains_full :
    let es : List (FifoEdge 1 (BitVec 8)) := [.inClk ⟨true, 5⟩, .inClk ⟨true, 6⟩, .inClk ⟨true, 7⟩]
    let delivered := (dcFifo (fun _ => 0) 0).events DcFifo.delivers (DcFifo.reset (fun _ => 0) 0)
      (es ++ [.inClk ⟨false, 0⟩] ++ List.replicate 7 (.outClk true))
    delivered = [5, 6] ∧
      delivered = (dcFifo (fun _ => 0) 0).events DcFifo.accepts (DcFifo.reset (fun _ => 0) 0)
        es := by
  refine ⟨by decide +kernel, dcFifo_drains (fun _ => 0) 0 _ [.inClk ⟨false, 0⟩]
    (List.replicate 7 (.outClk true)) ?_ ?_ ?_ ?_⟩
  · intro e he
    rw [List.mem_singleton.mp he]
    rfl
  · exact ⟨_, List.mem_singleton_self _, rfl⟩
  · intro e he
    rw [List.eq_of_mem_replicate he]
    exact ⟨trivial, rfl⟩
  · decide

end Rf215Sdr.Fpga
