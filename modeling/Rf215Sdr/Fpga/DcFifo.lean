import Rf215Sdr.Lib.BoundedQueue
import Rf215Sdr.Lib.Gray

/-!
# The Dual-Clock FIFO `altera_avalon_dc_fifo`

Model of `altera_avalon_dc_fifo.v` with its synchronizers, as `soc_system.v` instantiates it
between the stream source on the LVDS clock and the width adapter on the system clock: depth
`2 ^ ADDR_WIDTH`, synchronizers of three registers, no lookahead and no pipelined pointers.

The two clocks are unrelated. An edge of the model is a rising edge of one of them, or of both
at the same instant; at such an instant a synchronizer samples a pointer that is changing, so
each bit may come out old or new, and a memory word that is written while it is read comes out
as anything (`ramstyle = "no_rw_check"`).

What it keeps and hands over is proved in `DcFifoQueue`.
-/

namespace Rf215Sdr.Fpga

open Rf215Sdr.Lib

/-! ## Gray functions -/

section Gray

variable {ADDR_WIDTH : ℕ}

/-- `function bin2gray`. -/
def bin2gray (binVal : BitVec (ADDR_WIDTH + 1)) : BitVec (ADDR_WIDTH + 1) :=
  ofBits fun i =>
    if (i : ℕ) = ADDR_WIDTH then binVal.getLsbD i
    else binVal.getLsbD (i + 1) ^^ binVal.getLsbD i

/-- `function gray2bin`: the inner loop counts `j` down from `ADDR_WIDTH` to `i + 1`. -/
def gray2bin (grayVal : BitVec (ADDR_WIDTH + 1)) : BitVec (ADDR_WIDTH + 1) :=
  ofBits fun i =>
    (List.range (ADDR_WIDTH - i)).foldl (fun acc k => acc ^^ grayVal.getLsbD (ADDR_WIDTH - k))
      (grayVal.getLsbD i)

theorem bin2gray_eq_encode (binVal : BitVec (ADDR_WIDTH + 1)) :
    bin2gray binVal = Gray.encode binVal := by
  apply BitVec.eq_of_getLsbD_eq
  intro i hi
  rw [bin2gray, getLsbD_ofBits _ ⟨i, hi⟩, Gray.getLsbD_encode]
  dsimp only
  split_ifs with htop
  · -- above the top bit there is nothing
    rw [BitVec.getLsbD_of_ge binVal (i + 1) (by omega), Bool.xor_false]
  · exact Bool.xor_comm _ _

@[simp] theorem bin2gray_ofNat (k : ℕ) :
    bin2gray (BitVec.ofNat (ADDR_WIDTH + 1) k) = Gray.code (ADDR_WIDTH + 1) k :=
  bin2gray_eq_encode _

@[simp] theorem gray2bin_code (k : ℕ) :
    gray2bin (Gray.code (ADDR_WIDTH + 1) k) = BitVec.ofNat (ADDR_WIDTH + 1) k :=
  Gray.decode_code k

end Gray

/-! ## Registers and clock edges -/

/-- `altera_dcfifo_synchronizer_bundle` with `DEPTH = 3`: one `altera_std_synchronizer_nocut`
for each bit. -/
structure SynchronizerBundle (WIDTH : ℕ) where
  dinS1 : BitVec WIDTH
  dreg0 : BitVec WIDTH
  dreg1 : BitVec WIDTH
  deriving DecidableEq, Repr

/-- One rising edge of the sampling clock, at which the first register takes `din`. -/
def SynchronizerBundle.clock {WIDTH : ℕ} (s : SynchronizerBundle WIDTH) (din : BitVec WIDTH) :
    SynchronizerBundle WIDTH where
  dinS1 := din
  dreg0 := s.dinS1
  dreg1 := s.dreg0

/-- `assign dout = dreg[depth-2]`. -/
def SynchronizerBundle.dout {WIDTH : ℕ} (s : SynchronizerBundle WIDTH) : BitVec WIDTH :=
  s.dreg1

/-- The registers clocked by `in_clk`. -/
structure InSide (ADDR_WIDTH : ℕ) where
  inWrPtr : BitVec (ADDR_WIDTH + 1)
  inWrPtrGray : BitVec (ADDR_WIDTH + 1)
  readCrosser : SynchronizerBundle (ADDR_WIDTH + 1)
  full : Bool
  deriving DecidableEq, Repr

/-- The registers clocked by `out_clk`. -/
@[ext]
structure OutSide (ADDR_WIDTH : ℕ) (α : Type*) where
  outRdPtr : BitVec (ADDR_WIDTH + 1)
  outRdPtrGray : BitVec (ADDR_WIDTH + 1)
  writeCrosser : SynchronizerBundle (ADDR_WIDTH + 1)
  empty : Bool
  internalOutPayload : α
  outValid : Bool
  outPayload : α

/-- Both sides and the memory between them. -/
structure DcFifo (ADDR_WIDTH : ℕ) (α : Type*) where
  inSide : InSide ADDR_WIDTH
  outSide : OutSide ADDR_WIDTH α
  mem : BitVec ADDR_WIDTH → α

/-- What the writer shows at an edge of `in_clk`. -/
structure FifoIn (α : Type*) where
  inValid : Bool
  inPayload : α

/-- Rising edges: of `in_clk`, of `out_clk`, or of both at once. With both, `wrSel` and `rdSel`
say which bits of the two Gray pointers are sampled as they become, and `clash` is what the
memory shows for a word being written. -/
inductive FifoEdge (ADDR_WIDTH : ℕ) (α : Type*) where
  | inClk (i : FifoIn α)
  | outClk (outReady : Bool)
  | bothClk (i : FifoIn α) (outReady : Bool) (wrSel rdSel : BitVec (ADDR_WIDTH + 1)) (clash : α)

variable {ADDR_WIDTH : ℕ} {α : Type*}

namespace InSide

/-- `assign in_ready = !full` (without `BACKPRESSURE_DURING_RESET`). -/
def inReady (s : InSide ADDR_WIDTH) : Bool :=
  !s.full

/-- `in_valid && in_ready`. -/
def writes (s : InSide ADDR_WIDTH) (i : FifoIn α) : Bool :=
  i.inValid && s.inReady

/-- `assign mem_wr_ptr = in_wr_ptr`, one bit narrower. -/
def memWrPtr (s : InSide ADDR_WIDTH) : BitVec ADDR_WIDTH :=
  s.inWrPtr.setWidth ADDR_WIDTH

def nextInWrPtr (s : InSide ADDR_WIDTH) (i : FifoIn α) : BitVec (ADDR_WIDTH + 1) :=
  if s.writes i then s.inWrPtr + 1#(ADDR_WIDTH + 1) else s.inWrPtr

def nextInRdPtr (s : InSide ADDR_WIDTH) : BitVec (ADDR_WIDTH + 1) :=
  gray2bin s.readCrosser.dout

/-- One rising edge of `in_clk`, at which `read_crosser` samples `outRdPtrGray`. -/
def clock (s : InSide ADDR_WIDTH) (i : FifoIn α) (outRdPtrGray : BitVec (ADDR_WIDTH + 1)) :
    InSide ADDR_WIDTH where
  inWrPtr := s.nextInWrPtr i
  inWrPtrGray := bin2gray s.inWrPtr
  readCrosser := s.readCrosser.clock outRdPtrGray
  full :=
    s.nextInRdPtr.setWidth ADDR_WIDTH == (s.nextInWrPtr i).setWidth ADDR_WIDTH &&
      s.nextInRdPtr.getLsbD ADDR_WIDTH != (s.nextInWrPtr i).getLsbD ADDR_WIDTH

end InSide

namespace OutSide

/-- `assign internal_out_valid = !empty`. -/
def internalOutValid (s : OutSide ADDR_WIDTH α) : Bool :=
  !s.empty

/-- `assign internal_out_ready = out_ready || !out_valid`. -/
def internalOutReady (s : OutSide ADDR_WIDTH α) (outReady : Bool) : Bool :=
  outReady || !s.outValid

def nextOutRdPtr (s : OutSide ADDR_WIDTH α) (outReady : Bool) : BitVec (ADDR_WIDTH + 1) :=
  if s.internalOutReady outReady && s.internalOutValid then s.outRdPtr + 1#(ADDR_WIDTH + 1)
  else s.outRdPtr

/-- `assign mem_rd_ptr = next_out_rd_ptr`, one bit narrower. -/
def memRdPtr (s : OutSide ADDR_WIDTH α) (outReady : Bool) : BitVec ADDR_WIDTH :=
  (s.nextOutRdPtr outReady).setWidth ADDR_WIDTH

def nextOutWrPtr (s : OutSide ADDR_WIDTH α) : BitVec (ADDR_WIDTH + 1) :=
  gray2bin s.writeCrosser.dout

/-- One rising edge of `out_clk`, at which `write_crosser` samples `inWrPtrGray` and the
memory shows `memRead`. -/
def clock (s : OutSide ADDR_WIDTH α) (outReady : Bool) (inWrPtrGray : BitVec (ADDR_WIDTH + 1))
    (memRead : α) : OutSide ADDR_WIDTH α where
  outRdPtr := s.nextOutRdPtr outReady
  outRdPtrGray := bin2gray s.outRdPtr
  writeCrosser := s.writeCrosser.clock inWrPtrGray
  empty := s.nextOutRdPtr outReady == s.nextOutWrPtr
  internalOutPayload := memRead
  outValid := if s.internalOutReady outReady then s.internalOutValid else s.outValid
  outPayload := if s.internalOutReady outReady then s.internalOutPayload else s.outPayload

end OutSide

namespace DcFifo

/-- `mem[mem_wr_ptr] <= in_payload` if the writer is heard. -/
def writeMem (s : DcFifo ADDR_WIDTH α) (i : FifoIn α) : BitVec ADDR_WIDTH → α :=
  if s.inSide.writes i then Function.update s.mem s.inSide.memWrPtr i.inPayload else s.mem

/-- One edge of either clock or of both. -/
def clock (s : DcFifo ADDR_WIDTH α) : FifoEdge ADDR_WIDTH α → DcFifo ADDR_WIDTH α
  | .inClk i =>
    { s with
      inSide := s.inSide.clock i s.outSide.outRdPtrGray
      mem := s.writeMem i }
  | .outClk outReady =>
    { s with
      outSide :=
        s.outSide.clock outReady s.inSide.inWrPtrGray (s.mem (s.outSide.memRdPtr outReady)) }
  | .bothClk i outReady wrSel rdSel clash =>
    -- each side samples the other side's pointer while that register changes
    let rdGray := Gray.mix rdSel s.outSide.outRdPtrGray (bin2gray s.outSide.outRdPtr)
    let wrGray := Gray.mix wrSel s.inSide.inWrPtrGray (bin2gray s.inSide.inWrPtr)
    let memRead :=
      if s.inSide.writes i && s.inSide.memWrPtr == s.outSide.memRdPtr outReady then clash
      else s.mem (s.outSide.memRdPtr outReady)
    { inSide := s.inSide.clock i rdGray
      outSide := s.outSide.clock outReady wrGray memRead
      mem := s.writeMem i }

/-- The registers with both resets active. The memory and its output register are not reset:
they hold `mem` and `shown`. -/
def reset [Zero α] (mem : BitVec ADDR_WIDTH → α) (shown : α) : DcFifo ADDR_WIDTH α where
  inSide :=
    { inWrPtr := 0, inWrPtrGray := 0, readCrosser := ⟨0, 0, 0⟩, full := false }
  outSide :=
    { outRdPtr := 0, outRdPtrGray := 0, writeCrosser := ⟨0, 0, 0⟩, empty := true,
      internalOutPayload := shown, outValid := false, outPayload := 0 }
  mem := mem

/-- The value taken over from the writer at an edge. -/
def accepts (s : DcFifo ADDR_WIDTH α) : FifoEdge ADDR_WIDTH α → Option α
  | .inClk i | .bothClk i _ _ _ _ => if s.inSide.writes i then some i.inPayload else none
  | .outClk _ => none

/-- The value handed to the reader at an edge: `out_valid && out_ready`. -/
def delivers (s : DcFifo ADDR_WIDTH α) : FifoEdge ADDR_WIDTH α → Option α
  | .inClk _ => none
  | .outClk outReady | .bothClk _ outReady _ _ _ =>
    if s.outSide.outValid && outReady then some s.outSide.outPayload else none

/-- What an edge does to the queue; at an edge of both clocks a value leaves before another
one enters. -/
def queueOps (s : DcFifo ADDR_WIDTH α) (e : FifoEdge ADDR_WIDTH α) : List (QueueOp α) :=
  ((s.delivers e).map QueueOp.get).toList ++ ((s.accepts e).map QueueOp.put).toList

end DcFifo

/-- The FIFO as a machine over the edges of both clocks. -/
def dcFifo [Zero α] (mem : BitVec ADDR_WIDTH → α) (shown : α) :
    Machine (DcFifo ADDR_WIDTH α) (FifoEdge ADDR_WIDTH α) where
  reset := DcFifo.reset mem shown
  step := DcFifo.clock

end Rf215Sdr.Fpga
