import Rf215Sdr.Fpga.WriteMaster

/-!
# The Dispatcher of the DMA Controller

Model of `dispatcher.v` with `descriptor_buffers.v`, `fifo_with_byteenables.v`,
`write_signal_breakout.v`, `csr_block.v` and `response_block.v`, as `soc_system_msgdma_0.v`
instantiates them: stream to memory, 256 descriptors of 128 bits, responses read by the host.
Interrupts, watermarks, sequence numbers and the other status bits, which the host does not look
at, are left out.

A descriptor is assembled lane by lane in the next free word of the descriptor FIFO and is
pushed by the write that sets its top bit. The memory of that FIFO and the response FIFO are
vendor cells: the memory shows a word two edges after it was addressed, and anything at all where
a word is addressed and written at once.
-/

namespace Rf215Sdr.Fpga

open Rf215Sdr.Lib

/-! ## Descriptors and responses -/

/-- The bytes of a descriptor, by lane. -/
abbrev DescriptorWord := Fin 16 → Byte

namespace DescriptorWord

variable (w : DescriptorWord)

/-- `write_address[31:0]`, bits 63 to 32. -/
def writeAddress : BitVec 32 :=
  w 7 ++ w 6 ++ w 5 ++ w 4

/-- `write_length`, bits 95 to 64. -/
def writeLength : BitVec 32 :=
  w 11 ++ w 10 ++ w 9 ++ w 8

/-- `write_park`, bit 107. -/
def writePark : Bool :=
  (w 13).getLsbD 3

/-- `write_end_on_eop`, bit 108. -/
def writeEndOnEop : Bool :=
  (w 13).getLsbD 4

/-- The command as `write_signal_breakout` packs it. -/
def command : MasterCommand :=
  ⟨w.writeAddress, w.writeLength, w.writeEndOnEop⟩

/-- The lanes enabled are overwritten. -/
def merge (writeByteenables : BitVec 16) (writeData : DescriptorWord) : DescriptorWord :=
  fun k => if writeByteenables.getLsbD k then writeData k else w k

end DescriptorWord

/-- `fifo_input` of the response FIFO. -/
structure ResponseWord where
  actualBytesTransferred : BitVec 32
  error : BitVec 8
  earlyTermination : Bool
  deriving DecidableEq, Repr

/-- The response port of the write master. -/
structure MasterResponse where
  valid : Bool
  word : ResponseWord
  /-- `reset_delayed`. -/
  resetStalled : Bool

/-- `src_response_valid` and `src_response_data`; there are no errors on this stream. -/
def WriteMaster.response (s : WriteMaster) (swReset : Bool) : MasterResponse where
  valid := s.responseValid
  word := ⟨s.actualBytesTransferredCounter.setWidth 32, 0, s.earlyTerminationD1⟩
  resetStalled := !s.resetTaken && swReset

/-! ## The descriptor FIFO -/

/-- The registers of `fifo_with_byteenables` with a latency of 2. -/
structure DescriptorFifo where
  writeAddress : BitVec 8
  readAddress : BitVec 8
  internalUsed : BitVec 9
  mem : BitVec 8 → DescriptorWord
  /-- The word addressed at the last edge. -/
  addressed : DescriptorWord
  readData : DescriptorWord

namespace DescriptorFifo

/-- The memory is not reset. -/
def reset (mem : BitVec 8 → DescriptorWord) (addressed readData : DescriptorWord) :
    DescriptorFifo where
  writeAddress := 0
  readAddress := 0
  internalUsed := 0
  mem := mem
  addressed := addressed
  readData := readData

variable (s : DescriptorFifo)

def empty : Bool :=
  s.readAddress == s.writeAddress && s.internalUsed == 0

def full : Bool :=
  s.writeAddress == s.readAddress && s.internalUsed != 0

/-- The word being written as it will be. -/
def nextWord (writeByteenables : BitVec 16) (writeData : DescriptorWord) : DescriptorWord :=
  (s.mem s.writeAddress).merge writeByteenables writeData

/-- One rising edge of `clk` with `areset` low. -/
def clock (write : Bool) (writeByteenables : BitVec 16) (writeData : DescriptorWord)
    (push pop sreset : Bool) (clash : DescriptorWord) : DescriptorFifo where
  writeAddress :=
    if sreset then 0 else if push then s.writeAddress + 1 else s.writeAddress
  readAddress :=
    if sreset then 0 else if pop then s.readAddress + 1 else s.readAddress
  internalUsed :=
    if sreset then 0
    else
      match push, pop with
      | false, true => s.internalUsed - 1
      | true, false => s.internalUsed + 1
      | _, _ => s.internalUsed
  mem := fun a =>
    if write && a == s.writeAddress then s.nextWord writeByteenables writeData else s.mem a
  addressed :=
    if write && s.readAddress == s.writeAddress then clash else s.mem s.readAddress
  readData := s.addressed

end DescriptorFifo

/-! ## Ports and registers -/

/-- What the host puts on the three slave ports at one edge. -/
structure HostIn where
  descriptorWrite : Bool
  descriptorByteenable : BitVec 16
  descriptorWritedata : DescriptorWord
  csrAddress : BitVec 3
  csrWrite : Bool
  csrByteenable : BitVec 4
  csrWritedata : BitVec 32
  mmResponseRead : Bool
  /-- `mm_response_address`, one bit wide. -/
  mmResponseAddress : Bool
  mmResponseByteenable : BitVec 4

/-- What the vendor cells leave open at one edge. -/
structure DispatcherCells where
  /-- The word shown where a word is addressed and written at once. -/
  clash : DescriptorWord
  /-- The response FIFO does not show its word yet. -/
  lateResponse : Bool

/-- The registers of the dispatcher. -/
structure Dispatcher where
  allTransfersDone : Bool
  writeCommandEmptyD1 : Bool
  writeCommandEmptyD2 : Bool
  descriptors : DescriptorFifo
  control : BitVec 32
  swReset : Bool
  responses : List ResponseWord

/-- `RESPONSE_FIFO_DEPTH`. -/
def responseFifoDepth : ℕ := 512

/-- The bytes of a register enabled are overwritten. -/
def mergeRegister (old new : BitVec 32) (byteenable : BitVec 4) : BitVec 32 :=
  (if byteenable.getLsbD 3 then new else old).extractLsb' 24 8 ++
    (if byteenable.getLsbD 2 then new else old).extractLsb' 16 8 ++
    (if byteenable.getLsbD 1 then new else old).extractLsb' 8 8 ++
    (if byteenable.getLsbD 0 then new else old).extractLsb' 0 8

namespace Dispatcher

/-- The registers while `reset` is high. -/
def reset (mem : BitVec 8 → DescriptorWord) (addressed readData : DescriptorWord) :
    Dispatcher where
  allTransfersDone := true
  writeCommandEmptyD1 := false
  writeCommandEmptyD2 := false
  descriptors := DescriptorFifo.reset mem addressed readData
  control := 0
  swReset := false
  responses := []

/-! ## Combinational signals -/

section Signals

variable (s : Dispatcher) (h : HostIn) (c : DispatcherCells) (commandReady : Bool)
  (r : MasterResponse)

def stop : Bool := s.control.getLsbD 0

/-- `sw_reset_strobe`. -/
def swResetStrobe : Bool := s.control.getLsbD 1

def stopOnError : Bool := s.control.getLsbD 2

def stopOnEarlyTermination : Bool := s.control.getLsbD 3

def stopDescriptors : Bool := s.control.getLsbD 5

def responseFifoEmpty : Bool :=
  s.responses.isEmpty || c.lateResponse

def responseFifoFull : Bool :=
  s.responses.length == responseFifoDepth

/-- `waitrequest` of the descriptor port. -/
def descriptorWaitrequest : Bool :=
  s.descriptors.full || s.swReset

def writeEn : Bool :=
  h.descriptorWrite && !s.descriptorWaitrequest

def goBit : Bool :=
  (h.descriptorWritedata 15).getLsbD 7 && h.descriptorWrite &&
    h.descriptorByteenable.getLsbD 15 && !s.descriptorWaitrequest

def stopIssuingCommands : Bool :=
  s.responseFifoFull || s.stopDescriptors

def writeCommandValid : Bool :=
  !s.stop && !s.swReset && !s.stopIssuingCommands && !s.descriptors.empty &&
    !s.writeCommandEmptyD1 && !s.writeCommandEmptyD2

def writeParkEnable : Bool :=
  s.descriptors.readData.writePark && s.descriptors.internalUsed == 1

def issueWriteDescriptor : Bool :=
  s.writeCommandValid && commandReady

def popWriteFifo : Bool :=
  s.issueWriteDescriptor commandReady && !s.writeParkEnable

/-- `done_strobe`: the dispatcher is always ready for a response. -/
def doneStrobe : Bool := r.valid

def busy : Bool := !s.allTransfersDone

/-- The control register is written. -/
def writesControl : Bool :=
  h.csrAddress == 1 && h.csrWrite

def setSwReset : Bool :=
  writesControl h && h.csrByteenable.getLsbD 0 && h.csrWritedata.getLsbD 1

def clearSwReset : Bool :=
  s.swReset && !r.resetStalled

def clearStop : Bool :=
  writesControl h && h.csrByteenable.getLsbD 0 && !h.csrWritedata.getLsbD 0

def setStoppedOnError : Bool :=
  doneStrobe r && s.stopOnError && r.word.error != 0

def setStoppedOnEarlyTermination : Bool :=
  doneStrobe r && s.stopOnEarlyTermination && r.word.earlyTermination

def setStop : Bool :=
  (writesControl h && h.csrByteenable.getLsbD 0 && h.csrWritedata.getLsbD 0) ||
    s.setStoppedOnError r || s.setStoppedOnEarlyTermination r

/-- `fifo_read` of the response FIFO. -/
def responseFifoRead : Bool :=
  h.mmResponseRead && !s.responseFifoEmpty c && h.mmResponseAddress &&
    h.mmResponseByteenable.getLsbD 3

/-- Bit 0 of the control register at the next edge. -/
def nextStop : Bool :=
  if s.setStop h r then true else if clearStop h then false else s.stop

end Signals

/-- One rising edge of `clk` with `reset` low. -/
def clock (s : Dispatcher) (h : HostIn) (c : DispatcherCells) (commandReady : Bool)
    (r : MasterResponse) : Dispatcher where
  allTransfersDone :=
    if (doneStrobe r && s.descriptors.empty) || s.swReset then true
    else if !s.descriptors.empty then false
    else s.allTransfersDone
  writeCommandEmptyD1 := s.descriptors.empty
  writeCommandEmptyD2 := s.writeCommandEmptyD1
  descriptors :=
    s.descriptors.clock (s.writeEn h) h.descriptorByteenable h.descriptorWritedata (s.goBit h)
      (s.popWriteFifo commandReady) s.swReset c.clash
  control :=
    if s.swResetStrobe then 0
    else
      (mergeRegister s.control h.csrWritedata
          (if writesControl h then h.csrByteenable else 0)).extractLsb' 1 31 ++
        BitVec.ofBool (s.nextStop h r)
  swReset := if setSwReset h then true else if s.clearSwReset r then false else s.swReset
  responses :=
    if s.swReset then []
    else
      (if s.responseFifoRead h c then s.responses.tail else s.responses) ++
        (if doneStrobe r then [r.word] else [])

/-- The descriptor pushed at an edge. -/
def pushes (s : Dispatcher) (h : HostIn) : Option DescriptorWord :=
  if s.goBit h then
    some (s.descriptors.nextWord h.descriptorByteenable h.descriptorWritedata)
  else none

end Dispatcher

end Rf215Sdr.Fpga
