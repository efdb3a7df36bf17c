import Rf215Sdr.Fpga.ByteEnables
import Rf215Sdr.Fpga.DataFormatAdapter
import Rf215Sdr.Lib.Bytes
import Rf215Sdr.Lib.Memory

/-!
# The Write Master of the DMA Controller

Model of `write_master.v` with `write_burst_control.v`, `ST_to_MM_Adapter.v` and the byte enable
generator, as `soc_system_msgdma_0.v` instantiates it: 64 data bits, 18 bits of length, packets
enabled, no bursts, strides, unaligned accesses or errors. The burst control and the adapter
are wires then, and the registers that only serve unaligned accesses are left out.

The FIFO is a vendor cell. It keeps its words in order and shows the oldest; when it shows a
word, or a free place, may be later than it could.

What the master does to the memory is proved in `WriteMasterCopies`.
-/

namespace Rf215Sdr.Fpga

open Rf215Sdr.Lib

/-! ## Ports and registers -/

/-- The fields of `snk_command_data` the master uses. -/
structure MasterCommand where
  address : BitVec 32
  length : BitVec 32
  endOnEop : Bool
  deriving DecidableEq, Repr

/-- A word of `the_st_to_master_fifo`. -/
structure FifoWord where
  data : BitVec 64
  sop : Bool
  eop : Bool
  empty : BitVec 3
  deriving DecidableEq, Repr

/-- The inputs sampled at one edge. -/
structure MasterIn where
  commandValid : Bool
  command : MasterCommand
  swStop : Bool
  swReset : Bool
  responseReady : Bool
  snkValid : Bool
  snkBeat : StBeat64
  waitrequest : Bool
  /-- The FIFO does not show its word yet. -/
  lateWord : Bool
  /-- The FIFO does not show its free place yet. -/
  latePlace : Bool
  deriving DecidableEq, Repr

/-- A write of the master on the memory bus. -/
structure BusWrite where
  address : BitVec 32
  byteenable : BitVec 8
  writedata : BitVec 64
  deriving DecidableEq, Repr

/-- The registers of the master. -/
structure WriteMaster where
  addressCounter : BitVec 32
  lengthCounter : BitVec 18
  /-- `descriptor_end_on_eop_enable_d1`. -/
  endOnEopD1 : Bool
  actualBytesTransferredCounter : BitVec 19
  packetBytesBufferedD1 : BitVec 4
  doneD1 : Bool
  earlyTerminationD1 : Bool
  commandReady : Bool
  responseValid : Bool
  stopped : Bool
  resetTaken : Bool
  eopSeen : Bool
  fifo : List FifoWord
  byteEnables : Halves (Halves Unit)

/-- The bytes of a beat in the order of their addresses. -/
def StBeat64.bytes (b : StBeat64) : List Byte :=
  beBytes 8 b.data

/-- `symbol_swap`: the first symbol comes out at the lowest lane. -/
def symbolSwap (snkData : BitVec 64) : BitVec 64 :=
  snkData.extractLsb' 0 8 ++ snkData.extractLsb' 8 8 ++ snkData.extractLsb' 16 8 ++
    snkData.extractLsb' 24 8 ++ snkData.extractLsb' 32 8 ++ snkData.extractLsb' 40 8 ++
    snkData.extractLsb' 48 8 ++ snkData.extractLsb' 56 8

/-- `fifo_write_data`. -/
def StBeat64.fifoWord (b : StBeat64) : FifoWord where
  data := symbolSwap b.data
  sop := b.startofpacket
  eop := b.endofpacket
  empty := if b.endofpacket then b.empty else 0

/-- `FIFO_DEPTH`. -/
def fifoDepth : ℕ := 4096

/-- `byteenable_masks[n - 1]`: `n` ones, for `n` from 1 to 8. -/
def byteenableMask (n : BitVec 5) : BitVec 8 :=
  BitVec.ofNat 8 (2 ^ n.toNat - 1)

namespace WriteMaster

/-- The registers while `reset` is high. -/
def reset : WriteMaster where
  addressCounter := 0
  lengthCounter := 0
  endOnEopD1 := false
  actualBytesTransferredCounter := 0
  packetBytesBufferedD1 := 0
  doneD1 := true
  earlyTerminationD1 := false
  commandReady := true
  responseValid := false
  stopped := false
  resetTaken := false
  eopSeen := false
  fifo := []
  byteEnables := Halves.idle

/-! ## Control and combinational signals -/

section Signals

variable (s : WriteMaster) (i : MasterIn)

def fifoEmpty : Bool :=
  s.fifo.isEmpty || i.lateWord

def fifoFull : Bool :=
  s.fifo.length == fifoDepth || i.latePlace

/-- `buffered_data`, `buffered_eop` and `buffered_empty`: the word the FIFO shows. -/
def buffered : FifoWord :=
  s.fifo.headD ⟨0, false, false, 0⟩

/-- `done`; there is never an `extra_write` without unaligned accesses. -/
def done : Bool :=
  s.lengthCounter == 0 || (s.endOnEopD1 && s.eopSeen)

def packetBeatSize : BitVec 4 :=
  if s.eopSeen then 0 else 8 - s.buffered.empty.setWidth 4

def shortLastAccessEnable : Bool :=
  if s.endOnEopD1 then s.buffered.eop else s.lengthCounter < 8

def shortLastAccessSize : BitVec 5 :=
  if s.endOnEopD1 then s.packetBeatSize.setWidth 5 + s.packetBytesBufferedD1.setWidth 5
  else (s.lengthCounter &&& 7).setWidth 5

/-- `bytes_to_transfer`, one of the two cases of the multiplexer that are left. -/
def bytesToTransfer : BitVec 5 :=
  if s.shortLastAccessEnable then s.shortLastAccessSize else 8

def packetBytesBuffered : BitVec 4 :=
  s.packetBeatSize + s.packetBytesBufferedD1 - s.bytesToTransfer.setWidth 4

def unsupportedByteenable : BitVec 8 :=
  byteenableMask s.bytesToTransfer

/-- `write`, which is `master_write` without bursts. -/
def write : Bool :=
  !s.fifoEmpty i && !s.done && !s.stopped && !s.earlyTerminationD1

def writeStall : Bool :=
  sixtyFourBit.waitrequestOut s.byteEnables (s.write i) s.unsupportedByteenable i.waitrequest

def writeComplete : Bool :=
  s.write i && !i.waitrequest && !s.writeStall i

def incrementAddress : Bool :=
  s.write i && s.writeComplete i && !s.stopped

def go : Bool :=
  i.commandValid && s.commandReady

def snkReady : Bool :=
  !s.fifoFull i &&
    !(i.snkBeat.startofpacket && (s.endOnEopD1 || s.commandReady) && !s.fifoEmpty i)

def fifoWrite : Bool :=
  s.snkReady i && i.snkValid

/-- `fifo_readack` of the ST to MM adapter. -/
def fifoRead : Bool :=
  !s.fifoEmpty i && !s.writeStall i && !i.waitrequest && !s.done

def doneStrobe : Bool :=
  s.done && !s.doneD1 && !s.resetTaken

def lengthSyncReset : Bool :=
  ((s.resetTaken || s.earlyTerminationD1) && !s.done) || s.doneStrobe

def earlyTermination : Bool :=
  s.endOnEopD1 &&
    ((s.writeComplete i && s.lengthCounter < s.bytesToTransfer.setWidth 18) ||
      (s.lengthCounter == 0 && !s.eopSeen && !s.go i))

/-- `master_address`, `master_byteenable` and `master_writedata` while `master_write` is high. -/
def busWrite : BusWrite where
  address := s.addressCounter &&& ~~~7
  byteenable := sixtyFourBit.byteenableOut s.byteEnables (s.write i) s.unsupportedByteenable
  writedata := s.buffered.data

end Signals

/-- One rising edge of `clk` with `reset` low. -/
def clock (s : WriteMaster) (i : MasterIn) : WriteMaster where
  addressCounter :=
    if s.go i then i.command.address
    else if s.incrementAddress i then s.addressCounter + 8
    else s.addressCounter
  lengthCounter :=
    if s.lengthSyncReset then 0
    else if s.go i then i.command.length.setWidth 18
    else if s.incrementAddress i then s.lengthCounter - s.bytesToTransfer.setWidth 18
    else s.lengthCounter
  endOnEopD1 := if s.go i then i.command.endOnEop else s.endOnEopD1
  actualBytesTransferredCounter :=
    if s.go i || s.resetTaken then 0
    else if s.incrementAddress i then
      s.actualBytesTransferredCounter + s.bytesToTransfer.setWidth 19
    else s.actualBytesTransferredCounter
  packetBytesBufferedD1 :=
    if s.go i then 0
    else if s.writeComplete i then s.packetBytesBuffered
    else s.packetBytesBufferedD1
  doneD1 := s.done
  earlyTerminationD1 := s.earlyTermination i
  commandReady :=
    if s.go i then false
    else if (i.responseReady && s.responseValid) || s.resetTaken then true
    else s.commandReady
  responseValid :=
    if s.resetTaken then false
    else if s.doneStrobe then true
    else if s.responseValid && i.responseReady then false
    else s.responseValid
  stopped :=
    if !i.swStop || s.resetTaken then false
    else if i.swStop && ((s.writeComplete i && i.swStop) || (s.commandReady || !s.write i)) then
      true
    else s.stopped
  resetTaken :=
    i.swReset && ((s.writeComplete i && i.swReset) || (s.commandReady || !s.write i))
  eopSeen :=
    if s.done then false
    else if s.buffered.eop && s.writeComplete i then true
    else s.eopSeen
  fifo :=
    if s.resetTaken then []
    else
      (if s.fifoRead i then s.fifo.tail else s.fifo) ++
        (if s.fifoWrite i then [i.snkBeat.fifoWord] else [])
  byteEnables :=
    sixtyFourBit.clock s.byteEnables (s.write i) s.unsupportedByteenable i.waitrequest

/-- The beat taken over at an edge. -/
def accepts (s : WriteMaster) (i : MasterIn) : Option StBeat64 :=
  if s.fifoWrite i then some i.snkBeat else none

/-- The write the memory takes over at an edge. -/
def stores (s : WriteMaster) (i : MasterIn) : Option BusWrite :=
  if s.write i && !i.waitrequest then some (s.busWrite i) else none

/-- The command taken over at an edge. -/
def starts (s : WriteMaster) (i : MasterIn) : Option MasterCommand :=
  if s.go i then some i.command else none

/-- The dispatcher takes the response at an edge. -/
def responds (s : WriteMaster) (i : MasterIn) : Bool :=
  s.responseValid && i.responseReady

end WriteMaster

/-! ## The memory behind the bus -/

/-- Some lanes of a word are stored at an address. -/
def storeLanes (ddr : ℕ → Byte) (a : ℕ) (lanes : BitVec 8) (word : List Byte) : ℕ → Byte :=
  fun x => if a ≤ x ∧ lanes.getLsbD (x - a) then (word[x - a]?).getD (ddr x) else ddr x

/-- The memory takes over a write: lane `k` of the bus goes to byte `k` of the word. -/
def BusWrite.perform (w : BusWrite) (ddr : ℕ → Byte) : ℕ → Byte :=
  storeLanes ddr w.address.toNat w.byteenable (leBytes 8 w.writedata)

end Rf215Sdr.Fpga
