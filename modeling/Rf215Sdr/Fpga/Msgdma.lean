import Rf215Sdr.Fpga.Dispatcher
import Rf215Sdr.Fpga.WriteMasterCopies

/-!
# The DMA Controller

`soc_system_msgdma_0.v`: the dispatcher and the write master, and the memory behind the bus. The
invariant follows the descriptors from the lane writes of the host through the descriptor FIFO
to the master. The FIFO shows a word two edges late; that the word shown is the next one when the
master is ready again rests on how long the master takes for a command.

## Main results

- `MsgdmaHistory.run`: the invariant holds in every run.
- `msgdma_done`: a host that reads the busy bit low finds all of them carried out.
-/

namespace Rf215Sdr.Fpga

open Rf215Sdr.Lib

/-! ## Composition -/

/-- The inputs of the controller sampled at one edge. -/
structure MsgdmaIn where
  host : HostIn
  cells : DispatcherCells
  snkValid : Bool
  snkBeat : StBeat64
  waitrequest : Bool
  lateWord : Bool
  latePlace : Bool

/-- The registers of the controller. -/
structure Msgdma where
  dispatcher : Dispatcher
  master : WriteMaster

namespace Msgdma

/-- The dispatcher as seen by the write master. -/
def masterIn (s : Msgdma) (i : MsgdmaIn) : MasterIn where
  commandValid := s.dispatcher.writeCommandValid
  command := s.dispatcher.descriptors.readData.command
  swStop := s.dispatcher.stop
  swReset := s.dispatcher.swReset
  responseReady := true
  snkValid := i.snkValid
  snkBeat := i.snkBeat
  waitrequest := i.waitrequest
  lateWord := i.lateWord
  latePlace := i.latePlace

/-- One rising edge of the system clock. -/
def clock (s : Msgdma) (i : MsgdmaIn) : Msgdma where
  dispatcher := s.dispatcher.clock i.host i.cells s.master.commandReady
    (s.master.response s.dispatcher.swReset)
  master := s.master.clock (s.masterIn i)

/-- Both modules in reset. -/
def reset (mem : BitVec 8 → DescriptorWord) (addressed readData : DescriptorWord) : Msgdma where
  dispatcher := Dispatcher.reset mem addressed readData
  master := WriteMaster.reset

end Msgdma

/-- A descriptor as the host writes it: not parked, ending by its length. -/
structure DescriptorWord.Plain (w : DescriptorWord) : Prop where
  writePark_eq : w.writePark = false
  byLength : w.command.ByLength

/-! ## The descriptor FIFO -/

theorem ofNat_eq_ofNat_iff {a b : ℕ} (hab : a ≤ b) (hba : b ≤ a + 256) :
    BitVec.ofNat 8 a = BitVec.ofNat 8 b ↔ b = a ∨ b = a + 256 := by
  constructor
  · intro h
    have hmod := congrArg BitVec.toNat h
    rw [BitVec.toNat_ofNat, BitVec.toNat_ofNat] at hmod
    omega
  · rintro (rfl | rfl)
    · rfl
    · apply BitVec.eq_of_toNat_eq
      rw [BitVec.toNat_ofNat, BitVec.toNat_ofNat]
      omega

/-- The descriptors `pushed` were pushed, the first `k` of them popped. -/
structure DescriptorFifo.Holds (s : DescriptorFifo) (pushed : List DescriptorWord) (k : ℕ) :
    Prop where
  popped_le : k ≤ pushed.length
  room : pushed.length ≤ k + 256
  writeAddress_eq : s.writeAddress = BitVec.ofNat 8 pushed.length
  readAddress_eq : s.readAddress = BitVec.ofNat 8 k
  internalUsed_eq : s.internalUsed = BitVec.ofNat 9 (pushed.length - k)
  mem_eq : ∀ j w, k ≤ j → pushed[j]? = some w → s.mem (BitVec.ofNat 8 j) = w

namespace DescriptorFifo

variable {s : DescriptorFifo} {pushed : List DescriptorWord} {k : ℕ}

theorem Holds.internalUsed_eq_zero (h : s.Holds pushed k) :
    s.internalUsed = 0 ↔ pushed.length = k := by
  have hle := h.popped_le
  have hroom := h.room
  rw [h.internalUsed_eq]
  constructor
  · intro hzero
    have hmod := congrArg BitVec.toNat hzero
    rw [BitVec.toNat_ofNat] at hmod
    have : (0 : BitVec 9).toNat = 0 := rfl
    omega
  · intro heq
    rw [heq, Nat.sub_self]
    rfl

theorem Holds.empty_iff (h : s.Holds pushed k) : s.empty = true ↔ pushed.length = k := by
  rw [empty, Bool.and_eq_true, beq_iff_eq, beq_iff_eq, h.internalUsed_eq_zero, h.readAddress_eq,
    h.writeAddress_eq]
  exact ⟨fun hboth => hboth.2, fun heq => ⟨by rw [heq], heq⟩⟩

theorem Holds.full_iff (h : s.Holds pushed k) : s.full = true ↔ pushed.length = k + 256 := by
  have hle := h.popped_le
  rw [full, Bool.and_eq_true, beq_iff_eq, bne_iff_ne, ne_eq, h.internalUsed_eq_zero,
    h.readAddress_eq, h.writeAddress_eq, eq_comm, ofNat_eq_ofNat_iff hle h.room]
  omega

/-- The word addressed is the oldest one, unless the FIFO is empty. -/
theorem Holds.mem_readAddress (h : s.Holds pushed k) {w : DescriptorWord}
    (hw : pushed[k]? = some w) : s.mem s.readAddress = w := by
  rw [h.readAddress_eq]
  exact h.mem_eq k w (Nat.le_refl k) hw

/-- **One edge keeps the FIFO.** -/
theorem Holds.clock (h : s.Holds pushed k) {write push pop : Bool} {be : BitVec 16}
    {data clash : DescriptorWord} (hpush : push = true → write = true)
    (hwrite : write = true → s.full = false) (hpop : pop = true → s.empty = false) :
    (s.clock write be data push pop false clash).Holds
      (pushed ++ if push then [s.nextWord be data] else []) (k + pop.toNat) := by
  have hle := h.popped_le
  have hroom := h.room
  have hfull := h.full_iff
  have hempty := h.empty_iff
  have hpopped : pop = true → k < pushed.length := by
    intro hp
    have hne : ¬ pushed.length = k := by
      rw [← hempty, hpop hp]
      exact Bool.false_ne_true
    omega
  have hfree : write = true → pushed.length < k + 256 := by
    intro hw
    have hne : ¬ pushed.length = k + 256 := by
      rw [← hfull, hwrite hw]
      exact Bool.false_ne_true
    omega
  constructor
  case popped_le =>
    rw [List.length_append]
    cases pop with
    | false => exact Nat.le_add_right_of_le hle
    | true => exact Nat.le_add_right_of_le (hpopped rfl)
  case room =>
    rw [List.length_append]
    cases hp : push with
    | false => simpa using Nat.le_trans hroom (by omega)
    | true =>
      have hlt := hfree (hpush hp)
      rw [if_pos rfl, List.length_singleton]
      omega
  case writeAddress_eq =>
    show (if push then s.writeAddress + 1 else s.writeAddress) = _
    rw [h.writeAddress_eq]
    cases push with
    | false => simp
    | true => simp [BitVec.ofNat_add]
  case readAddress_eq =>
    show (if pop then s.readAddress + 1 else s.readAddress) = _
    rw [h.readAddress_eq]
    cases pop with
    | false => simp
    | true => simp [BitVec.ofNat_add]
  case internalUsed_eq =>
    have hused := h.internalUsed_eq
    cases push with
    | false =>
      cases pop with
      | false => simpa [DescriptorFifo.clock] using hused
      | true =>
        have hlt := hpopped rfl
        have hsucc : pushed.length - k = pushed.length - (k + 1) + 1 := by omega
        rw [hsucc, BitVec.ofNat_add] at hused
        simp [DescriptorFifo.clock, hused]
    | true =>
      cases pop with
      | false => simp [DescriptorFifo.clock, hused, Nat.sub_add_comm hle, BitVec.ofNat_add]
      | true => simp [DescriptorFifo.clock, hused]
  case mem_eq =>
    intro j w hj hw
    have hmem : (s.clock write be data push pop false clash).mem (BitVec.ofNat 8 j) =
        if write && BitVec.ofNat 8 j == s.writeAddress then s.nextWord be data
        else s.mem (BitVec.ofNat 8 j) := rfl
    rw [hmem, h.writeAddress_eq]
    by_cases hold : j < pushed.length
    · -- a word that was pushed before is not the one being written
      have hother : (write && BitVec.ofNat 8 j == BitVec.ofNat 8 pushed.length) = false := by
        cases hw' : write with
        | false => rfl
        | true =>
          have hlt := hfree hw'
          rw [Bool.true_and, beq_eq_false_iff_ne, ne_eq,
            ofNat_eq_ofNat_iff (Nat.le_of_lt hold) (by omega)]
          omega
      rw [hother]
      rw [List.getElem?_append_left hold] at hw
      exact h.mem_eq j w (by omega) hw
    · rw [List.getElem?_append_right (Nat.le_of_not_lt hold)] at hw
      cases hp : push with
      | false => simp [hp] at hw
      | true =>
        have hlast : j = pushed.length := by
          by_contra hne
          rw [hp, if_pos rfl, List.getElem?_eq_none (by simp; omega)] at hw
          cases hw
        rw [hlast, hp, Nat.sub_self] at hw
        rw [hlast, hpush hp]
        simpa using hw

end DescriptorFifo

/-! ## What the master shows -/

section Master

open WriteMaster

variable {s : WriteMaster} {stream : ℕ → StBeat64} {ddr₀ ddr : ℕ → Byte}
  {cs : List MasterCommand} {n p : ℕ}

/-- A ready master has answered everything. -/
theorem WriteMaster.Phase.of_commandReady (h : Phase stream ddr₀ cs n p s ddr)
    (hready : s.commandReady = true) :
    cs.length = n ∧ s.responseValid = false ∧ s.doneD1 = true ∧ s.Drained := by
  cases h with
  | ready hcs hr hresp hdone hs => exact ⟨rfl, hresp, hdone, hs⟩
  | copying hcs hs =>
    rw [hs.commandReady_eq] at hready
    cases hready
  | finishing hcs hr hresp hdone hs | responding hcs hr hresp hdone hs
  | hanging hcs hc hr hresp hdone hs =>
    rw [hr] at hready
    cases hready

/-- A master that has answered everything is ready. -/
theorem WriteMaster.Phase.commandReady_of_length (h : Phase stream ddr₀ cs n p s ddr)
    (hlen : cs.length = n) : s.commandReady = true ∧ s.responseValid = false := by
  cases h with
  | ready hcs hready hresp hdone hs => exact ⟨hready, hresp⟩
  | copying | finishing | responding | hanging => simp at hlen

/-- A master that answers has one command to answer. -/
theorem WriteMaster.Phase.of_responseValid (h : Phase stream ddr₀ cs n p s ddr)
    (hvalid : s.responseValid = true) :
    cs.length = n + 1 ∧ s.commandReady = false ∧ s.Drained ∧
      ddr = copied (byteStream stream) cs 0 ddr₀ := by
  cases h with
  | responding hcs hr hresp hdone hs => exact ⟨List.length_append, hr, hs, rfl⟩
  | copying hcs hs =>
    rw [hs.responseValid_eq] at hvalid
    cases hvalid
  | ready hcs hr hresp hdone hs | finishing hcs hr hresp hdone hs
  | hanging hcs hc hr hresp hdone hs =>
    rw [hresp] at hvalid
    cases hvalid

/-- After a command was taken over the master is busy for at least two edges. -/
theorem WriteMaster.busy_clock {i : MasterIn} (hcalm : s.Calm) (hready : s.commandReady = false)
    (hvalid : s.responseValid = false) (hdone : s.doneD1 = true) :
    (s.clock i).commandReady = false ∧ (s.clock i).responseValid = false := by
  have hgo : s.go i = false := by simp [WriteMaster.go, hready]
  have hstrobe : s.doneStrobe = false := by simp [doneStrobe, hdone]
  refine ⟨?_, ?_⟩
  · simp [WriteMaster.clock, hgo, hready, hvalid, hcalm.resetTaken_eq]
  · simp [WriteMaster.clock, hstrobe, hvalid]

end Master

/-! ## The invariant -/

/-- The host leaves the control register alone, as `dma_loop` does. -/
def MsgdmaIn.Undisturbed (i : MsgdmaIn) : Prop :=
  Dispatcher.writesControl i.host = false

/-- What holds in every run: the descriptors `pushed` were pushed and the first `k` of them
issued, `n` of these were answered, the host took `r` responses, and `taken` beats were taken
over. -/
structure MsgdmaHistory (stream : ℕ → StBeat64) (ddr₀ : ℕ → Byte) (pushed : List DescriptorWord)
    (k n r taken : ℕ) (s : Msgdma) (ddr : ℕ → Byte) : Prop where
  queue : s.dispatcher.descriptors.Holds pushed k
  plain : ∀ w ∈ pushed, w.Plain
  control_eq : s.dispatcher.control = 0
  swReset_eq : s.dispatcher.swReset = false
  master : s.master.History stream ddr₀ ((pushed.take k).map DescriptorWord.command) n taken ddr
  /-- One edge behind the read address, unless a command was taken over at the last edge. -/
  addressed : s.dispatcher.writeCommandEmptyD1 = false → ∀ w, pushed[k]? = some w →
    s.dispatcher.descriptors.addressed = w ∨ (s.master.commandReady = false ∧
      s.master.responseValid = false ∧ s.master.doneD1 = true)
  /-- Two edges behind it, unless a command is being carried out. -/
  readData : s.dispatcher.writeCommandEmptyD1 = false →
    s.dispatcher.writeCommandEmptyD2 = false → ∀ w, pushed[k]? = some w →
      s.dispatcher.descriptors.readData = w ∨
        (s.master.commandReady = false ∧ s.master.responseValid = false)
  done : s.dispatcher.allTransfersDone = true →
    k = n ∧ (s.dispatcher.writeCommandEmptyD1 = true ∨ s.dispatcher.descriptors.empty = true)
  responses_eq : s.dispatcher.responses.length + r = n
  responses_room : s.dispatcher.responses.length + (k - n) ≤ responseFifoDepth

/-- A response that is taken out is there. -/
theorem Dispatcher.responses_ne_nil {s : Dispatcher} {h : HostIn} {c : DispatcherCells}
    (hread : s.responseFifoRead h c = true) : s.responses ≠ [] := by
  simp only [responseFifoRead, responseFifoEmpty, Bool.and_eq_true, Bool.not_eq_true',
    Bool.or_eq_false_iff, List.isEmpty_eq_false_iff] at hread
  exact hread.1.1.2.1

namespace MsgdmaHistory

variable {stream : ℕ → StBeat64} {ddr₀ ddr : ℕ → Byte} {pushed : List DescriptorWord}
  {k n r taken : ℕ} {s : Msgdma} {i : MsgdmaIn}

theorem length_commands (h : MsgdmaHistory stream ddr₀ pushed k n r taken s ddr) :
    ((pushed.take k).map DescriptorWord.command).length = k := by
  rw [List.length_map, List.length_take]
  exact Nat.min_eq_left h.queue.popped_le

/-- A descriptor is issued as it was pushed. -/
theorem of_issue (h : MsgdmaHistory stream ddr₀ pushed k n r taken s ddr)
    (hissue : s.dispatcher.issueWriteDescriptor s.master.commandReady = true) :
    ∃ w, pushed[k]? = some w ∧ s.dispatcher.descriptors.readData = w ∧ w.Plain ∧ k = n ∧
      s.dispatcher.responses.length < responseFifoDepth := by
  simp only [Dispatcher.issueWriteDescriptor, Dispatcher.writeCommandValid,
    Dispatcher.stopIssuingCommands, Dispatcher.responseFifoFull, Bool.and_eq_true,
    Bool.not_eq_true', Bool.or_eq_false_iff, beq_eq_false_iff_ne] at hissue
  obtain ⟨⟨⟨⟨⟨-, hfull, -⟩, hempty⟩, hd1⟩, hd2⟩, hready⟩ := hissue
  have hlt : k < pushed.length := by
    have hne : ¬ pushed.length = k := by
      rw [← h.queue.empty_iff, hempty]
      exact Bool.false_ne_true
    have hle := h.queue.popped_le
    omega
  obtain ⟨p, -, hphase, -⟩ := h.master.phase
  have hk : k = n := by rw [← (hphase.of_commandReady hready).1, h.length_commands]
  have hroom := h.responses_room
  refine ⟨pushed[k], List.getElem?_eq_getElem hlt, ?_, h.plain _ (List.getElem_mem hlt), hk, ?_⟩
  · apply (h.readData hd1 hd2 _ (List.getElem?_eq_getElem hlt)).resolve_right
    rw [hready]
    exact fun hbusy => absurd hbusy.1 Bool.false_ne_true.symm
  · omega

/-- What the controller asks of the master. -/
theorem directed (h : MsgdmaHistory stream ddr₀ pushed k n r taken s ddr) (i : MsgdmaIn) :
    s.master.Directed (s.masterIn i) := by
  refine ⟨⟨?_, h.swReset_eq⟩, fun hgo => ?_⟩
  · show s.dispatcher.stop = false
    simp [Dispatcher.stop, h.control_eq]
  · obtain ⟨w, -, hread, hplain, -⟩ := h.of_issue hgo
    show s.dispatcher.descriptors.readData.command.ByLength
    rw [hread]
    exact hplain.byLength

/-- Every descriptor issued is popped. -/
theorem popWriteFifo_eq (h : MsgdmaHistory stream ddr₀ pushed k n r taken s ddr) :
    s.dispatcher.popWriteFifo s.master.commandReady =
      s.dispatcher.issueWriteDescriptor s.master.commandReady := by
  unfold Dispatcher.popWriteFifo
  cases hissue : s.dispatcher.issueWriteDescriptor s.master.commandReady with
  | false => rfl
  | true =>
    obtain ⟨w, -, hread, hplain, -⟩ := h.of_issue hissue
    simp [Dispatcher.writeParkEnable, hread, hplain.writePark_eq]

/-- The descriptor FIFO behind an edge. -/
theorem queue_clock (h : MsgdmaHistory stream ddr₀ pushed k n r taken s ddr) :
    (s.clock i).dispatcher.descriptors.Holds (pushed ++ (s.dispatcher.pushes i.host).toList)
      (k + (s.dispatcher.issueWriteDescriptor s.master.commandReady).toNat) := by
  have hpush : s.dispatcher.goBit i.host = true → s.dispatcher.writeEn i.host = true := by
    intro hgo
    simp only [Dispatcher.goBit, Bool.and_eq_true] at hgo
    simp [Dispatcher.writeEn, hgo]
  have hwrite : s.dispatcher.writeEn i.host = true → s.dispatcher.descriptors.full = false := by
    intro hen
    simp only [Dispatcher.writeEn, Dispatcher.descriptorWaitrequest, Bool.and_eq_true,
      Bool.not_eq_true', Bool.or_eq_false_iff] at hen
    exact hen.2.1
  have hpop : s.dispatcher.issueWriteDescriptor s.master.commandReady = true →
      s.dispatcher.descriptors.empty = false := by
    intro hissue
    simp only [Dispatcher.issueWriteDescriptor, Dispatcher.writeCommandValid, Bool.and_eq_true,
      Bool.not_eq_true'] at hissue
    exact hissue.1.1.1.2
  have hpushes : (s.dispatcher.pushes i.host).toList = if s.dispatcher.goBit i.host then
      [s.dispatcher.descriptors.nextWord i.host.descriptorByteenable i.host.descriptorWritedata]
      else [] := by
    unfold Dispatcher.pushes
    split_ifs <;> rfl
  rw [hpushes]
  show (s.dispatcher.descriptors.clock _ _ _ _ (s.dispatcher.popWriteFifo s.master.commandReady)
    s.dispatcher.swReset _).Holds _ _
  rw [h.popWriteFifo_eq, h.swReset_eq]
  exact h.queue.clock hpush hwrite hpop

/-- The control register stays clear. -/
theorem control_clock (h : MsgdmaHistory stream ddr₀ pushed k n r taken s ddr)
    (hi : i.Undisturbed) :
    (s.clock i).dispatcher.control = 0 ∧ (s.clock i).dispatcher.swReset = false := by
  have hwrites : Dispatcher.writesControl i.host = false := hi
  refine ⟨?_, ?_⟩
  · simp [Msgdma.clock, Dispatcher.clock, Dispatcher.swResetStrobe, Dispatcher.nextStop,
      Dispatcher.setStop, Dispatcher.setStoppedOnError, Dispatcher.setStoppedOnEarlyTermination,
      Dispatcher.stopOnError, Dispatcher.stopOnEarlyTermination, Dispatcher.clearStop,
      Dispatcher.stop, mergeRegister, h.control_eq, hwrites]
  · simp [Msgdma.clock, Dispatcher.clock, Dispatcher.setSwReset, Dispatcher.clearSwReset, hwrites,
      h.swReset_eq]

/-- The memory of the descriptor FIFO shows the oldest descriptor one edge late. -/
theorem addressed_clock (h : MsgdmaHistory stream ddr₀ pushed k n r taken s ddr)
    (hd1 : (s.clock i).dispatcher.writeCommandEmptyD1 = false) {w : DescriptorWord}
    (hw : (pushed ++ (s.dispatcher.pushes i.host).toList)[k]? = some w) :
    pushed[k]? = some w ∧ (s.clock i).dispatcher.descriptors.addressed = w := by
  have hempty : s.dispatcher.descriptors.empty = false := hd1
  have hlt : k < pushed.length := by
    have hne : ¬ pushed.length = k := by
      rw [← h.queue.empty_iff, hempty]
      exact Bool.false_ne_true
    have hle := h.queue.popped_le
    omega
  rw [List.getElem?_append_left hlt] at hw
  refine ⟨hw, ?_⟩
  -- a word that is written while it is addressed would be one of a full FIFO
  have hclash : (s.dispatcher.writeEn i.host && s.dispatcher.descriptors.readAddress ==
      s.dispatcher.descriptors.writeAddress) = false := by
    cases hen : s.dispatcher.writeEn i.host with
    | false => rfl
    | true =>
      simp only [Dispatcher.writeEn, Dispatcher.descriptorWaitrequest, Bool.and_eq_true,
        Bool.not_eq_true', Bool.or_eq_false_iff] at hen
      have hfull : ¬ pushed.length = k + 256 := by
        rw [← h.queue.full_iff, hen.2.1]
        exact Bool.false_ne_true
      have hle := h.queue.popped_le
      rw [Bool.true_and, beq_eq_false_iff_ne, h.queue.readAddress_eq, h.queue.writeAddress_eq,
        ne_eq, ofNat_eq_ofNat_iff hle h.queue.room]
      omega
  show (if s.dispatcher.writeEn i.host && s.dispatcher.descriptors.readAddress ==
    s.dispatcher.descriptors.writeAddress then _ else _) = w
  rw [hclash]
  exact h.queue.mem_readAddress hw

/-- The responses behind an edge. -/
theorem responses_clock (h : MsgdmaHistory stream ddr₀ pushed k n r taken s ddr) :
    (s.clock i).dispatcher.responses.length +
        (s.dispatcher.responseFifoRead i.host i.cells).toNat =
      s.dispatcher.responses.length + s.master.responseValid.toNat := by
  have hclock : (s.clock i).dispatcher.responses =
      (if s.dispatcher.responseFifoRead i.host i.cells then s.dispatcher.responses.tail
        else s.dispatcher.responses) ++
      (if s.master.responseValid then [(s.master.response s.dispatcher.swReset).word] else []) := by
    simp only [Msgdma.clock, Dispatcher.clock, h.swReset_eq, Bool.false_eq_true, if_false]
    rfl
  rw [hclock, List.length_append]
  cases hread : s.dispatcher.responseFifoRead i.host i.cells with
  | false => cases s.master.responseValid <;> simp
  | true =>
    have hpos := List.length_pos_iff.mpr (Dispatcher.responses_ne_nil hread)
    cases s.master.responseValid <;> simp <;> omega

/-- The commands behind an edge. -/
theorem commands_clock (h : MsgdmaHistory stream ddr₀ pushed k n r taken s ddr) :
    ((pushed ++ (s.dispatcher.pushes i.host).toList).take
        (k + (s.dispatcher.issueWriteDescriptor s.master.commandReady).toNat)).map
          DescriptorWord.command =
      (pushed.take k).map DescriptorWord.command ++ (s.master.starts (s.masterIn i)).toList := by
  have hle := h.queue.popped_le
  have hgo : s.master.go (s.masterIn i) =
    s.dispatcher.issueWriteDescriptor s.master.commandReady := rfl
  unfold WriteMaster.starts
  rw [hgo]
  cases hissue : s.dispatcher.issueWriteDescriptor s.master.commandReady with
  | false => simp [List.take_append_of_le_length hle]
  | true =>
    obtain ⟨w, hw, hread, -⟩ := h.of_issue hissue
    have hlt : k < pushed.length := (List.getElem?_eq_some_iff.mp hw).1
    have hcommand : (s.masterIn i).command = w.command := by rw [← hread]; rfl
    rw [Bool.toNat_true, List.take_append_of_le_length hlt, List.take_add_one, hw, List.map_append,
      if_pos rfl, hcommand]
    rfl

/-- Behind an edge at which a descriptor was issued. -/
theorem busy_of_issue (h : MsgdmaHistory stream ddr₀ pushed k n r taken s ddr)
    (hissue : s.dispatcher.issueWriteDescriptor s.master.commandReady = true) :
    (s.clock i).master.commandReady = false ∧ (s.clock i).master.responseValid = false ∧
      (s.clock i).master.doneD1 = true := by
  have hgo : s.master.go (s.masterIn i) = true := hissue
  obtain ⟨p, -, hphase, -⟩ := h.master.phase
  obtain ⟨-, hvalid, hdone, hs⟩ := hphase.of_commandReady (Bool.and_eq_true_iff.mp hissue).2
  have hstrobe : s.master.doneStrobe = false := by simp [WriteMaster.doneStrobe, hdone]
  refine ⟨?_, ?_, (hs.clock (fun _ => 0)).2.2.2⟩
  · simp [Msgdma.clock, WriteMaster.clock, hgo]
  · simp [Msgdma.clock, WriteMaster.clock, hstrobe, hvalid]

/-- **One edge.** -/
theorem clock (h : MsgdmaHistory stream ddr₀ pushed k n r taken s ddr) (hi : i.Undisturbed)
    (hplain : ∀ w, s.dispatcher.pushes i.host = some w → w.Plain)
    (hbeat : ∀ b, s.master.accepts (s.masterIn i) = some b → b = stream taken) :
    MsgdmaHistory stream ddr₀ (pushed ++ (s.dispatcher.pushes i.host).toList)
      (k + (s.dispatcher.issueWriteDescriptor s.master.commandReady).toNat)
      (n + s.master.responseValid.toNat)
      (r + (s.dispatcher.responseFifoRead i.host i.cells).toNat)
      (taken + (s.master.accepts (s.masterIn i)).toList.length) (s.clock i)
      (s.master.ddrAfter (s.masterIn i) ddr) := by
  have hdirected := h.directed i
  obtain ⟨p, -, hphase, -⟩ := h.master.phase
  have hcommands := h.length_commands
  have hresponds : s.master.responds (s.masterIn i) = s.master.responseValid :=
    Bool.and_true _
  constructor
  case queue => exact h.queue_clock
  case plain =>
    intro w hw
    rcases List.mem_append.mp hw with hold | hnew
    · exact h.plain w hold
    · exact hplain w (Option.mem_toList.mp hnew)
  case control_eq => exact (h.control_clock hi).1
  case swReset_eq => exact (h.control_clock hi).2
  case master =>
    have hnext := h.master.clock hdirected hbeat
    rw [hresponds] at hnext
    rw [h.commands_clock]
    exact hnext
  case addressed =>
    intro hd1 w hw
    cases hissue : s.dispatcher.issueWriteDescriptor s.master.commandReady with
    | true => exact Or.inr (h.busy_of_issue hissue)
    | false =>
      rw [hissue] at hw
      exact Or.inl (h.addressed_clock hd1 hw).2
  case readData =>
    intro hd1 hd2 w hw
    cases hissue : s.dispatcher.issueWriteDescriptor s.master.commandReady with
    | true =>
      obtain ⟨hready, hvalid, -⟩ := h.busy_of_issue (i := i) hissue
      exact Or.inr ⟨hready, hvalid⟩
    | false =>
      rw [hissue] at hw
      rcases h.addressed hd2 w (h.addressed_clock hd1 hw).1 with hread | ⟨hready, hvalid, hdone⟩
      · exact Or.inl hread
      · exact Or.inr (WriteMaster.busy_clock h.master.calm hready hvalid hdone)
  case done =>
    intro hdone
    have hclock : (s.clock i).dispatcher.allTransfersDone =
        if s.master.responseValid && s.dispatcher.descriptors.empty then true
        else if !s.dispatcher.descriptors.empty then false
        else s.dispatcher.allTransfersDone := by
      simp [Msgdma.clock, Dispatcher.clock, Dispatcher.doneStrobe, WriteMaster.response,
        h.swReset_eq]
    rw [hclock] at hdone
    cases hempty : s.dispatcher.descriptors.empty with
    | false => simp [hempty] at hdone
    | true =>
      have hissue : s.dispatcher.issueWriteDescriptor s.master.commandReady = false := by
        simp [Dispatcher.issueWriteDescriptor, Dispatcher.writeCommandValid, hempty]
      refine ⟨?_, Or.inl hempty⟩
      rw [hissue, Bool.toNat_false, Nat.add_zero]
      cases hvalid : s.master.responseValid with
      | true => rw [Bool.toNat_true, ← (hphase.of_responseValid hvalid).1, hcommands]
      | false =>
        simp only [hvalid, hempty, Bool.false_and, Bool.false_eq_true, if_false,
          Bool.not_true] at hdone
        exact (h.done hdone).1
  case responses_eq =>
    have := h.responses_clock (i := i)
    have := h.responses_eq
    omega
  case responses_room =>
    have hlen := h.responses_clock (i := i)
    have hroom := h.responses_room
    obtain ⟨hle, -, -, -⟩ := hphase.account h.master.calm
    rw [hcommands] at hle
    cases hissue : s.dispatcher.issueWriteDescriptor s.master.commandReady with
    | true =>
      obtain ⟨w, -, -, -, hk, hfree⟩ := h.of_issue hissue
      have hvalid := (hphase.of_commandReady (Bool.and_eq_true_iff.mp hissue).2).2.1
      rw [hvalid] at hlen ⊢
      simp only [Bool.toNat_true, Bool.toNat_false] at hlen ⊢
      omega
    | false =>
      cases hvalid : s.master.responseValid with
      | true =>
        have hone := (hphase.of_responseValid hvalid).1
        rw [hvalid] at hlen
        simp only [Bool.toNat_true, Bool.toNat_false] at hlen ⊢
        omega
      | false =>
        rw [hvalid] at hlen
        simp only [Bool.toNat_false] at hlen ⊢
        omega

end MsgdmaHistory

/-! ## Runs -/

/-- What the cells hold when the controller leaves reset. -/
structure MsgdmaStart where
  mem : BitVec 8 → DescriptorWord
  addressed : DescriptorWord
  readData : DescriptorWord
  ddr : ℕ → Byte

/-- The controller with the memory behind the bus. -/
def msgdma (start : MsgdmaStart) : Machine (Msgdma × (ℕ → Byte)) MsgdmaIn where
  reset := (Msgdma.reset start.mem start.addressed start.readData, start.ddr)
  step st i := (st.1.clock i, st.1.master.ddrAfter (st.1.masterIn i) st.2)

theorem msgdmaHistory_reset (start : MsgdmaStart) (stream : ℕ → StBeat64) :
    MsgdmaHistory stream start.ddr [] 0 0 0 0
      (Msgdma.reset start.mem start.addressed start.readData) start.ddr where
  queue := ⟨Nat.le_refl 0, Nat.zero_le _, rfl, rfl, rfl, fun j w _ hw => by simp at hw⟩
  plain w hw := by cases hw
  control_eq := rfl
  swReset_eq := rfl
  master := WriteMaster.history_reset stream start.ddr
  addressed _ w hw := by simp at hw
  readData _ _ w hw := by simp at hw
  done _ := ⟨rfl, Or.inr rfl⟩
  responses_eq := rfl
  responses_room := Nat.zero_le _

section Runs

variable (start : MsgdmaStart) (is : List MsgdmaIn)

/-- The descriptors pushed in a run. -/
def descriptorsPushed : List DescriptorWord :=
  (msgdma start).events (fun st i => st.1.dispatcher.pushes i.host) (msgdma start).reset is

/-- The commands the write master took over in a run. -/
def commandsIssued : List MasterCommand :=
  (msgdma start).events (fun st i => st.1.master.starts (st.1.masterIn i)) (msgdma start).reset is

/-- The commands answered in a run. -/
def commandsAnswered : ℕ :=
  ((msgdma start).events (fun st _ => if st.1.master.responseValid then some () else none)
    (msgdma start).reset is).length

/-- The responses the host took in a run. -/
def responsesRead : ℕ :=
  ((msgdma start).events (fun st i => if st.1.dispatcher.responseFifoRead i.host i.cells then
    some () else none) (msgdma start).reset is).length

/-- The beats taken over in a run. -/
def sinkBeats : List StBeat64 :=
  (msgdma start).events (fun st i => st.1.master.accepts (st.1.masterIn i)) (msgdma start).reset is

/-- Registers and memory after a run. -/
def msgdmaAfter : Msgdma × (ℕ → Byte) :=
  (msgdma start).run (msgdma start).reset is

/-! ### One more edge -/

variable (i : MsgdmaIn)

theorem descriptorsPushed_concat :
    descriptorsPushed start (is ++ [i]) = descriptorsPushed start is ++
      ((msgdmaAfter start is).1.dispatcher.pushes i.host).toList := by
  simp [descriptorsPushed, msgdmaAfter, Machine.events_append, Machine.events_cons]

theorem commandsIssued_concat :
    commandsIssued start (is ++ [i]) = commandsIssued start is ++
      ((msgdmaAfter start is).1.master.starts ((msgdmaAfter start is).1.masterIn i)).toList := by
  simp [commandsIssued, msgdmaAfter, Machine.events_append, Machine.events_cons]

theorem commandsAnswered_concat :
    commandsAnswered start (is ++ [i]) = commandsAnswered start is +
      (msgdmaAfter start is).1.master.responseValid.toNat := by
  simp only [commandsAnswered, msgdmaAfter, Machine.events_append, Machine.events_cons,
    Machine.events_nil, List.append_nil, List.length_append]
  cases ((msgdma start).run (msgdma start).reset is).1.master.responseValid <;> rfl

theorem responsesRead_concat :
    responsesRead start (is ++ [i]) = responsesRead start is +
      ((msgdmaAfter start is).1.dispatcher.responseFifoRead i.host i.cells).toNat := by
  simp only [responsesRead, msgdmaAfter, Machine.events_append, Machine.events_cons,
    Machine.events_nil, List.append_nil, List.length_append]
  cases ((msgdma start).run (msgdma start).reset is).1.dispatcher.responseFifoRead i.host
    i.cells <;> rfl

theorem sinkBeats_concat :
    sinkBeats start (is ++ [i]) = sinkBeats start is ++
      ((msgdmaAfter start is).1.master.accepts ((msgdmaAfter start is).1.masterIn i)).toList := by
  simp [sinkBeats, msgdmaAfter, Machine.events_append, Machine.events_cons]

theorem msgdmaAfter_concat :
    msgdmaAfter start (is ++ [i]) = ((msgdmaAfter start is).1.clock i,
      (msgdmaAfter start is).1.master.ddrAfter ((msgdmaAfter start is).1.masterIn i)
        (msgdmaAfter start is).2) := by
  simp [msgdmaAfter, Machine.run_append, msgdma]

omit i in
/-- **The invariant holds in every run.** -/
theorem MsgdmaHistory.run {stream : ℕ → StBeat64} (his : ∀ i ∈ is, i.Undisturbed)
    (hplain : ∀ w ∈ descriptorsPushed start is, w.Plain)
    (hstream : load stream 0 (sinkBeats start is).length = sinkBeats start is) :
    ∃ k, commandsIssued start is = ((descriptorsPushed start is).take k).map
        DescriptorWord.command ∧
      MsgdmaHistory stream start.ddr (descriptorsPushed start is) k (commandsAnswered start is)
        (responsesRead start is) (sinkBeats start is).length (msgdmaAfter start is).1
        (msgdmaAfter start is).2 := by
  induction is using List.reverseRecOn with
  | nil => exact ⟨0, rfl, msgdmaHistory_reset start stream⟩
  | append_singleton is i ih =>
    rw [sinkBeats_concat] at hstream
    obtain ⟨hold, hnew⟩ := load_append_toList hstream
    rw [descriptorsPushed_concat] at hplain
    obtain ⟨k, hcommands, hrun⟩ := ih (fun j hj => his j (List.mem_append_left _ hj))
      (fun w hw => hplain w (List.mem_append_left _ hw)) hold
    have hi := his i (List.mem_append_right _ (List.mem_singleton_self i))
    have hnext := hrun.clock hi
      (fun w hw => hplain w (List.mem_append_right _ (Option.mem_toList.mpr hw))) hnew
    refine ⟨k + ((msgdmaAfter start is).1.dispatcher.issueWriteDescriptor
      (msgdmaAfter start is).1.master.commandReady).toNat, ?_, ?_⟩
    · rw [commandsIssued_concat, descriptorsPushed_concat, hcommands]
      exact hrun.commands_clock.symm
    · rw [descriptorsPushed_concat, commandsAnswered_concat, responsesRead_concat,
        sinkBeats_concat, msgdmaAfter_concat, List.length_append]
      exact hnext

omit start is i in
/-- Some stream begins with the beats of the run. -/
theorem exists_stream (beats : List StBeat64) :
    ∃ stream : ℕ → StBeat64, load stream 0 beats.length = beats := by
  refine ⟨fun k => beats.getD k ⟨0, false, false, 0⟩, ?_⟩
  apply List.ext_getElem
  · simp
  · intro k hk hk'
    simp [load, List.getElem?_eq_getElem hk']

/-- **A host that finds the controller not busy finds the work done.** Everything that was pushed
before the last edge is carried out and answered, and the memory holds just what it asks for. A
descriptor pushed at the last edge does not show yet. -/
theorem msgdma_done (stream : ℕ → StBeat64)
    (his : ∀ j ∈ is ++ [i], j.Undisturbed)
    (hplain : ∀ w ∈ descriptorsPushed start (is ++ [i]), w.Plain)
    (hstream : load stream 0 (sinkBeats start (is ++ [i])).length = sinkBeats start (is ++ [i]))
    (hdone : (msgdmaAfter start (is ++ [i])).1.dispatcher.busy = false) :
    commandsIssued start (is ++ [i]) = (descriptorsPushed start is).map DescriptorWord.command ∧
      commandsAnswered start (is ++ [i]) = (commandsIssued start (is ++ [i])).length ∧
      (msgdmaAfter start (is ++ [i])).2 =
        copied (byteStream stream) (commandsIssued start (is ++ [i])) 0 start.ddr := by
  obtain ⟨k, hissued, hrun⟩ := MsgdmaHistory.run start (is ++ [i]) his hplain hstream
  obtain ⟨hall, hempty⟩ := hrun.done (by simpa [Dispatcher.busy] using hdone)
  have hlen := hrun.length_commands
  rw [← hissued] at hlen
  obtain ⟨p, -, hphase, -⟩ := hrun.master.phase
  obtain ⟨-, -, -, hmem⟩ := hphase.account hrun.master.calm
  rw [← hissued, ← hall, ← hlen, List.take_length] at hmem
  refine ⟨?_, by rw [hlen, hall], funext fun x => (hmem x).elim id id⟩
  -- the state before the last edge
  rw [sinkBeats_concat] at hstream
  rw [descriptorsPushed_concat] at hplain
  obtain ⟨j, hbefore, hrun₀⟩ := MsgdmaHistory.run start is
    (fun j hj => his j (List.mem_append_left _ hj))
    (fun w hw => hplain w (List.mem_append_left _ hw)) (load_append_toList hstream).1
  have hj := hrun₀.queue.popped_le
  have hissue : ∀ c, (msgdmaAfter start is).1.master.starts
      ((msgdmaAfter start is).1.masterIn i) = some c → j < (descriptorsPushed start is).length := by
    intro c hc
    have hgo : (msgdmaAfter start is).1.dispatcher.issueWriteDescriptor
        (msgdmaAfter start is).1.master.commandReady = true := by
      unfold WriteMaster.starts at hc
      split_ifs at hc with hgo
      exact hgo
    obtain ⟨w, hw, -⟩ := hrun₀.of_issue hgo
    exact (List.getElem?_eq_some_iff.mp hw).1
  have hcount := hrun.length_commands
  rw [← hissued, commandsIssued_concat, List.length_append, hbefore, hrun₀.length_commands]
    at hcount
  rcases hempty with hd1 | hempty
  · -- the FIFO was empty before the edge, so nothing was issued at it
    rw [msgdmaAfter_concat] at hd1
    have hall₀ := hrun₀.queue.empty_iff.mp hd1
    have hnone : (msgdmaAfter start is).1.master.starts
        ((msgdmaAfter start is).1.masterIn i) = none := by
      by_contra hsome
      obtain ⟨c, hc⟩ := Option.ne_none_iff_exists'.mp hsome
      exact absurd (hissue c hc) (Nat.not_lt.mpr (Nat.le_of_eq hall₀))
    rw [commandsIssued_concat, hnone, Option.toList_none, List.append_nil, hbefore,
      List.take_of_length_le (Nat.le_of_eq hall₀)]
  · -- the FIFO is empty now, so nothing was pushed at the edge
    have hall₁ := hrun.queue.empty_iff.mp hempty
    rw [hissued, List.take_of_length_le (Nat.le_of_eq hall₁)]
    rw [descriptorsPushed_concat] at hall₁ ⊢
    cases hpush : (msgdmaAfter start is).1.dispatcher.pushes i.host with
    | none => rw [Option.toList_none, List.append_nil]
    | some w =>
      rw [hpush, Option.toList_some, List.length_append, List.length_singleton] at hall₁
      cases hstart : (msgdmaAfter start is).1.master.starts
          ((msgdmaAfter start is).1.masterIn i) with
      | none =>
        rw [hstart, Option.toList_none, List.length_nil] at hcount
        omega
      | some c =>
        have hlt := hissue c hstart
        rw [hstart, Option.toList_some, List.length_singleton] at hcount
        omega

end Runs

/-! ## One descriptor -/

/-- The host does nothing. -/
def quietHost : HostIn where
  descriptorWrite := false
  descriptorByteenable := 0
  descriptorWritedata := fun _ => 0
  csrAddress := 0
  csrWrite := false
  csrByteenable := 0
  csrWritedata := 0
  mmResponseRead := false
  mmResponseAddress := false
  mmResponseByteenable := 0

/-- The host writes a word of the descriptor. -/
def writeDescriptor (offset : ℕ) (value : BitVec 32) : HostIn :=
  { quietHost with
    descriptorWrite := true
    descriptorByteenable := 15#16 <<< offset
    descriptorWritedata := fun k => value.extractLsb' (8 * (k.val % 4)) 8 }

/-- An edge at which a beat is offered and nobody waits. -/
def edgeOf (host : HostIn) : MsgdmaIn where
  host := host
  cells := ⟨fun _ => 0, false⟩
  snkValid := true
  snkBeat := ⟨0x0102030405060708, false, false, 0⟩
  waitrequest := false
  lateWord := false
  latePlace := false

/-- A descriptor of eight bytes is written as `dma_loop` writes it, and time passes. -/
def eightBytes : List MsgdmaIn :=
  [edgeOf (writeDescriptor 4 16), edgeOf (writeDescriptor 8 8),
    edgeOf (writeDescriptor 12 0x80000000)] ++ List.replicate 7 (edgeOf quietHost)

def emptyStart : MsgdmaStart :=
  ⟨fun _ _ => 0, fun _ => 0, fun _ => 0, fun _ => 0⟩

theorem undisturbed_eightBytes :
    ∀ j ∈ eightBytes ++ [edgeOf quietHost], j.Undisturbed := by
  intro j hj
  simp only [eightBytes, List.cons_append, List.nil_append, List.mem_cons, List.mem_append,
    List.mem_replicate, List.not_mem_nil, or_false] at hj
  rcases hj with rfl | rfl | rfl | ⟨-, rfl⟩ | rfl
  all_goals rfl

theorem plain_eightBytes :
    ∀ w ∈ descriptorsPushed emptyStart (eightBytes ++ [edgeOf quietHost]), w.Plain := by
  have hall : (descriptorsPushed emptyStart (eightBytes ++ [edgeOf quietHost])).map
      (fun w => (w.command, w.writePark)) = [(⟨16, 8, false⟩, false)] := by decide
  intro w hw
  have hword := List.mem_map_of_mem (f := fun w => (w.command, w.writePark)) hw
  rw [hall, List.mem_singleton, Prod.mk.injEq] at hword
  refine ⟨hword.2, ?_⟩
  rw [hword.1]
  exact ⟨rfl, by decide⟩

/-- The busy bit is low again when its bytes are in the memory. -/
theorem eightBytes_done :
    (msgdmaAfter emptyStart (eightBytes ++ [edgeOf quietHost])).2 =
      copied (byteStream fun _ => ⟨0x0102030405060708, false, false, 0⟩) [⟨16, 8, false⟩] 0
        (fun _ => 0) := by
  have hissued : commandsIssued emptyStart (eightBytes ++ [edgeOf quietHost]) =
      [⟨16, 8, false⟩] := by decide
  have hdone := msgdma_done emptyStart eightBytes (edgeOf quietHost)
    (fun _ => ⟨0x0102030405060708, false, false, 0⟩) undisturbed_eightBytes plain_eightBytes
    (by decide) (by decide)
  rw [hissued] at hdone
  exact hdone.2.2

end Rf215Sdr.Fpga
