import Rf215Sdr.Lib.BoundedQueue

/-!
# The Width Adapter Before the DMA Controller

Model of `soc_system_avalon_st_adapter_001_data_format_adapter_0.sv`, which packs the 32-bit
beats of the FIFO into the 64-bit beats of the DMA controller: an input register stage, a state
machine that keeps the first half of a beat in byte registers, and an output register stage.
`data4_register` to `data6_register` are never written; channel and error are constant.

## Main results

- `adapter_conserves`: cut back into 32-bit beats, what leaves and what is still inside is what
  came in, for any stream of packets and any back-pressure.
-/

namespace Rf215Sdr.Fpga

open Rf215Sdr.Lib

/-! ## Beats -/

/-- A 32-bit beat with its packet signals. -/
@[ext]
structure StBeat where
  data : BitVec 32
  startofpacket : Bool
  endofpacket : Bool
  empty : BitVec 2
  deriving DecidableEq, Repr

instance : Zero StBeat :=
  ⟨⟨0, false, false, 0⟩⟩

/-- A 64-bit beat with its packet signals. -/
structure StBeat64 where
  data : BitVec 64
  startofpacket : Bool
  endofpacket : Bool
  empty : BitVec 3
  deriving DecidableEq, Repr

/-- The bytes of half a beat, the first symbol first. -/
structure HalfBeat where
  data0 : BitVec 8
  data1 : BitVec 8
  data2 : BitVec 8
  data3 : BitVec 8
  deriving DecidableEq, Repr

/-- `in_data[31:24]`, `in_data[23:16]`, `in_data[15:8]` and `in_data[7:0]`. -/
def HalfBeat.ofData (inData : BitVec 32) : HalfBeat where
  data0 := inData.extractLsb' 24 8
  data1 := inData.extractLsb' 16 8
  data2 := inData.extractLsb' 8 8
  data3 := inData.extractLsb' 0 8

def HalfBeat.word (h : HalfBeat) : BitVec 32 :=
  h.data0 ++ h.data1 ++ h.data2 ++ h.data3

/-! ## Registers -/

/-- The registers of the adapter. -/
structure DataFormatAdapter where
  aValid : Bool
  aData : HalfBeat
  aStartofpacket : Bool
  aEndofpacket : Bool
  aEmpty : BitVec 2
  inReadyD1 : Bool
  stateD1 : BitVec 3
  stateRegister : BitVec 3
  sopRegister : Bool
  dataRegister : HalfBeat
  outValid : Bool
  out : StBeat64
  deriving DecidableEq, Repr

/-- The inputs sampled at one edge. -/
structure AdapterIn where
  inValid : Bool
  inBeat : StBeat
  outReady : Bool
  deriving DecidableEq, Repr

/-- What the state machine drives before its last assignments. -/
structure StateOutputs where
  aReady : Bool
  bValid : Bool
  bData : BitVec 64
  bStartofpacket : Bool
  bEmpty : BitVec 3
  newState : BitVec 3
  memWrite : Bool
  sopMemWriteenable : Bool
  deriving DecidableEq, Repr

namespace DataFormatAdapter

/-- The registers while `reset_n` is low. -/
def reset : DataFormatAdapter where
  aValid := false
  aData := ⟨0, 0, 0, 0⟩
  aStartofpacket := false
  aEndofpacket := false
  aEmpty := 0
  inReadyD1 := false
  stateD1 := 0
  stateRegister := 0
  sopRegister := false
  dataRegister := ⟨0, 0, 0, 0⟩
  outValid := false
  out := ⟨0, false, false, 0⟩

/-! ## The state machine -/

/-- `b_ready = (out_ready || ~out_valid)`. -/
def bReady (s : DataFormatAdapter) (outReady : Bool) : Bool :=
  outReady || !s.outValid

/-- `state`: the register, or the state of the edge before if nothing was taken then. -/
def state (s : DataFormatAdapter) : BitVec 3 :=
  if s.inReadyD1 then s.stateRegister else s.stateD1

/-- States 0, 2, 4 and 6: the first half of a beat is kept, or sent alone if the packet ends
with it. The beat is then marked with `sop`. -/
def firstHalf (s : DataFormatAdapter) (outReady : Bool) (sop : Bool) : StateOutputs where
  aReady := s.bReady outReady
  bValid := s.bReady outReady && s.aValid && s.aEndofpacket
  bData := s.aData.word ++ 0#32
  bStartofpacket :=
    if s.bReady outReady && s.aValid && s.aEndofpacket then sop else s.sopRegister
  bEmpty :=
    if s.bReady outReady && s.aValid && s.aEndofpacket then s.aEmpty.setWidth 3 + 4 else 0
  newState :=
    if s.bReady outReady && s.aValid then if s.aEndofpacket then 0 else s.state + 1 else s.state
  memWrite := s.bReady outReady && s.aValid
  sopMemWriteenable := s.bReady outReady && s.aValid

/-- States 1, 3, 5 and 7: the second half completes the beat. -/
def secondHalf (s : DataFormatAdapter) (outReady : Bool) (next : BitVec 3) : StateOutputs where
  aReady := s.bReady outReady
  bValid := s.bReady outReady && s.aValid
  bData := s.dataRegister.word ++ s.aData.word
  bStartofpacket := s.sopRegister
  bEmpty :=
    if s.bReady outReady && s.aValid && s.aEndofpacket then s.aEmpty.setWidth 3 + 0 else 0
  newState :=
    if s.bReady outReady && s.aValid then if s.aEndofpacket then 0 else next else s.state
  memWrite := false
  sopMemWriteenable := false

/-- `case (state)`. Only state 0 marks a half sent alone with the marker that came with it. -/
def stateMachine (s : DataFormatAdapter) (outReady : Bool) : StateOutputs :=
  match s.state.toNat with
  | 0 => s.firstHalf outReady s.aStartofpacket
  | 1 => s.secondHalf outReady (s.state + 1)
  | 2 => s.firstHalf outReady s.sopRegister
  | 3 => s.secondHalf outReady (s.state + 1)
  | 4 => s.firstHalf outReady s.sopRegister
  | 5 => s.secondHalf outReady (s.state + 1)
  | 6 => s.firstHalf outReady s.sopRegister
  | _ => s.secondHalf outReady 0

/-- `in_ready = (a_ready || ~a_valid)`. -/
def inReady (s : DataFormatAdapter) (outReady : Bool) : Bool :=
  (s.stateMachine outReady).aReady || !s.aValid

/-- One rising edge of `clk` with `reset_n` high. -/
def clock (s : DataFormatAdapter) (i : AdapterIn) : DataFormatAdapter :=
  let o := s.stateMachine i.outReady
  let inReady := s.inReady i.outReady
  -- the last assignments of the state machine
  let sopMemWritedata := s.aValid && s.aStartofpacket
  let sopMemWriteenable :=
    o.sopMemWriteenable || (s.bReady i.outReady && o.bValid && o.bStartofpacket)
  { aValid := if inReady then i.inValid else s.aValid
    aData := if inReady then HalfBeat.ofData i.inBeat.data else s.aData
    aStartofpacket := if inReady then i.inBeat.startofpacket else s.aStartofpacket
    aEndofpacket := if inReady then i.inBeat.endofpacket else s.aEndofpacket
    aEmpty :=
      if inReady then if i.inBeat.endofpacket then i.inBeat.empty else 0 else s.aEmpty
    inReadyD1 := inReady
    stateD1 := s.state
    stateRegister := o.newState
    sopRegister := if sopMemWriteenable then sopMemWritedata else s.sopRegister
    dataRegister := if o.memWrite then s.aData else s.dataRegister
    outValid := if s.bReady i.outReady then o.bValid else s.outValid
    out :=
      if s.bReady i.outReady then ⟨o.bData, o.bStartofpacket, s.aEndofpacket, o.bEmpty⟩
      else s.out }

/-- The beat taken over at an edge: `in_valid && in_ready`. -/
def accepts (s : DataFormatAdapter) (i : AdapterIn) : Option StBeat :=
  if i.inValid && s.inReady i.outReady then some i.inBeat else none

/-- The beat handed over at an edge: `out_valid && out_ready`. -/
def delivers (s : DataFormatAdapter) (i : AdapterIn) : Option StBeat64 :=
  if s.outValid && i.outReady then some s.out else none

end DataFormatAdapter

/-- The adapter as a clocked machine. -/
def dataFormatAdapter : Machine DataFormatAdapter AdapterIn where
  reset := DataFormatAdapter.reset
  step := DataFormatAdapter.clock

/-! ## Beats cut back into halves -/

theorem HalfBeat.word_ofData (w : BitVec 32) : (HalfBeat.ofData w).word = w := by
  apply BitVec.eq_of_getLsbD_eq
  intro i hi
  simp only [HalfBeat.word, HalfBeat.ofData, BitVec.getLsbD_append, BitVec.getLsbD_extractLsb']
  -- byte `k` of the word comes from its own lane
  split_ifs <;> grind

/-- Upper and lower half, unless the packet ends with the upper one. -/
def StBeat64.halves (b : StBeat64) : List StBeat :=
  if b.endofpacket && b.empty.getLsbD 2 then
    [⟨b.data.extractLsb' 32 32, b.startofpacket, true, b.empty.setWidth 2⟩]
  else
    [⟨b.data.extractLsb' 32 32, b.startofpacket, false, 0⟩,
      ⟨b.data.extractLsb' 0 32, false, b.endofpacket, b.empty.setWidth 2⟩]

/-- `empty` counts only at the end of a packet. -/
def StBeat.trimmed (b : StBeat) : StBeat :=
  { b with empty := if b.endofpacket then b.empty else 0 }

/-- A half that ends a packet alone. -/
theorem halves_first (w : BitVec 32) (sop : Bool) (empty : BitVec 2) :
    (StBeat64.mk (w ++ 0#32) sop true (empty.setWidth 3 + 4)).halves = [⟨w, sop, true, empty⟩] := by
  have hbits : ∀ e : BitVec 2,
      (e.setWidth 3 + 4).getLsbD 2 = true ∧ (e.setWidth 3 + 4).setWidth 2 = e := by decide
  simp only [StBeat64.halves, (hbits empty).1, (hbits empty).2, Bool.and_self, if_true,
    BitVec.extractLsb'_append_eq_left]

/-- A whole beat. -/
theorem halves_second (w w' : BitVec 32) (sop eop : Bool) (empty : BitVec 2) :
    (StBeat64.mk (w ++ w') sop eop (empty.setWidth 3 + 0)).halves =
      [⟨w, sop, false, 0⟩, ⟨w', false, eop, empty⟩] := by
  have hbits : ∀ e : BitVec 2,
      (e.setWidth 3 + 0).getLsbD 2 = false ∧ (e.setWidth 3 + 0).setWidth 2 = e := by decide
  simp only [StBeat64.halves, (hbits empty).1, (hbits empty).2, Bool.and_false,
    Bool.false_eq_true, if_false, BitVec.extractLsb'_append_eq_left,
    BitVec.extractLsb'_append_eq_right]

/-! ## What is inside -/

namespace DataFormatAdapter

/-- The beat in the input register. -/
def aBeat (s : DataFormatAdapter) : StBeat :=
  ⟨s.aData.word, s.aStartofpacket, s.aEndofpacket, s.aEmpty⟩

/-- The machine waits for a second half. -/
def isSecond (s : DataFormatAdapter) : Bool :=
  s.state.getLsbD 0

/-- The first half that is kept. -/
def held (s : DataFormatAdapter) : List StBeat :=
  if s.isSecond then [⟨s.dataRegister.word, s.sopRegister, false, 0⟩] else []

/-- The halves in the output register. -/
def outPart (s : DataFormatAdapter) : List StBeat :=
  if s.outValid then s.out.halves else []

/-- The half in the input register. -/
def inPart (s : DataFormatAdapter) : List StBeat :=
  if s.aValid then [s.aBeat] else []

/-- The halves inside, the oldest first. -/
def inside (s : DataFormatAdapter) : List StBeat :=
  s.outPart ++ (s.held ++ s.inPart)

/-- The states do the same two things in turn; state 7 leads back to state 0 by overflow. -/
theorem stateMachine_eq (s : DataFormatAdapter) (outReady : Bool) :
    s.stateMachine outReady =
      if s.isSecond then s.secondHalf outReady (s.state + 1)
      else s.firstHalf outReady (if s.state = 0 then s.aStartofpacket else s.sopRegister) := by
  have hstates : ∀ st : BitVec 3, st = 0 ∨ st = 1 ∨ st = 2 ∨ st = 3 ∨ st = 4 ∨ st = 5 ∨ st = 6 ∨
      st = 7 := by decide
  unfold stateMachine isSecond
  rcases hstates s.state with h | h | h | h | h | h | h | h <;> rw [h] <;> rfl

/-- The state of the next edge, whether the machine moves or waits. -/
theorem state_clock (s : DataFormatAdapter) (i : AdapterIn) :
    (s.clock i).state = (s.stateMachine i.outReady).newState := by
  show (if s.inReady i.outReady then (s.stateMachine i.outReady).newState else s.state) = _
  split_ifs with h
  · rfl
  · -- without `in_ready` the machine waits
    rw [inReady, stateMachine_eq] at h
    rw [stateMachine_eq]
    cases hsecond : s.isSecond <;> simp_all [firstHalf, secondHalf]

/-- The 64-bit beat that goes to the output register at this edge. -/
def emitted (s : DataFormatAdapter) (outReady : Bool) : List StBeat64 :=
  let o := s.stateMachine outReady
  if o.bValid then [⟨o.bData, o.bStartofpacket, s.aEndofpacket, o.bEmpty⟩] else []

/-- What the registers know of the packet that is open after the beats accepted so far. -/
structure Inv (s : DataFormatAdapter) (isOpen : Bool) : Prop where
  aEmpty : s.aEndofpacket = false → s.aEmpty = 0
  aOpen : s.aValid = true → isOpen = !s.aEndofpacket
  aStart : s.aValid = true → s.aStartofpacket = true → s.state = 0
  isOpen : s.aValid = false → s.state ≠ 0 → isOpen = true
  sop : s.isSecond = false → s.state ≠ 0 → s.sopRegister = false

theorem inv_reset : reset.Inv false := by
  constructor <;> decide

/-- A beat that is not the first half of state 0 carries no start marker. -/
theorem Inv.aStartofpacket {s : DataFormatAdapter} {o : Bool} (h : s.Inv o)
    (ha : s.aValid = true) (hst : s.state ≠ 0) : s.aStartofpacket = false := by
  cases hsop : s.aStartofpacket
  · rfl
  · exact absurd (h.aStart ha hsop) hst

theorem state_ne_zero_of_isSecond {s : DataFormatAdapter} (h : s.isSecond = true) :
    s.state ≠ 0 := by
  intro hz
  rw [isSecond, hz] at h
  cases h

theorem isSecond_succ (st : BitVec 3) : (st + 1).getLsbD 0 = !st.getLsbD 0 := by
  revert st
  decide

/-- Where the machine waits: nothing in the input register, or no room behind it. -/
theorem emitted_of_wait {s : DataFormatAdapter} {r : Bool}
    (h : (s.bReady r && s.aValid) = false) : s.emitted r = [] := by
  unfold emitted
  rw [stateMachine_eq]
  cases s.isSecond <;> simp [firstHalf, secondHalf, h]

theorem newState_of_wait {s : DataFormatAdapter} {r : Bool}
    (h : (s.bReady r && s.aValid) = false) : (s.stateMachine r).newState = s.state := by
  rw [stateMachine_eq]
  cases s.isSecond <;> simp [firstHalf, secondHalf, h]

theorem sopRegister_of_wait {s : DataFormatAdapter} {i : AdapterIn}
    (h : (s.bReady i.outReady && s.aValid) = false) :
    (s.clock i).sopRegister = s.sopRegister := by
  simp only [clock, stateMachine_eq]
  cases s.isSecond <;> simp [firstHalf, secondHalf, h]

theorem held_of_wait {s : DataFormatAdapter} {i : AdapterIn}
    (h : (s.bReady i.outReady && s.aValid) = false) : (s.clock i).held = s.held := by
  have hsecond : (s.clock i).isSecond = s.isSecond := by
    rw [isSecond, state_clock, newState_of_wait h, isSecond]
  have hdata : (s.clock i).dataRegister = s.dataRegister := by
    simp only [clock, stateMachine_eq]
    cases s.isSecond <;> simp [firstHalf, secondHalf, h]
  rw [held, held, hsecond, hdata, sopRegister_of_wait h]

/-- **One half moves on**: the half in the input register joins the one that is kept, or is
kept itself, or leaves alone. -/
theorem Inv.held_of_move {s : DataFormatAdapter} {o : Bool} (h : s.Inv o) {i : AdapterIn}
    (hb : s.bReady i.outReady = true) (ha : s.aValid = true) :
    s.held ++ [s.aBeat] = (s.emitted i.outReady).flatMap StBeat64.halves ++ (s.clock i).held := by
  have hsecond : (s.clock i).isSecond = (s.stateMachine i.outReady).newState.getLsbD 0 := by
    rw [isSecond, state_clock]
  cases hpos : s.isSecond with
  | false =>
    cases heop : s.aEndofpacket with
    | true =>
      -- the packet ends with a first half, which leaves alone
      have hsop : (if s.state = 0 then s.aStartofpacket else s.sopRegister) =
          s.aStartofpacket := by
        split_ifs with hst
        · rfl
        · rw [h.sop hpos hst, h.aStartofpacket ha hst]
      have hemit : s.emitted i.outReady =
          [⟨s.aData.word ++ 0#32, s.aStartofpacket, true, s.aEmpty.setWidth 3 + 4⟩] := by
        simp only [emitted, stateMachine_eq, hpos, firstHalf, hb, ha, heop, hsop, Bool.and_self,
          Bool.false_eq_true, if_false, if_true]
      have hnext : (s.clock i).isSecond = false := by
        simp [hsecond, stateMachine_eq, hpos, firstHalf, hb, ha, heop]
      simp only [held, hpos, hnext, hemit, List.flatMap_cons, List.flatMap_nil, halves_first,
        aBeat, heop, Bool.false_eq_true, if_false, List.nil_append, List.append_nil]
    | false =>
      -- the half is kept
      have hemit : s.emitted i.outReady = [] := by
        simp [emitted, stateMachine_eq, hpos, firstHalf, heop]
      have hnext : (s.clock i).isSecond = true := by
        have hodd : (s.state + 1).getLsbD 0 = true := by
          rw [isSecond_succ, ← isSecond, hpos]
          rfl
        simp only [hsecond, stateMachine_eq, hpos, firstHalf, hb, ha, heop]
        exact hodd
      have hdata : (s.clock i).dataRegister = s.aData := by
        simp [clock, stateMachine_eq, hpos, firstHalf, hb, ha]
      have hkept : (s.clock i).sopRegister = s.aStartofpacket := by
        simp [clock, stateMachine_eq, hpos, firstHalf, hb, ha]
      simp [held, hpos, hnext, hemit, hdata, hkept, aBeat, heop, h.aEmpty heop]
  | true =>
    -- a second half completes the beat
    have hsop := h.aStartofpacket ha (state_ne_zero_of_isSecond hpos)
    have hempty : (if s.aEndofpacket then s.aEmpty.setWidth 3 + 0 else 0) =
        s.aEmpty.setWidth 3 + (0 : BitVec 3) := by
      split_ifs with heop
      · rfl
      · rw [h.aEmpty (by simpa using heop)]
        rfl
    have hemit : s.emitted i.outReady = [⟨s.dataRegister.word ++ s.aData.word, s.sopRegister,
        s.aEndofpacket, s.aEmpty.setWidth 3 + 0⟩] := by
      simp only [emitted, stateMachine_eq, hpos, secondHalf, hb, ha, Bool.and_self, Bool.true_and,
        if_true, hempty]
    have hnext : (s.clock i).isSecond = false := by
      have heven : (s.state + 1).getLsbD 0 = false := by
        rw [isSecond_succ, ← isSecond, hpos]
        rfl
      simp only [hsecond, stateMachine_eq, hpos, secondHalf, hb, ha, Bool.and_self, if_true]
      split_ifs
      · rfl
      · exact heven
    simp only [held, hpos, hnext, hemit, List.flatMap_cons, List.flatMap_nil, halves_second,
      aBeat, hsop, Bool.false_eq_true, if_false, if_true, List.cons_append, List.nil_append,
      List.append_nil]

/-- The state machine keeps what it knows of the packet: only a packet that goes on leaves it
in a state other than 0. -/
theorem Inv.newState {s : DataFormatAdapter} {o : Bool} (h : s.Inv o) (r : Bool)
    (hst : (s.stateMachine r).newState ≠ 0) (hr : s.inReady r = true) : o = true := by
  by_cases hmove : (s.bReady r && s.aValid) = true
  · obtain ⟨-, ha⟩ := Bool.and_eq_true_iff.mp hmove
    rw [h.aOpen ha]
    cases heop : s.aEndofpacket
    · rfl
    · exfalso
      apply hst
      rw [stateMachine_eq]
      cases s.isSecond <;> simp [firstHalf, secondHalf, hmove, heop]
  · have hwait : (s.bReady r && s.aValid) = false := by simpa using hmove
    rw [newState_of_wait hwait] at hst
    refine h.isOpen ?_ hst
    -- a machine that waits and is ready has nothing to wait with
    cases ha : s.aValid
    · rfl
    · exfalso
      rw [ha, Bool.and_true] at hwait
      rw [inReady, stateMachine_eq, ha] at hr
      cases hpos : s.isSecond <;> simp [hpos, firstHalf, secondHalf, hwait] at hr

/-- A first half other than that of state 0 finds the start marker of its beat cleared. -/
theorem Inv.sop_clock {s : DataFormatAdapter} {o : Bool} (h : s.Inv o) (i : AdapterIn)
    (hpos : (s.clock i).isSecond = false) (hst : (s.clock i).state ≠ 0) :
    (s.clock i).sopRegister = false := by
  by_cases hmove : (s.bReady i.outReady && s.aValid) = true
  · obtain ⟨hb, ha⟩ := Bool.and_eq_true_iff.mp hmove
    rw [isSecond, state_clock, stateMachine_eq] at hpos
    rw [state_clock, stateMachine_eq] at hst
    cases hsecond : s.isSecond with
    | false =>
      -- a first half is followed by a second one, or by state 0
      exfalso
      have hodd : (s.state + 1).getLsbD 0 = true := by
        rw [isSecond_succ, ← isSecond, hsecond]
        rfl
      cases heop : s.aEndofpacket <;> simp_all [firstHalf]
    | true =>
      have hsop := h.aStartofpacket ha (state_ne_zero_of_isSecond hsecond)
      simp only [clock, stateMachine_eq, hsecond, secondHalf, hb, ha, hsop]
      cases s.sopRegister <;> rfl
  · have hwait : (s.bReady i.outReady && s.aValid) = false := by simpa using hmove
    rw [sopRegister_of_wait hwait]
    rw [isSecond, state_clock, newState_of_wait hwait] at hpos
    rw [state_clock, newState_of_wait hwait] at hst
    exact h.sop hpos hst

/-! ## One edge -/

theorem inReady_eq (s : DataFormatAdapter) (r : Bool) :
    s.inReady r = (s.bReady r || !s.aValid) := by
  rw [inReady, stateMachine_eq]
  cases s.isSecond <;> rfl

/-- The output register takes what the state machine emits. -/
theorem outPart_clock (s : DataFormatAdapter) (i : AdapterIn) :
    s.outPart ++ (s.emitted i.outReady).flatMap StBeat64.halves =
      (s.delivers i).toList.flatMap StBeat64.halves ++ (s.clock i).outPart := by
  cases hb : s.bReady i.outReady with
  | false =>
    have hready : i.outReady = false := by
      simp only [bReady, Bool.or_eq_false_iff] at hb
      exact hb.1
    have hwait : (s.bReady i.outReady && s.aValid) = false := by rw [hb, Bool.false_and]
    have hnext : (s.clock i).outPart = s.outPart := by simp [outPart, clock, hb]
    have hnone : s.delivers i = none := by simp [delivers, hready]
    rw [emitted_of_wait hwait, hnext, hnone]
    simp only [List.flatMap_nil, List.append_nil, Option.toList_none, List.nil_append]
  | true =>
    have hnext : (s.clock i).outPart = (s.emitted i.outReady).flatMap StBeat64.halves := by
      simp only [outPart, clock, hb, emitted, if_true]
      split_ifs <;> simp
    have hout : s.outPart = (s.delivers i).toList.flatMap StBeat64.halves := by
      simp only [bReady, Bool.or_eq_true, Bool.not_eq_true'] at hb
      rcases hb with hready | hvalid
      · simp only [outPart, delivers, hready, Bool.and_true]
        split_ifs <;> simp
      · simp [outPart, delivers, hvalid]
    rw [hnext, hout]

/-- The input register takes what comes in once it is free. -/
theorem inPart_clock {s : DataFormatAdapter} {i : AdapterIn} (hr : s.inReady i.outReady = true) :
    (s.clock i).inPart = (s.accepts i).toList.map StBeat.trimmed := by
  simp only [inPart, clock, accepts, aBeat, hr, if_true, Bool.and_true, HalfBeat.word_ofData]
  cases i.inValid <;> rfl

theorem inPart_clock_of_busy {s : DataFormatAdapter} {i : AdapterIn}
    (hr : s.inReady i.outReady = false) :
    (s.clock i).inPart = s.inPart ∧ s.accepts i = none := by
  simp [inPart, clock, accepts, aBeat, hr]

/-- **Conservation at one edge.** -/
theorem Inv.clock_conserves {s : DataFormatAdapter} {o : Bool} (h : s.Inv o) (i : AdapterIn) :
    s.inside ++ (s.accepts i).toList.map StBeat.trimmed =
      (s.delivers i).toList.flatMap StBeat64.halves ++ (s.clock i).inside := by
  have hout := outPart_clock s i
  by_cases hmove : (s.bReady i.outReady && s.aValid) = true
  · obtain ⟨hb, ha⟩ := Bool.and_eq_true_iff.mp hmove
    have hr : s.inReady i.outReady = true := by rw [inReady_eq, hb, Bool.true_or]
    have hin : s.inPart = [s.aBeat] := by simp [inPart, ha]
    calc s.inside ++ _ = s.outPart ++ (s.held ++ [s.aBeat]) ++ (s.clock i).inPart := by
          rw [inPart_clock hr, inside, hin]
      _ = s.outPart ++ (s.emitted i.outReady).flatMap StBeat64.halves ++
            ((s.clock i).held ++ (s.clock i).inPart) := by
          rw [h.held_of_move hb ha]
          simp only [List.append_assoc]
      _ = _ := by
          rw [hout, inside, List.append_assoc]
  · have hwait : (s.bReady i.outReady && s.aValid) = false := by simpa using hmove
    rw [emitted_of_wait hwait, List.flatMap_nil, List.append_nil] at hout
    rw [inside, inside, hout, held_of_wait hwait]
    cases hr : s.inReady i.outReady with
    | true =>
      -- the input register was free
      have hin : s.inPart = [] := by
        rw [inReady_eq] at hr
        cases ha : s.aValid <;> simp_all [inPart]
      rw [inPart_clock hr, hin]
      simp only [List.append_assoc, List.nil_append]
    | false =>
      obtain ⟨hin, hacc⟩ := inPart_clock_of_busy hr
      rw [hin, hacc]
      simp only [Option.toList_none, List.map_nil, List.append_nil, List.append_assoc]

end DataFormatAdapter

/-! ## Streams of packets -/

/-- A packet is open after these beats. -/
def openAfter (isOpen : Bool) (beats : List StBeat) : Bool :=
  beats.foldl (fun _ b => !b.endofpacket) isOpen

/-- A start marker stands only where no packet is open. -/
def MarkersNest : Bool → List StBeat → Prop
  | _, [] => True
  | isOpen, b :: bs => (b.startofpacket = true → isOpen = false) ∧ MarkersNest (!b.endofpacket) bs

namespace DataFormatAdapter

/-- The invariant is kept if the beat accepted at the edge nests. -/
theorem Inv.clock {s : DataFormatAdapter} {o : Bool} (h : s.Inv o) (i : AdapterIn)
    (hnest : MarkersNest o (s.accepts i).toList) :
    (s.clock i).Inv (openAfter o (s.accepts i).toList) := by
  have hstate := state_clock s i
  cases hr : s.inReady i.outReady with
  | false =>
    -- the input register keeps its beat, and the machine waits
    obtain ⟨hb, ha⟩ : s.bReady i.outReady = false ∧ s.aValid = true := by
      simpa [inReady_eq] using hr
    have hwait : (s.bReady i.outReady && s.aValid) = false := by rw [hb, Bool.false_and]
    rw [newState_of_wait hwait] at hstate
    have hnone : s.accepts i = none := (inPart_clock_of_busy hr).2
    have hkept : (s.clock i).aValid = s.aValid ∧ (s.clock i).aStartofpacket = s.aStartofpacket ∧
        (s.clock i).aEndofpacket = s.aEndofpacket ∧ (s.clock i).aEmpty = s.aEmpty := by
      simp [DataFormatAdapter.clock, hr]
    obtain ⟨hvalid, hstart, hend, hempty⟩ := hkept
    rw [hnone]
    constructor
    case aEmpty => rw [hend, hempty]; exact h.aEmpty
    case aOpen => rw [hvalid, hend]; exact h.aOpen
    case aStart => rw [hvalid, hstart, hstate]; exact h.aStart
    case isOpen => rw [hvalid, ha]; exact fun hfree => absurd hfree (by decide)
    case sop => exact h.sop_clock i
  | true =>
    have hnew := h.newState i.outReady
    have htaken : (s.clock i).aValid = i.inValid ∧
        (s.clock i).aStartofpacket = i.inBeat.startofpacket ∧
        (s.clock i).aEndofpacket = i.inBeat.endofpacket ∧
        (s.clock i).aEmpty = if i.inBeat.endofpacket then i.inBeat.empty else 0 := by
      simp [DataFormatAdapter.clock, hr]
    obtain ⟨hvalid, hstart, hend, hempty⟩ := htaken
    have hacc : s.accepts i = if i.inValid then some i.inBeat else none := by
      simp [accepts, hr]
    constructor
    case aEmpty =>
      rw [hend, hempty]
      intro heop
      rw [heop]
      rfl
    case aOpen =>
      rw [hvalid, hend]
      intro hv
      rw [hacc, hv]
      rfl
    case aStart =>
      rw [hvalid, hstart, hstate]
      intro hv hsop
      rw [hacc, hv] at hnest
      by_contra hst
      -- the packet before is still open
      have hopen := hnew hst hr
      rw [hnest.1 hsop] at hopen
      cases hopen
    case isOpen =>
      rw [hvalid, hstate]
      intro hv hst
      rw [hacc, hv]
      exact hnew hst hr
    case sop => exact h.sop_clock i

end DataFormatAdapter

theorem openAfter_append (o : Bool) (bs bs' : List StBeat) :
    openAfter o (bs ++ bs') = openAfter (openAfter o bs) bs' :=
  List.foldl_append

theorem MarkersNest.append {o : Bool} {bs bs' : List StBeat} (h : MarkersNest o (bs ++ bs')) :
    MarkersNest o bs ∧ MarkersNest (openAfter o bs) bs' := by
  induction bs generalizing o with
  | nil => exact ⟨trivial, h⟩
  | cons b bs ih =>
    obtain ⟨hhead, htail⟩ := ih h.2
    exact ⟨⟨h.1, hhead⟩, htail⟩

/-- **Conservation along a run**, from any state that satisfies the invariant. -/
theorem adapter_run {s : DataFormatAdapter} {o : Bool} (h : s.Inv o) (is : List AdapterIn)
    (hnest : MarkersNest o (dataFormatAdapter.events DataFormatAdapter.accepts s is)) :
    s.inside ++ (dataFormatAdapter.events DataFormatAdapter.accepts s is).map StBeat.trimmed =
      (dataFormatAdapter.events DataFormatAdapter.delivers s is).flatMap StBeat64.halves ++
        (dataFormatAdapter.run s is).inside := by
  induction is generalizing s o with
  | nil => simp
  | cons i is ih =>
    rw [Machine.events_cons] at hnest
    obtain ⟨hfirst, hrest⟩ := hnest.append
    have hrun := ih (h.clock i hfirst) hrest
    calc s.inside ++ (dataFormatAdapter.events DataFormatAdapter.accepts s (i :: is)).map _
        = s.inside ++ (s.accepts i).toList.map StBeat.trimmed ++
            (dataFormatAdapter.events DataFormatAdapter.accepts (s.clock i) is).map _ := by
          rw [Machine.events_cons, List.map_append, List.append_assoc]
          rfl
      _ = (s.delivers i).toList.flatMap StBeat64.halves ++ ((s.clock i).inside ++
            (dataFormatAdapter.events DataFormatAdapter.accepts (s.clock i) is).map _) := by
          rw [h.clock_conserves i, List.append_assoc]
      _ = _ := by
          rw [hrun, Machine.events_cons, List.flatMap_append, List.append_assoc]
          rfl

/-- Two halves in the output register, one kept, one in the input register. -/
theorem length_inside_le (s : DataFormatAdapter) : s.inside.length ≤ 4 := by
  have hout : s.outPart.length ≤ 2 := by
    unfold DataFormatAdapter.outPart StBeat64.halves
    split_ifs <;> simp
  have hheld : s.held.length ≤ 1 := by
    unfold DataFormatAdapter.held
    split_ifs <;> simp
  have hin : s.inPart.length ≤ 1 := by
    unfold DataFormatAdapter.inPart
    split_ifs <;> simp
  rw [DataFormatAdapter.inside, List.length_append, List.length_append]
  omega

/-- **The adapter keeps the stream.** For every stream of packets whose markers nest, every
pattern of valid beats and every back-pressure, the 64-bit beats handed over, cut back into
halves, and at most four halves still inside are the 32-bit beats taken over, in order. -/
theorem adapter_conserves (is : List AdapterIn)
    (hnest : MarkersNest false
      (dataFormatAdapter.events DataFormatAdapter.accepts DataFormatAdapter.reset is)) :
    ∃ inside : List StBeat, inside.length ≤ 4 ∧
      (dataFormatAdapter.events DataFormatAdapter.accepts DataFormatAdapter.reset is).map
          StBeat.trimmed =
        (dataFormatAdapter.events DataFormatAdapter.delivers DataFormatAdapter.reset is).flatMap
          StBeat64.halves ++ inside := by
  have hrun := adapter_run DataFormatAdapter.inv_reset is hnest
  have hempty : DataFormatAdapter.reset.inside = [] := rfl
  rw [hempty, List.nil_append] at hrun
  exact ⟨_, length_inside_le _, hrun⟩

/-- Three beats of a packet that ends in the middle of a 64-bit beat, the last one with two
bytes, behind a sink that stalls once. -/
def oddPacket : List AdapterIn :=
  [⟨true, ⟨0x01020304, true, false, 0⟩, true⟩, ⟨true, ⟨0x05060708, false, false, 0⟩, true⟩,
    ⟨true, ⟨0x090A0B0C, false, true, 2⟩, false⟩, ⟨false, 0, true⟩, ⟨false, 0, true⟩,
    ⟨false, 0, true⟩]

/-- Two 64-bit beats leave, and nothing of the packet is lost. -/
theorem oddPacket_conserved :
    let delivered := dataFormatAdapter.events DataFormatAdapter.delivers DataFormatAdapter.reset
      oddPacket
    delivered = [⟨0x0102030405060708, true, false, 0⟩, ⟨0x090A0B0C00000000, false, true, 6⟩] ∧
      ∃ inside : List StBeat, inside.length ≤ 4 ∧
        (dataFormatAdapter.events DataFormatAdapter.accepts DataFormatAdapter.reset
          oddPacket).map StBeat.trimmed = delivered.flatMap StBeat64.halves ++ inside := by
  refine ⟨by decide, adapter_conserves oddPacket ?_⟩
  have haccepted : dataFormatAdapter.events DataFormatAdapter.accepts DataFormatAdapter.reset
      oddPacket = [⟨0x01020304, true, false, 0⟩, ⟨0x05060708, false, false, 0⟩,
        ⟨0x090A0B0C, false, true, 2⟩] := by decide
  rw [haccepted]
  simp [MarkersNest]

end Rf215Sdr.Fpga
