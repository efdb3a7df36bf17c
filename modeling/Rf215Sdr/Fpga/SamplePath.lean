import Rf215Sdr.Fpga.DataFormatAdapter
import Rf215Sdr.Fpga.DcFifoQueue
import Rf215Sdr.Fpga.ReceiveChain

/-!
# From the LVDS Line to the DMA Controller

`DE10_NANO_SoC_GHRD.sv` and `soc_system.v` connect the receiver and the stream source, on the
LVDS clock, through the dual-clock FIFO to the width adapter, on the system clock, whose 64-bit
beats go to the sink of the DMA controller. The first width adapter passes everything through
and sets `empty` to 0.

A run is any interleaving of edges of the two clocks. Each stage conserves words; the stages
add up.

## Main results

- `samplePath_order`: what the DMA controller gets is what the source transferred, in order.
- `LineHistory.step`: while the FIFO has room, that is what the receiver put out.
-/

namespace Rf215Sdr.Fpga

open Rf215Sdr.Lib

/-! ## Composition -/

/-- The registers on the way. -/
structure SamplePath where
  chain : Chain
  fifo : DcFifo 10 StBeat
  adapter : DataFormatAdapter

/-- Rising edges: of the LVDS clock, of the system clock, or of both at once. -/
inductive PathEdge where
  | lvds (bitPair : BitVec 2)
  | sys (sinkReady : Bool)
  | both (bitPair : BitVec 2) (sinkReady : Bool) (wrSel rdSel : BitVec 11) (clash : StBeat)

namespace SamplePath

/-- The source as seen by the FIFO. -/
def fifoIn (s : SamplePath) : FifoIn StBeat where
  inValid := s.chain.source.streamTvalid
  inPayload :=
    ⟨s.chain.source.streamTdata, s.chain.source.streamTstart, s.chain.source.streamTlast, 0⟩

/-- The FIFO as seen by the source. -/
def chainIn (s : SamplePath) (bitPair : BitVec 2) : ChainIn where
  bitPair := bitPair
  streamTready := s.fifo.inSide.inReady

/-- The FIFO as seen by the adapter. -/
def adapterIn (s : SamplePath) (sinkReady : Bool) : AdapterIn where
  inValid := s.fifo.outSide.outValid
  inBeat := s.fifo.outSide.outPayload
  outReady := sinkReady

/-- The edge the FIFO sees. -/
def fifoEdge (s : SamplePath) : PathEdge → FifoEdge 10 StBeat
  | .lvds _ => .inClk s.fifoIn
  | .sys sinkReady => .outClk (s.adapter.inReady sinkReady)
  | .both _ sinkReady wrSel rdSel clash =>
    .bothClk s.fifoIn (s.adapter.inReady sinkReady) wrSel rdSel clash

/-- One edge: the modules on its clock sample what the others show before it. -/
def clock (s : SamplePath) (e : PathEdge) : SamplePath where
  chain :=
    match e with
    | .lvds bitPair | .both bitPair _ _ _ _ => s.chain.clock (s.chainIn bitPair)
    | .sys _ => s.chain
  fifo := s.fifo.clock (s.fifoEdge e)
  adapter :=
    match e with
    | .lvds _ => s.adapter
    | .sys sinkReady | .both _ sinkReady _ _ _ => s.adapter.clock (s.adapterIn sinkReady)

/-- All modules in reset; the memory of the FIFO is not reset. -/
def reset (mem : BitVec 10 → StBeat) (shown : StBeat) : SamplePath where
  chain := { rx := LvdsRx.reset, source := IqStreamSource.reset }
  fifo := DcFifo.reset mem shown
  adapter := DataFormatAdapter.reset

/-- The word the receiver puts out at an edge. -/
def receives (s : SamplePath) : PathEdge → Option (BitVec 32)
  | .lvds bitPair | .both bitPair _ _ _ _ => validWord s.chain.rx bitPair
  | .sys _ => none

/-- The beat the source transfers to the FIFO at an edge. -/
def transfers (s : SamplePath) (e : PathEdge) : Option StBeat :=
  s.fifo.accepts (s.fifoEdge e)

/-- The beat the DMA controller takes at an edge. -/
def delivers (s : SamplePath) : PathEdge → Option StBeat64
  | .lvds _ => none
  | .sys sinkReady | .both _ sinkReady _ _ _ => s.adapter.delivers (s.adapterIn sinkReady)

end SamplePath

/-- The path as a machine over the edges of both clocks. -/
def samplePath (mem : BitVec 10 → StBeat) (shown : StBeat) : Machine SamplePath PathEdge where
  reset := SamplePath.reset mem shown
  step := SamplePath.clock

/-- The two words of a 64-bit beat, the first symbols first. -/
def StBeat64.words (b : StBeat64) : List (BitVec 32) :=
  [b.data.extractLsb' 32 32, b.data.extractLsb' 0 32]

/-! ## Packets never start or end -/

/-- A beat without packet signals. -/
def StBeat.Plain (b : StBeat) : Prop :=
  b.startofpacket = false ∧ b.endofpacket = false ∧ b.empty = 0

theorem StBeat.Plain.trimmed_eq {b : StBeat} (h : b.Plain) : b.trimmed = b := by
  obtain ⟨data, sop, eop, empty⟩ := b
  obtain ⟨-, rfl, rfl⟩ := h
  rfl

theorem markersNest_of_plain {bs : List StBeat} (h : ∀ b ∈ bs, b.Plain) (o : Bool) :
    MarkersNest o bs := by
  induction bs generalizing o with
  | nil => trivial
  | cons b bs ih =>
    refine ⟨fun hsop => ?_, ih (fun b' hb' => h b' (List.mem_cons_of_mem b hb')) _⟩
    rw [(h b List.mem_cons_self).1] at hsop
    cases hsop

/-- A 64-bit beat whose halves are plain is two words. -/
theorem halves_data_of_plain {b : StBeat64} (h : ∀ half ∈ b.halves, half.Plain) :
    b.halves.map StBeat.data = b.words := by
  unfold StBeat64.halves at h ⊢
  split_ifs with halone
  · -- a half that leaves alone ends its packet
    rw [if_pos halone] at h
    have heop := (h _ List.mem_cons_self).2.1
    cases heop
  · rfl

/-- By the time the source offers a beat its markers are low again. -/
theorem IqStreamSource.unmarked_clock {s : IqStreamSource} {i : SourceIn}
    (h : (s.clock i).streamTvalid = true) :
    (s.clock i).streamTstart = false ∧ (s.clock i).streamTlast = false := by
  rw [IqStreamSource.clock_streamTvalid] at h
  unfold IqStreamSource.clock
  cases i.streamTready <;> simp [h]

/-! ## Conservation from the source to the DMA controller -/

/-- What was moved so far: into the FIFO, out of it, and to the DMA controller. -/
structure PathHistory (s : SamplePath) (moved passed : List StBeat) (beats : List StBeat64)
    (c : FifoCounts) : Prop where
  fifo : FifoHistory s.fifo moved passed c
  adapter : s.adapter.Inv (openAfter false passed)
  kept : passed.map StBeat.trimmed = beats.flatMap StBeat64.halves ++ s.adapter.inside
  source : s.chain.source.streamTvalid = true →
    s.chain.source.streamTstart = false ∧ s.chain.source.streamTlast = false
  plain : ∀ b ∈ moved, b.Plain

theorem pathHistory_reset (mem : BitVec 10 → StBeat) (shown : StBeat) :
    PathHistory (SamplePath.reset mem shown) [] [] [] FifoCounts.start where
  fifo := fifoHistory_reset mem shown
  adapter := DataFormatAdapter.inv_reset
  kept := by
    have hempty : DataFormatAdapter.reset.inside = [] := rfl
    simp only [List.map_nil, List.flatMap_nil, List.nil_append, SamplePath.reset, hempty]
  source h := by cases h
  plain _ h := by cases h

namespace PathHistory

variable {s : SamplePath} {moved passed : List StBeat} {beats : List StBeat64} {c : FifoCounts}

/-- What the source transfers carries no packet signals. -/
theorem plain_transfers (h : PathHistory s moved passed beats c) (e : PathEdge) {b : StBeat}
    (hb : s.transfers e = some b) : b.Plain := by
  have hin : ∀ i : FifoIn StBeat, i = s.fifoIn → (s.fifo.inSide.writes i = true) →
      i.inPayload.Plain := by
    rintro i rfl hw
    have hvalid : s.chain.source.streamTvalid = true := (Bool.and_eq_true_iff.mp hw).1
    exact ⟨(h.source hvalid).1, (h.source hvalid).2, rfl⟩
  cases e with
  | sys sinkReady => cases hb
  | lvds bitPair | both bitPair _ _ _ _ =>
    simp only [SamplePath.transfers, SamplePath.fifoEdge, DcFifo.accepts] at hb
    split_ifs at hb with hw
    obtain rfl := Option.some.inj hb
    exact hin _ rfl hw

/-- The adapter's edge keeps the account of what passed the FIFO. -/
theorem kept_clock (h : PathHistory s moved passed beats c) (sinkReady : Bool) :
    (passed ++ (s.adapter.accepts (s.adapterIn sinkReady)).toList).map StBeat.trimmed =
      (beats ++ (s.adapter.delivers (s.adapterIn sinkReady)).toList).flatMap StBeat64.halves ++
        (s.adapter.clock (s.adapterIn sinkReady)).inside := by
  rw [List.map_append, h.kept, List.append_assoc, h.adapter.clock_conserves, List.flatMap_append,
    List.append_assoc]

/-- **One edge.** -/
theorem clock (h : PathHistory s moved passed beats c) (e : PathEdge) :
    ∃ c', CountsAfter s.fifo c (s.fifoEdge e) c' ∧
      PathHistory (s.clock e) (moved ++ (s.transfers e).toList)
        (passed ++ (s.fifo.delivers (s.fifoEdge e)).toList) (beats ++ (s.delivers e).toList)
        c' := by
  obtain ⟨c', hcounts, hnext⟩ := h.fifo.clock (s.fifoEdge e)
  refine ⟨c', hcounts, ?_⟩
  have hplain : ∀ b ∈ moved ++ (s.transfers e).toList, b.Plain := by
    intro b hb
    rcases List.mem_append.mp hb with hold | hnew
    · exact h.plain b hold
    · exact h.plain_transfers e (Option.mem_toList.mp hnew)
  -- what leaves the FIFO entered it, so it nests and needs no trimming
  have hpassed : ∀ b ∈ passed ++ (s.fifo.delivers (s.fifoEdge e)).toList, b.Plain := by
    intro b hb
    rw [hnext.handed] at hb
    exact hplain b (List.mem_of_mem_take hb)
  have hnest := (markersNest_of_plain hpassed false).append.2
  cases e with
  | lvds bitPair =>
    constructor
    case fifo => exact hnext
    case adapter => simpa [SamplePath.clock, SamplePath.fifoEdge, DcFifo.delivers] using h.adapter
    case kept =>
      simpa [SamplePath.clock, SamplePath.fifoEdge, DcFifo.delivers, SamplePath.delivers]
        using h.kept
    case source => exact IqStreamSource.unmarked_clock
    case plain => exact hplain
  | sys sinkReady =>
    constructor
    case fifo => exact hnext
    case adapter =>
      rw [openAfter_append]
      exact h.adapter.clock (s.adapterIn sinkReady) hnest
    case kept => exact kept_clock h sinkReady
    case source => exact h.source
    case plain => exact hplain
  | both bitPair sinkReady wrSel rdSel clash =>
    constructor
    case fifo => exact hnext
    case adapter =>
      rw [openAfter_append]
      exact h.adapter.clock (s.adapterIn sinkReady) hnest
    case kept => exact kept_clock h sinkReady
    case source => exact IqStreamSource.unmarked_clock
    case plain => exact hplain

variable (mem : BitVec 10 → StBeat) (shown : StBeat)

/-- **A run.** -/
theorem run (h : PathHistory s moved passed beats c) (es : List PathEdge) :
    ∃ passed' c', PathHistory ((samplePath mem shown).run s es)
      (moved ++ (samplePath mem shown).events SamplePath.transfers s es) passed'
      (beats ++ (samplePath mem shown).events SamplePath.delivers s es) c' := by
  induction es generalizing s moved passed beats c with
  | nil => exact ⟨passed, c, by simpa using h⟩
  | cons e es ih =>
    obtain ⟨c₁, -, hnext⟩ := h.clock e
    obtain ⟨passed', c', hlast⟩ := ih hnext
    refine ⟨passed', c', ?_⟩
    rw [Machine.events_cons, Machine.events_cons, ← List.append_assoc, ← List.append_assoc]
    exact hlast

omit mem shown in
/-- The words that were moved are those of the beats, then those in the adapter, then those in
the FIFO. -/
theorem words_moved (h : PathHistory s moved passed beats c) :
    ∃ rest : List (BitVec 32), rest.length + deliveredCount s.fifo c ≤ moved.length + 4 ∧
      moved.map StBeat.data = beats.flatMap StBeat64.words ++ rest := by
  have hplain : ∀ b ∈ passed, b.Plain := by
    intro b hb
    rw [h.fifo.handed] at hb
    exact h.plain b (List.mem_of_mem_take hb)
  have htrim : passed.map StBeat.trimmed = passed := by
    conv_rhs => rw [← List.map_id passed]
    exact List.map_congr_left fun b hb => (hplain b hb).trimmed_eq
  have hkept : passed = beats.flatMap StBeat64.halves ++ s.adapter.inside := by
    rw [← htrim, h.kept]
  have hwords : (beats.flatMap StBeat64.halves).map StBeat.data =
      beats.flatMap StBeat64.words := by
    rw [List.map_flatMap]
    apply List.flatMap_congr
    intro b hb
    apply halves_data_of_plain
    intro half hhalf
    apply hplain
    rw [hkept]
    exact List.mem_append_left _ (List.mem_flatMap.mpr ⟨b, hb, hhalf⟩)
  refine ⟨(s.adapter.inside ++ moved.drop (deliveredCount s.fifo c)).map StBeat.data, ?_, ?_⟩
  · have hin := length_inside_le s.adapter
    have hup := (deliveredCount_bounds s.fifo c).2
    have hrdwr := h.fifo.inv.rd_le_wr
    have hlen := h.fifo.inv.length
    simp only [List.length_map, List.length_append, List.length_drop]
    omega
  · calc moved.map StBeat.data
        = (passed ++ moved.drop (deliveredCount s.fifo c)).map StBeat.data := by
          conv_lhs => rw [← List.take_append_drop (deliveredCount s.fifo c) moved]
          rw [h.fifo.handed]
      _ = _ := by
          conv_lhs => rw [hkept]
          rw [List.append_assoc, List.map_append, hwords]

end PathHistory

/-- **Order is kept.** However the edges of the two clocks interleave and whatever the sink
does, the words of the 64-bit beats the DMA controller gets are the words the source
transferred, in order, up to 1029 that are still on the way. -/
theorem samplePath_order (mem : BitVec 10 → StBeat) (shown : StBeat) (es : List PathEdge) :
    ∃ rest : List (BitVec 32), rest.length ≤ 1029 ∧
      ((samplePath mem shown).events SamplePath.transfers (SamplePath.reset mem shown) es).map
          StBeat.data =
        ((samplePath mem shown).events SamplePath.delivers
          (SamplePath.reset mem shown) es).flatMap StBeat64.words ++ rest := by
  obtain ⟨passed, c, hrun⟩ := (pathHistory_reset mem shown).run mem shown es
  obtain ⟨rest, hlen, hwords⟩ := hrun.words_moved
  refine ⟨rest, ?_, hwords⟩
  have hlow := (deliveredCount_bounds
    ((samplePath mem shown).run (SamplePath.reset mem shown) es).fifo c).1
  obtain ⟨h₁, h₂, h₃, h₄, h₅, -, -, -, -, -, -, -, -, hroom⟩ := hrun.fifo.inv.ordered
  have hall := hrun.fifo.inv.length
  rw [List.nil_append] at hlen hall
  omega

/-! ## Conservation from the line to the source -/

/-- The receiver rests after each word. -/
theorem LvdsRx.OutputOk.rests {s : LvdsRx} (h : s.OutputOk) (hv : s.wordValid = true)
    (p : BitVec 2) : (s.clock p).wordValid = false := by
  obtain ⟨hsynced, hcount, -, -⟩ := h.valid hv
  have hedge := s.edge p
  generalize s.clock p = t at hedge
  cases hedge with
  | head hst hi => rfl
  | hunt hst hi => rfl
  | count hst hc => rfl
  | zero hst hc hz => rfl
  | word hst hc hz hw =>
    rw [hcount] at hc
    cases hc
  | framing hst hc hz hw => rfl

/-- The word on its way through the source, as the FIFO will see it. -/
def IqStreamSource.inside (s : IqStreamSource) : List (BitVec 32) :=
  if s.pending || s.streamTvalid then [s.dataReg] else []

/-- The word the receiver shows. -/
def LvdsRx.shown (s : LvdsRx) : List (BitVec 32) :=
  if s.wordValid then [s.iqWord] else []

/-- What was received and moved so far, while the FIFO had room. -/
structure LineHistory (s : Chain) (received : List (BitVec 32)) (moved : List StBeat) : Prop where
  rx : s.rx.OutputOk
  quiet : s.source.pending = true → s.rx.wordValid = false
  fresh : s.source.pending = true → s.source.streamTvalid = false
  words : received.map byteReverse =
    moved.map StBeat.data ++ (s.source.inside ++ s.rx.shown.map byteReverse)

theorem lineHistory_reset :
    LineHistory { rx := LvdsRx.reset, source := IqStreamSource.reset } [] [] where
  rx := LvdsRx.outputOk_reset
  quiet h := by cases h
  fresh h := by cases h
  words := rfl

/-- A word spends one edge pending and one on offer, and both are over before the next one. -/
theorem IqStreamSource.inside_clock {s : IqStreamSource} {w : BitVec 32} {v : Bool}
    (hquiet : s.pending = true → v = false) (hfresh : s.pending = true → s.streamTvalid = false) :
    s.inside ++ (if v then [byteReverse w] else []) =
      (if s.streamTvalid then [s.streamTdata] else []) ++
        (s.clock { iqWordIn := w, wordValidIn := v, streamTready := true }).inside := by
  unfold IqStreamSource.inside
  rw [IqStreamSource.clock_pending, IqStreamSource.clock_streamTvalid,
    IqStreamSource.clock_dataReg]
  cases hp : s.pending with
  | true =>
    rw [hquiet hp, hfresh hp]
    rfl
  | false => cases v <;> cases s.streamTvalid <;> rfl

/-- With a ready sink a word is pending for one edge, at which no other one is shown or offered. -/
theorem Chain.rests_of_ready {s : Chain} (h : s.rx.OutputOk) {i : ChainIn}
    (hready : i.streamTready = true) (hp : (s.clock i).source.pending = true) :
    (s.clock i).rx.wordValid = false ∧ (s.clock i).source.streamTvalid = false := by
  have hpending : (s.clock i).source.pending = _ := s.source.clock_pending _
  have hvalid : (s.clock i).source.streamTvalid = _ := s.source.clock_streamTvalid _
  rw [hpending] at hp
  rw [hvalid]
  cases hold : s.source.pending with
  | true => simp [hold, hready] at hp
  | false =>
    simp only [hold, Bool.false_eq_true, if_false] at hp
    exact ⟨h.rests hp i.bitPair, rfl⟩

/-- **One edge of the LVDS clock, with room in the FIFO.** -/
theorem LineHistory.clock {s : SamplePath} {received : List (BitVec 32)} {moved : List StBeat}
    (h : LineHistory s.chain received moved) (hroom : s.fifo.inSide.inReady = true)
    (bitPair : BitVec 2) :
    LineHistory (s.chain.clock (s.chainIn bitPair))
      (received ++ (validWord s.chain.rx bitPair).toList)
      (moved ++ (s.transfers (.lvds bitPair)).toList) where
  rx := (s.chain.rx.edge bitPair).outputOk h.rx
  quiet hp := (Chain.rests_of_ready h.rx hroom hp).1
  fresh hp := (Chain.rests_of_ready h.rx hroom hp).2
  words := by
    have hshown : (s.chain.rx.clock bitPair).shown = (validWord s.chain.rx bitPair).toList := by
      unfold LvdsRx.shown validWord
      split_ifs <;> rfl
    have hmoved : (s.transfers (.lvds bitPair)).toList.map StBeat.data =
        if s.chain.source.streamTvalid then [s.chain.source.streamTdata] else [] := by
      simp only [SamplePath.transfers, SamplePath.fifoEdge, DcFifo.accepts, InSide.writes,
        SamplePath.fifoIn, hroom, Bool.and_true]
      split_ifs <;> rfl
    have hrx : s.chain.rx.shown.map byteReverse =
        if s.chain.rx.wordValid then [byteReverse s.chain.rx.iqWord] else [] := by
      unfold LvdsRx.shown
      split_ifs <;> rfl
    have hsource := s.chain.source.inside_clock (w := s.chain.rx.iqWord) h.quiet h.fresh
    rw [← hmoved, ← hrx] at hsource
    have hclock : (s.chain.clock (s.chainIn bitPair)).source = s.chain.source.clock
        { iqWordIn := s.chain.rx.iqWord, wordValidIn := s.chain.rx.wordValid,
          streamTready := true } := by
      simp only [Chain.clock, SamplePath.chainIn, hroom]
    calc (received ++ (validWord s.chain.rx bitPair).toList).map byteReverse
        = moved.map StBeat.data ++ (s.chain.source.inside ++ s.chain.rx.shown.map byteReverse) ++
            (validWord s.chain.rx bitPair).toList.map byteReverse := by
          rw [List.map_append, h.words]
      _ = _ := by
          rw [hsource, hclock, List.map_append, ← hshown]
          simp only [Chain.clock, SamplePath.chainIn, List.append_assoc]

/-! ## Edges of either clock -/

namespace PathEdge

/-- The bit pair sampled at an edge. -/
def bitPair : PathEdge → Option (BitVec 2)
  | .lvds bitPair | .both bitPair _ _ _ _ => some bitPair
  | .sys _ => none

end PathEdge

/-- An edge of either clock. -/
theorem LineHistory.step {s : SamplePath} {received : List (BitVec 32)} {moved : List StBeat}
    (h : LineHistory s.chain received moved) {e : PathEdge}
    (hroom : e.bitPair.isSome → s.fifo.inSide.inReady = true) :
    LineHistory (s.clock e).chain (received ++ (s.receives e).toList)
      (moved ++ (s.transfers e).toList) := by
  cases e with
  | sys sinkReady =>
    simp only [SamplePath.receives, SamplePath.transfers, SamplePath.fifoEdge, DcFifo.accepts,
      Option.toList_none, List.append_nil]
    exact h
  | lvds bitPair => exact h.clock (hroom rfl) bitPair
  | both bitPair sinkReady wrSel rdSel clash => exact h.clock (hroom rfl) bitPair

/-- The receiver runs on the bit pairs of the LVDS clock alone, whatever happens behind it. -/
theorem events_receives (mem : BitVec 10 → StBeat) (shown : StBeat) (s : SamplePath)
    (es : List PathEdge) :
    (samplePath mem shown).events SamplePath.receives s es =
      lvdsRx.events validWord s.chain.rx (es.filterMap PathEdge.bitPair) := by
  induction es generalizing s with
  | nil => rfl
  | cons e es ih =>
    rw [Machine.events_cons]
    cases e with
    | sys sinkReady => exact ih (s.clock (.sys sinkReady))
    | lvds bitPair =>
      calc _ = (validWord s.chain.rx bitPair).toList ++ _ :=
            congrArg _ (ih (s.clock (.lvds bitPair)))
        _ = _ := (Machine.events_cons s.chain.rx bitPair _).symm
    | both bitPair sinkReady wrSel rdSel clash =>
      calc _ = (validWord s.chain.rx bitPair).toList ++ _ :=
            congrArg _ (ih (s.clock (.both bitPair sinkReady wrSel rdSel clash)))
        _ = _ := (Machine.events_cons s.chain.rx bitPair _).symm

end Rf215Sdr.Fpga
