import Rf215Sdr.Fpga.Msgdma
import Rf215Sdr.Fpga.WriteMasterProgress
import Rf215Sdr.Hps.DmaLoop

/-!
# The DMA Controller Is the Engine

`dma_loop` is modelled against an engine that copies bytes; the FPGA holds a controller that is
clocked. Here the two are brought together: at every edge the controller does what the engine can
do in a few steps, with the same memory, busy bit and number of responses. What the engine
leaves open (how many bytes at a time, when the busy bit rises) is what the bus, the FIFOs and
the byte enable generator decide.

## Main results

- `engine_of_board`: `dma_loop` drives the engine by five kinds of accesses only.
- `pushes_of_writes`: its three writes push the descriptor they describe.
- `Follows.clock`: what the engine does at one edge of the controller.
- `msgdma_refines_engine`: every run of the controller is a run of the engine.
-/

namespace Rf215Sdr

open Lib Fpga Hps

/-! ## The engine and who drives it -/

/-- One access to the engine, or one step of its own. -/
inductive EngineOp where
  /-- `DMA_DESC_WR_ADDR` is written. -/
  | writeAddr (addr : BitVec 32)
  /-- `DMA_DESC_LEN` is written. -/
  | length (length : BitVec 32)
  /-- `DMA_DESC_CONTROL` is written. -/
  | go
  /-- A response is taken out of the response FIFO. -/
  | pop
  | act (act : EngineAct)
  deriving DecidableEq, Repr

/-- The engine and the memory after a step. -/
def engineOp (lw : ℕ) (stream : ℕ → Byte) (st : Engine × (ℕ → Byte)) :
    EngineOp → Option (Engine × (ℕ → Byte))
  | .writeAddr addr => some ({ st.1 with writeAddr := addr }, st.2)
  | .length length => some ({ st.1 with length := length }, st.2)
  | .go => some (st.1.go, st.2)
  | .pop =>
    if st.1.responses = 0 then none
    else some ({ st.1 with responses := st.1.responses - 1 }, st.2)
  | .act act => engineStep lw stream st.1 st.2 act

/-- An engine that counts `lw` bits of a length, with anybody at its registers. -/
def engine (lw : ℕ) (stream ddr : ℕ → Byte) : System (Engine × (ℕ → Byte)) EngineOp where
  init := (Engine.init, ddr)
  step := engineOp lw stream

/-- The address and length of each transfer started, from what the registers hold. -/
def startsFrom (addr length : BitVec 32) : List EngineOp → List (BitVec 32 × BitVec 32)
  | [] => []
  | .writeAddr a :: ops => startsFrom a length ops
  | .length l :: ops => startsFrom addr l ops
  | .go :: ops => (addr, length) :: startsFrom addr length ops
  | .pop :: ops => startsFrom addr length ops
  | .act _ :: ops => startsFrom addr length ops

/-- What comes later starts from some contents of the registers. -/
theorem startsFrom_append (addr length : BitVec 32) (ops : List EngineOp) :
    ∃ a l, ∀ ops', startsFrom addr length (ops ++ ops') =
      startsFrom addr length ops ++ startsFrom a l ops' := by
  induction ops generalizing addr length with
  | nil => exact ⟨addr, length, fun _ => rfl⟩
  | cons op ops ih =>
    cases op with
    | writeAddr a => exact ih a length
    | length l => exact ih addr l
    | go =>
      obtain ⟨a, l, h⟩ := ih addr length
      exact ⟨a, l, fun ops' => congrArg (List.cons (addr, length)) (h ops')⟩
    | pop => exact ih addr length
    | act _ => exact ih addr length

/-- **`dma_loop` drives the engine by these accesses only.** -/
theorem engine_of_board {lw : ℕ} {cfg : DmaConfig} {stream ddr : ℕ → Byte} {s : Board}
    (h : (dmaLoop lw cfg stream ddr).Reachable s) :
    (engine lw stream ddr).Reachable (s.engine, s.ddr) := by
  -- each step is one access of the engine, or none
  have hnone : ∀ st, (engine lw stream ddr).run st [] = some st := fun st => rfl
  have hone : ∀ {st st' : Engine × (ℕ → Byte)} {op : EngineOp},
      engineOp lw stream st op = some st' → (engine lw stream ddr).run st [op] = some st' :=
    fun hop => System.run_singleton _ hop
  apply System.reachable_simulation (fun s : Board => (s.engine, s.ddr)) rfl _ h
  intro s a t hst
  cases a with
  | cpu sendOk =>
    cases stepped_of_cpuStep hst with
    | @writeAddr first hpc =>
      exact ⟨[.writeAddr (bufAddr cfg (if first then s.current else s.next))], hone rfl⟩
    | length hpc => exact ⟨[.length cfg.chunkBytes], hone rfl⟩
    | control hpc => exact ⟨[.go], hone rfl⟩
    | pop hpc hresp => exact ⟨[.pop], hone (if_neg hresp)⟩
    | logWord | logged | convertWord | send | printWord | busy | ready | response | swap =>
      exact ⟨[], hnone _⟩
  | engine act =>
    obtain ⟨p, hact, hp⟩ := Option.map_eq_some_iff.mp hst
    refine ⟨[.act act], hone ?_⟩
    rw [← hp]
    exact hact

/-! ## How `dma_loop` writes a descriptor -/

/-- The four bytes of a register. -/
theorem append_extractLsb' (v : BitVec 32) :
    v.extractLsb' 24 8 ++ v.extractLsb' 16 8 ++ v.extractLsb' 8 8 ++ v.extractLsb' 0 8 = v := by
  apply BitVec.eq_of_getLsbD_eq
  intro k hk
  simp only [BitVec.getLsbD_append, BitVec.getLsbD_extractLsb']
  split_ifs <;> simp <;> grind

/-- A word of the descriptor FIFO behind the three writes of `dma_loop`. -/
def assembled (w : DescriptorWord) (addr length : BitVec 32) : DescriptorWord :=
  ((w.merge (15#16 <<< 4) (writeDescriptor 4 addr).descriptorWritedata).merge
    (15#16 <<< 8) (writeDescriptor 8 length).descriptorWritedata).merge
    (15#16 <<< 12) (writeDescriptor 12 0x80000000).descriptorWritedata

/-- Whatever the word held before. -/
theorem assembled_command (w : DescriptorWord) (addr length : BitVec 32) :
    (assembled w addr length).command = ⟨addr, length, false⟩ ∧
      (assembled w addr length).writePark = false := by
  have haddr : (assembled w addr length).writeAddress = addr := append_extractLsb' addr
  have hlength : (assembled w addr length).writeLength = length := append_extractLsb' length
  refine ⟨?_, ?_⟩
  · rw [DescriptorWord.command, haddr, hlength]
    simp [assembled, DescriptorWord.writeEndOnEop, DescriptorWord.merge, writeDescriptor]
  · simp [assembled, DescriptorWord.writePark, DescriptorWord.merge, writeDescriptor]

section Writes

variable {s : Msgdma} {i : MsgdmaIn}

/-- The word being assembled. -/
def assembling (s : Msgdma) : DescriptorWord :=
  s.dispatcher.descriptors.mem s.dispatcher.descriptors.writeAddress

theorem swReset_clock (hreset : s.dispatcher.swReset = false) (hi : i.Undisturbed) :
    (s.clock i).dispatcher.swReset = false := by
  have hwrites : Dispatcher.writesControl i.host = false := hi
  simp [Msgdma.clock, Dispatcher.clock, Dispatcher.setSwReset, Dispatcher.clearSwReset, hwrites,
    hreset]

/-- An edge at which nothing is pushed. -/
theorem assembling_clock (hreset : s.dispatcher.swReset = false)
    (hgo : s.dispatcher.goBit i.host = false) :
    assembling (s.clock i) = if s.dispatcher.writeEn i.host then
      (assembling s).merge i.host.descriptorByteenable i.host.descriptorWritedata else assembling s := by
  have haddress : (s.clock i).dispatcher.descriptors.writeAddress =
      s.dispatcher.descriptors.writeAddress := by
    simp [Msgdma.clock, Dispatcher.clock, DescriptorFifo.clock, hreset, hgo]
  unfold assembling
  rw [haddress]
  show (if s.dispatcher.writeEn i.host && s.dispatcher.descriptors.writeAddress ==
    s.dispatcher.descriptors.writeAddress then _ else _) = _
  rw [beq_self_eq_true, Bool.and_true]
  rfl

/-- While the host does not write to it the word stays as it is. -/
theorem assembling_run (start : MsgdmaStart) (ddr : ℕ → Byte) {js : List MsgdmaIn}
    (hreset : s.dispatcher.swReset = false)
    (hjs : ∀ j ∈ js, j.Undisturbed ∧ j.host.descriptorWrite = false) :
    assembling ((msgdma start).run (s, ddr) js).1 = assembling s ∧
      ((msgdma start).run (s, ddr) js).1.dispatcher.swReset = false := by
  induction js generalizing s ddr with
  | nil => exact ⟨rfl, hreset⟩
  | cons j js ih =>
    obtain ⟨hj, hquiet⟩ := hjs j List.mem_cons_self
    have hgo : s.dispatcher.goBit j.host = false := by simp [Dispatcher.goBit, hquiet]
    have hen : s.dispatcher.writeEn j.host = false := by simp [Dispatcher.writeEn, hquiet]
    obtain ⟨hword, hlast⟩ := ih (s.master.ddrAfter (s.masterIn j) ddr)
      (swReset_clock hreset hj) fun k hk => hjs k (List.mem_cons_of_mem j hk)
    rw [assembling_clock hreset hgo, hen] at hword
    exact ⟨hword, hlast⟩

/-- A write of one of the two other registers, and edges at which the host does not write. -/
theorem assembling_write (start : MsgdmaStart) (ddr : ℕ → Byte) {offset : ℕ} {value : BitVec 32}
    {js : List MsgdmaIn} (hoffset : offset = 4 ∨ offset = 8) (hreset : s.dispatcher.swReset = false)
    (hi : i.Undisturbed) (hhost : i.host = writeDescriptor offset value)
    (hfree : s.dispatcher.descriptors.full = false)
    (hjs : ∀ j ∈ js, j.Undisturbed ∧ j.host.descriptorWrite = false) :
    assembling ((msgdma start).run (s, ddr) (i :: js)).1 =
        (assembling s).merge (15#16 <<< offset) (writeDescriptor offset value).descriptorWritedata ∧
      ((msgdma start).run (s, ddr) (i :: js)).1.dispatcher.swReset = false := by
  have hgo : s.dispatcher.goBit i.host = false := by
    rw [hhost]
    rcases hoffset with rfl | rfl <;> simp [Dispatcher.goBit, writeDescriptor]
  have hen : s.dispatcher.writeEn i.host = true := by
    rw [hhost]
    simp [Dispatcher.writeEn, Dispatcher.descriptorWaitrequest, writeDescriptor, hfree, hreset]
  obtain ⟨hword, hlast⟩ := assembling_run start (s.master.ddrAfter (s.masterIn i) ddr)
    (swReset_clock hreset hi) hjs
  rw [assembling_clock hreset hgo, hen, if_pos rfl, hhost] at hword
  exact ⟨hword, hlast⟩

/-- **The three writes of `dma_loop` push the descriptor they describe**, with any number of edges
between them, where the FIFO is not full. -/
theorem pushes_of_writes (start : MsgdmaStart) (ddr : ℕ → Byte) {addr length : BitVec 32}
    {a b c : MsgdmaIn} {js ks : List MsgdmaIn} (hreset : s.dispatcher.swReset = false)
    (ha : a.Undisturbed ∧ a.host = writeDescriptor 4 addr)
    (hjs : ∀ j ∈ js, j.Undisturbed ∧ j.host.descriptorWrite = false)
    (hb : b.Undisturbed ∧ b.host = writeDescriptor 8 length)
    (hks : ∀ j ∈ ks, j.Undisturbed ∧ j.host.descriptorWrite = false)
    (hc : c.host = writeDescriptor 12 0x80000000)
    (hfree : s.dispatcher.descriptors.full = false)
    (hfree₁ : ((msgdma start).run (s, ddr) (a :: js)).1.dispatcher.descriptors.full = false)
    (hfree₂ : ((msgdma start).run (s, ddr)
      (a :: js ++ b :: ks)).1.dispatcher.descriptors.full = false) :
    ∃ w, ((msgdma start).run (s, ddr) (a :: js ++ b :: ks)).1.dispatcher.pushes c.host = some w ∧
      w.command = ⟨addr, length, false⟩ ∧ w.writePark = false := by
  obtain ⟨hword₁, hreset₁⟩ := assembling_write start ddr (Or.inl rfl) hreset ha.1 ha.2 hfree hjs
  rw [Machine.run_append] at hfree₂ ⊢
  generalize (msgdma start).run (s, ddr) (a :: js) = st at *
  obtain ⟨hword₂, hreset₂⟩ := assembling_write start st.2 (Or.inr rfl) hreset₁ hb.1 hb.2 hfree₁ hks
  generalize (msgdma start).run st (b :: ks) = st' at *
  have hgo : st'.1.dispatcher.goBit c.host = true := by
    rw [hc]
    simp [Dispatcher.goBit, Dispatcher.descriptorWaitrequest, writeDescriptor, hfree₂, hreset₂]
  refine ⟨assembled (assembling s) addr length, ?_, assembled_command _ _ _⟩
  rw [Dispatcher.pushes, if_pos hgo, hc]
  show some ((assembling st'.1).merge _ _) = _
  rw [hword₂, hword₁]
  rfl

end Writes

/-! ## What the engine has to do -/

/-- A descriptor of which nothing is stored. -/
def outstanding (w : DescriptorWord) : Descriptor :=
  ⟨w.writeAddress, w.writeLength, 0⟩

/-- The descriptors left when `k` of those pushed were issued and `n` answered, and the bytes of
the stream used up. -/
inductive Carries (stream : ℕ → StBeat64) (ddr₀ : ℕ → Byte) (pushed : List DescriptorWord)
    (s : WriteMaster) (ddr : ℕ → Byte) : (k n : ℕ) → List Descriptor → (pos : ℕ) → Prop
  | idle {n : ℕ} :
    Carries stream ddr₀ pushed s ddr n n ((pushed.drop n).map outstanding)
      (8 * beatsOf ((pushed.take n).map DescriptorWord.command))
  | busy {n m : ℕ} {w : DescriptorWord} (hw : pushed[n]? = some w)
      (hs : WriteMaster.Stored stream ddr₀ ((pushed.take n).map DescriptorWord.command) w.command
        s m ddr) :
    Carries stream ddr₀ pushed s ddr (n + 1) n
      ({ outstanding w with written := m } :: (pushed.drop (n + 1)).map outstanding)
      (8 * beatsOf ((pushed.take n).map DescriptorWord.command) + m)

section Carries

variable {stream : ℕ → StBeat64} {ddr₀ ddr : ℕ → Byte} {pushed : List DescriptorWord}
  {k n r taken pos : ℕ} {s : Msgdma} {i : MsgdmaIn} {e : Engine} {descs : List Descriptor}

theorem Carries.ne_nil {t : WriteMaster} (h : Carries stream ddr₀ pushed t ddr k n descs pos)
    (hn : n < pushed.length) : descs ≠ [] := by
  cases h with
  | idle => simpa using hn
  | busy hw hs => exact List.cons_ne_nil _ _

/-- One more descriptor, or none, is pushed. -/
theorem Carries.push {t : WriteMaster} (h : Carries stream ddr₀ pushed t ddr k n descs pos)
    (hk : k ≤ pushed.length) (more : List DescriptorWord) :
    Carries stream ddr₀ (pushed ++ more) t ddr k n (descs ++ more.map outstanding) pos := by
  cases h with
  | idle =>
    have htake : pushed.take k = (pushed ++ more).take k :=
      (List.take_append_of_le_length hk).symm
    rw [← List.map_append, ← List.drop_append_of_le_length hk, htake]
    exact .idle
  | busy hw hs =>
    have htake : pushed.take n = (pushed ++ more).take n :=
      (List.take_append_of_le_length (Nat.le_of_succ_le hk)).symm
    rw [List.cons_append, ← List.map_append, ← List.drop_append_of_le_length hk]
    rw [htake] at hs ⊢
    exact .busy (by rw [List.getElem?_append_left hk, hw]) hs

/-! ## One edge of the master -/

/-- A master that is ready leaves the memory as the commands ask for. -/
theorem ddr_of_ready (h : MsgdmaHistory stream ddr₀ pushed k n r taken s ddr)
    (hready : s.master.commandReady = true) :
    ddr = copied (byteStream stream) ((pushed.take k).map DescriptorWord.command) 0 ddr₀ := by
  obtain ⟨p, -, hphase, -⟩ := h.master.phase
  have hlen := (hphase.of_commandReady hready).1
  obtain ⟨-, -, -, hmem⟩ := hphase.account h.master.calm
  rw [← hlen, List.take_length] at hmem
  exact funext fun x => (hmem x).elim id id

/-- Nothing was issued that is not answered. -/
theorem Carries.clock_idle (h : MsgdmaHistory stream ddr₀ pushed n n r taken s ddr) :
    s.master.responseValid = false ∧ s.master.ddrAfter (s.masterIn i) ddr = ddr ∧
      Carries stream ddr₀ pushed (s.clock i).master ddr
        (n + (s.dispatcher.issueWriteDescriptor s.master.commandReady).toNat) n
        ((pushed.drop n).map outstanding)
        (8 * beatsOf ((pushed.take n).map DescriptorWord.command)) := by
  obtain ⟨p, -, hphase, -⟩ := h.master.phase
  obtain ⟨hready, hvalid⟩ := hphase.commandReady_of_length h.length_commands
  obtain ⟨-, -, hdone, hs⟩ := hphase.of_commandReady hready
  refine ⟨hvalid, (hs.clock ddr).2.1, ?_⟩
  cases hissue : s.dispatcher.issueWriteDescriptor s.master.commandReady with
  | false => exact .idle
  | true =>
    obtain ⟨w, hw, hread, -⟩ := h.of_issue hissue
    have hstored : WriteMaster.Stored stream ddr₀ ((pushed.take n).map DescriptorWord.command)
        (s.masterIn i).command (s.clock i).master 0 _ :=
      .go hs h.master.calm (h.directed i) hissue hvalid hdone
    have hcommand : (s.masterIn i).command = w.command := by
      rw [← hread]
      rfl
    rw [hcommand, ← ddr_of_ready h hready] at hstored
    have hbusy := Carries.busy hw hstored
    obtain ⟨hlt, hget⟩ := List.getElem?_eq_some_iff.mp hw
    rw [List.drop_eq_getElem_cons hlt, hget]
    exact hbusy

/-- The command being carried out comes last. -/
theorem commands_succ {w : DescriptorWord} (hw : pushed[n]? = some w) :
    (pushed.take (n + 1)).map DescriptorWord.command =
      (pushed.take n).map DescriptorWord.command ++ [w.command] := by
  rw [List.take_add_one, hw, List.map_append]
  rfl

/-- **A descriptor is being carried out**: the engine writes the next bytes, or finishes it where
the master responds. -/
theorem Carries.clock_busy {m : ℕ} {w : DescriptorWord} {rest : List Descriptor}
    (h : MsgdmaHistory stream ddr₀ pushed (n + 1) n r taken s ddr) (hw : pushed[n]? = some w)
    (hs : WriteMaster.Stored stream ddr₀ ((pushed.take n).map DescriptorWord.command) w.command
      s.master m ddr)
    (hdescs : e.descs = { outstanding w with written := m } :: rest)
    (hrest : rest = (pushed.drop (n + 1)).map outstanding)
    (hpos : e.pos = 8 * beatsOf ((pushed.take n).map DescriptorWord.command) + m) :
    s.dispatcher.issueWriteDescriptor s.master.commandReady = false ∧ ∃ act e',
      engineStep lengthWidth (byteStream stream) e ddr act =
        some (e', s.master.ddrAfter (s.masterIn i) ddr) ∧
      Carries stream ddr₀ pushed (s.clock i).master (s.master.ddrAfter (s.masterIn i) ddr) (n + 1)
        (n + s.master.responseValid.toNat) e'.descs e'.pos ∧
      e'.responses = e.responses + s.master.responseValid.toNat ∧
      e'.busy = (e.busy && !s.master.responseValid) := by
  obtain ⟨p, -, hphase, -⟩ := h.master.phase
  have hcommands := h.length_commands
  have hcalm := h.master.calm
  have hcounted : counted lengthWidth (outstanding w).length = w.command.bytes := rfl
  have hready : s.master.commandReady = false := by
    rw [Bool.eq_false_iff]
    intro hready
    have hall := (hphase.of_commandReady hready).1
    omega
  refine ⟨by simp [Dispatcher.issueWriteDescriptor, hready], ?_⟩
  have hmaster := h.master
  rw [commands_succ hw] at hmaster hphase
  cases hvalid : s.master.responseValid with
  | false =>
    obtain ⟨m', hle, hnext⟩ := hs.clock hcalm (h.directed i) hready
      fun v lanes hcopying hempty => hmaster.buffered_eq hcopying hempty
    have hsum : m + (m' - m) = m' := Nat.add_sub_cancel' hle
    have hroom : m + (m' - m) ≤ counted lengthWidth (outstanding w).length := by
      rw [hsum, hcounted]
      exact hnext.le_bytes (hcalm.clock (h.directed i))
    refine ⟨.write (m' - m), { e with
      descs := { outstanding w with written := m' } :: rest
      pos := e.pos + (m' - m) }, ?_, ?_, rfl, by simp⟩
    · simp only [engineStep, hdescs]
      rw [if_pos hroom, hsum, hpos, hs.extend hnext hle]
      rfl
    · show Carries _ _ _ _ _ _ _ ({ outstanding w with written := m' } :: rest) (e.pos + (m' - m))
      rw [hpos, Nat.add_assoc, hsum, hrest]
      exact .busy hw hnext
  | true =>
    obtain ⟨-, -, hd, -⟩ := hphase.of_responseValid hvalid
    obtain ⟨hm, hbytes⟩ := hs.of_responseValid hphase rfl hvalid
    have hall : m = counted lengthWidth (outstanding w).length ∧ m ≠ 0 := by
      rw [hm]
      exact ⟨hcounted.symm, Nat.ne_of_gt hbytes⟩
    refine ⟨.done, { e with
      descs := rest
      busy := false
      responses := e.responses + 1
      pos := e.pos + (wholeWords m - m) }, ?_, ?_, rfl, by simp⟩
    · simp only [engineStep, hdescs]
      rw [if_pos hall, (hd.clock ddr).2.1]
    · -- what is left of the last word is dropped
      have hbeats : e.pos + (wholeWords m - m) =
          8 * beatsOf ((pushed.take (n + 1)).map DescriptorWord.command) := by
        have hle := le_wholeWords m
        rw [hpos, commands_succ hw, beatsOf_concat, Nat.mul_add, Nat.add_assoc,
          Nat.add_sub_cancel' hle, hm]
        rfl
      show Carries _ _ _ _ _ _ (n + 1) rest (e.pos + (wholeWords m - m))
      rw [hbeats, hrest]
      exact .idle

/-- What the engine does on its own. -/
theorem Carries.clock (h : MsgdmaHistory stream ddr₀ pushed k n r taken s ddr)
    (hc : Carries stream ddr₀ pushed s.master ddr k n e.descs e.pos) :
    ∃ (acts : List EngineAct) (e' : Engine),
      (engine lengthWidth (byteStream stream) ddr₀).run (e, ddr) (acts.map EngineOp.act) =
        some (e', s.master.ddrAfter (s.masterIn i) ddr) ∧
      Carries stream ddr₀ pushed (s.clock i).master (s.master.ddrAfter (s.masterIn i) ddr)
        (k + (s.dispatcher.issueWriteDescriptor s.master.commandReady).toNat)
        (n + s.master.responseValid.toNat) e'.descs e'.pos ∧
      e'.responses = e.responses + s.master.responseValid.toNat ∧
      e'.busy = (e.busy && !s.master.responseValid) := by
  generalize hdescs : e.descs = descs at hc
  generalize hpos : e.pos = pos at hc
  cases hc with
  | idle =>
    obtain ⟨hvalid, hddr, hnext⟩ := Carries.clock_idle (i := i) h
    rw [← hdescs, ← hpos] at hnext
    rw [hvalid, hddr]
    exact ⟨[], e, rfl, hnext, rfl, by simp⟩
  | busy hw hs =>
    obtain ⟨hissue, act, e', hstep, hnext, hresponses, hbusy⟩ :=
      Carries.clock_busy (i := i) h hw hs hdescs rfl hpos
    rw [hissue]
    refine ⟨[act], e', ?_, hnext, hresponses, hbusy⟩
    exact System.run_singleton _ hstep

end Carries

/-! ## One edge of the controller -/

/-- The accesses of the host at an edge: a response may be taken out, and a descriptor pushed. -/
def hostOps (reads : Bool) (push : Option DescriptorWord) : List EngineOp :=
  (if reads then [.pop] else []) ++
    match push with
    | some w => [.writeAddr w.writeAddress, .length w.writeLength, .go]
    | none => []

/-- The transfer a descriptor stands for. -/
def transferOf (w : DescriptorWord) : BitVec 32 × BitVec 32 :=
  (w.writeAddress, w.writeLength)

/-- The engine's own steps start nothing and take no response. -/
theorem startsFrom_act (addr length : BitVec 32) (acts : List EngineAct) (ops : List EngineOp) :
    startsFrom addr length (acts.map EngineOp.act ++ ops) = startsFrom addr length ops := by
  induction acts with
  | nil => rfl
  | cons act acts ih => exact ih

theorem count_pop_act (acts : List EngineAct) : (acts.map EngineOp.act).count .pop = 0 := by
  apply List.count_eq_zero.mpr
  simp

theorem startsFrom_hostOps (addr length : BitVec 32) (reads : Bool)
    (push : Option DescriptorWord) (acts : List EngineAct) :
    startsFrom addr length (hostOps reads push ++ acts.map EngineOp.act) =
      push.toList.map transferOf := by
  have hacts : ∀ a l, startsFrom a l (acts.map EngineOp.act) = [] := by
    intro a l
    simpa [startsFrom] using startsFrom_act a l acts []
  cases reads <;> cases push <;> simp [hostOps, startsFrom, hacts, transferOf]

theorem count_pop_hostOps (reads : Bool) (push : Option DescriptorWord) :
    (hostOps reads push).count .pop = reads.toNat := by
  cases reads <;> cases push <;> simp [hostOps]

/-- The engine behind the accesses of the host. -/
theorem run_hostOps (lw : ℕ) (stream ddr₀ ddr : ℕ → Byte) {e : Engine} {reads : Bool}
    (hreads : reads = true → e.responses ≠ 0) (push : Option DescriptorWord) :
    ∃ e', (engine lw stream ddr₀).run (e, ddr) (hostOps reads push) = some (e', ddr) ∧
      e'.descs = e.descs ++ push.toList.map outstanding ∧ e'.pos = e.pos ∧ e'.busy = e.busy ∧
      e'.responses = e.responses - reads.toNat := by
  have hpop : ∃ e', (engine lw stream ddr₀).run (e, ddr) (if reads then [.pop] else []) =
      some (e', ddr) ∧ e' = { e with responses := e.responses - reads.toNat } := by
    cases reads with
    | false => exact ⟨e, rfl, rfl⟩
    | true => exact ⟨_, System.run_singleton _ (if_neg (hreads rfl)), rfl⟩
  obtain ⟨_, hpop, rfl⟩ := hpop
  cases push with
  | none =>
    refine ⟨_, (System.run_append_eq_some _).mpr ⟨_, hpop, rfl⟩, ?_, rfl, rfl, rfl⟩
    exact (List.append_nil _).symm
  | some w =>
    exact ⟨_, (System.run_append_eq_some _).mpr ⟨_, hpop, rfl⟩, rfl, rfl, rfl, rfl⟩

/-- The engine behind an edge at which its busy bit is to be high, if it `waits`. -/
theorem run_raiseBusy (lw : ℕ) (stream ddr₀ ddr : ℕ → Byte) {waits : Bool} {e : Engine}
    (hwaits : waits = true → e.descs ≠ []) : ∃ (acts : List EngineAct) (e' : Engine),
      (engine lw stream ddr₀).run (e, ddr) (acts.map EngineOp.act) = some (e', ddr) ∧
      e'.descs = e.descs ∧ e'.pos = e.pos ∧ e'.busy = (waits || e.busy) ∧
      e'.responses = e.responses := by
  cases waits with
  | false => exact ⟨[], e, rfl, rfl, rfl, rfl, rfl⟩
  | true =>
    have hstep : engineStep lw stream e ddr .raiseBusy = some ({ e with busy := true }, ddr) := by
      have hne := hwaits rfl
      unfold engineStep
      split
      · contradiction
      · rfl
    exact ⟨[.raiseBusy], _, System.run_singleton _ hstep, rfl, rfl, rfl, rfl⟩

/-- The engine stands where the controller stands. -/
structure Follows (stream : ℕ → StBeat64) (ddr₀ : ℕ → Byte) (pushed : List DescriptorWord)
    (k n : ℕ) (s : Msgdma) (ddr : ℕ → Byte) (e : Engine) : Prop where
  carries : Carries stream ddr₀ pushed s.master ddr k n e.descs e.pos
  busy_eq : e.busy = s.dispatcher.busy
  responses_eq : e.responses = s.dispatcher.responses.length

section Follows

variable {stream : ℕ → StBeat64} {ddr₀ ddr : ℕ → Byte} {pushed : List DescriptorWord}
  {k n r taken : ℕ} {s : Msgdma} {i : MsgdmaIn} {e : Engine}

/-- No more is issued than was pushed. -/
theorem issued_le (h : MsgdmaHistory stream ddr₀ pushed k n r taken s ddr) :
    k + (s.dispatcher.issueWriteDescriptor s.master.commandReady).toNat ≤ pushed.length := by
  cases hissue : s.dispatcher.issueWriteDescriptor s.master.commandReady with
  | false => exact h.queue.popped_le
  | true =>
    obtain ⟨w, hw, -⟩ := h.of_issue hissue
    exact (List.getElem?_eq_some_iff.mp hw).1

/-- While descriptors wait, there are some that are not answered. -/
theorem answered_lt (h : MsgdmaHistory stream ddr₀ pushed k n r taken s ddr)
    (hempty : s.dispatcher.descriptors.empty = false) :
    n + s.master.responseValid.toNat < pushed.length := by
  obtain ⟨p, -, hphase, -⟩ := h.master.phase
  have hcommands := h.length_commands
  have hle := h.queue.popped_le
  have hne : ¬ pushed.length = k := by
    rw [← h.queue.empty_iff, hempty]
    exact Bool.false_ne_true
  cases hvalid : s.master.responseValid with
  | false =>
    have hanswered := (hphase.account h.master.calm).1
    rw [Bool.toNat_false]
    omega
  | true =>
    have hone := (hphase.of_responseValid hvalid).1
    rw [Bool.toNat_true]
    omega

/-- The busy bit behind an edge. -/
theorem busy_clock (h : MsgdmaHistory stream ddr₀ pushed k n r taken s ddr) :
    (s.clock i).dispatcher.busy = (!s.dispatcher.descriptors.empty ||
      (s.dispatcher.busy && !s.master.responseValid)) := by
  simp only [Msgdma.clock, Dispatcher.clock, Dispatcher.busy, Dispatcher.doneStrobe,
    WriteMaster.response, h.swReset_eq, Bool.or_false]
  cases s.dispatcher.descriptors.empty <;> cases s.master.responseValid <;> simp

/-- **One edge**, and what the engine does at it: it writes bytes or finishes a descriptor, the
host takes a response and starts a descriptor, and the busy bit rises. -/
theorem Follows.clock (hf : Follows stream ddr₀ pushed k n s ddr e)
    (h : MsgdmaHistory stream ddr₀ pushed k n r taken s ddr) : ∃ ops e',
      (engine lengthWidth (byteStream stream) ddr₀).run (e, ddr) ops =
        some (e', s.master.ddrAfter (s.masterIn i) ddr) ∧
      Follows stream ddr₀ (pushed ++ (s.dispatcher.pushes i.host).toList)
        (k + (s.dispatcher.issueWriteDescriptor s.master.commandReady).toNat)
        (n + s.master.responseValid.toNat) (s.clock i)
        (s.master.ddrAfter (s.masterIn i) ddr) e' ∧
      (∀ a l, startsFrom a l ops = (s.dispatcher.pushes i.host).toList.map transferOf) ∧
      ops.count .pop = (s.dispatcher.responseFifoRead i.host i.cells).toNat := by
  obtain ⟨acts, e₁, hacts, hcarries, hresponses, hbusy⟩ := hf.carries.clock (i := i) h
  have hlen := h.responses_clock (i := i)
  have hreads : s.dispatcher.responseFifoRead i.host i.cells = true → e₁.responses ≠ 0 := by
    intro hread
    have hpos := List.length_pos_iff.mpr (Dispatcher.responses_ne_nil hread)
    rw [hresponses, hf.responses_eq]
    omega
  obtain ⟨e₂, hhost, hdescs₂, hpos₂, hbusy₂, hresponses₂⟩ :=
    run_hostOps lengthWidth (byteStream stream) ddr₀ (s.master.ddrAfter (s.masterIn i) ddr) hreads
      (s.dispatcher.pushes i.host)
  have hcarries₂ := hcarries.push (issued_le h) (s.dispatcher.pushes i.host).toList
  rw [← hdescs₂, ← hpos₂] at hcarries₂
  have hresponses₃ : e₂.responses = (s.clock i).dispatcher.responses.length := by
    have hbefore := hf.responses_eq
    omega
  -- the busy bit rises while descriptors wait
  have hwaits : (!s.dispatcher.descriptors.empty) = true → e₂.descs ≠ [] := by
    intro hwaits
    apply hcarries₂.ne_nil
    rw [List.length_append]
    exact Nat.lt_add_right _ (answered_lt h (by simpa using hwaits))
  obtain ⟨acts', e₃, hraise, hdescs₃, hpos₃, hbusy₃, hresponses₃⟩ :=
    run_raiseBusy lengthWidth (byteStream stream) ddr₀ (s.master.ddrAfter (s.masterIn i) ddr) hwaits
  have hlast : e₃.responses = (s.clock i).dispatcher.responses.length := by
    have hbefore := hf.responses_eq
    omega
  rw [← hdescs₃, ← hpos₃] at hcarries₂
  refine ⟨acts.map EngineOp.act ++ (hostOps (s.dispatcher.responseFifoRead i.host i.cells)
    (s.dispatcher.pushes i.host) ++ acts'.map EngineOp.act), e₃, ?_, ⟨hcarries₂, ?_, hlast⟩,
    fun a l => ?_, ?_⟩
  · exact (System.run_append_eq_some _).mpr ⟨_, hacts,
      (System.run_append_eq_some _).mpr ⟨_, hhost, hraise⟩⟩
  · rw [hbusy₃, hbusy₂, hbusy, busy_clock h, hf.busy_eq]
  · rw [startsFrom_act, startsFrom_hostOps]
  · rw [List.count_append, List.count_append, count_pop_act, count_pop_act, count_pop_hostOps,
      Nat.zero_add, Nat.add_zero]

end Follows

/-! ## Runs -/

theorem follows_reset (start : MsgdmaStart) (stream : ℕ → StBeat64) :
    Follows stream start.ddr [] 0 0 (Msgdma.reset start.mem start.addressed start.readData)
      start.ddr Engine.init where
  carries := .idle (n := 0)
  busy_eq := rfl
  responses_eq := rfl

section Runs

variable (start : MsgdmaStart) (is : List MsgdmaIn)

/-- The engine follows every run. -/
theorem exists_follows {stream : ℕ → StBeat64} (his : ∀ i ∈ is, i.Undisturbed)
    (hplain : ∀ w ∈ descriptorsPushed start is, w.Plain)
    (hstream : load stream 0 (sinkBeats start is).length = sinkBeats start is) : ∃ ops e,
      (engine lengthWidth (byteStream stream) start.ddr).run (Engine.init, start.ddr) ops =
        some (e, (msgdmaAfter start is).2) ∧
      startsFrom 0 0 ops = (descriptorsPushed start is).map transferOf ∧
      ops.count .pop = responsesRead start is ∧
      Follows stream start.ddr (descriptorsPushed start is) (commandsIssued start is).length
        (commandsAnswered start is) (msgdmaAfter start is).1 (msgdmaAfter start is).2 e := by
  induction is using List.reverseRecOn with
  | nil => exact ⟨[], Engine.init, rfl, rfl, rfl, follows_reset start stream⟩
  | append_singleton is i ih =>
    rw [sinkBeats_concat] at hstream
    rw [descriptorsPushed_concat] at hplain
    have his' := fun j hj => his j (List.mem_append_left _ hj)
    have hplain' := fun w hw => hplain w (List.mem_append_left _ hw)
    have hstream' := (load_append_toList hstream).1
    obtain ⟨ops, e, hrun, hstarts, hpops, hf⟩ := ih his' hplain' hstream'
    obtain ⟨k, hissued, h⟩ := MsgdmaHistory.run start is his' hplain' hstream'
    have hk : (commandsIssued start is).length = k := by rw [hissued, h.length_commands]
    rw [hk] at hf
    obtain ⟨ops', e', hrun', hf', hstarts', hpops'⟩ := hf.clock (i := i) h
    obtain ⟨addr, length, happend⟩ := startsFrom_append 0 0 ops
    have hissued' : (commandsIssued start (is ++ [i])).length =
        k + ((msgdmaAfter start is).1.dispatcher.issueWriteDescriptor
          (msgdmaAfter start is).1.master.commandReady).toNat := by
      rw [commandsIssued_concat, List.length_append, hk, WriteMaster.length_starts]
      rfl
    refine ⟨ops ++ ops', e', ?_, ?_, ?_, ?_⟩
    · rw [msgdmaAfter_concat]
      exact (System.run_append_eq_some _).mpr ⟨_, hrun, hrun'⟩
    · rw [happend, hstarts, hstarts', descriptorsPushed_concat, List.map_append]
    · rw [List.count_append, hpops, hpops', responsesRead_concat]
    · rw [descriptorsPushed_concat, commandsAnswered_concat, msgdmaAfter_concat, hissued']
      exact hf'

/-- **The controller is the engine.** Every run in which the host leaves the control register
alone and pushes plain descriptors is a run of an engine that counts `lengthWidth` bits: it is
started with the descriptors pushed, as many responses are taken out, and memory, busy bit and
number of responses are the same. -/
theorem msgdma_refines_engine (stream : ℕ → StBeat64) (his : ∀ i ∈ is, i.Undisturbed)
    (hplain : ∀ w ∈ descriptorsPushed start is, w.Plain)
    (hstream : load stream 0 (sinkBeats start is).length = sinkBeats start is) : ∃ ops e,
      (engine lengthWidth (byteStream stream) start.ddr).run (Engine.init, start.ddr) ops =
        some (e, (msgdmaAfter start is).2) ∧
      startsFrom 0 0 ops = (descriptorsPushed start is).map transferOf ∧
      ops.count .pop = responsesRead start is ∧
      e.busy = (msgdmaAfter start is).1.dispatcher.busy ∧
      e.responses = (msgdmaAfter start is).1.dispatcher.responses.length := by
  obtain ⟨ops, e, hrun, hstarts, hpops, hf⟩ := exists_follows start is his hplain hstream
  exact ⟨ops, e, hrun, hstarts, hpops, hf.busy_eq, hf.responses_eq⟩

end Runs

end Rf215Sdr
