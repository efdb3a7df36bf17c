import Mathlib.Algebra.GroupWithZero.Nat
import Rf215Sdr.Fpga.WriteMaster

/-!
# The Write Master Copies

A command takes the next beats of the stream and stores their bytes at its address, in as many
writes as the byte enable generator cuts them into. The invariant says which beat is the next
one and which of its lanes are stored already.

## Main results

- `writeMaster_copies`: in every run the memory holds what the commands so far ask for.
- `writeMaster_hangs`: a command whose length counts as 0 is never answered.
-/

namespace Rf215Sdr.Fpga

open Rf215Sdr.Lib

/-! ## Lanes and addresses -/

theorem storeLanes_zero (ddr : ℕ → Byte) (a : ℕ) (word : List Byte) :
    storeLanes ddr a 0#8 word = ddr := by
  funext x
  simp [storeLanes]

/-- Lanes may be stored one after the other. -/
theorem storeLanes_or (ddr : ℕ → Byte) (a : ℕ) (first last : BitVec 8) (word : List Byte) :
    storeLanes (storeLanes ddr a first word) a last word =
      storeLanes ddr a (last ||| first) word := by
  funext x
  simp only [storeLanes, BitVec.getLsbD_or, Bool.or_eq_true]
  by_cases hx : a ≤ x <;> by_cases hl : last.getLsbD (x - a) = true <;>
    by_cases hf : first.getLsbD (x - a) = true <;> simp [hx, hl, hf]
  cases word[x - a]? <;> rfl

/-- Lane `k` of a mask with `n` ones. -/
theorem getLsbD_byteenableMask {n : BitVec 5} (hn : n.toNat ≤ 8) (k : ℕ) :
    (byteenableMask n).getLsbD k = decide (k < n.toNat) := by
  rw [byteenableMask, BitVec.getLsbD_ofNat, Nat.testBit_two_pow_sub_one]
  by_cases hk : k < n.toNat <;> simp [hk]
  omega

theorem byteenableMask_ne_zero {n : BitVec 5} (hn : n.toNat ≤ 8) (hpos : 0 < n.toNat) :
    byteenableMask n ≠ 0#8 := by
  intro h
  have hlow := getLsbD_byteenableMask hn 0
  rw [h] at hlow
  simp [hpos] at hlow

/-- The lowest lanes of a word are its first bytes. -/
theorem storeLanes_mask (ddr : ℕ → Byte) (a : ℕ) {n : BitVec 5} (hn : n.toNat ≤ 8)
    (word : List Byte) :
    storeLanes ddr a (byteenableMask n) word = store ddr a (word.take n.toNat) := by
  funext x
  simp only [storeLanes, store, getLsbD_byteenableMask hn, decide_eq_true_eq, List.getElem?_take]
  by_cases hx : a ≤ x <;> by_cases hk : x - a < n.toNat <;> simp [hx, hk]

/-- Lane `k` of the swapped word carries byte `k` of the beat. -/
theorem leBytes_symbolSwap (d : BitVec 64) : leBytes 8 (symbolSwap d) = beBytes 8 d := by
  have hswap : beBytes 8 (symbolSwap d) = (beBytes 8 d).reverse := by
    unfold beBytes symbolSwap
    simp only [symbols_append]
    simp [symbols, List.range_succ]
  rw [leBytes, hswap, List.reverse_reverse]

/-- The bus addresses whole words. -/
theorem toNat_and_not_seven (x : BitVec 32) :
    (x &&& ~~~(7 : BitVec 32)).toNat = 8 * (x.toNat / 8) := by
  have hshift : x &&& ~~~(7 : BitVec 32) = (x >>> 3) <<< 3 := by
    apply BitVec.eq_of_getLsbD_eq
    intro i hi
    have hseven : (7 : BitVec 32).getLsbD i = decide (i < 3) := by
      show (7#32).getLsbD i = _
      rw [BitVec.getLsbD_ofNat, show (7 : ℕ) = 2 ^ 3 - 1 from rfl, Nat.testBit_two_pow_sub_one]
      simp [hi]
    rw [BitVec.getLsbD_and, BitVec.getLsbD_not, hseven, BitVec.getLsbD_shiftLeft,
      BitVec.getLsbD_ushiftRight]
    by_cases h : i < 3
    · simp [h]
    · simp [h, hi, Nat.add_sub_cancel' (Nat.le_of_not_lt h)]
  rw [hshift]
  simp [Nat.shiftRight_eq_div_pow, Nat.shiftLeft_eq]
  omega

/-! ## What commands ask for -/

namespace MasterCommand

variable (c : MasterCommand)

/-- The length as the counter takes it over. -/
def bytes : ℕ :=
  c.length.toNat % 2 ^ 18

theorem toNat_left (k : ℕ) : (BitVec.ofNat 18 (c.bytes - k)).toNat = c.bytes - k := by
  rw [BitVec.toNat_ofNat]
  apply Nat.mod_eq_of_lt
  exact Nat.lt_of_le_of_lt (Nat.sub_le _ _) (Nat.mod_lt _ (Nat.two_pow_pos 18))

/-- The beats used up. -/
def beats : ℕ :=
  (c.bytes + 7) / 8

/-- The address of the first word. -/
def base : ℕ :=
  8 * (c.address.toNat / 8)

/-- The command ends by its length, inside the address space. -/
structure ByLength : Prop where
  endOnEop_eq : c.endOnEop = false
  fits : c.base + c.bytes ≤ 2 ^ 32

end MasterCommand

/-- The beats used up by commands. -/
def beatsOf (cs : List MasterCommand) : ℕ :=
  (cs.map MasterCommand.beats).sum

theorem beatsOf_concat (cs : List MasterCommand) (c : MasterCommand) :
    beatsOf (cs ++ [c]) = beatsOf cs + c.beats := by
  simp [beatsOf]

/-- The bytes of a stream of beats. -/
def byteStream (stream : ℕ → StBeat64) (p : ℕ) : Byte :=
  ((stream (p / 8)).bytes[p % 8]?).getD 0

@[simp] theorem StBeat64.length_bytes (b : StBeat64) : b.bytes.length = 8 :=
  length_beBytes 8 b.data

theorem load_byteStream (stream : ℕ → StBeat64) (k : ℕ) {n : ℕ} (hn : n ≤ 8) :
    load (byteStream stream) (8 * k) n = (stream k).bytes.take n := by
  apply List.ext_getElem
  · simp [hn]
  · intro j hj _
    rw [length_load] at hj
    have hdiv : (8 * k + j) / 8 = k := by omega
    have hmod : j % 8 = j := Nat.mod_eq_of_lt (by omega)
    have hlen : j < (stream k).bytes.length := by
      rw [StBeat64.length_bytes]
      omega
    rw [List.getElem_take]
    simp [load, byteStream, hdiv, hmod, List.getElem?_eq_getElem hlen]

/-- The memory after commands that start with beat `p` of the stream: each stores the bytes of
its beats at its address, but no more than its length. -/
def copied (stream : ℕ → Byte) : List MasterCommand → (p : ℕ) → (ddr : ℕ → Byte) → ℕ → Byte
  | [], _, ddr => ddr
  | c :: cs, p, ddr =>
    copied stream cs (p + c.beats) (store ddr c.base (load stream (8 * p) c.bytes))

theorem copied_concat (stream : ℕ → Byte) (cs : List MasterCommand) (c : MasterCommand) (p : ℕ)
    (ddr : ℕ → Byte) :
    copied stream (cs ++ [c]) p ddr =
      store (copied stream cs p ddr) c.base (load stream (8 * (p + beatsOf cs)) c.bytes) := by
  induction cs generalizing p ddr with
  | nil => rfl
  | cons b cs ih =>
    have hsum : beatsOf (b :: cs) = b.beats + beatsOf cs := by simp [beatsOf]
    rw [List.cons_append, copied, ih, copied, hsum, Nat.add_assoc]

/-! ## Signals of a master that is not stopped -/

/-- The master is neither stopped nor reset. -/
structure MasterIn.Undisturbed (i : MasterIn) : Prop where
  swStop_eq : i.swStop = false
  swReset_eq : i.swReset = false

namespace WriteMaster

/-- What the dispatcher of this system asks for: the master is not disturbed, and the commands it
takes over end by their length. -/
structure Directed (s : WriteMaster) (i : MasterIn) : Prop extends i.Undisturbed where
  byLength : s.go i = true → i.command.ByLength

/-- Nothing but commands was asked for. -/
structure Calm (s : WriteMaster) : Prop where
  stopped_eq : s.stopped = false
  resetTaken_eq : s.resetTaken = false
  earlyTermination_eq : s.earlyTerminationD1 = false
  endOnEop_eq : s.endOnEopD1 = false

variable {s : WriteMaster} {i : MasterIn}

/-- A master that is not ready takes no command over. -/
theorem directed_of_not_ready (h : s.commandReady = false) (hi : i.Undisturbed) :
    s.Directed i :=
  ⟨hi, fun hgo => by simp [go, h] at hgo⟩

theorem Calm.clock (h : s.Calm) (hi : s.Directed i) : (s.clock i).Calm where
  stopped_eq := by simp [WriteMaster.clock, hi.swStop_eq]
  resetTaken_eq := by simp [WriteMaster.clock, hi.swReset_eq]
  earlyTermination_eq := by simp [WriteMaster.clock, earlyTermination, h.endOnEop_eq]
  endOnEop_eq := by
    show (if s.go i then i.command.endOnEop else s.endOnEopD1) = false
    split_ifs with hgo
    · exact (hi.byLength hgo).endOnEop_eq
    · exact h.endOnEop_eq

theorem Calm.done_eq (h : s.Calm) : s.done = (s.lengthCounter == 0) := by
  simp [done, h.endOnEop_eq]

/-- All that is left, or a whole word. -/
theorem Calm.toNat_bytesToTransfer (h : s.Calm) :
    s.bytesToTransfer.toNat = min 8 s.lengthCounter.toNat := by
  have hlow : (s.lengthCounter &&& 7).toNat = s.lengthCounter.toNat % 8 :=
    Nat.and_two_pow_sub_one_eq_mod s.lengthCounter.toNat 3
  have height : (8 : BitVec 18).toNat = 8 := rfl
  simp only [bytesToTransfer, shortLastAccessEnable, shortLastAccessSize, h.endOnEop_eq,
    Bool.false_eq_true, if_false, decide_eq_true_eq, BitVec.lt_def, height]
  split_ifs with hlt
  · rw [BitVec.toNat_setWidth, hlow]
    omega
  · show 8 = _
    omega

/-- Some lane is enabled while bytes are left. -/
theorem Calm.mask_ne_zero (h : s.Calm) (hlen : 0 < s.lengthCounter.toNat) :
    s.unsupportedByteenable ≠ 0#8 := by
  have hbytes := h.toNat_bytesToTransfer
  exact byteenableMask_ne_zero (by omega) (by omega)

/-- Nothing is written while no bytes are left. -/
theorem write_of_done (hlen : s.lengthCounter = 0) : s.write i = false := by
  simp [write, done, hlen]

theorem fifoRead_of_done (hlen : s.lengthCounter = 0) : s.fifoRead i = false := by
  simp [fifoRead, done, hlen]

theorem stores_of_not_write (hw : s.write i = false) : s.stores i = none := by
  simp [stores, hw]

theorem incrementAddress_eq (h : s.Calm) : s.incrementAddress i = s.writeComplete i := by
  unfold incrementAddress writeComplete
  cases s.write i <;> simp [h.stopped_eq]

/-- The FIFO is read when a beat is written completely. -/
theorem Calm.fifoRead_eq (h : s.Calm) : s.fifoRead i = s.writeComplete i := by
  unfold fifoRead writeComplete write
  rw [h.stopped_eq, h.earlyTermination_eq]
  cases s.fifoEmpty i <;> cases s.done <;> cases i.waitrequest <;> simp

/-- The memory after an edge. -/
def ddrAfter (s : WriteMaster) (i : MasterIn) (ddr : ℕ → Byte) : ℕ → Byte :=
  match s.stores i with
  | some w => w.perform ddr
  | none => ddr

/-! ## Where the master stands -/

/-- Nothing is left to write. -/
structure Drained (s : WriteMaster) : Prop where
  lengthCounter_eq : s.lengthCounter = 0
  byteEnables_eq : s.byteEnables = Halves.idle

/-- Beat `w` of a command is being written, and its lanes `lanes` are stored already. -/
structure Copying (c : MasterCommand) (w : ℕ) (lanes : BitVec 8) (s : WriteMaster) : Prop where
  commandReady_eq : s.commandReady = false
  responseValid_eq : s.responseValid = false
  byLength : c.ByLength
  left : 8 * w < c.bytes
  addressCounter_eq : s.addressCounter = c.address + BitVec.ofNat 32 (8 * w)
  lengthCounter_eq : s.lengthCounter = BitVec.ofNat 18 (c.bytes - 8 * w)
  byteEnables_at : SixtyFourBitAt s.unsupportedByteenable lanes s.byteEnables

/-- The memory when `w` beats of the last command are stored. -/
def copiedUpTo (stream : ℕ → StBeat64) (ddr₀ : ℕ → Byte) (cs : List MasterCommand)
    (c : MasterCommand) (w : ℕ) : ℕ → Byte :=
  store (copied (byteStream stream) cs 0 ddr₀) c.base
    (load (byteStream stream) (8 * beatsOf cs) (8 * w))

/-- Where the master stands when the commands of the list were taken over, `n` responses were
taken and `p` beats were read from the FIFO. A command without bytes can only be the last one. -/
inductive Phase (stream : ℕ → StBeat64) (ddr₀ : ℕ → Byte) :
    List MasterCommand → ℕ → ℕ → WriteMaster → (ℕ → Byte) → Prop
  | ready {cs : List MasterCommand} {s : WriteMaster} (hcs : ∀ b ∈ cs, 0 < b.bytes)
      (hready : s.commandReady = true) (hresp : s.responseValid = false)
      (hdone : s.doneD1 = true) (hs : s.Drained) :
      Phase stream ddr₀ cs cs.length (beatsOf cs) s (copied (byteStream stream) cs 0 ddr₀)
  | copying {cs : List MasterCommand} {c : MasterCommand} {w : ℕ} {lanes : BitVec 8}
      {s : WriteMaster} (hcs : ∀ b ∈ cs, 0 < b.bytes) (hs : s.Copying c w lanes) :
      Phase stream ddr₀ (cs ++ [c]) cs.length (beatsOf cs + w) s
        (storeLanes (copiedUpTo stream ddr₀ cs c w) (c.base + 8 * w) lanes
          (stream (beatsOf cs + w)).bytes)
  /-- The last byte is stored, and the response is not offered yet. -/
  | finishing {cs : List MasterCommand} {c : MasterCommand} {s : WriteMaster}
      (hcs : ∀ b ∈ cs ++ [c], 0 < b.bytes) (hready : s.commandReady = false)
      (hresp : s.responseValid = false) (hdone : s.doneD1 = false) (hs : s.Drained) :
      Phase stream ddr₀ (cs ++ [c]) cs.length (beatsOf (cs ++ [c])) s
        (copied (byteStream stream) (cs ++ [c]) 0 ddr₀)
  | responding {cs : List MasterCommand} {c : MasterCommand} {s : WriteMaster}
      (hcs : ∀ b ∈ cs ++ [c], 0 < b.bytes) (hready : s.commandReady = false)
      (hresp : s.responseValid = true) (hdone : s.doneD1 = true) (hs : s.Drained) :
      Phase stream ddr₀ (cs ++ [c]) cs.length (beatsOf (cs ++ [c])) s
        (copied (byteStream stream) (cs ++ [c]) 0 ddr₀)
  /-- The length counted as 0. -/
  | hanging {cs : List MasterCommand} {c : MasterCommand} {s : WriteMaster}
      (hcs : ∀ b ∈ cs, 0 < b.bytes) (hc : c.bytes = 0) (hready : s.commandReady = false)
      (hresp : s.responseValid = false) (hdone : s.doneD1 = true) (hs : s.Drained) :
      Phase stream ddr₀ (cs ++ [c]) cs.length (beatsOf (cs ++ [c])) s
        (copied (byteStream stream) (cs ++ [c]) 0 ddr₀)

/-! ## Edges with nothing to write -/

/-- The registers behind an edge with nothing to write. -/
theorem Drained.clock (h : s.Drained) (ddr : ℕ → Byte) :
    (s.clock i).byteEnables = Halves.idle ∧ s.ddrAfter i ddr = ddr ∧
      (s.fifoRead i).toNat = 0 ∧ (s.clock i).doneD1 = true := by
  have hwrite := write_of_done (i := i) h.lengthCounter_eq
  refine ⟨?_, ?_, ?_, ?_⟩
  · show sixtyFourBit.clock s.byteEnables (s.write i) s.unsupportedByteenable i.waitrequest = _
    rw [hwrite, (sixtyFourBit_cuts.off _ _ _).1, h.byteEnables_eq]
  · simp [ddrAfter, stores_of_not_write hwrite]
  · rw [fifoRead_of_done h.lengthCounter_eq]
    rfl
  · simp [WriteMaster.clock, done, h.lengthCounter_eq]

/-- Without a command nothing is left to write. -/
theorem Drained.of_not_go (h : s.Drained) (hgo : s.go i = false) : (s.clock i).Drained where
  lengthCounter_eq := by
    have hinc : s.incrementAddress i = false := by
      simp [incrementAddress, write_of_done h.lengthCounter_eq]
    simp [WriteMaster.clock, hgo, hinc, h.lengthCounter_eq]
  byteEnables_eq := (h.clock (i := i) (fun _ => 0)).1

/-- A command is taken over: its first beat is next, with no lane stored yet, unless the length
counts as 0. -/
theorem Drained.clock_go (h : s.Drained) (hc : s.Calm) (hi : s.Directed i) (hgo : s.go i = true)
    (hresp : s.responseValid = false) (hdone : s.doneD1 = true) :
    (i.command.bytes = 0 → (s.clock i).Drained) ∧
      (0 < i.command.bytes → (s.clock i).Copying i.command 0 0#8) := by
  obtain ⟨hidle', -, -, -⟩ := h.clock (i := i) (fun _ => 0)
  have hready' : (s.clock i).commandReady = false := by simp [WriteMaster.clock, hgo]
  have hstrobe : s.doneStrobe = false := by simp [doneStrobe, hdone]
  have hreset : s.lengthSyncReset = false := by
    simp [lengthSyncReset, hstrobe, hc.resetTaken_eq, hc.earlyTermination_eq]
  have hresp' : (s.clock i).responseValid = false := by
    simp [WriteMaster.clock, hstrobe, hresp]
  have hlen' : (s.clock i).lengthCounter = BitVec.ofNat 18 i.command.bytes := by
    apply BitVec.eq_of_toNat_eq
    simp [WriteMaster.clock, hreset, hgo, MasterCommand.bytes]
  refine ⟨fun hzero => ⟨by rw [hlen', hzero]; rfl, hidle'⟩, fun hpos => ?_⟩
  have hlanes : SixtyFourBitAt (s.clock i).unsupportedByteenable 0#8 (s.clock i).byteEnables := by
    rw [hidle']
    apply sixtyFourBit_cuts.start
    apply (hc.clock hi).mask_ne_zero
    rw [hlen']
    exact (i.command.toNat_left 0).symm ▸ hpos
  exact ⟨hready', hresp', hi.byLength hgo, hpos, by simp [WriteMaster.clock, hgo],
    by simpa using hlen', hlanes⟩

/-- A command is taken over. -/
theorem Phase.go {cs : List MasterCommand} (hcs : ∀ b ∈ cs, 0 < b.bytes) (hc : s.Calm)
    (hi : s.Directed i) (hgo : s.go i = true) (hresp : s.responseValid = false)
    (hdone : s.doneD1 = true) (hs : s.Drained) :
    Phase stream ddr₀ (cs ++ [i.command]) cs.length (beatsOf cs) (s.clock i)
      (copied (byteStream stream) cs 0 ddr₀) := by
  obtain ⟨hhangs, hstarts⟩ := hs.clock_go hc hi hgo hresp hdone
  by_cases hzero : i.command.bytes = 0
  · -- the counter stays 0, and `done` does not rise
    have hready' : (s.clock i).commandReady = false := by simp [WriteMaster.clock, hgo]
    have hresp' : (s.clock i).responseValid = false := by
      simp [WriteMaster.clock, doneStrobe, hdone, hresp]
    have h : Phase stream ddr₀ (cs ++ [i.command]) cs.length (beatsOf (cs ++ [i.command]))
        (s.clock i) (copied (byteStream stream) (cs ++ [i.command]) 0 ddr₀) :=
      .hanging hcs hzero hready' hresp' (hs.clock (fun _ => 0)).2.2.2 (hhangs hzero)
    rw [beatsOf_concat, copied_concat, hzero, MasterCommand.beats, hzero] at h
    simpa [load] using h
  · have h : Phase stream ddr₀ (cs ++ [i.command]) cs.length (beatsOf cs + 0) (s.clock i)
        (storeLanes (copiedUpTo stream ddr₀ cs i.command 0) (i.command.base + 8 * 0) 0#8
          (stream (beatsOf cs + 0)).bytes) := .copying hcs (hstarts (Nat.pos_of_ne_zero hzero))
    simpa [storeLanes_zero, copiedUpTo, load] using h

/-! ## Edges of a transfer -/

/-- The enables asked for depend on what is left only. -/
theorem Calm.mask_congr {t : WriteMaster} (h : s.Calm) (ht : t.Calm)
    (hlen : t.lengthCounter = s.lengthCounter) :
    t.unsupportedByteenable = s.unsupportedByteenable := by
  have hbytes : t.bytesToTransfer = s.bytesToTransfer := by
    apply BitVec.eq_of_toNat_eq
    rw [h.toNat_bytesToTransfer, ht.toNat_bytesToTransfer, hlen]
  unfold unsupportedByteenable
  rw [hbytes]

section Copying

variable {c : MasterCommand} {w : ℕ} {lanes : BitVec 8}

theorem Copying.toNat_lengthCounter (h : s.Copying c w lanes) :
    s.lengthCounter.toNat = c.bytes - 8 * w := by
  rw [h.lengthCounter_eq, c.toNat_left]

theorem Copying.mask_ne_zero (h : s.Copying c w lanes) (hcalm : s.Calm) :
    s.unsupportedByteenable ≠ 0#8 := by
  apply hcalm.mask_ne_zero
  rw [h.toNat_lengthCounter]
  exact Nat.sub_pos_of_lt h.left

/-- What the bus is asked to write goes to the next word of the buffer. -/
theorem Copying.perform_busWrite (h : s.Copying c w lanes) {b : StBeat64}
    (hword : s.buffered = b.fifoWord) (ddr : ℕ → Byte) :
    (s.busWrite i).perform ddr =
      storeLanes ddr (c.base + 8 * w)
        (sixtyFourBit.byteenableOut s.byteEnables (s.write i) s.unsupportedByteenable) b.bytes := by
  have hfits := h.byLength.fits
  have hleft := h.left
  have haddress : (s.busWrite i).address.toNat = c.base + 8 * w := by
    show (s.addressCounter &&& ~~~(7 : BitVec 32)).toNat = _
    unfold MasterCommand.base at hfits ⊢
    have hlt := c.address.isLt
    rw [toNat_and_not_seven, h.addressCounter_eq, BitVec.toNat_add, BitVec.toNat_ofNat]
    omega
  unfold BusWrite.perform
  rw [haddress]
  show storeLanes ddr _ _ (leBytes 8 s.buffered.data) = _
  rw [hword]
  show storeLanes ddr _ _ (leBytes 8 (symbolSwap b.data)) = _
  rw [leBytes_symbolSwap]
  rfl

/-- The registers behind an edge of a transfer: the counters move when a beat is done. -/
theorem Copying.regs (h : s.Copying c w lanes) (hcalm : s.Calm) :
    s.go i = false ∧ (s.clock i).commandReady = false ∧
      (s.clock i).responseValid = false ∧ (s.clock i).doneD1 = false ∧
      (s.clock i).lengthCounter =
        (if s.writeComplete i then s.lengthCounter - s.bytesToTransfer.setWidth 18
          else s.lengthCounter) ∧
      (s.clock i).addressCounter =
        (if s.writeComplete i then s.addressCounter + 8 else s.addressCounter) := by
  have hready := h.commandReady_eq
  have hgo : s.go i = false := by simp [go, hready]
  have hne : s.lengthCounter ≠ 0 := by
    intro hzero
    have hlen := h.toNat_lengthCounter
    have hleft := h.left
    rw [hzero] at hlen
    exact absurd hlen (Nat.ne_of_lt (Nat.sub_pos_of_lt hleft))
  have hdone : s.done = false := by
    rw [hcalm.done_eq]
    exact beq_eq_false_iff_ne.mpr hne
  have hstrobe : s.doneStrobe = false := by simp [doneStrobe, hdone]
  have hreset : s.lengthSyncReset = false := by
    simp [lengthSyncReset, hstrobe, hcalm.resetTaken_eq, hcalm.earlyTermination_eq]
  simp [WriteMaster.clock, hgo, hdone, hstrobe, hreset, hready, h.responseValid_eq,
    incrementAddress_eq hcalm, hcalm.resetTaken_eq]

/-- The lanes stored behind an edge. -/
def lanesAfter (s : WriteMaster) (i : MasterIn) (lanes : BitVec 8) : BitVec 8 :=
  if s.write i && !i.waitrequest then
    sixtyFourBit.byteenableOut s.byteEnables true s.unsupportedByteenable ||| lanes
  else lanes

/-- An edge that writes finds a word in the FIFO. -/
theorem fifoEmpty_of_write (hwrite : s.write i = true) : s.fifoEmpty i = false := by
  simp only [write, Bool.and_eq_true, Bool.not_eq_true'] at hwrite
  exact hwrite.1.1.1

/-- What an edge does to the memory. -/
theorem Copying.ddrAfter_eq {b : StBeat64} (h : s.Copying c w lanes)
    (hword : s.fifoEmpty i = false → s.buffered = b.fifoWord) (ddr : ℕ → Byte) :
    s.ddrAfter i (storeLanes ddr (c.base + 8 * w) lanes b.bytes) =
      storeLanes ddr (c.base + 8 * w) (s.lanesAfter i lanes) b.bytes := by
  unfold lanesAfter ddrAfter stores
  split_ifs with hstore
  · have hwrite := (Bool.and_eq_true_iff.mp hstore).1
    show (s.busWrite i).perform _ = _
    rw [h.perform_busWrite (hword (fifoEmpty_of_write hwrite)), hwrite, storeLanes_or]
  · rfl

/-- An edge at which the beat is not finished. -/
theorem Copying.of_not_complete (h : s.Copying c w lanes) (hcalm : s.Calm) (hi : s.Directed i)
    (hcomplete : s.writeComplete i = false) :
    (s.clock i).Copying c w (s.lanesAfter i lanes) := by
  obtain ⟨-, hready', hresp', -, hlen', haddr'⟩ := h.regs (i := i) hcalm
  rw [hcomplete] at hlen' haddr'
  refine ⟨hready', hresp', h.byLength, h.left, haddr'.trans h.addressCounter_eq,
    hlen'.trans h.lengthCounter_eq, ?_⟩
  rw [hcalm.mask_congr (hcalm.clock hi) hlen']
  show SixtyFourBitAt _ _ (sixtyFourBit.clock s.byteEnables (s.write i) s.unsupportedByteenable
    i.waitrequest)
  unfold lanesAfter
  cases hwrite : s.write i with
  | false =>
    rw [(sixtyFourBit_cuts.off _ _ _).1]
    exact h.byteEnables_at
  | true =>
    cases hwait : i.waitrequest with
    | true =>
      rw [(sixtyFourBit_cuts.wait _ _).1]
      exact h.byteEnables_at
    | false =>
      -- the bus takes some lanes over, but not the last ones
      apply (sixtyFourBit_cuts.step _ _ _ (h.mask_ne_zero hcalm) h.byteEnables_at).goesOn
      simpa [writeComplete, writeStall, hwrite, hwait] using hcomplete

/-- An edge at which a beat is finished writes the last of its lanes. -/
theorem Copying.lanes_of_complete (h : s.Copying c w lanes) (hcalm : s.Calm)
    (hcomplete : s.writeComplete i = true) :
    s.lanesAfter i lanes = s.unsupportedByteenable ∧
      (s.clock i).byteEnables = Halves.idle := by
  have hcomplete' : s.write i = true ∧ i.waitrequest = false ∧ s.writeStall i = false := by
    simpa [writeComplete, and_assoc] using hcomplete
  obtain ⟨hwrite, hwait, hstall⟩ := hcomplete'
  rw [writeStall, hwrite, hwait] at hstall
  obtain ⟨hall, hidle⟩ :=
    (sixtyFourBit_cuts.step _ _ _ (h.mask_ne_zero hcalm) h.byteEnables_at).ends hstall
  refine ⟨?_, ?_⟩
  · simpa [lanesAfter, hwrite, hwait] using hall
  · show sixtyFourBit.clock s.byteEnables (s.write i) s.unsupportedByteenable i.waitrequest = _
    rw [hwrite, hwait, hidle]

/-- What is left behind a finished beat. -/
theorem Copying.left_of_complete (h : s.Copying c w lanes) (hcalm : s.Calm)
    (hcomplete : s.writeComplete i = true) :
    (s.clock i).lengthCounter.toNat = c.bytes - 8 * (w + 1) := by
  obtain ⟨-, -, -, -, hlen', -⟩ := h.regs (i := i) hcalm
  have hbytes := hcalm.toNat_bytesToTransfer
  have hlen := h.toNat_lengthCounter
  have hlt := s.lengthCounter.isLt
  rw [hlen', if_pos hcomplete, BitVec.toNat_sub, BitVec.toNat_setWidth, hbytes, hlen]
  omega

/-- Behind the last beat. -/
theorem Copying.of_last (h : s.Copying c w lanes) (hcalm : s.Calm)
    (hcomplete : s.writeComplete i = true) (hlast : c.bytes ≤ 8 * (w + 1)) :
    (s.clock i).Drained where
  lengthCounter_eq := by
    apply BitVec.eq_of_toNat_eq
    rw [h.left_of_complete hcalm hcomplete]
    exact Nat.sub_eq_zero_of_le hlast
  byteEnables_eq := (h.lanes_of_complete hcalm hcomplete).2

/-- Behind a beat that is not the last one. -/
theorem Copying.of_complete (h : s.Copying c w lanes) (hcalm : s.Calm) (hi : s.Directed i)
    (hcomplete : s.writeComplete i = true) (hmore : 8 * (w + 1) < c.bytes) :
    (s.clock i).Copying c (w + 1) 0#8 := by
  obtain ⟨-, hready', hresp', -, -, haddr'⟩ := h.regs (i := i) hcalm
  have hleft := h.left_of_complete hcalm hcomplete
  refine ⟨hready', hresp', h.byLength, hmore, ?_, BitVec.eq_of_toNat_eq ?_, ?_⟩
  · rw [haddr', if_pos hcomplete, h.addressCounter_eq, BitVec.add_assoc, Nat.mul_succ,
      BitVec.ofNat_add]
    rfl
  · rw [hleft, c.toNat_left]
  · rw [(h.lanes_of_complete hcalm hcomplete).2]
    apply sixtyFourBit_cuts.start
    apply (hcalm.clock hi).mask_ne_zero
    rw [hleft]
    exact Nat.sub_pos_of_lt hmore

/-- The bytes stored grow by those of the beat. -/
theorem Copying.store_mask (h : s.Copying c w lanes) (hcalm : s.Calm) (cs : List MasterCommand) :
    storeLanes (copiedUpTo stream ddr₀ cs c w) (c.base + 8 * w) s.unsupportedByteenable
        (stream (beatsOf cs + w)).bytes =
      store (copied (byteStream stream) cs 0 ddr₀) c.base
        (load (byteStream stream) (8 * beatsOf cs) (8 * w + min 8 (c.bytes - 8 * w))) := by
  have hbytes := hcalm.toNat_bytesToTransfer
  rw [h.toNat_lengthCounter] at hbytes
  have hlen : (load (byteStream stream) (8 * beatsOf cs) (8 * w)).length = 8 * w :=
    length_load _ _ _
  rw [unsupportedByteenable, storeLanes_mask _ _ (by omega), hbytes, load_add, store_append, hlen,
    ← Nat.mul_add, load_byteStream stream _ (Nat.min_le_left _ _)]
  rfl

/-- The memory behind the last beat. -/
theorem Copying.store_last (h : s.Copying c w lanes) (hcalm : s.Calm)
    (hcomplete : s.writeComplete i = true) (hlast : c.bytes ≤ 8 * (w + 1))
    (cs : List MasterCommand) :
    storeLanes (copiedUpTo stream ddr₀ cs c w) (c.base + 8 * w) (s.lanesAfter i lanes)
        (stream (beatsOf cs + w)).bytes = copied (byteStream stream) (cs ++ [c]) 0 ddr₀ := by
  have hleft := h.left
  have hlength : 8 * w + min 8 (c.bytes - 8 * w) = c.bytes := by omega
  rw [(h.lanes_of_complete hcalm hcomplete).1, h.store_mask hcalm, hlength, copied_concat,
    Nat.zero_add]

/-- The memory behind a beat that is not the last one. -/
theorem Copying.store_next (h : s.Copying c w lanes) (hcalm : s.Calm)
    (hcomplete : s.writeComplete i = true) (hmore : 8 * (w + 1) < c.bytes)
    (cs : List MasterCommand) :
    storeLanes (copiedUpTo stream ddr₀ cs c w) (c.base + 8 * w) (s.lanesAfter i lanes)
        (stream (beatsOf cs + w)).bytes = copiedUpTo stream ddr₀ cs c (w + 1) := by
  have hlength : 8 * w + min 8 (c.bytes - 8 * w) = 8 * (w + 1) := by omega
  rw [(h.lanes_of_complete hcalm hcomplete).1, h.store_mask hcalm, hlength]
  rfl

/-- **An edge of a transfer.** -/
theorem Phase.of_copying {cs : List MasterCommand} (hcs : ∀ b ∈ cs, 0 < b.bytes)
    (h : s.Copying c w lanes) (hcalm : s.Calm) (hi : s.Directed i)
    (hword : s.fifoEmpty i = false → s.buffered = (stream (beatsOf cs + w)).fifoWord) :
    Phase stream ddr₀ (cs ++ [c]) cs.length (beatsOf cs + w + (s.writeComplete i).toNat)
      (s.clock i) (s.ddrAfter i (storeLanes (copiedUpTo stream ddr₀ cs c w) (c.base + 8 * w) lanes
        (stream (beatsOf cs + w)).bytes)) := by
  rw [h.ddrAfter_eq hword]
  have hleft := h.left
  cases hcomplete : s.writeComplete i with
  | false => exact .copying hcs (h.of_not_complete hcalm hi hcomplete)
  | true =>
    obtain ⟨-, hready', hresp', hdone', -, -⟩ := h.regs (i := i) hcalm
    by_cases hlast : c.bytes ≤ 8 * (w + 1)
    · -- the last beat
      have hbeats : beatsOf cs + w + true.toNat = beatsOf (cs ++ [c]) := by
        rw [beatsOf_concat, MasterCommand.beats, Bool.toNat_true]
        omega
      have hpos : ∀ b ∈ cs ++ [c], 0 < b.bytes := by
        intro b hb
        rcases List.mem_append.mp hb with hold | hnew
        · exact hcs b hold
        · rw [List.mem_singleton.mp hnew]
          exact Nat.lt_of_le_of_lt (Nat.zero_le _) hleft
      rw [h.store_last hcalm hcomplete hlast, hbeats]
      exact .finishing hpos hready' hresp' hdone' (h.of_last hcalm hcomplete hlast)
    · -- the next beat, with no lane stored yet
      have hmore := Nat.lt_of_not_le hlast
      have hnext : Phase stream ddr₀ (cs ++ [c]) cs.length (beatsOf cs + (w + 1)) (s.clock i)
          (storeLanes (copiedUpTo stream ddr₀ cs c (w + 1)) (c.base + 8 * (w + 1)) 0#8
            (stream (beatsOf cs + (w + 1))).bytes) :=
        .copying hcs (h.of_complete hcalm hi hcomplete hmore)
      rw [storeLanes_zero] at hnext
      rw [h.store_next hcalm hcomplete hmore]
      exact hnext

end Copying

/-! ## One edge -/

/-- What an edge shows that takes no command over. -/
theorem starts_of_not_go (hgo : s.go i = false) : s.starts i = none := by
  simp [starts, hgo]

/-- **One edge keeps the account.** -/
theorem Phase.clock {cs : List MasterCommand} {n p : ℕ} {ddr : ℕ → Byte}
    (h : Phase stream ddr₀ cs n p s ddr) (hcalm : s.Calm) (hi : s.Directed i)
    (hword : s.fifoEmpty i = false → s.buffered = (stream p).fifoWord) :
    Phase stream ddr₀ (cs ++ (s.starts i).toList) (n + (s.responds i).toNat)
      (p + (s.fifoRead i).toNat) (s.clock i) (s.ddrAfter i ddr) := by
  cases h with
  | ready hcs hready hresp hdone hs =>
    obtain ⟨-, hddr, hread, hdone'⟩ := hs.clock (i := i) (copied (byteStream stream) cs 0 ddr₀)
    have hstrobe : s.doneStrobe = false := by simp [doneStrobe, hdone]
    have hresponds : s.responds i = false := by simp [responds, hresp]
    rw [hddr, hread, hresponds]
    cases hgo : s.go i with
    | true =>
      have hstarts : s.starts i = some i.command := by simp [starts, hgo]
      rw [hstarts]
      exact .go hcs hcalm hi hgo hresp hdone hs
    | false =>
      rw [starts_of_not_go hgo, Option.toList_none, List.append_nil]
      refine .ready hcs ?_ ?_ hdone' (hs.of_not_go hgo)
      · simp [WriteMaster.clock, hgo, hready]
      · simp [WriteMaster.clock, hstrobe, hresp]
  | copying hcs hs =>
    have hgo := (hs.regs (i := i) hcalm).1
    have hresponds : s.responds i = false := by simp [responds, hs.responseValid_eq]
    rw [starts_of_not_go hgo, hresponds, Option.toList_none, List.append_nil, hcalm.fifoRead_eq]
    exact .of_copying hcs hs hcalm hi hword
  | @finishing cs c _ hcs hready hresp hdone hs =>
    obtain ⟨-, hddr, hread, hdone'⟩ :=
      hs.clock (i := i) (copied (byteStream stream) (cs ++ [c]) 0 ddr₀)
    have hgo : s.go i = false := by simp [WriteMaster.go, hready]
    have hresponds : s.responds i = false := by simp [responds, hresp]
    have hstrobe : s.doneStrobe = true := by
      simp [doneStrobe, hdone, hcalm.done_eq, hs.lengthCounter_eq, hcalm.resetTaken_eq]
    rw [hddr, hread, hresponds, starts_of_not_go hgo, Option.toList_none, List.append_nil]
    refine .responding hcs ?_ ?_ hdone' (hs.of_not_go hgo)
    · simp [WriteMaster.clock, hgo, hready, hresp, hcalm.resetTaken_eq]
    · simp [WriteMaster.clock, hstrobe, hcalm.resetTaken_eq]
  | @responding cs c _ hcs hready hresp hdone hs =>
    obtain ⟨-, hddr, hread, hdone'⟩ :=
      hs.clock (i := i) (copied (byteStream stream) (cs ++ [c]) 0 ddr₀)
    have hgo : s.go i = false := by simp [WriteMaster.go, hready]
    have hstrobe : s.doneStrobe = false := by simp [doneStrobe, hdone]
    have hresponds : s.responds i = i.responseReady := by simp [responds, hresp]
    rw [hddr, hread, hresponds, starts_of_not_go hgo, Option.toList_none, List.append_nil]
    cases hack : i.responseReady with
    | false =>
      refine .responding hcs ?_ ?_ hdone' (hs.of_not_go hgo)
      · simp [WriteMaster.clock, hgo, hready, hack, hcalm.resetTaken_eq]
      · simp [WriteMaster.clock, hstrobe, hresp, hack, hcalm.resetTaken_eq]
    | true =>
      have hlen : cs.length + true.toNat = (cs ++ [c]).length := by simp
      rw [hlen]
      refine .ready hcs ?_ ?_ hdone' (hs.of_not_go hgo)
      · simp [WriteMaster.clock, hgo, hresp, hack]
      · simp [WriteMaster.clock, hstrobe, hresp, hack]
  | @hanging cs c _ hcs hc hready hresp hdone hs =>
    obtain ⟨-, hddr, hread, hdone'⟩ :=
      hs.clock (i := i) (copied (byteStream stream) (cs ++ [c]) 0 ddr₀)
    have hgo : s.go i = false := by simp [WriteMaster.go, hready]
    have hstrobe : s.doneStrobe = false := by simp [doneStrobe, hdone]
    have hresponds : s.responds i = false := by simp [responds, hresp]
    rw [hddr, hread, hresponds, starts_of_not_go hgo, Option.toList_none, List.append_nil]
    refine .hanging hcs hc ?_ ?_ hdone' (hs.of_not_go hgo)
    · simp [WriteMaster.clock, hgo, hready, hresp, hcalm.resetTaken_eq]
    · simp [WriteMaster.clock, hstrobe, hresp]

/-- What holds in every run: `taken` beats were taken over, and those not read yet are in the
FIFO. -/
structure History (stream : ℕ → StBeat64) (ddr₀ : ℕ → Byte) (cs : List MasterCommand)
    (n taken : ℕ) (s : WriteMaster) (ddr : ℕ → Byte) : Prop where
  calm : s.Calm
  phase : ∃ p ≤ taken, Phase stream ddr₀ cs n p s ddr ∧
    s.fifo = load (fun k => (stream k).fifoWord) p (taken - p)
  room : s.fifo.length ≤ fifoDepth

theorem history_reset (stream : ℕ → StBeat64) (ddr : ℕ → Byte) :
    History stream ddr [] 0 0 reset ddr where
  calm := ⟨rfl, rfl, rfl, rfl⟩
  phase := ⟨0, Nat.le_refl 0, .ready (fun b hb => by cases hb) rfl rfl rfl ⟨rfl, rfl⟩, rfl⟩
  room := Nat.zero_le _

/-- A word that is shown is the oldest of those not read yet. -/
theorem fifo_eq_cons {stream : ℕ → StBeat64} {p taken : ℕ} (hp : p ≤ taken)
    (hfifo : s.fifo = load (fun k => (stream k).fifoWord) p (taken - p))
    (hempty : s.fifoEmpty i = false) : ∃ m, taken = p + m + 1 ∧
      s.fifo = (stream p).fifoWord :: load (fun k => (stream k).fifoWord) (p + 1) m := by
  obtain ⟨m, hm⟩ := Nat.exists_eq_add_of_le hp
  rw [hm, Nat.add_sub_cancel_left] at hfifo
  cases m with
  | zero => simp [fifoEmpty, hfifo, load] at hempty
  | succ m => exact ⟨m, hm, by rw [hfifo, load_succ]⟩

theorem buffered_of_fifo {stream : ℕ → StBeat64} {p taken : ℕ} (hp : p ≤ taken)
    (hfifo : s.fifo = load (fun k => (stream k).fifoWord) p (taken - p))
    (hempty : s.fifoEmpty i = false) : s.buffered = (stream p).fifoWord := by
  obtain ⟨m, -, hcons⟩ := fifo_eq_cons hp hfifo hempty
  simp [buffered, hcons]

/-- **One edge**, at which the next beat of the stream may be taken over. -/
theorem History.clock {cs : List MasterCommand} {n taken : ℕ} {ddr : ℕ → Byte}
    (h : History stream ddr₀ cs n taken s ddr) (hi : s.Directed i)
    (hbeat : ∀ b, s.accepts i = some b → b = stream taken) :
    History stream ddr₀ (cs ++ (s.starts i).toList) (n + (s.responds i).toNat)
      (taken + (s.accepts i).toList.length) (s.clock i) (s.ddrAfter i ddr) := by
  obtain ⟨p, hp, hphase, hfifo⟩ := h.phase
  have hnext := hphase.clock h.calm hi (buffered_of_fifo hp hfifo)
  -- what is left of the FIFO when a word was read
  have hrest : p + (s.fifoRead i).toNat ≤ taken ∧
      (if s.fifoRead i then s.fifo.tail else s.fifo) = load (fun k => (stream k).fifoWord)
        (p + (s.fifoRead i).toNat) (taken - (p + (s.fifoRead i).toNat)) := by
    cases hread : s.fifoRead i with
    | false => exact ⟨hp, hfifo⟩
    | true =>
      have hempty : s.fifoEmpty i = false := by
        simp only [fifoRead, Bool.and_eq_true, Bool.not_eq_true'] at hread
        exact hread.1.1.1
      obtain ⟨m, hm, hcons⟩ := fifo_eq_cons hp hfifo hempty
      have hleft : taken - (p + 1) = m := by omega
      refine ⟨by rw [Bool.toNat_true]; omega, ?_⟩
      rw [if_pos rfl, hcons, List.tail_cons, Bool.toNat_true, hleft]
  obtain ⟨hle, hload⟩ := hrest
  have hclock : (s.clock i).fifo = (if s.fifoRead i then s.fifo.tail else s.fifo) ++
      (if s.fifoWrite i then [i.snkBeat.fifoWord] else []) := by
    simp [WriteMaster.clock, h.calm.resetTaken_eq]
  refine ⟨h.calm.clock hi, ⟨p + (s.fifoRead i).toNat, ?_, hnext, ?_⟩, ?_⟩
  · exact Nat.le_trans hle (Nat.le_add_right _ _)
  · rw [hclock, hload]
    cases hwrite : s.fifoWrite i with
    | false => simp [accepts, hwrite]
    | true =>
      have hacc : s.accepts i = some i.snkBeat := by simp [accepts, hwrite]
      have hlast : p + (s.fifoRead i).toNat + (taken - (p + (s.fifoRead i).toNat)) = taken :=
        Nat.add_sub_cancel' hle
      rw [hacc, hbeat _ hacc, Option.toList_some, List.length_singleton, Nat.sub_add_comm hle,
        load_succ', hlast]
      rfl
  · have hroom := h.room
    have htail : (if s.fifoRead i then s.fifo.tail else s.fifo).length ≤ s.fifo.length := by
      split_ifs <;> simp
    rw [hclock, List.length_append]
    cases hwrite : s.fifoWrite i with
    | false => simpa using Nat.le_trans htail hroom
    | true =>
      have hfull : s.fifo.length ≠ fifoDepth := by
        simp only [fifoWrite, snkReady, fifoFull, Bool.and_eq_true, Bool.not_eq_true',
          Bool.or_eq_false_iff, beq_eq_false_iff_ne] at hwrite
        exact hwrite.1.1.1
      rw [if_pos rfl, List.length_singleton]
      omega

/-! ## What the account says -/

/-- A lane that is stored lies within the length. -/
theorem Copying.lane_lt {c : MasterCommand} {w : ℕ} {lanes : BitVec 8}
    (h : s.Copying c w lanes) (hcalm : s.Calm) {k : ℕ} (hk : lanes.getLsbD k = true) :
    k < 8 ∧ 8 * w + k < c.bytes := by
  have hwithin := (sixtyFourBit_cuts.step _ _ _ (h.mask_ne_zero hcalm) h.byteEnables_at).within
  have hmask : s.unsupportedByteenable.getLsbD k = true := by
    have hbit := congrArg (fun v => v.getLsbD k) hwithin
    simpa [hk] using hbit
  have hbytes := hcalm.toNat_bytesToTransfer
  rw [h.toNat_lengthCounter] at hbytes
  rw [unsupportedByteenable, getLsbD_byteenableMask (by omega), decide_eq_true_eq, hbytes] at hmask
  omega

/-- While a command is carried out, each byte is what it was before or what it is to be. -/
theorem Copying.old_or_new {cs : List MasterCommand} {c : MasterCommand} {w : ℕ}
    {lanes : BitVec 8} (h : s.Copying c w lanes) (hcalm : s.Calm) (x : ℕ) :
    storeLanes (copiedUpTo stream ddr₀ cs c w) (c.base + 8 * w) lanes
          (stream (beatsOf cs + w)).bytes x = copied (byteStream stream) cs 0 ddr₀ x ∨
      storeLanes (copiedUpTo stream ddr₀ cs c w) (c.base + 8 * w) lanes
          (stream (beatsOf cs + w)).bytes x = copied (byteStream stream) (cs ++ [c]) 0 ddr₀ x := by
  have hleft := h.left
  rw [copied_concat, Nat.zero_add, store_load_apply]
  by_cases hlane : c.base + 8 * w ≤ x ∧ lanes.getLsbD (x - (c.base + 8 * w)) = true
  · -- a lane of the beat that is being written
    obtain ⟨hle, hbit⟩ := hlane
    obtain ⟨hlt, hbytes⟩ := h.lane_lt hcalm hbit
    right
    have hindex : (8 * beatsOf cs + (x - c.base)) / 8 = beatsOf cs + w ∧
        (8 * beatsOf cs + (x - c.base)) % 8 = x - (c.base + 8 * w) := by omega
    have hcell : x - (c.base + 8 * w) < (stream (beatsOf cs + w)).bytes.length := by
      rw [StBeat64.length_bytes]
      exact hlt
    rw [storeLanes, if_pos ⟨hle, hbit⟩, if_pos (by omega), byteStream, hindex.1, hindex.2,
      List.getElem?_eq_getElem hcell]
    rfl
  · rw [storeLanes, if_neg hlane, copiedUpTo, store_load_apply]
    by_cases hdone : c.base ≤ x ∧ x < c.base + 8 * w
    · rw [if_pos hdone, if_pos (by omega)]
      exact Or.inr rfl
    · rw [if_neg hdone]
      exact Or.inl rfl

/-- The commands that were answered are carried out, and no byte is ever anything else than what
it was before or what it is to be. -/
theorem Phase.account {cs : List MasterCommand} {n p : ℕ} {ddr : ℕ → Byte}
    (h : Phase stream ddr₀ cs n p s ddr) (hcalm : s.Calm) :
    n ≤ cs.length ∧ cs.length ≤ n + 1 ∧ beatsOf (cs.take n) ≤ p ∧
      ∀ x, ddr x = copied (byteStream stream) (cs.take n) 0 ddr₀ x ∨
        ddr x = copied (byteStream stream) cs 0 ddr₀ x := by
  have hlast : ∀ (cs : List MasterCommand) (c : MasterCommand), cs.length ≤ (cs ++ [c]).length ∧
      (cs ++ [c]).length ≤ cs.length + 1 ∧ (cs ++ [c]).take cs.length = cs := by
    intro cs c
    simp
  cases h with
  | ready hcs hready hresp hdone hs =>
    rw [List.take_length]
    exact ⟨Nat.le_refl _, Nat.le_succ _, Nat.le_refl _, fun x => Or.inl rfl⟩
  | copying hcs hs =>
    obtain ⟨hle, hge, htake⟩ := hlast _ _
    rw [htake]
    exact ⟨hle, hge, Nat.le_add_right _ _, hs.old_or_new hcalm⟩
  | finishing hcs hready hresp hdone hs =>
    obtain ⟨hle, hge, htake⟩ := hlast _ _
    rw [htake, beatsOf_concat]
    exact ⟨hle, hge, Nat.le_add_right _ _, fun x => Or.inr rfl⟩
  | responding hcs hready hresp hdone hs =>
    obtain ⟨hle, hge, htake⟩ := hlast _ _
    rw [htake, beatsOf_concat]
    exact ⟨hle, hge, Nat.le_add_right _ _, fun x => Or.inr rfl⟩
  | hanging hcs hc hready hresp hdone hs =>
    obtain ⟨hle, hge, htake⟩ := hlast _ _
    rw [htake, beatsOf_concat]
    exact ⟨hle, hge, Nat.le_add_right _ _, fun x => Or.inr rfl⟩

/-- A command without bytes was taken over, and its answer will never come. -/
structure Hanging (s : WriteMaster) : Prop where
  calm : s.Calm
  drained : s.Drained
  doneD1_eq : s.doneD1 = true
  commandReady_eq : s.commandReady = false
  responseValid_eq : s.responseValid = false

theorem Phase.hanging_of_bytes {cs : List MasterCommand} {c : MasterCommand} {n p : ℕ}
    {ddr : ℕ → Byte} (h : Phase stream ddr₀ cs n p s ddr) (hcalm : s.Calm)
    (hlast : cs.getLast? = some c) (hc : c.bytes = 0) : s.Hanging := by
  have habsurd : ∀ b ∈ cs, b = c → ¬ 0 < b.bytes := by
    rintro b - rfl
    rw [hc]
    exact Nat.lt_irrefl 0
  have hmem := List.mem_of_getLast? hlast
  cases h with
  | ready hcs hready hresp hdone hs => exact absurd (hcs c hmem) (habsurd c hmem rfl)
  | @copying cs b w lanes s hcs hs =>
    obtain rfl : b = c := by simpa using hlast
    exact absurd hs.left (by rw [hc]; exact Nat.not_lt_zero _)
  | finishing hcs hready hresp hdone hs => exact absurd (hcs c hmem) (habsurd c hmem rfl)
  | responding hcs hready hresp hdone hs => exact absurd (hcs c hmem) (habsurd c hmem rfl)
  | hanging hcs hb hready hresp hdone hs => exact ⟨hcalm, hs, hdone, hready, hresp⟩

/-- Nothing happens any more. -/
theorem Hanging.clock (h : s.Hanging) (hi : i.Undisturbed) :
    (s.clock i).Hanging ∧ s.starts i = none ∧ s.responds i = false ∧ s.stores i = none := by
  have hgo : s.go i = false := by simp [go, h.commandReady_eq]
  have hcalm := h.calm.clock (directed_of_not_ready h.commandReady_eq hi)
  have hstrobe : s.doneStrobe = false := by simp [doneStrobe, h.doneD1_eq]
  have hwrite := write_of_done (i := i) h.drained.lengthCounter_eq
  refine ⟨⟨hcalm, h.drained.of_not_go hgo, ?_, ?_, ?_⟩, starts_of_not_go hgo, ?_,
    stores_of_not_write hwrite⟩
  · exact (h.drained.clock (fun _ => 0)).2.2.2
  · simp [WriteMaster.clock, hgo, h.commandReady_eq, h.responseValid_eq, h.calm.resetTaken_eq]
  · simp [WriteMaster.clock, hstrobe, h.responseValid_eq]
  · simp [responds, h.responseValid_eq]

end WriteMaster

/-! ## Runs -/

/-- The master with the memory behind the bus. -/
def writeMaster (ddr : ℕ → Byte) : Machine (WriteMaster × (ℕ → Byte)) MasterIn where
  reset := (WriteMaster.reset, ddr)
  step st i := (st.1.clock i, st.1.ddrAfter i st.2)

section Runs

variable (ddr : ℕ → Byte) (is : List MasterIn)

/-- The beats taken over in a run. -/
def beatsTaken : List StBeat64 :=
  (writeMaster ddr).events (fun st i => st.1.accepts i) (writeMaster ddr).reset is

/-- The commands taken over in a run. -/
def commandsTaken : List MasterCommand :=
  (writeMaster ddr).events (fun st i => st.1.starts i) (writeMaster ddr).reset is

/-- The responses the dispatcher took in a run. -/
def responsesTaken : ℕ :=
  ((writeMaster ddr).events (fun st i => if st.1.responds i then some () else none)
    (writeMaster ddr).reset is).length

/-- **The account holds in every run.** -/
theorem WriteMaster.history_run {stream : ℕ → StBeat64} (his : ∀ i ∈ is, i.Undisturbed)
    (hcs : ∀ c ∈ commandsTaken ddr is, c.ByLength)
    (hstream : load stream 0 (beatsTaken ddr is).length = beatsTaken ddr is) :
    History stream ddr (commandsTaken ddr is) (responsesTaken ddr is) (beatsTaken ddr is).length
      ((writeMaster ddr).run (writeMaster ddr).reset is).1
      ((writeMaster ddr).run (writeMaster ddr).reset is).2 := by
  induction is using List.reverseRecOn with
  | nil => exact history_reset stream ddr
  | append_singleton is i ih =>
    have hbeats : beatsTaken ddr (is ++ [i]) = beatsTaken ddr is ++
        (((writeMaster ddr).run (writeMaster ddr).reset is).1.accepts i).toList := by
      simp [beatsTaken, Machine.events_append, Machine.events_cons]
    have hcommands : commandsTaken ddr (is ++ [i]) = commandsTaken ddr is ++
        (((writeMaster ddr).run (writeMaster ddr).reset is).1.starts i).toList := by
      simp [commandsTaken, Machine.events_append, Machine.events_cons]
    have hresponses : responsesTaken ddr (is ++ [i]) = responsesTaken ddr is +
        (((writeMaster ddr).run (writeMaster ddr).reset is).1.responds i).toNat := by
      simp only [responsesTaken, Machine.events_append, Machine.events_cons, Machine.events_nil,
        List.append_nil, List.length_append]
      cases ((writeMaster ddr).run (writeMaster ddr).reset is).1.responds i <;> rfl
    rw [hbeats] at hstream
    obtain ⟨hold, hnew⟩ := load_append_toList hstream
    rw [hcommands] at hcs
    have hrun := ih (fun j hj => his j (List.mem_append_left _ hj))
      (fun c hc => hcs c (List.mem_append_left _ hc)) hold
    have hi : ((writeMaster ddr).run (writeMaster ddr).reset is).1.Directed i := by
      refine ⟨his i (List.mem_append_right _ (List.mem_singleton_self i)), fun hgo => ?_⟩
      apply hcs
      apply List.mem_append_right
      simp [WriteMaster.starts, hgo]
    have hnext := hrun.clock hi hnew
    rw [hbeats, hcommands, hresponses, List.length_append, Machine.run_append]
    exact hnext

/-- Some stream begins with the beats of the run. -/
theorem WriteMaster.exists_history (his : ∀ i ∈ is, i.Undisturbed)
    (hcs : ∀ c ∈ commandsTaken ddr is, c.ByLength) :
    ∃ stream, History stream ddr (commandsTaken ddr is) (responsesTaken ddr is)
      (beatsTaken ddr is).length ((writeMaster ddr).run (writeMaster ddr).reset is).1
      ((writeMaster ddr).run (writeMaster ddr).reset is).2 := by
  refine ⟨fun k => (beatsTaken ddr is).getD k ⟨0, false, false, 0⟩, history_run ddr is his hcs ?_⟩
  apply List.ext_getElem
  · simp
  · intro k hk hk'
    simp [load, List.getElem?_eq_getElem hk']

/-- The memory after a run. -/
def memoryAfter : ℕ → Byte :=
  ((writeMaster ddr).run (writeMaster ddr).reset is).2

/-- **The write master copies.** Commands are carried out one at a time, on consecutive beats.
The ones that were answered are carried out; whatever the bus, the FIFO and the byte enable
generator are doing to the last one, each byte is what it was before or what it is to be, and
bytes outside of the commands never change. -/
theorem writeMaster_copies (stream : ℕ → StBeat64) (his : ∀ i ∈ is, i.Undisturbed)
    (hcs : ∀ c ∈ commandsTaken ddr is, c.ByLength)
    (hstream : load stream 0 (beatsTaken ddr is).length = beatsTaken ddr is) :
    responsesTaken ddr is ≤ (commandsTaken ddr is).length ∧
      (commandsTaken ddr is).length ≤ responsesTaken ddr is + 1 ∧
      beatsOf ((commandsTaken ddr is).take (responsesTaken ddr is)) ≤ (beatsTaken ddr is).length ∧
      ∀ x, memoryAfter ddr is x =
          copied (byteStream stream) ((commandsTaken ddr is).take (responsesTaken ddr is)) 0 ddr x ∨
        memoryAfter ddr is x = copied (byteStream stream) (commandsTaken ddr is) 0 ddr x := by
  have hrun := WriteMaster.history_run ddr is his hcs hstream
  obtain ⟨p, hp, hphase, -⟩ := hrun.phase
  obtain ⟨hle, hge, hbeats, hmem⟩ := hphase.account hrun.calm
  exact ⟨hle, hge, Nat.le_trans hbeats hp, hmem⟩

omit ddr is in
/-- An edge at which nobody asks for anything. -/
def restIn : MasterIn :=
  ⟨false, ⟨0, 0, false⟩, false, false, true, false, ⟨0, false, false, 0⟩, false, false, false⟩

/-- A command of 11 bytes, and two beats for it. -/
def elevenBytes : List MasterIn :=
  [{ restIn with commandValid := true, command := ⟨16, 11, false⟩ },
    { restIn with snkValid := true, snkBeat := ⟨0x0102030405060708, false, false, 0⟩ },
    { restIn with snkValid := true, snkBeat := ⟨0x1112131415161718, false, false, 0⟩ }] ++
    List.replicate 6 restIn

theorem undisturbed_elevenBytes : ∀ i ∈ elevenBytes, i.Undisturbed := by
  intro i hi
  simp only [elevenBytes, List.cons_append, List.nil_append, List.mem_cons,
    List.mem_replicate] at hi
  rcases hi with rfl | rfl | rfl | ⟨-, rfl⟩
  all_goals exact ⟨rfl, rfl⟩

theorem commandsTaken_elevenBytes :
    commandsTaken (fun _ => 0) elevenBytes = [⟨16, 11, false⟩] := by decide

/-- All of the first beat is stored, and three bytes of the second one. -/
theorem elevenBytes_copied :
    memoryAfter (fun _ => 0) elevenBytes =
      copied (byteStream fun k => if k = 0 then ⟨0x0102030405060708, false, false, 0⟩
        else ⟨0x1112131415161718, false, false, 0⟩) [⟨16, 11, false⟩] 0 (fun _ => 0) := by
  have hbyLength : ∀ c ∈ commandsTaken (fun _ => 0) elevenBytes, c.ByLength := by
    intro c hc
    rw [commandsTaken_elevenBytes, List.mem_singleton] at hc
    rw [hc]
    exact ⟨rfl, by decide⟩
  have hresponses : responsesTaken (fun _ => 0) elevenBytes = 1 := by decide
  have hcopies := (writeMaster_copies (fun _ => 0) elevenBytes
    (fun k => if k = 0 then ⟨0x0102030405060708, false, false, 0⟩
      else ⟨0x1112131415161718, false, false, 0⟩) undisturbed_elevenBytes hbyLength
    (by decide)).2.2.2
  rw [commandsTaken_elevenBytes, hresponses] at hcopies
  funext x
  exact (hcopies x).elim id id

/-- **A length that counts as 0 hangs the master.** Once such a command is taken over, nothing is
written, no command is taken over and no response is given any more. -/
theorem writeMaster_hangs {c : MasterCommand} (his : ∀ i ∈ is, i.Undisturbed)
    (hcs : ∀ c ∈ commandsTaken ddr is, c.ByLength) (hlast : (commandsTaken ddr is).getLast? = some c)
    (hc : c.bytes = 0) (js : List MasterIn) (hjs : ∀ i ∈ js, i.Undisturbed) :
    commandsTaken ddr (is ++ js) = commandsTaken ddr is ∧
      responsesTaken ddr (is ++ js) = responsesTaken ddr is ∧
      memoryAfter ddr (is ++ js) = memoryAfter ddr is := by
  obtain ⟨stream, hrun⟩ := WriteMaster.exists_history ddr is his hcs
  obtain ⟨p, -, hphase, -⟩ := hrun.phase
  have hhang := hphase.hanging_of_bytes hrun.calm hlast hc
  -- hanging is kept by every edge, and shows nothing
  have hkeep : ∀ (s : WriteMaster) (mem : ℕ → Byte), s.Hanging →
      (writeMaster ddr).events (fun st i => st.1.starts i) (s, mem) js = [] ∧
      (writeMaster ddr).events (fun st i => if st.1.responds i then some () else none)
        (s, mem) js = [] ∧ ((writeMaster ddr).run (s, mem) js).2 = mem := by
    induction js with
    | nil => exact fun s mem _ => ⟨rfl, rfl, rfl⟩
    | cons i js ih =>
      intro s mem hs
      obtain ⟨hnext, hstarts, hresponds, hstores⟩ := hs.clock (hjs i List.mem_cons_self)
      have hmem : s.ddrAfter i mem = mem := by simp [WriteMaster.ddrAfter, hstores]
      have hrest := ih (fun j hj => hjs j (List.mem_cons_of_mem i hj)) (s.clock i) mem hnext
      have hstep : (writeMaster ddr).step (s, mem) i = (s.clock i, mem) := by
        show (s.clock i, s.ddrAfter i mem) = _
        rw [hmem]
      rw [Machine.events_cons, Machine.events_cons, Machine.run_cons, hstep]
      simpa [hstarts, hresponds] using hrest
  obtain ⟨hcommands, hresponses, hmem⟩ := hkeep _
    ((writeMaster ddr).run (writeMaster ddr).reset is).2 hhang
  refine ⟨?_, ?_, ?_⟩
  · rw [commandsTaken, Machine.events_append, hcommands, List.append_nil]
    rfl
  · rw [responsesTaken, Machine.events_append, hresponses, List.append_nil]
    rfl
  · rw [memoryAfter, Machine.run_append, hmem]
    rfl

end Runs

/-- A command of `2 ^ 18` bytes. -/
def wrappedLength : List MasterIn :=
  [{ restIn with commandValid := true, command := ⟨16, 0x40000, false⟩ }]

/-- It hangs the master, whatever follows. -/
theorem wrappedLength_hangs :
    commandsTaken (fun _ => 0) (wrappedLength ++ elevenBytes) =
        commandsTaken (fun _ => 0) wrappedLength ∧
      responsesTaken (fun _ => 0) (wrappedLength ++ elevenBytes) =
        responsesTaken (fun _ => 0) wrappedLength ∧
      memoryAfter (fun _ => 0) (wrappedLength ++ elevenBytes) =
        memoryAfter (fun _ => 0) wrappedLength := by
  have htaken : commandsTaken (fun _ => 0) wrappedLength = [⟨16, 0x40000, false⟩] := by decide
  refine writeMaster_hangs (fun _ => 0) wrappedLength (c := ⟨16, 0x40000, false⟩) ?_ ?_
    (by decide) (by decide) elevenBytes undisturbed_elevenBytes
  · intro i hi
    obtain rfl := List.mem_singleton.mp hi
    exact ⟨rfl, rfl⟩
  · intro c hc
    rw [htaken, List.mem_singleton] at hc
    rw [hc]
    exact ⟨rfl, by decide⟩

end Rf215Sdr.Fpga
