import Rf215Sdr.Fpga.WriteMasterCopies

/-!
# The Write Master Answers

An edge serves the master when the FIFO shows a word and the bus does not wait. While a command
is carried out every such edge stores at least one byte that was not stored before, so the
command is answered after as many of them as it has bytes, however they are spread.

## Main results

- `writeMaster_answers`: a command with bytes is answered.
-/

namespace Rf215Sdr.Fpga

open Rf215Sdr.Lib

/-! ## Counting lanes -/

/-- The number of lanes in a set of lanes. -/
def laneCount (lanes : BitVec 8) : ℕ :=
  (List.range 8).countP fun k => lanes.getLsbD k

/-- Disjoint sets add up. -/
theorem laneCount_or {a b : BitVec 8} (h : a &&& b = 0#8) :
    laneCount (a ||| b) = laneCount a + laneCount b := by
  have hbit : ∀ k, (a.getLsbD k && b.getLsbD k) = false := by
    intro k
    simpa using congrArg (fun v => v.getLsbD k) h
  unfold laneCount
  induction List.range 8 with
  | nil => rfl
  | cons k l ih =>
    have hk := hbit k
    rw [List.countP_cons, List.countP_cons, List.countP_cons, ih, BitVec.getLsbD_or]
    cases ha : a.getLsbD k <;> cases hb : b.getLsbD k <;> simp_all <;> omega

theorem laneCount_pos {a : BitVec 8} (h : a ≠ 0#8) : 0 < laneCount a := by
  by_contra hzero
  apply h
  apply BitVec.eq_of_getLsbD_eq
  intro k hk
  have hnone := List.countP_eq_zero.mp (Nat.eq_zero_of_not_pos hzero) k (List.mem_range.mpr hk)
  simpa using hnone

/-- A part of a mask is no larger than the mask. -/
theorem laneCount_le_of_within {a : BitVec 8} {n : BitVec 5} (hn : n.toNat ≤ 8)
    (h : a &&& byteenableMask n = a) : laneCount a ≤ n.toNat := by
  have hmask : ∀ m ≤ 8, (List.range 8).countP (fun k => decide (k < m)) = m := by decide
  rw [← hmask n.toNat hn]
  apply List.countP_mono_left
  intro k _ hk
  rw [← getLsbD_byteenableMask hn]
  have hbit := congrArg (fun v => v.getLsbD k) h
  simpa [hk] using hbit

namespace WriteMaster

variable {s : WriteMaster} {i : MasterIn}

/-! ## Progress of a command -/

/-- The FIFO shows a word, and the bus does not wait. -/
def served (s : WriteMaster) (i : MasterIn) : Bool :=
  !s.fifoEmpty i && !i.waitrequest

/-- Only an edge that serves the master writes. -/
theorem lanesAfter_of_not_served (h : s.served i = false) (lanes : BitVec 8) :
    s.lanesAfter i lanes = lanes := by
  have hstore : (s.write i && !i.waitrequest) = false := by
    unfold served at h
    unfold write
    cases hempty : s.fifoEmpty i <;> cases hwait : i.waitrequest <;> simp [hempty, hwait] at h ⊢
  simp [lanesAfter, hstore]

section Copying

variable {c : MasterCommand} {w : ℕ} {lanes : BitVec 8}

/-- While a command is carried out some byte is missing. -/
theorem Copying.laneCount_lt (h : s.Copying c w lanes) (hcalm : s.Calm) :
    8 * w + laneCount lanes < c.bytes := by
  have hstep := sixtyFourBit_cuts.step _ _ _ (h.mask_ne_zero hcalm) h.byteEnables_at
  have hbytes := hcalm.toNat_bytesToTransfer
  rw [h.toNat_lengthCounter] at hbytes
  have hall := laneCount_le_of_within (by omega) hstep.within
  rw [laneCount_or hstep.fresh] at hall
  have hpos := laneCount_pos hstep.nonzero
  have hleft := h.left
  omega

/-- An edge that serves a command stores some of the missing bytes. -/
theorem Copying.laneCount_of_served (h : s.Copying c w lanes) (hcalm : s.Calm)
    (hserved : s.served i = true) :
    laneCount lanes < laneCount (s.lanesAfter i lanes) := by
  have hstep := sixtyFourBit_cuts.step _ _ _ (h.mask_ne_zero hcalm) h.byteEnables_at
  have hdone : s.done = false := by
    rw [hcalm.done_eq, beq_eq_false_iff_ne]
    intro hzero
    have hlen := h.toNat_lengthCounter
    rw [hzero] at hlen
    exact absurd hlen (Nat.ne_of_lt (Nat.sub_pos_of_lt h.left))
  have hstore : (s.write i && !i.waitrequest) = true := by
    simpa [served, write, hdone, hcalm.stopped_eq, hcalm.earlyTermination_eq] using hserved
  rw [lanesAfter, if_pos hstore, laneCount_or hstep.fresh]
  exact Nat.lt_add_of_pos_left (laneCount_pos hstep.nonzero)

end Copying

/-- At most `k` bytes of the command are missing, or none and the response is on its way. -/
inductive Awaits (s : WriteMaster) (k : ℕ) : Prop
  | copying {c : MasterCommand} {w : ℕ} {lanes : BitVec 8} (hs : s.Copying c w lanes)
      (hk : c.bytes ≤ 8 * w + laneCount lanes + k)
  | finishing (hready : s.commandReady = false) (hs : s.Drained) (hdone : s.doneD1 = false)
  | responding (hresp : s.responseValid = true)

/-- Until the response is offered no other command is taken over. -/
theorem Awaits.commandReady_eq {k : ℕ} (h : s.Awaits k) (hresp : s.responseValid = false) :
    s.commandReady = false := by
  cases h with
  | copying hs hk => exact hs.commandReady_eq
  | finishing hready hs hdone => exact hready
  | responding hvalid =>
    rw [hresp] at hvalid
    cases hvalid

/-- **One edge brings the response nearer.** -/
theorem Awaits.clock {k : ℕ} (h : s.Awaits k) (hcalm : s.Calm) (hi : s.Directed i)
    (hresp : s.responseValid = false) :
    (s.clock i).Awaits (k - (s.served i).toNat) ∧
      (s.served i = true → 0 < k ∨ (s.clock i).responseValid = true) := by
  cases h with
  | responding hvalid =>
    rw [hresp] at hvalid
    cases hvalid
  | finishing hready hs hdone =>
    have hstrobe : s.doneStrobe = true := by
      simp [doneStrobe, hdone, hcalm.done_eq, hs.lengthCounter_eq, hcalm.resetTaken_eq]
    have hvalid : (s.clock i).responseValid = true := by
      simp [WriteMaster.clock, hstrobe, hcalm.resetTaken_eq]
    exact ⟨.responding hvalid, fun _ => Or.inr hvalid⟩
  | @copying c w lanes hs hk =>
    have hmissing := hs.laneCount_lt hcalm
    refine ⟨?_, fun _ => Or.inl (by omega)⟩
    cases hcomplete : s.writeComplete i with
    | true =>
      obtain ⟨-, hready', -, hdone', -, -⟩ := hs.regs (i := i) hcalm
      by_cases hlast : c.bytes ≤ 8 * (w + 1)
      · exact .finishing hready' (hs.of_last hcalm hcomplete hlast) hdone'
      · -- a whole beat is more than the lanes that were missing of it
        refine .copying (hs.of_complete hcalm hi hcomplete (Nat.lt_of_not_le hlast)) ?_
        have hlanes : laneCount lanes < 8 := by
          have hstep := sixtyFourBit_cuts.step _ _ _ (hs.mask_ne_zero hcalm) hs.byteEnables_at
          have hbytes := hcalm.toNat_bytesToTransfer
          have hall := laneCount_le_of_within (by omega) hstep.within
          rw [laneCount_or hstep.fresh] at hall
          have hpos := laneCount_pos hstep.nonzero
          omega
        have hzero : laneCount 0#8 = 0 := rfl
        cases s.served i <;> simp <;> omega
    | false =>
      refine .copying (hs.of_not_complete hcalm hi hcomplete) ?_
      cases hserved : s.served i with
      | true =>
        have hmore := hs.laneCount_of_served hcalm hserved
        simp only [Bool.toNat_true]
        omega
      | false =>
        rw [lanesAfter_of_not_served hserved]
        exact hk

/-- A command that was not answered yet. -/
theorem Phase.awaits {stream : ℕ → StBeat64} {ddr₀ ddr : ℕ → Byte} {cs : List MasterCommand}
    {c : MasterCommand} {n p : ℕ} (h : Phase stream ddr₀ cs n p s ddr)
    (hopen : cs.length = n + 1) (hlast : cs.getLast? = some c) (hc : 0 < c.bytes) :
    s.Awaits c.bytes := by
  cases h with
  | ready hcs hready hresp hdone hs => exact absurd hopen (Nat.ne_of_lt (Nat.lt_succ_self _))
  | @copying cs b w lanes s hcs hs =>
    obtain rfl : b = c := by simpa using hlast
    exact .copying hs (Nat.le_add_left _ _)
  | finishing hcs hready hresp hdone hs => exact .finishing hready hs hdone
  | responding hcs hready hresp hdone hs => exact .responding hresp
  | @hanging cs b s hcs hb hready hresp hdone hs =>
    obtain rfl : b = c := by simpa using hlast
    exact absurd hb (Nat.ne_of_gt hc)

end WriteMaster

/-! ## Runs -/

/-- The edges of a run that serve the master. -/
def servedCount (ddr : ℕ → Byte) (st : WriteMaster × (ℕ → Byte)) (is : List MasterIn) : ℕ :=
  ((writeMaster ddr).events (fun st i => if st.1.served i then some () else none) st is).length

theorem servedCount_cons (ddr : ℕ → Byte) (st : WriteMaster × (ℕ → Byte)) (i : MasterIn)
    (is : List MasterIn) :
    servedCount ddr st (i :: is) =
      (st.1.served i).toNat + servedCount ddr ((writeMaster ddr).step st i) is := by
  unfold servedCount
  rw [Machine.events_cons, List.length_append]
  cases st.1.served i <;> rfl

/-- **Enough edges that serve the master bring the response.** -/
theorem WriteMaster.Awaits.run {ddr : ℕ → Byte} {st : WriteMaster × (ℕ → Byte)} {k : ℕ}
    (h : st.1.Awaits k) (hcalm : st.1.Calm) {js : List MasterIn} (hjs : ∀ i ∈ js, i.Undisturbed)
    (hserved : k + 1 ≤ servedCount ddr st js) :
    ∃ pre post, js = pre ++ post ∧ ((writeMaster ddr).run st pre).1.responseValid = true := by
  induction js generalizing st k with
  | nil => exact absurd hserved (Nat.not_succ_le_zero k)
  | cons i js ih =>
    cases hresp : st.1.responseValid with
    | true => exact ⟨[], i :: js, rfl, hresp⟩
    | false =>
      have hi : st.1.Directed i :=
        WriteMaster.directed_of_not_ready (h.commandReady_eq hresp) (hjs i List.mem_cons_self)
      obtain ⟨hnext, hpos⟩ := h.clock hcalm hi hresp
      by_cases hvalid : (st.1.clock i).responseValid = true
      · exact ⟨[i], js, rfl, hvalid⟩
      · -- the count of what is missing fell if this edge served the master
        have hcount : k - (st.1.served i).toNat + 1 ≤
            servedCount ddr ((writeMaster ddr).step st i) js := by
          rw [servedCount_cons] at hserved
          cases hs : st.1.served i with
          | false =>
            rw [hs] at hserved
            simpa using hserved
          | true =>
            have := (hpos hs).resolve_right hvalid
            rw [hs, Bool.toNat_true] at hserved
            rw [Bool.toNat_true]
            omega
        have hnext' : ((writeMaster ddr).step st i).1.Awaits (k - (st.1.served i).toNat) := hnext
        obtain ⟨pre, post, hsplit, hrun⟩ := ih hnext' (hcalm.clock hi)
          (fun j hj => hjs j (List.mem_cons_of_mem i hj)) hcount
        exact ⟨i :: pre, post, by rw [hsplit]; rfl, hrun⟩

/-- **The write master answers.** After as many edges that serve it as the command has bytes, and
one more, the response has been offered, however these edges are spread and whatever else
happens. -/
theorem writeMaster_answers (ddr : ℕ → Byte) (is : List MasterIn) {c : MasterCommand}
    (his : ∀ i ∈ is, i.Undisturbed) (hcs : ∀ c ∈ commandsTaken ddr is, c.ByLength)
    (hopen : (commandsTaken ddr is).length = responsesTaken ddr is + 1)
    (hlast : (commandsTaken ddr is).getLast? = some c) (hc : 0 < c.bytes) (js : List MasterIn)
    (hjs : ∀ i ∈ js, i.Undisturbed)
    (hserved : c.bytes + 1 ≤
      servedCount ddr ((writeMaster ddr).run (writeMaster ddr).reset is) js) :
    ∃ pre post, js = pre ++ post ∧
      ((writeMaster ddr).run (writeMaster ddr).reset (is ++ pre)).1.responseValid = true := by
  obtain ⟨stream, hrun⟩ := WriteMaster.exists_history ddr is his hcs
  obtain ⟨p, -, hphase, -⟩ := hrun.phase
  have hawaits := hphase.awaits hopen hlast hc
  obtain ⟨pre, post, hsplit, hvalid⟩ := hawaits.run hrun.calm hjs hserved
  refine ⟨pre, post, hsplit, ?_⟩
  rw [Machine.run_append]
  exact hvalid

/-- A command of 11 bytes is answered while beats keep coming. -/
theorem elevenBytes_answered :
    ∃ pre post, List.replicate 14 { restIn with snkValid := true } = pre ++ post ∧
      ((writeMaster fun _ => 0).run (writeMaster fun _ => 0).reset
        ([{ restIn with commandValid := true, command := ⟨16, 11, false⟩ }] ++ pre)).1.responseValid
          = true := by
  have htaken : commandsTaken (fun _ => 0)
      [{ restIn with commandValid := true, command := ⟨16, 11, false⟩ }] = [⟨16, 11, false⟩] := by
    decide
  refine writeMaster_answers (fun _ => 0)
    [{ restIn with commandValid := true, command := ⟨16, 11, false⟩ }] (c := ⟨16, 11, false⟩)
    ?_ ?_ (by decide) (by decide) (by decide) (List.replicate 14 { restIn with snkValid := true })
    ?_ (by decide)
  · intro i hi
    obtain rfl := List.mem_singleton.mp hi
    exact ⟨rfl, rfl⟩
  · intro c hc
    rw [htaken, List.mem_singleton] at hc
    rw [hc]
    exact ⟨rfl, by decide⟩
  · intro i hi
    obtain rfl := List.eq_of_mem_replicate hi
    exact ⟨rfl, rfl⟩

end Rf215Sdr.Fpga
