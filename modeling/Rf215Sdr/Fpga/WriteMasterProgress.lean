import Rf215Sdr.Fpga.WriteMasterCopies

/-!
# How Far the Write Master Is

The byte enable generator cuts a beat into several writes, and it writes the lowest lanes first.
So what is stored of a command is always a number of its first bytes, and this number never
decreases.

## Main results

- `Stored.clock`: an edge of a transfer stores the next bytes of the stream, or none.
-/

namespace Rf215Sdr.Fpga

open Rf215Sdr.Lib

/-! ## The lowest lanes -/

/-- The lowest `r` lanes of a word. -/
def lowLanes (r : ℕ) : BitVec 8 :=
  byteenableMask (BitVec.ofNat 5 r)

theorem toNat_ofNat_lanes {r : ℕ} (hr : r ≤ 8) : (BitVec.ofNat 5 r).toNat = r := by
  rw [BitVec.toNat_ofNat]
  omega

theorem getLsbD_lowLanes {r : ℕ} (hr : r ≤ 8) (k : ℕ) :
    (lowLanes r).getLsbD k = decide (k < r) := by
  have htoNat := toNat_ofNat_lanes hr
  rw [lowLanes, getLsbD_byteenableMask (by rwa [htoNat]), htoNat]

/-- More lanes are more bytes. -/
theorem le_of_lowLanes {r r' : ℕ} (hr : r ≤ 8) (hr' : r' ≤ 8)
    (h : ∀ k, (lowLanes r).getLsbD k = true → (lowLanes r').getLsbD k = true) : r ≤ r' := by
  by_contra hlt
  have hset := h r' (by rw [getLsbD_lowLanes hr, decide_eq_true (Nat.lt_of_not_le hlt)])
  rw [getLsbD_lowLanes hr', decide_eq_true_eq] at hset
  exact Nat.lt_irrefl r' hset

/-- The lowest lanes of lowest lanes. -/
theorem LowestOf.exists_lowLanes {t : ℕ} (ht : t ≤ 8) {be done : BitVec 8}
    (hbe : ∀ k, be.getLsbD k = decide (k < t)) (h : LowestOf be done) :
    ∃ r ≤ t, done = lowLanes r := by
  have hfree : ∃ j, done.getLsbD j = false := ⟨8, BitVec.getLsbD_of_ge done 8 (Nat.le_refl 8)⟩
  have hwithin : ∀ k, done.getLsbD k = true → k < t := by
    intro k hk
    have hbit := h.within k hk
    rwa [hbe, decide_eq_true_eq] at hbit
  -- the first lane that is not done yet
  have hle : Nat.find hfree ≤ t := by
    apply Nat.find_min' hfree
    rw [Bool.eq_false_iff]
    exact fun htrue => Nat.lt_irrefl t (hwithin t htrue)
  refine ⟨Nat.find hfree, hle, BitVec.eq_of_getLsbD_eq fun k _ => ?_⟩
  rw [getLsbD_lowLanes (Nat.le_trans hle ht)]
  by_cases hk : k < Nat.find hfree
  · rw [decide_eq_true hk]
    exact Bool.of_not_eq_false (Nat.find_min hfree hk)
  · rw [decide_eq_false hk, Bool.eq_false_iff]
    intro hset
    have hfirst : be.getLsbD (Nat.find hfree) = true := by
      rw [hbe, decide_eq_true_eq]
      exact Nat.lt_of_le_of_lt (Nat.le_of_not_lt hk) (hwithin k hset)
    have hdone := h.below _ k (Nat.le_of_not_lt hk) hset hfirst
    rw [Nat.find_spec hfree] at hdone
    cases hdone

namespace WriteMaster

variable {s : WriteMaster} {i : MasterIn} {stream : ℕ → StBeat64} {ddr₀ ddr : ℕ → Byte}
  {cs : List MasterCommand} {c : MasterCommand} {m : ℕ}

/-- The lanes stored of the beat being written are the lowest ones. -/
theorem Copying.exists_lowLanes {w : ℕ} {lanes : BitVec 8} (h : s.Copying c w lanes)
    (hcalm : s.Calm) : ∃ r ≤ 8, lanes = lowLanes r := by
  have hbytes := hcalm.toNat_bytesToTransfer
  have hle : s.bytesToTransfer.toNat ≤ 8 := by omega
  obtain ⟨r, hr, hlanes⟩ :=
    h.byteEnables_at.lowestOf.exists_lowLanes hle (getLsbD_byteenableMask hle)
  exact ⟨r, Nat.le_trans hr hle, hlanes⟩

/-- They are within the length. -/
theorem Copying.le_bytes {w r : ℕ} (h : s.Copying c w (lowLanes r)) (hcalm : s.Calm)
    (hr : r ≤ 8) : 8 * w + r ≤ c.bytes := by
  cases r with
  | zero => exact Nat.le_of_lt h.left
  | succ r =>
    have hlane : (lowLanes (r + 1)).getLsbD r = true := by
      rw [getLsbD_lowLanes hr, decide_eq_true (Nat.lt_succ_self r)]
    exact (h.lane_lt hcalm hlane).2

/-- No lane is taken back. -/
theorem getLsbD_lanesAfter {lanes : BitVec 8} {k : ℕ} (hk : lanes.getLsbD k = true) :
    (s.lanesAfter i lanes).getLsbD k = true := by
  unfold lanesAfter
  split_ifs
  · rw [BitVec.getLsbD_or, hk, Bool.or_true]
  · exact hk

/-! ## The bytes stored -/

/-- The commands `cs` are carried out, and of the next one, `c`, the first `m` bytes are
stored. -/
inductive Stored (stream : ℕ → StBeat64) (ddr₀ : ℕ → Byte) (cs : List MasterCommand)
    (c : MasterCommand) (s : WriteMaster) : ℕ → (ℕ → Byte) → Prop
  | copying {w r : ℕ} (hr : r ≤ 8) (hs : s.Copying c w (lowLanes r)) :
    Stored stream ddr₀ cs c s (8 * w + r) (storeLanes (copiedUpTo stream ddr₀ cs c w)
      (c.base + 8 * w) (lowLanes r) (stream (beatsOf cs + w)).bytes)
  | drained (hs : s.Drained) :
    Stored stream ddr₀ cs c s c.bytes (copied (byteStream stream) (cs ++ [c]) 0 ddr₀)

theorem Stored.le_bytes (h : Stored stream ddr₀ cs c s m ddr) (hcalm : s.Calm) :
    m ≤ c.bytes := by
  cases h with
  | copying hr hs => exact hs.le_bytes hcalm hr
  | drained hs => exact Nat.le_refl _

/-- The memory they leave. -/
theorem Stored.ddr_eq (h : Stored stream ddr₀ cs c s m ddr) :
    ddr = store (copied (byteStream stream) cs 0 ddr₀) c.base
      (load (byteStream stream) (8 * beatsOf cs) m) := by
  cases h with
  | @copying w r hr hs =>
    have htoNat := toNat_ofNat_lanes hr
    have hlen : (load (byteStream stream) (8 * beatsOf cs) (8 * w)).length = 8 * w :=
      length_load _ _ _
    rw [lowLanes, storeLanes_mask _ _ (by rwa [htoNat]), htoNat, load_add, store_append, hlen,
      ← Nat.mul_add, load_byteStream stream _ hr]
    rfl
  | drained hs => rw [copied_concat, Nat.zero_add]

/-- More bytes are the next bytes of the stream, stored behind those before. -/
theorem Stored.extend {t : WriteMaster} {m' : ℕ} {ddr' : ℕ → Byte}
    (h : Stored stream ddr₀ cs c s m ddr) (h' : Stored stream ddr₀ cs c t m' ddr')
    (hle : m ≤ m') :
    ddr' = store ddr (c.base + m) (load (byteStream stream) (8 * beatsOf cs + m) (m' - m)) := by
  obtain ⟨k, rfl⟩ := Nat.exists_eq_add_of_le hle
  rw [h.ddr_eq, h'.ddr_eq, load_add, store_append, length_load, Nat.add_sub_cancel_left]

/-- A command is taken over: nothing of it is stored yet. -/
theorem Stored.go (hs : s.Drained) (hc : s.Calm) (hi : s.Directed i) (hgo : s.go i = true)
    (hresp : s.responseValid = false) (hdone : s.doneD1 = true) :
    Stored stream ddr₀ cs i.command (s.clock i) 0 (copied (byteStream stream) cs 0 ddr₀) := by
  obtain ⟨hhangs, hstarts⟩ := hs.clock_go hc hi hgo hresp hdone
  by_cases hzero : i.command.bytes = 0
  · have h : Stored stream ddr₀ cs i.command (s.clock i) i.command.bytes
        (copied (byteStream stream) (cs ++ [i.command]) 0 ddr₀) := .drained (hhangs hzero)
    rw [copied_concat, hzero] at h
    simpa [load] using h
  · have h : Stored stream ddr₀ cs i.command (s.clock i) (8 * 0 + 0)
        (storeLanes (copiedUpTo stream ddr₀ cs i.command 0) (i.command.base + 8 * 0) 0#8
          (stream (beatsOf cs + 0)).bytes) :=
      .copying (Nat.zero_le 8) (hstarts (Nat.pos_of_ne_zero hzero))
    simpa [storeLanes_zero, copiedUpTo, load] using h

/-- **An edge of a transfer** stores the next bytes of the stream, or none. -/
theorem Stored.clock (h : Stored stream ddr₀ cs c s m ddr) (hcalm : s.Calm)
    (hi : s.Directed i) (hready : s.commandReady = false)
    (hword : ∀ w lanes, s.Copying c w lanes → s.fifoEmpty i = false →
      s.buffered = (stream (beatsOf cs + w)).fifoWord) :
    ∃ m', m ≤ m' ∧ Stored stream ddr₀ cs c (s.clock i) m' (s.ddrAfter i ddr) := by
  cases h with
  | @copying w r hr hs =>
    rw [hs.ddrAfter_eq (hword w _ hs)]
    cases hcomplete : s.writeComplete i with
    | false =>
      -- some more lanes of the beat
      have hnext := hs.of_not_complete hcalm hi hcomplete
      obtain ⟨r', hr', hlanes⟩ := hnext.exists_lowLanes (hcalm.clock hi)
      have hle : r ≤ r' := by
        apply le_of_lowLanes hr hr'
        intro k hk
        rw [← hlanes]
        exact getLsbD_lanesAfter hk
      rw [hlanes] at hnext ⊢
      exact ⟨8 * w + r', Nat.add_le_add_left hle _, .copying hr' hnext⟩
    | true =>
      by_cases hlast : c.bytes ≤ 8 * (w + 1)
      · -- the last beat
        rw [hs.store_last hcalm hcomplete hlast]
        exact ⟨c.bytes, hs.le_bytes hcalm hr, .drained (hs.of_last hcalm hcomplete hlast)⟩
      · -- the next beat, with no lane stored yet
        have hmore := Nat.lt_of_not_le hlast
        have hnext : Stored stream ddr₀ cs c (s.clock i) (8 * (w + 1) + 0)
            (storeLanes (copiedUpTo stream ddr₀ cs c (w + 1)) (c.base + 8 * (w + 1)) 0#8
              (stream (beatsOf cs + (w + 1))).bytes) :=
          .copying (Nat.zero_le 8) (hs.of_complete hcalm hi hcomplete hmore)
        rw [storeLanes_zero] at hnext
        rw [hs.store_next hcalm hcomplete hmore]
        exact ⟨8 * (w + 1) + 0, Nat.add_le_add_left hr (8 * w), hnext⟩
  | drained hs =>
    have hgo : s.go i = false := by simp [WriteMaster.go, hready]
    rw [(hs.clock (i := i) _).2.1]
    exact ⟨c.bytes, Nat.le_refl _, .drained (hs.of_not_go hgo)⟩

/-- Where the master responds, all bytes of the command are stored, and there are some. -/
theorem Stored.of_responseValid {cs' : List MasterCommand} {n p : ℕ}
    (h : Stored stream ddr₀ cs c s m ddr) (hphase : Phase stream ddr₀ cs' n p s ddr)
    (hcs : cs' = cs ++ [c]) (hvalid : s.responseValid = true) : m = c.bytes ∧ 0 < c.bytes := by
  have hmem : c ∈ cs' := by
    rw [hcs]
    exact List.mem_append_right _ (List.mem_singleton_self c)
  refine ⟨?_, ?_⟩
  · cases h with
    | copying hr hs =>
      rw [hs.responseValid_eq] at hvalid
      cases hvalid
    | drained hs => rfl
  · cases hphase with
    | responding hpos hready hresp hdone hs => exact hpos c hmem
    | copying hpos hs =>
      rw [hs.responseValid_eq] at hvalid
      cases hvalid
    | ready hpos hready hresp hdone hs | finishing hpos hready hresp hdone hs
    | hanging hpos hc hready hresp hdone hs =>
      rw [hresp] at hvalid
      cases hvalid

/-! ## The word shown -/

/-- The beat being written is the one the account says. -/
theorem Phase.eq_of_copying {cs' : List MasterCommand} {n p w : ℕ} {lanes : BitVec 8}
    (h : Phase stream ddr₀ cs' n p s ddr) (hs : s.Copying c w lanes) (hcs : cs' = cs ++ [c]) :
    p = beatsOf cs + w := by
  have hleft := hs.left
  have hlen := hs.toNat_lengthCounter
  have hbusy : ¬ s.Drained := by
    intro hd
    rw [hd.lengthCounter_eq] at hlen
    exact Nat.ne_of_lt (Nat.sub_pos_of_lt hleft) hlen
  cases h with
  | ready _ hready =>
    rw [hs.commandReady_eq] at hready
    cases hready
  | @copying cs' c' w' _ _ _ hs' =>
    obtain ⟨rfl, hc⟩ := List.append_inj' hcs rfl
    obtain rfl := List.head_eq_of_cons_eq hc
    -- what is left tells the beat
    have hleft' := hs'.left
    rw [hs'.toNat_lengthCounter] at hlen
    omega
  | finishing _ _ _ _ hd | responding _ _ _ _ hd | hanging _ _ _ _ _ hd => exact absurd hd hbusy

/-- The FIFO shows the beat being written. -/
theorem History.buffered_eq {n taken w : ℕ} {lanes : BitVec 8}
    (h : History stream ddr₀ (cs ++ [c]) n taken s ddr) (hs : s.Copying c w lanes)
    (hempty : s.fifoEmpty i = false) : s.buffered = (stream (beatsOf cs + w)).fifoWord := by
  obtain ⟨p, hp, hphase, hfifo⟩ := h.phase
  rw [buffered_of_fifo hp hfifo hempty, hphase.eq_of_copying hs rfl]

theorem length_starts : (s.starts i).toList.length = (s.go i).toNat := by
  unfold starts
  cases s.go i <;> rfl

end WriteMaster

end Rf215Sdr.Fpga
