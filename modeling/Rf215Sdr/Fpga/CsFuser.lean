import Mathlib.Data.Nat.ModEq
import Rf215Sdr.Lib.Edges
import Rf215Sdr.Lib.Machine

/-!
# The Chip-Select Fuser

Model of `cs_fuser.sv`. The SPI master raises its chip select after every byte; the
transceiver wants one low plateau for a transfer of `NB_SEG` bytes. `cs_fuser_edges` pulls its
output low at the first falling edge and counts rising edges in `seg_cnt` until it lets go.

## Main results

- `csOutN_iff`: the output is high exactly between groups of `NB_SEG` pulses.
- `plateau_of_group`: a group of pulses lies under one plateau of its own.
- `fused`: both, and no high output while the master selects.
-/

namespace Rf215Sdr.Fpga

open Rf215Sdr.Lib

/-! ## Registers and the clock edge -/

/-- The registers of `cs_fuser_edges`. -/
structure CsFuser where
  csOutN : Bool
  csInD : Bool
  segCnt : BitVec 3
  deriving DecidableEq, Repr

namespace CsFuser

/-- The registers while `reset_n` is low. -/
def reset : CsFuser where
  csOutN := true
  csInD := true
  segCnt := 0

/-- One rising edge of `clk` with `reset_n` high. -/
def clock (nbSeg : ℕ) (s : CsFuser) (csInN : Bool) : CsFuser :=
  let t := { s with csInD := csInN }
  -- falling edge of the master: the sequence begins
  let t :=
    if s.csInD && !csInN && s.csOutN then { t with csOutN := false, segCnt := 0 } else t
  -- rising edge of the master: the end of a byte; `seg_cnt == NB_SEG-1` releases the output
  if !s.csInD && csInN && !s.csOutN then
    { t with
      segCnt := s.segCnt + 1
      csOutN := if s.segCnt.toNat + 1 = nbSeg then true else t.csOutN }
  else t

end CsFuser

/-- The fuser as a clocked machine. -/
def csFuser (nbSeg : ℕ) : Machine CsFuser Bool where
  reset := CsFuser.reset
  step := CsFuser.clock nbSeg

/-- `cs_out_n` after the edges that sample the first `n` levels of `cs_in_n`. -/
def csOutN (nbSeg : ℕ) (w : ℕ → Bool) (n : ℕ) : Bool :=
  ((csFuser nbSeg).stateAt w n).csOutN

/-! ## The law of the output -/

/-- What the registers say about the waveform sampled so far, after `r` rising edges. While the
output is high, `seg_cnt` is stale. -/
structure FuserOk (nbSeg : ℕ) (level : Bool) (r : ℕ) (s : CsFuser) : Prop where
  csInD_eq : s.csInD = level
  csOutN_iff : s.csOutN = true ↔ level = true ∧ nbSeg ∣ r
  segCnt_eq : s.csOutN = false → s.segCnt.toNat = r % nbSeg

/-- One more segment of a group that is not complete, counted modulo `nbSeg`. -/
theorem mod_succ_of_ne {m r : ℕ} (hpos : 0 < m) (h : r % m + 1 ≠ m) :
    (r + 1) % m = r % m + 1 := by
  have hlt := Nat.mod_lt r hpos
  rw [← Nat.mod_add_mod]
  exact Nat.mod_eq_of_lt (by omega)

/-- A group is complete after its last segment. -/
theorem dvd_succ_iff {m r : ℕ} (hpos : 0 < m) : m ∣ r + 1 ↔ r % m + 1 = m := by
  constructor
  · intro hdvd
    by_contra hne
    have hzero := Nat.mod_eq_zero_of_dvd hdvd
    rw [mod_succ_of_ne hpos hne] at hzero
    omega
  · intro heq
    apply Nat.dvd_of_mod_eq_zero
    rw [← Nat.mod_add_mod, heq, Nat.mod_self]

/-- **Every clock edge keeps the registers in step with the waveform.** -/
theorem FuserOk.clock {nbSeg : ℕ} (hpos : 0 < nbSeg) (hmax : nbSeg ≤ 8) {level : Bool} {r : ℕ}
    {s : CsFuser} (h : FuserOk nbSeg level r s) (csInN : Bool) :
    FuserOk nbSeg csInN (r + if !level && csInN then 1 else 0) (s.clock nbSeg csInN) := by
  obtain ⟨out, d, cnt⟩ := s
  obtain ⟨rfl, hout, hcnt⟩ := h
  have hlt := Nat.mod_lt r hpos
  dsimp only at hout hcnt ⊢
  cases d with
  | false =>
    -- the master selects, so the output is low and the counter is right
    obtain rfl : out = false := by
      cases out with
      | false => rfl
      | true => exact absurd (hout.mp rfl).1 Bool.false_ne_true
    have hseg := hcnt rfl
    cases csInN with
    | false => exact ⟨rfl, by simp [CsFuser.clock], fun _ => hseg⟩
    | true =>
      by_cases hlast : r % nbSeg + 1 = nbSeg
      · refine ⟨rfl, ?_, ?_⟩
        · simp [CsFuser.clock, hseg, hlast, (dvd_succ_iff hpos).mpr hlast]
        · simp [CsFuser.clock, hseg, hlast]
      · refine ⟨rfl, ?_, fun _ => ?_⟩
        · simp [CsFuser.clock, hseg, hlast, mt (dvd_succ_iff hpos).mp hlast]
        · -- three bits are enough for a count below `nbSeg`
          show (cnt + 1).toNat = (r + 1) % nbSeg
          rw [mod_succ_of_ne hpos hlast, BitVec.toNat_add, hseg]
          exact Nat.mod_eq_of_lt (by show r % nbSeg + 1 < 8; omega)
  | true =>
    cases out with
    | true =>
      have hdvd := (hout.mp rfl).2
      cases csInN with
      | true => exact ⟨rfl, by simp [CsFuser.clock, hdvd], by simp [CsFuser.clock]⟩
      | false =>
        -- a new group starts counting at zero
        refine ⟨rfl, by simp [CsFuser.clock], fun _ => ?_⟩
        exact (Nat.mod_eq_zero_of_dvd hdvd).symm
    | false =>
      have hopen : ¬ nbSeg ∣ r := fun hdvd => Bool.false_ne_true (hout.mpr ⟨rfl, hdvd⟩)
      cases csInN with
      | true => exact ⟨rfl, by simp [CsFuser.clock, hopen], fun _ => hcnt rfl⟩
      | false => exact ⟨rfl, by simp [CsFuser.clock], fun _ => hcnt rfl⟩

section Law

variable {nbSeg : ℕ} (hpos : 0 < nbSeg) (hmax : nbSeg ≤ 8) (w : ℕ → Bool)
include hpos hmax

theorem fuserOk_stateAt (n : ℕ) :
    FuserOk nbSeg (levelBefore w n) (rises w n) ((csFuser nbSeg).stateAt w n) := by
  induction n with
  | zero => exact ⟨rfl, by simp [Machine.stateAt, csFuser, CsFuser.reset, levelBefore, rises],
      fun h => absurd h.symm Bool.false_ne_true⟩
  | succ n ih => exact ih.clock hpos hmax (w n)

/-- **The law of the output**: it is high exactly when all pulses have ended and their number is
a multiple of `NB_SEG`. -/
theorem csOutN_iff (n : ℕ) :
    csOutN nbSeg w n = true ↔ falls w n = rises w n ∧ nbSeg ∣ rises w n := by
  rw [falls_eq_rises_iff]
  exact (fuserOk_stateAt hpos hmax w n).csOutN_iff

/-- The transceiver stays selected while the master selects. -/
theorem csOutN_low {n : ℕ} (h : w n = false) : csOutN nbSeg w (n + 1) = false := by
  rw [Bool.eq_false_iff, Ne, csOutN_iff hpos hmax, falls_eq_rises_iff]
  rintro ⟨hlevel, -⟩
  exact Bool.false_ne_true (h.symm.trans hlevel)

/-- **A complete group of `NB_SEG` pulses lies under one plateau of its own**: its low samples
are those under the plateau, and no other plateau meets them. -/
theorem plateau_of_group (g : ℕ) (hend : ∃ n, (g + 1) * nbSeg ≤ rises w n) :
    ∃ s e, Plateau (csOutN nbSeg w) s e ∧
      (∀ k n, InPulse w k n → (s < n ∧ n < e ↔ k / nbSeg = g)) ∧
      ∀ s' e', Plateau (csOutN nbSeg w) s' e' →
        (∃ k n, k / nbSeg = g ∧ InPulse w k n ∧ s' < n ∧ n < e') → s' = s ∧ e' = e := by
  have hlaw := csOutN_iff hpos hmax w
  have hfalls := falls_eq w
  -- from falling edge number `g * nbSeg` to rising edge number `(g + 1) * nbSeg`
  obtain ⟨s, e, hplateau, hmem⟩ : ∃ s e, Plateau (csOutN nbSeg w) s e ∧
      ∀ n, s < n ∧ n < e ↔ g * nbSeg + 1 ≤ falls w n ∧ rises w n < (g + 1) * nbSeg := by
    apply exists_plateau (falls_mono w) (rises_mono w) (Nat.succ_pos _) hend
    · intro n hn
      have := hfalls n
      rw [Nat.succ_mul] at hn
      omega
    · -- no multiple of `nbSeg` in between
      intro n hfall hrise
      rw [Bool.eq_false_iff, Ne, hlaw]
      rintro ⟨heq, q, hq⟩
      rw [heq] at hfall
      rw [hq, Nat.mul_comm nbSeg q] at hfall hrise
      have hlt := Nat.lt_of_mul_lt_mul_right hrise
      have hgt := Nat.lt_of_mul_lt_mul_right hfall
      omega
    · intro n hbefore hafter
      rw [falls_succ] at hafter
      -- this edge is the falling one
      split_ifs at hafter with hfall
      · obtain ⟨hlevel, hlow⟩ := Bool.and_eq_true_iff.mp hfall
        have heq := (falls_eq_rises_iff w n).mpr hlevel
        have hcount : rises w n = g * nbSeg := by omega
        refine ⟨(hlaw n).mpr ⟨heq, ?_⟩, ?_⟩
        · rw [hcount]
          exact Nat.dvd_mul_left _ _
        · rw [rises_succ, hlevel, hcount, Nat.succ_mul]
          simpa using hpos
      · omega
    · intro n hbefore hafter
      rw [rises_succ] at hafter
      split_ifs at hafter with hrise
      · obtain ⟨-, hhigh⟩ := Bool.and_eq_true_iff.mp hrise
        have hcount : rises w (n + 1) = (g + 1) * nbSeg := by
          rw [rises_succ, if_pos hrise]
          omega
        refine (hlaw (n + 1)).mpr ⟨(falls_eq_rises_iff w (n + 1)).mpr hhigh, ?_⟩
        rw [hcount]
        exact Nat.dvd_mul_left _ _
      · omega
  have hpulse : ∀ k n, InPulse w k n → (s < n ∧ n < e ↔ k / nbSeg = g) := by
    intro k n hk
    rw [hmem, hk.falls_eq, hk.2, Nat.div_eq_iff hpos, Nat.succ_mul]
    omega
  refine ⟨s, e, hplateau, hpulse, ?_⟩
  rintro s' e' hother ⟨k, n, hk, hin, hn⟩
  exact hother.unique hplateau hn ((hpulse k n hin).mpr hk)

end Law

/-- **Chip-select fusion**: for every `NB_SEG` the counter can hold and every waveform of the
master's chip select, the output is high exactly when all pulses have ended and their number is
a multiple of `NB_SEG`; so it is never high while the master was last sampled low, and each
complete group of `NB_SEG` pulses is covered by exactly one low plateau. -/
theorem fused (nbSeg : ℕ) (hpos : 1 ≤ nbSeg) (hmax : nbSeg ≤ 8) (w : ℕ → Bool) :
    (∀ n, csOutN nbSeg w n = true ↔ falls w n = rises w n ∧ nbSeg ∣ rises w n) ∧
      (∀ n, w n = false → csOutN nbSeg w (n + 1) = false) ∧
      ∀ g, (∃ n, (g + 1) * nbSeg ≤ rises w n) →
        ∃ s e, Plateau (csOutN nbSeg w) s e ∧
          (∀ k n, InPulse w k n → (s < n ∧ n < e ↔ k / nbSeg = g)) ∧
          ∀ s' e', Plateau (csOutN nbSeg w) s' e' →
            (∃ k n, k / nbSeg = g ∧ InPulse w k n ∧ s' < n ∧ n < e') → s' = s ∧ e' = e :=
  ⟨csOutN_iff hpos hmax w, fun _ => csOutN_low hpos hmax w, plateau_of_group hpos hmax w⟩

/-- Three bytes of one transfer: one-clock pulses with one-clock gaps. -/
def threeBytes (n : ℕ) : Bool :=
  !(n == 1 || n == 3 || n == 5)

theorem fused_threeBytes :
    ∃ s e, Plateau (csOutN 3 threeBytes) s e ∧
      ∀ k n, InPulse threeBytes k n → (s < n ∧ n < e ↔ k / 3 = 0) := by
  obtain ⟨-, -, hgroup⟩ := fused 3 (by decide) (by decide) threeBytes
  obtain ⟨s, e, hplateau, hcover, -⟩ := hgroup 0 ⟨7, by decide⟩
  exact ⟨s, e, hplateau, hcover⟩

end Rf215Sdr.Fpga
