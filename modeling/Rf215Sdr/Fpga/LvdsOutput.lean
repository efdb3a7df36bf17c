import Rf215Sdr.Fpga.LvdsRx

/-!
# The Outputs of the Receiver

What the stream source behind `rf215_lvds_rx` may rely on, for any stream of bit pairs:
`iq_word`, `word_valid` and `sync_ok` against the registers, and the time between two words.

## Main results

- `Edge.outputOk`: one edge keeps the outputs in order.
- `iqWord_run`: `iq_word` shows the last useful word.
- `wordValid_spaced`: two words are at least 16 clocks apart.
- `output_invariant`: all of it along a stream from reset.
-/

namespace Rf215Sdr.Fpga

open Rf215Sdr.Lib

namespace LvdsRx

/-! ## One edge -/

/-- The outputs fit the other registers. -/
structure OutputOk (s : LvdsRx) : Prop where
  valid : s.wordValid = true →
    s.state = .SYNCED ∧ s.bitCnt = 0 ∧ s.syncOk = true ∧ wellFormed s.iqWord = true
  synced : s.syncOk = true → s.state = .SYNCED
  count : s.CountOk

theorem outputOk_reset : reset.OutputOk where
  valid h := nomatch h
  synced h := nomatch h
  count := countOk_reset

variable {s t : LvdsRx} {next : BitVec 32}

/-- `word_valid` is raised with a useful word only, whatever the state before. -/
theorem Edge.valid (e : s.Edge next t) (h : t.wordValid = true) :
    t.state = .SYNCED ∧ t.bitCnt = 0 ∧ t.syncOk = true ∧ wellFormed t.iqWord = true := by
  cases e with
  | word hst hc hz hw => exact ⟨hst, rfl, rfl, hw⟩
  | head hst hi => cases h
  | hunt hst hi => cases h
  | count hst hc => cases h
  | zero hst hc hz => cases h
  | framing hst hc hz hw => cases h

/-- `sync_ok` goes down with the lock. -/
theorem Edge.synced (e : s.Edge next t) (hs : s.syncOk = true → s.state = .SYNCED)
    (h : t.syncOk = true) : t.state = .SYNCED := by
  cases e with
  | head hst hi => cases h
  | hunt hst hi => exact hs h
  | count hst hc => exact hst
  | zero hst hc hz => cases h
  | word hst hc hz hw => exact hst
  | framing hst hc hz hw => cases h

theorem Edge.outputOk (e : s.Edge next t) (h : s.OutputOk) : t.OutputOk where
  valid := e.valid
  synced := e.synced h.synced
  count := e.countOk h.count

/-- `iq_word` is loaded together with `word_valid` and holds its word at every other edge. -/
theorem Edge.iqWord_eq (e : s.Edge next t) :
    t.iqWord = if t.wordValid then next else s.iqWord := by
  cases e <;> rfl

end LvdsRx

/-- `word_valid` is only raised together with `sync_ok`. -/
theorem syncOk_of_wordValid {s : LvdsRx} {p : BitVec 2} (h : (s.clock p).wordValid = true) :
    (s.clock p).syncOk = true :=
  ((s.edge p).valid h).2.2.1

/-- After an edge `iq_word` shows the word that came with it, or the old one. -/
theorem iqWord_clock (s : LvdsRx) (p : BitVec 2) :
    (s.clock p).iqWord = (validWord s p).getD s.iqWord := by
  have hword := (s.edge p).iqWord_eq
  unfold validWord
  cases hv : (s.clock p).wordValid with
  | false => simpa [hv] using hword
  | true => simp

/-- **`iq_word` shows the last useful word** of any run. -/
theorem iqWord_run (s : LvdsRx) (ps : List (BitVec 2)) :
    (lvdsRx.run s ps).iqWord = (lvdsRx.events validWord s ps).getLastD s.iqWord := by
  induction ps generalizing s with
  | nil => rfl
  | cons p ps ih =>
    have hclock := iqWord_clock s p
    have hrest : (lvdsRx.run (s.clock p) ps).iqWord =
        (lvdsRx.events validWord (s.clock p) ps).getLastD (s.clock p).iqWord := ih (s.clock p)
    have hevents : lvdsRx.events validWord s (p :: ps) =
        (validWord s p).toList ++ lvdsRx.events validWord (s.clock p) ps :=
      Machine.events_cons s p ps
    have hrun : lvdsRx.run s (p :: ps) = lvdsRx.run (s.clock p) ps := rfl
    rw [hrun, hrest, hevents, hclock]
    cases validWord s p with
    | none => rfl
    | some word => rw [Option.toList_some, List.singleton_append, List.getLastD_cons]; rfl

/-! ## Spacing of the pulses -/

/-- The receiver along a stream, read as a synchroniser. -/
theorem stateAt_toSync (ps : ℕ → BitVec 2) (n : ℕ) :
    (lvdsRx.stateAt ps n).CountOk ∧
      (lvdsRx.stateAt ps n).toSync = iqFormat.sync.stateAt ps n := by
  induction n with
  | zero => exact ⟨LvdsRx.countOk_reset, LvdsRx.toSync_reset⟩
  | succ n ih =>
    -- the refinement of one edge, along the stream
    obtain ⟨hok, hsync⟩ := ih
    refine ⟨hok.clock (ps n), ?_⟩
    rw [Machine.stateAt_succ, Machine.stateAt_succ, ← hsync]
    exact LvdsRx.toSync_clock hok (ps n)

/-- Two clocks with `word_valid = 1` are at least 16 apart, on any bit stream. -/
theorem wordValid_spaced {ps : ℕ → BitVec 2} {i j : ℕ}
    (hi : (lvdsRx.stateAt ps i).wordValid = true)
    (hj : (lvdsRx.stateAt ps j).wordValid = true) (hij : i < j) : i + 16 ≤ j := by
  apply FrameFormat.emissions_spaced (F := iqFormat) (w := ps) _ _ hij
  · rw [← (stateAt_toSync ps i).2]
    simp [LvdsRx.toSync, hi]
  · rw [← (stateAt_toSync ps j).2]
    simp [LvdsRx.toSync, hj]

/-! ## Along a stream -/

theorem outputOk_stateAt (ps : ℕ → BitVec 2) (n : ℕ) : (lvdsRx.stateAt ps n).OutputOk := by
  induction n with
  | zero => exact LvdsRx.outputOk_reset
  | succ n ih => exact (LvdsRx.edge _ (ps n)).outputOk ih

/-- An edge at which `iq_word` changes raises `word_valid`. -/
theorem wordValid_of_iqWord_ne {ps : ℕ → BitVec 2} {n : ℕ}
    (h : (lvdsRx.stateAt ps (n + 1)).iqWord ≠ (lvdsRx.stateAt ps n).iqWord) :
    (lvdsRx.stateAt ps n).wordValid = false ∧ (lvdsRx.stateAt ps (n + 1)).wordValid = true := by
  have hword : (lvdsRx.stateAt ps (n + 1)).iqWord = _ := (LvdsRx.edge _ (ps n)).iqWord_eq
  have hafter : (lvdsRx.stateAt ps (n + 1)).wordValid = true := by
    by_contra hlow
    exact h (hword.trans (if_neg hlow))
  refine ⟨?_, hafter⟩
  -- it was low before: the pulse before is far away
  by_contra hbefore
  have hfar := wordValid_spaced (by simpa using hbefore) hafter (Nat.lt_succ_self n)
  omega

/-- **Receiver outputs**: along any stream of bit pairs from reset, the outputs fit the registers
at every clock, `iq_word` changes only at an edge that raises `word_valid`, and two clocks with
`word_valid = 1` are at least 16 apart. -/
theorem output_invariant (ps : ℕ → BitVec 2) :
    (∀ n, (lvdsRx.stateAt ps n).OutputOk) ∧
      (∀ n, (lvdsRx.stateAt ps (n + 1)).iqWord ≠ (lvdsRx.stateAt ps n).iqWord →
        (lvdsRx.stateAt ps n).wordValid = false ∧
          (lvdsRx.stateAt ps (n + 1)).wordValid = true) ∧
      ∀ i j, (lvdsRx.stateAt ps i).wordValid = true → (lvdsRx.stateAt ps j).wordValid = true →
        i < j → i + 16 ≤ j := by
  refine ⟨outputOk_stateAt ps, ?_, ?_⟩
  · intro n hne
    exact wordValid_of_iqWord_ne hne
  · intro i j hi hj hij
    exact wordValid_spaced hi hj hij

end Rf215Sdr.Fpga
