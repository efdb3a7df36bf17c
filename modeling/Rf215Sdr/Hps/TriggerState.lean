import Mathlib.Data.List.DropRight
import Rf215Sdr.Hps.DebugTxt

/-!
# The Trigger State of the Debug Log

The static variables of `debug_txt.c` in trigger mode at any place of any run: after some chunks
and in the middle of the next one, however many windows were opened and closed before.

## Main results

- `Processed.logSample`: one sample keeps the state in step with the samples processed.
- `Processed.triggerOk`: what that says about the counters.
- `trigger_state`: the counters and the dump loop at any place of any run since `debug_txt_init`.
-/

namespace Rf215Sdr.Hps

open Rf215Sdr.Lib

open DebugTxt

/-! ## Runs -/

/-- The state when the samples of a history have been processed: at most `DEBUG_POST_SAMPLES` more
are behind a trigger. -/
def Processed (d : DebugTxt) (history : List IqPair) : Prop :=
  ∃ quiet ≤ debugPostSamples, Tracks d history quiet

theorem processed_init (d : DebugTxt) : Processed (d.init true) [] :=
  ⟨0, Nat.zero_le _, tracks_init d⟩

/-- **One sample.** -/
theorem Processed.logSample {d : DebugTxt} {history : List IqPair} (h : Processed d history)
    (s : IqPair) : Processed (d.logSample s) (history ++ [s]) := by
  obtain ⟨quiet, hquiet, htracks⟩ := h
  cases quiet with
  | succ quiet => exact ⟨quiet, Nat.le_of_succ_le hquiet, (htracks.logSample_quiet s).1⟩
  | zero =>
    cases hs : s.above with
    | true => exact ⟨debugPostSamples, Nat.le_refl _, (htracks.logSample_above hs).1⟩
    | false => exact ⟨0, Nat.zero_le _, (htracks.logSample_below hs).1⟩

theorem Processed.foldl {d : DebugTxt} {history : List IqPair} (h : Processed d history)
    (ss : List IqPair) : Processed (ss.foldl DebugTxt.logSample d) (history ++ ss) := by
  induction ss generalizing d history with
  | nil => simpa using h
  | cons s ss ih =>
    have hrest := ih (h.logSample s)
    rwa [List.append_assoc, List.singleton_append] at hrest

/-- Some chunks, and `k` samples of one more. -/
theorem processed_chunks (d : DebugTxt) (chunks : List (List Byte)) (chunk : List Byte) (k : ℕ) :
    Processed
      (((samples chunk).take k).foldl DebugTxt.logSample (chunks.foldl logIqData (d.init true)))
      (chunks.flatMap samples ++ (samples chunk).take k) := by
  have hopen : (d.init true).debugFile.isSome = true := rfl
  rw [foldl_logIqData_flatMap hopen chunks, ← List.foldl_append]
  exact (processed_init d).foldl _

/-! ## The counters -/

/-- The index, the flag and the two trigger variables after `n` samples. -/
structure TriggerOk (d : DebugTxt) (n : ℕ) : Prop where
  preBufIdx_eq : (d.preBufIdx : ℕ) = n % debugPreSamples
  preBufFull_iff : d.preBufFull = true ↔ debugPreSamples ≤ n
  triggered_iff : d.triggered = true ↔
    1 ≤ d.postRemaining.toNat ∧ d.postRemaining.toNat ≤ debugPostSamples
  postRemaining_idle : d.triggered = false → d.postRemaining = 0
  /-- `--post_remaining` does not wrap -/
  postRemaining_pred : d.triggered = true →
    (d.postRemaining - 1).toNat + 1 = d.postRemaining.toNat

theorem Processed.triggerOk {d : DebugTxt} {history : List IqPair} (h : Processed d history) :
    TriggerOk d history.length := by
  obtain ⟨quiet, hquiet, htracks⟩ := h
  have hremaining : d.postRemaining.toNat = quiet := htracks.remaining
  have htriggered : d.triggered = true ↔ 0 < quiet := htracks.triggered_iff
  refine ⟨htracks.holds.idx_eq, htracks.holds.full_iff, ?_, ?_, ?_⟩
  · rw [htriggered, hremaining]
    exact ⟨fun hpos => ⟨hpos, hquiet⟩, fun hbounds => hbounds.1⟩
  · intro hidle
    apply BitVec.eq_of_toNat_eq
    rw [hremaining]
    simpa [hidle] using htriggered
  · intro hbusy
    obtain ⟨rest, rfl⟩ := Nat.exists_eq_succ_of_ne_zero (htriggered.mp hbusy).ne'
    rw [htracks.postRemaining_pred, hremaining]

/-! ## The dump loop -/

/-- What the dump loop reads behind a history: its last samples. -/
theorem Processed.dump_store {d : DebugTxt} {history : List IqPair} (h : Processed d history)
    (s : IqPair) :
    (d.store s).dump =
      (history ++ [s]).rtake (min (history ++ [s]).length debugPreSamples) := by
  obtain ⟨quiet, -, htracks⟩ := h
  have hstart : (history ++ [s]).length - min (history ++ [s]).length debugPreSamples =
      history.length + 1 - debugPreSamples := by
    simp
    omega
  rw [htracks.dump_store s, List.rtake, hstart]

/-- The sample just stored is read last. -/
theorem Processed.getLast?_dump {d : DebugTxt} {history : List IqPair} (h : Processed d history)
    (s : IqPair) : (d.store s).dump.getLast? = some s := by
  obtain ⟨quiet, -, htracks⟩ := h
  have hle : history.length + 1 - debugPreSamples ≤ history.length := by
    unfold debugPreSamples
    omega
  rw [htracks.dump_store s, List.drop_append_of_le_length hle, List.getLast?_concat]

/-- At a trigger that is written, and the sample again. -/
theorem Processed.debugFile_trigger {d : DebugTxt} {history : List IqPair}
    (h : Processed d history) (hidle : d.triggered = false) {s : IqPair} (hs : s.above = true) :
    (d.logSample s).debugFile =
      d.debugFile.map (· ++ ((d.store s).dump ++ [s]).map IqPair.line) := by
  obtain ⟨quiet, -, htracks⟩ := h
  obtain rfl : quiet = 0 := by simpa [hidle] using htracks.triggered_iff
  rw [htracks.dump_store s]
  exact (htracks.logSample_above hs).2

/-- **The trigger state of any run**: after `debug_txt_init`, any chunks and any `k` samples of one
more chunk, the variables are what the number of samples says; and if a sample `s` comes next, the
dump loop reads the last `min n 1000` of the `n` samples, `s` last. At a trigger that is what is
written. -/
theorem trigger_state (d : DebugTxt) (chunks : List (List Byte)) (chunk : List Byte) (k : ℕ) :
    let history := chunks.flatMap samples ++ (samples chunk).take k
    let now := ((samples chunk).take k).foldl DebugTxt.logSample
      (chunks.foldl logIqData (d.init true))
    TriggerOk now history.length ∧
      ∀ s : IqPair,
        (now.store s).dump =
            (history ++ [s]).rtake (min (history ++ [s]).length debugPreSamples) ∧
          (now.store s).dump.length = min (history ++ [s]).length debugPreSamples ∧
          (now.store s).dump.getLast? = some s ∧
          (now.triggered = false → s.above = true →
            (now.logSample s).debugFile =
              now.debugFile.map (· ++ ((now.store s).dump ++ [s]).map IqPair.line)) := by
  intro history now
  have hnow : Processed now history := processed_chunks d chunks chunk k
  refine ⟨hnow.triggerOk, fun s => ⟨hnow.dump_store s, ?_, hnow.getLast?_dump s, ?_⟩⟩
  · rw [hnow.dump_store s, List.rtake, List.length_drop]
    omega
  · intro hidle hs
    exact hnow.debugFile_trigger hidle hs

/-- Two samples below the threshold, then I = 101 and Q = 1. -/
theorem trigger_state_third :
    (([[1, 0, 2, 0], [0x9D, 0x3F, 100, 0]].foldl logIqData (static.init true)).logSample
      ⟨101, 1⟩).debugFile =
        some (fileHeader ++
          ["2 1".toList, "100 -99".toList, "101 1".toList, "101 1".toList]) := by
  obtain ⟨-, hnext⟩ := trigger_state static [[1, 0, 2, 0], [0x9D, 0x3F, 100, 0]] [] 0
  obtain ⟨hread, -, -, hfile⟩ := hnext ⟨101, 1⟩
  have hwritten := hfile (by decide) (by decide)
  rw [hread] at hwritten
  refine hwritten.trans ?_
  decide +kernel

end Rf215Sdr.Hps
