import Rf215Sdr.Fpga.IqStreamSource

/-!
# Packet Markers of the Stream Source

`stream_tstart` and `stream_tlast` are registers of their own: they are set at the edge that
captures a word, while `stream_tvalid` follows `pending` one edge later. By the time a beat is
offered the markers are low again.

## Main results

- `markers_succ`: the markers show the capture at the edge before.
- `markers_low_of_valid`: no beat that is offered carries a marker.
- `marked_iff`: the markers accompany the data only where no word comes in at all.
-/

namespace Rf215Sdr.Fpga

open Rf215Sdr.Lib

/-- Both markers are high. -/
def IqStreamSource.Marks (s : IqStreamSource) : Prop :=
  s.streamTstart = true ∧ s.streamTlast = true

/-- Both markers are low. -/
def IqStreamSource.Unmarked (s : IqStreamSource) : Prop :=
  s.streamTstart = false ∧ s.streamTlast = false

instance (s : IqStreamSource) : Decidable s.Marks :=
  inferInstanceAs (Decidable (_ ∧ _))

instance (s : IqStreamSource) : Decidable s.Unmarked :=
  inferInstanceAs (Decidable (_ ∧ _))

/-- The markers at edge `n` accompany the data: a beat that is transferred is a packet of its
own, and without `stream_tvalid` both markers are low. -/
def Marked (tr : ℕ → SourceIn) (n : ℕ) : Prop :=
  (transfers tr n = true → (sourceAt tr n).Marks) ∧
    ((sourceAt tr n).streamTvalid = false → (sourceAt tr n).Unmarked)

instance (tr : ℕ → SourceIn) (n : ℕ) : Decidable (Marked tr n) :=
  inferInstanceAs (Decidable (_ ∧ _))

/-! ## Following the markers -/

/-- The markers show whether the edge before captured a word. -/
theorem markers_succ (tr : ℕ → SourceIn) (n : ℕ) :
    (sourceAt tr (n + 1)).streamTstart = captures tr n ∧
      (sourceAt tr (n + 1)).streamTlast = captures tr n := by
  rw [sourceAt_succ]
  unfold captures IqStreamSource.clock
  dsimp only
  cases (sourceAt tr n).pending <;> cases (tr n).wordValidIn <;>
    cases (tr n).streamTready <;> exact ⟨rfl, rfl⟩

/-- **No beat that is offered carries a marker.** -/
theorem markers_low_of_valid {tr : ℕ → SourceIn} {n : ℕ}
    (h : (sourceAt tr n).streamTvalid = true) : (sourceAt tr n).Unmarked := by
  cases n with
  | zero => exact ⟨rfl, rfl⟩
  | succ n =>
    -- a word was pending at the edge before, so that edge captured none
    rw [streamTvalid_succ] at h
    have hcap : captures tr n = false := by
      unfold captures
      rw [h]
      rfl
    obtain ⟨hstart, hlast⟩ := markers_succ tr n
    exact ⟨hstart.trans hcap, hlast.trans hcap⟩

/-- Without `word_valid_in` the source stays as it was after reset. -/
theorem quiet_of_no_word {tr : ℕ → SourceIn} {n : ℕ}
    (h : ∀ i < n, (tr i).wordValidIn = false) :
    (sourceAt tr n).pending = false ∧ (sourceAt tr n).streamTvalid = false ∧
      (sourceAt tr n).Unmarked := by
  induction n with
  | zero => exact ⟨rfl, rfl, rfl, rfl⟩
  | succ n ih =>
    obtain ⟨hpending, -, -⟩ := ih fun i hi => h i (Nat.lt_succ_of_lt hi)
    have hword := h n (Nat.lt_succ_self n)
    have hcap : captures tr n = false := by
      unfold captures
      rw [hword, Bool.and_false]
    obtain ⟨hstart, hlast⟩ := markers_succ tr n
    refine ⟨?_, ?_, hstart.trans hcap, hlast.trans hcap⟩
    · rw [pending_succ, hpending]
      exact hword
    · rw [streamTvalid_succ, hpending]

/-- The first word breaks the markers: they are high one edge before `stream_tvalid`. -/
theorem not_marked_of_first_word {tr : ℕ → SourceIn} {n : ℕ}
    (hfirst : ∀ i < n, (tr i).wordValidIn = false) (hword : (tr n).wordValidIn = true) :
    ¬ Marked tr (n + 1) := by
  obtain ⟨hpending, -, -⟩ := quiet_of_no_word hfirst
  have hcap : captures tr n = true := by
    unfold captures
    rw [hpending, hword]
    rfl
  rintro ⟨-, hidle⟩
  have hlow := (hidle ((streamTvalid_succ tr n).trans hpending)).1
  rw [(markers_succ tr n).1, hcap] at hlow
  cases hlow

/-- **When the markers accompany the data**: at the first `n` edges of a trace they do exactly
if no word comes in before the last of these edges. -/
theorem marked_iff (tr : ℕ → SourceIn) (n : ℕ) :
    (∀ k < n, Marked tr k) ↔ ∀ k, k + 1 < n → (tr k).wordValidIn = false := by
  constructor
  · intro hmarked k hk
    -- all words up to here, from the first one on
    induction k using Nat.strongRecOn with
    | _ k ih =>
      cases hword : (tr k).wordValidIn with
      | false => rfl
      | true =>
        have hfirst : ∀ i < k, (tr i).wordValidIn = false :=
          fun i hi => ih i hi (Nat.lt_trans (Nat.succ_lt_succ hi) hk)
        exact absurd (hmarked (k + 1) hk) (not_marked_of_first_word hfirst hword)
  · intro hquiet k hk
    have hbefore : ∀ i < k, (tr i).wordValidIn = false :=
      fun i hi => hquiet i (Nat.lt_of_le_of_lt hi hk)
    obtain ⟨-, hvalid, hlow⟩ := quiet_of_no_word hbefore
    refine ⟨?_, fun _ => hlow⟩
    intro htransfer
    unfold transfers at htransfer
    rw [hvalid] at htransfer
    cases htransfer

/-- One word at edge 0, and a sink that is always ready. -/
def singleWordTrace (n : ℕ) : SourceIn where
  iqWordIn := 0x80004000
  wordValidIn := n == 0
  streamTready := true

/-- The markers are high at edge 1 without a beat, and the beat is transferred at edge 2 without
the markers. -/
theorem singleWordTrace_unmarked :
    ¬ Marked singleWordTrace 1 ∧ ¬ Marked singleWordTrace 2 := by
  constructor
  · rintro ⟨-, hidle⟩
    exact absurd (hidle (by decide)) (by decide)
  · rintro ⟨hbeat, -⟩
    exact absurd (hbeat (by decide)) (by decide)

end Rf215Sdr.Fpga
