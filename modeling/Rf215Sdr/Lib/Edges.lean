import Mathlib.Data.Nat.Find
import Mathlib.Order.Monotone.Basic
import Mathlib.Tactic.Common

/-!
# Edges, Pulses and Plateaus

A digital signal sampled by a clock, as a function of the sample number. The level before the
first sample is high. Falling and rising edges are counted, low pulses are numbered by them,
and a *plateau* is a maximal run of low samples.

## Main results

- `falls_eq`: edges alternate, starting with a falling one.
- `Plateau.unique`: plateaus that meet are equal.
- `exists_plateau`: where two counters delimit the low samples, there is a plateau.
-/

namespace Rf215Sdr.Lib

/-! ## Counting edges -/

/-- The level before sample `n`. -/
def levelBefore (w : ℕ → Bool) : ℕ → Bool
  | 0 => true
  | n + 1 => w n

/-- The falling edges among the first `n` samples. -/
def falls (w : ℕ → Bool) : ℕ → ℕ
  | 0 => 0
  | n + 1 => falls w n + if levelBefore w n && !w n then 1 else 0

/-- The rising edges among the first `n` samples. -/
def rises (w : ℕ → Bool) : ℕ → ℕ
  | 0 => 0
  | n + 1 => rises w n + if !levelBefore w n && w n then 1 else 0

variable (w : ℕ → Bool)

theorem falls_succ (n : ℕ) :
    falls w (n + 1) = falls w n + if levelBefore w n && !w n then 1 else 0 := rfl

theorem rises_succ (n : ℕ) :
    rises w (n + 1) = rises w n + if !levelBefore w n && w n then 1 else 0 := rfl

/-- **Edges alternate**: one more has fallen than risen exactly while the level is low. -/
theorem falls_eq (n : ℕ) : falls w n = rises w n + if levelBefore w n then 0 else 1 := by
  induction n with
  | zero => rfl
  | succ n ih =>
    rw [falls_succ, rises_succ, ih]
    show _ = _ + if w n then 0 else 1
    cases levelBefore w n <;> cases w n <;> simp

theorem falls_eq_rises_iff (n : ℕ) : falls w n = rises w n ↔ levelBefore w n = true := by
  rw [falls_eq]
  cases levelBefore w n <;> simp

theorem falls_mono : Monotone (falls w) :=
  monotone_nat_of_le_succ fun n => by rw [falls_succ]; exact Nat.le_add_right _ _

theorem rises_mono : Monotone (rises w) :=
  monotone_nat_of_le_succ fun n => by rw [rises_succ]; exact Nat.le_add_right _ _

/-- After `n` samples the level is low, in pulse number `k`. -/
def InPulse (k n : ℕ) : Prop :=
  levelBefore w n = false ∧ rises w n = k

theorem InPulse.falls_eq {w : ℕ → Bool} {k n : ℕ} (h : InPulse w k n) : falls w n = k + 1 := by
  rw [Lib.falls_eq, h.1, h.2]
  rfl

/-! ## Plateaus -/

/-- The signal is high at `s` and at `e` and low in between, at least once. -/
structure Plateau (out : ℕ → Bool) (s e : ℕ) : Prop where
  nonempty : s + 1 < e
  high_before : out s = true
  low : ∀ n, s < n → n < e → out n = false
  high_after : out e = true

/-- **Plateaus that meet are equal.** -/
theorem Plateau.unique {out : ℕ → Bool} {s e s' e' n : ℕ} (h : Plateau out s e)
    (h' : Plateau out s' e') (hn : s < n ∧ n < e) (hn' : s' < n ∧ n < e') : s = s' ∧ e = e' := by
  -- a high end of one is never inside the other
  have houtside : ∀ {a b m : ℕ}, Plateau out a b → out m = true → ¬ (a < m ∧ m < b) := by
    intro a b m hp hm hin
    rw [hp.low m hin.1 hin.2] at hm
    cases hm
  have h1 := houtside h' h.high_before
  have h2 := houtside h' h.high_after
  have h3 := houtside h h'.high_before
  have h4 := houtside h h'.high_after
  omega

/-- A monotone counter reaches a value at one sample and stays there or above. -/
theorem exists_threshold {f : ℕ → ℕ} (hf : Monotone f) {a : ℕ} (h : ∃ n, a ≤ f n) :
    ∃ t, ∀ n, t ≤ n ↔ a ≤ f n := by
  refine ⟨Nat.find h, fun n => ⟨fun hn => ?_, fun hn => Nat.find_min' h hn⟩⟩
  exact Nat.le_trans (Nat.find_spec h) (hf hn)

/-- From the sample at which the counter `f` reaches `a` up to the one at which `g` reaches `b`
there is a plateau of a signal that is low exactly in between. -/
theorem exists_plateau {out : ℕ → Bool} {f g : ℕ → ℕ} (hf : Monotone f) (hg : Monotone g)
    {a b : ℕ} (hstart : f 0 < a) (hend : ∃ n, b ≤ g n) (hreach : ∀ n, b ≤ g n → a ≤ f n)
    (hlow : ∀ n, a ≤ f n → g n < b → out n = false)
    (hbefore : ∀ n, f n < a → a ≤ f (n + 1) → out n = true ∧ g (n + 1) < b)
    (hafter : ∀ n, g n < b → b ≤ g (n + 1) → out (n + 1) = true) :
    ∃ s e, Plateau out s e ∧ ∀ n, s < n ∧ n < e ↔ a ≤ f n ∧ g n < b := by
  obtain ⟨t, ht⟩ := exists_threshold hf (hend.imp hreach)
  obtain ⟨u, hu⟩ := exists_threshold hg hend
  have hu' : ∀ n, n < u ↔ g n < b := by
    intro n
    rw [← Nat.not_le, hu, Nat.not_le]
  -- both come after the first sample
  obtain ⟨s, rfl⟩ : ∃ s, t = s + 1 := by
    apply Nat.exists_eq_succ_of_ne_zero
    rintro rfl
    exact absurd ((ht 0).mp le_rfl) (Nat.not_le.mpr hstart)
  have hs : f s < a := Nat.lt_of_not_le fun h => Nat.not_succ_le_self s ((ht s).mpr h)
  obtain ⟨hhigh, hopen⟩ := hbefore s hs ((ht (s + 1)).mp le_rfl)
  have hlt : s + 1 < u := (hu' (s + 1)).mpr hopen
  obtain ⟨e, rfl⟩ : ∃ e, u = e + 1 :=
    Nat.exists_eq_succ_of_ne_zero (Nat.ne_of_gt (Nat.zero_lt_of_lt hlt))
  have hmem : ∀ n, s < n ∧ n < e + 1 ↔ a ≤ f n ∧ g n < b := by
    intro n
    rw [← ht, ← hu']
    rfl
  refine ⟨s, e + 1, ⟨hlt, hhigh, ?_, ?_⟩, hmem⟩
  · intro n hsn hne
    obtain ⟨ha, hb⟩ := (hmem n).mp ⟨hsn, hne⟩
    exact hlow n ha hb
  · exact hafter e ((hu' e).mp (Nat.lt_succ_self e)) ((hu (e + 1)).mp le_rfl)

end Rf215Sdr.Lib
