import Mathlib.Algebra.GroupWithZero.Nat
import Mathlib.Data.Fin.Basic
import Mathlib.Logic.Function.Basic
import Mathlib.Tactic.Common

/-!
# Ring Buffers

An array of `n` cells that is written all around, with the place of the next write and a flag
that stays set once the last cell has been written. It refines the list of the last `n` items.

## Main results

- `Ring.Holds.push`: one write appends to the history.
- `Ring.contents_eq`: what is read out is the end of the history, in order.
-/

namespace Rf215Sdr.Lib

/-- A ring buffer of `n` cells. -/
structure Ring (α : Type*) (n : ℕ) where
  buf : Fin n → α
  idx : Fin n
  full : Bool

namespace Ring

variable {α : Type*} {n : ℕ} [NeZero n]

/-- Write an item into the cell at the index. -/
def push (r : Ring α n) (a : α) : Ring α n where
  buf := Function.update r.buf r.idx a
  idx := Fin.ofNat n (r.idx + 1)
  full := r.full || Fin.ofNat n (r.idx + 1) == 0

/-- Where reading starts. -/
def start (r : Ring α n) : Fin n :=
  if r.full then r.idx else 0

/-- How many cells are read. -/
def count (r : Ring α n) : ℕ :=
  if r.full then n else r.idx

/-- The items read out, from the start on. -/
def contents (r : Ring α n) : List α :=
  (List.range r.count).map fun j => r.buf (Fin.ofNat n (r.start + j))

/-- The buffer after a history of writes to an empty one. -/
structure Holds (r : Ring α n) (history : List α) : Prop where
  idx_eq : (r.idx : ℕ) = history.length % n
  full_iff : r.full = true ↔ n ≤ history.length
  /-- the last `n` items are in the cells of their numbers -/
  buf_eq : ∀ i (hi : i < history.length), history.length ≤ i + n →
    r.buf (Fin.ofNat n i) = history[i]

/-- Nothing has been written. -/
theorem holds_nil {r : Ring α n} (hidx : r.idx = 0) (hfull : r.full = false) : r.Holds [] where
  idx_eq := by simp [hidx]
  full_iff := by simp [hfull, NeZero.ne n]
  buf_eq i hi := absurd hi (Nat.not_lt_zero i)

/-- Numbers less than `n` apart have different cells. -/
theorem ofNat_ne {i j : ℕ} (hij : i < j) (hj : j < i + n) : Fin.ofNat n i ≠ Fin.ofNat n j := by
  intro h
  have hmod : i % n = j % n := congrArg Fin.val h
  have hdvd : n ∣ j - i :=
    Nat.dvd_of_mod_eq_zero (Nat.sub_mod_eq_zero_of_mod_eq hmod.symm)
  have hle := Nat.le_of_dvd (Nat.sub_pos_of_lt hij) hdvd
  omega

/-- **One write** appends to the history. -/
theorem Holds.push {r : Ring α n} {history : List α} (h : r.Holds history) (a : α) :
    (r.push a).Holds (history ++ [a]) := by
  have hidx : r.idx = Fin.ofNat n history.length := Fin.ext h.idx_eq
  have hnext : Fin.ofNat n (r.idx + 1) = Fin.ofNat n (history.length + 1) := by
    apply Fin.ext
    simp [h.idx_eq, Nat.add_mod]
  refine ⟨?_, ?_, ?_⟩
  · simpa [Ring.push] using congrArg Fin.val hnext
  · -- the index wraps for the first time when the last cell has been written
    simp only [Ring.push, hnext, Bool.or_eq_true, h.full_iff, beq_iff_eq, List.length_append,
      List.length_singleton]
    constructor
    · rintro (hle | hzero)
      · omega
      · have hmod : (history.length + 1) % n = 0 := by simpa using congrArg Fin.val hzero
        exact Nat.le_of_dvd (Nat.succ_pos _) (Nat.dvd_of_mod_eq_zero hmod)
    · intro hle
      rcases Nat.lt_or_ge history.length n with hlt | hge
      · right
        apply Fin.ext
        simp [show history.length + 1 = n by omega]
      · exact Or.inl hge
  · intro i hi hlast
    simp only [List.length_append, List.length_singleton] at hi hlast
    simp only [Ring.push, hidx]
    rcases Nat.lt_or_ge i history.length with hlt | hge
    · -- an older item is in another cell
      rw [Function.update_of_ne (ofNat_ne hlt (by omega)), h.buf_eq i hlt (by omega),
        List.getElem_append_left hlt]
    · obtain rfl : i = history.length := by omega
      simp

/-- **What is read out** is the end of the history, in order. -/
theorem contents_eq {r : Ring α n} {history : List α} (h : r.Holds history) :
    r.contents = history.drop (history.length - n) := by
  have hpos : 0 < n := Nat.pos_of_neZero n
  -- reading starts at the oldest item still there, and reads all of them
  obtain ⟨hstart, hcount⟩ : r.start = Fin.ofNat n (history.length - n) ∧
      r.count = min history.length n := by
    unfold start count
    by_cases hfull : n ≤ history.length
    · have hmod : history.length % n = (history.length - n) % n := Nat.mod_eq_sub_mod hfull
      rw [if_pos (h.full_iff.mpr hfull), if_pos (h.full_iff.mpr hfull)]
      exact ⟨Fin.ext (h.idx_eq.trans hmod), (Nat.min_eq_right hfull).symm⟩
    · have hno : r.full = false := by
        rw [← Bool.not_eq_true, h.full_iff]
        exact hfull
      have hlt : history.length < n := Nat.lt_of_not_le hfull
      simp [hno, h.idx_eq, Nat.mod_eq_of_lt hlt, Nat.sub_eq_zero_of_le hlt.le, hlt.le]
  apply List.ext_getElem
  · simp only [contents, hcount, List.length_map, List.length_range, List.length_drop]
    omega
  · intro j hj hj'
    rw [List.length_drop] at hj'
    have hcell : Fin.ofNat n (r.start + j) = Fin.ofNat n (history.length - n + j) := by
      apply Fin.ext
      simp [hstart, Nat.mod_add_mod]
    simp only [contents, List.getElem_map, List.getElem_range, List.getElem_drop, hcell]
    exact h.buf_eq _ (by omega) (by omega)

end Ring

end Rf215Sdr.Lib
