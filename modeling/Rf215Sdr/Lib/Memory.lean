import Mathlib.Data.List.Basic
import Mathlib.Tactic.Common

/-!
# Byte-Addressed Memory

A memory, or an unbounded stream, is a function from addresses to cells. Runs of cells are
loaded and stored as lists.

## Main results

- `load_add`: a load splits where its length splits.
- `load_store_same`, `load_store_disjoint`: what a store does to a load.
- `load_store_extend`: a copy grows by storing the next run behind it.
-/

namespace Rf215Sdr.Lib

variable {α : Type*}

/-- The `n` cells from address `a` on. -/
def load (f : ℕ → α) (a n : ℕ) : List α :=
  (List.range n).map fun j => f (a + j)

/-- The memory after the cells from address `a` on were overwritten. -/
def store (f : ℕ → α) (a : ℕ) (cells : List α) : ℕ → α :=
  fun x => if a ≤ x then (cells[x - a]?).getD (f x) else f x

@[simp] theorem length_load (f : ℕ → α) (a n : ℕ) : (load f a n).length = n := by
  simp [load]

theorem load_add (f : ℕ → α) (a m n : ℕ) :
    load f a (m + n) = load f a m ++ load f (a + m) n := by
  unfold load
  rw [List.range_add, List.map_append, List.map_map]
  congr 1
  apply List.map_congr_left
  intro j _
  show f (a + (m + j)) = f (a + m + j)
  rw [Nat.add_assoc]

/-- The first cell comes first. -/
theorem load_succ (f : ℕ → α) (a n : ℕ) : load f a (n + 1) = f a :: load f (a + 1) n := by
  rw [Nat.add_comm n 1, load_add]
  simp [load]

/-- The last cell comes last. -/
theorem load_succ' (f : ℕ → α) (a n : ℕ) : load f a (n + 1) = load f a n ++ [f (a + n)] := by
  rw [load_add]
  simp [load]

/-- A run of cells with one more item, or none, behind it. -/
theorem load_append_toList {f : ℕ → α} {l : List α} {o : Option α}
    (h : load f 0 (l ++ o.toList).length = l ++ o.toList) :
    load f 0 l.length = l ∧ ∀ b, o = some b → b = f l.length := by
  cases o with
  | none =>
    rw [Option.toList_none, List.append_nil] at h
    exact ⟨h, fun b hb => by cases hb⟩
  | some c =>
    rw [Option.toList_some, List.length_append, List.length_singleton, load_succ'] at h
    obtain ⟨hold, hnew⟩ := List.append_inj' h rfl
    refine ⟨hold, fun b hb => ?_⟩
    rw [← Option.some.inj hb, ← List.head_eq_of_cons_eq hnew, Nat.zero_add]

/-- A load depends on the cells it reads only. -/
theorem load_congr {f g : ℕ → α} {a b n : ℕ} (h : ∀ j < n, f (a + j) = g (b + j)) :
    load f a n = load g b n := by
  apply List.map_congr_left
  intro j hj
  exact h j (List.mem_range.mp hj)

/-- Equal runs have equal parts. -/
theorem load_part {f g : ℕ → α} {a b n : ℕ} (h : load f a n = load g b n) {j k : ℕ}
    (hjk : j + k ≤ n) : load f (a + j) k = load g (b + j) k := by
  apply load_congr
  intro i hi
  have hcell := congrArg (fun l => l[j + i]?) h
  simpa [load, List.getElem?_map, List.getElem?_range (show j + i < n by omega), Nat.add_assoc]
    using hcell

/-- A part of a run, cut out of the list. -/
theorem take_drop_load (f : ℕ → α) (a : ℕ) {n j k : ℕ} (hjk : j + k ≤ n) :
    ((load f a n).drop j).take k = load f (a + j) k := by
  obtain ⟨r, rfl⟩ := Nat.exists_eq_add_of_le hjk
  rw [load_add, load_add, List.append_assoc, List.drop_left' (length_load f a j),
    List.take_left' (length_load f (a + j) k)]

theorem load_store_same (f : ℕ → α) (a : ℕ) (cells : List α) :
    load (store f a cells) a cells.length = cells := by
  apply List.ext_getElem
  · simp
  · intro j hj _
    simp only [load, List.length_map, List.length_range] at hj
    simp [load, store, hj]

/-- A store leaves loads from other addresses alone. -/
theorem load_store_disjoint (f : ℕ → α) {a b n : ℕ} {cells : List α}
    (h : b + n ≤ a ∨ a + cells.length ≤ b) : load (store f a cells) b n = load f b n := by
  apply load_congr
  intro j hj
  unfold store
  split_ifs with hge
  · -- above the cells stored
    rw [List.getElem?_eq_none (by omega)]
    rfl
  · rfl

/-- **A copy grows**: storing the next run of `g` behind a copy of `g` extends the copy. -/
theorem load_store_extend {f g : ℕ → α} {a b m : ℕ} (h : load f a m = load g b m) (n : ℕ) :
    load (store f (a + m) (load g (b + m) n)) a (m + n) = load g b (m + n) := by
  -- the new run is what was stored, the old one lies in front of it
  have hnew : load (store f (a + m) (load g (b + m) n)) (a + m) n = load g (b + m) n := by
    have := load_store_same f (a + m) (load g (b + m) n)
    rwa [length_load] at this
  rw [load_add, load_add, hnew, load_store_disjoint f (Or.inl (Nat.le_refl _)), h]

/-- What a store of loaded cells leaves at an address. -/
theorem store_load_apply (f g : ℕ → α) (a b n x : ℕ) :
    store f a (load g b n) x = if a ≤ x ∧ x < a + n then g (b + (x - a)) else f x := by
  simp only [store, load, List.getElem?_map]
  by_cases hx : a ≤ x
  · by_cases hlt : x < a + n
    · rw [if_pos hx, if_pos ⟨hx, hlt⟩, List.getElem?_range (by omega)]
      rfl
    · rw [if_pos hx, if_neg (by omega), List.getElem?_eq_none (by simp; omega)]
      rfl
  · rw [if_neg hx, if_neg (by omega)]

@[simp] theorem store_nil (f : ℕ → α) (a : ℕ) : store f a [] = f := by
  funext x
  simp [store]

/-- A longer run is stored piece by piece. -/
theorem store_append (f : ℕ → α) (a : ℕ) (xs ys : List α) :
    store f a (xs ++ ys) = store (store f a xs) (a + xs.length) ys := by
  funext x
  simp only [store]
  by_cases hx : a ≤ x
  · rw [if_pos hx, if_pos hx]
    by_cases hbehind : a + xs.length ≤ x
    · rw [if_pos hbehind, List.getElem?_append_right (by omega), ← Nat.sub_add_eq,
        List.getElem?_eq_none (by omega : xs.length ≤ x - a)]
      rfl
    · rw [if_neg hbehind, List.getElem?_append_left (by omega)]
  · rw [if_neg hx, if_neg hx, if_neg (by omega)]

end Rf215Sdr.Lib
