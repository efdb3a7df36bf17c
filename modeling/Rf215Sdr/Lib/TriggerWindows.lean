import Mathlib.Data.List.Induction
import Mathlib.Tactic.Common

/-!
# Windows Around Triggers

A signal is searched for items above a threshold. The first one is a trigger, the items right
behind a trigger are not searched, and then the search goes on. A window is a number of items
before a trigger, the trigger, and the items behind it that are not searched.

## Main results

- `length_windowed`: the length of the windows put together.
- `windowCount_concat_le`: how much a new trigger adds.
- `windowed_append`: where the first window begins.
-/

namespace Rf215Sdr.Lib

variable {α : Type*}

/-! ## Triggers -/

section Triggers

variable (above : α → Bool) (post : ℕ)

/-- The numbers of the triggers among items counted from `i`; the first `quiet` items are not
searched. -/
def triggersFrom : ℕ → ℕ → List α → List ℕ
  | _, _, [] => []
  | i, quiet + 1, _ :: xs => triggersFrom (i + 1) quiet xs
  | i, 0, x :: xs =>
    if above x then i :: triggersFrom (i + 1) post xs else triggersFrom (i + 1) 0 xs

/-- The triggers of a signal. -/
def triggers (xs : List α) : List ℕ :=
  triggersFrom above post 0 0 xs

variable {above post}

/-- No trigger is found among items below the threshold. -/
theorem triggersFrom_append_below {a : List α} (ha : ∀ x ∈ a, above x = false) (i : ℕ)
    (xs : List α) : triggersFrom above post i 0 (a ++ xs) =
      triggersFrom above post (i + a.length) 0 xs := by
  induction a generalizing i with
  | nil => rfl
  | cons x a ih =>
    rw [List.forall_mem_cons] at ha
    simp [triggersFrom, ha.1, ih ha.2, Nat.add_assoc, Nat.add_comm 1]

theorem triggersFrom_below {xs : List α} (h : ∀ x ∈ xs, above x = false) (i : ℕ) :
    triggersFrom above post i 0 xs = [] := by
  have happend : triggersFrom above post i 0 (xs ++ []) = [] := triggersFrom_append_below h i []
  rwa [List.append_nil] at happend

/-- Every trigger is behind the items that are not searched. -/
theorem le_of_mem_triggersFrom {t i quiet : ℕ} {xs : List α}
    (h : t ∈ triggersFrom above post i quiet xs) : i + quiet ≤ t := by
  induction xs generalizing i quiet with
  | nil => exact absurd h List.not_mem_nil
  | cons x xs ih =>
    cases quiet with
    | succ quiet =>
      have hle := ih h
      omega
    | zero =>
      unfold triggersFrom at h
      split_ifs at h
      · rcases List.mem_cons.mp h with rfl | hrest
        · exact Nat.le_refl t
        · have hle := ih hrest
          omega
      · have hle := ih h
        omega

end Triggers

/-! ## Windows -/

section Windows

variable (pre post : ℕ)

/-- An item is in the window of one of the triggers. -/
def InWindows (ts : List ℕ) (i : ℕ) : Prop :=
  ∃ t ∈ ts, t ≤ i + pre ∧ i ≤ t + post

instance (ts : List ℕ) (i : ℕ) : Decidable (InWindows pre post ts i) :=
  inferInstanceAs (Decidable (∃ t ∈ ts, t ≤ i + pre ∧ i ≤ t + post))

/-- The items in the windows, in order. -/
def windowed (ts : List ℕ) (xs : List α) : List α :=
  (xs.zipIdx.filter fun p => InWindows pre post ts p.2).map Prod.fst

/-- How many of the first `n` items are in the windows. -/
def windowCount (ts : List ℕ) (n : ℕ) : ℕ :=
  (List.range n).countP fun i => InWindows pre post ts i

variable {pre post}

theorem windowed_nil (xs : List α) : windowed pre post [] xs = [] := by
  simp [windowed, InWindows]

/-- **The length of the windows put together.** -/
theorem length_windowed (ts : List ℕ) (xs : List α) :
    (windowed pre post ts xs).length = windowCount pre post ts xs.length := by
  have hnumbers : xs.zipIdx.map Prod.snd = List.range xs.length := by
    rw [List.zipIdx_map_snd, List.range_eq_range']
  unfold windowed windowCount
  rw [List.length_map, ← List.countP_eq_length_filter, ← hnumbers, List.countP_map]
  rfl

theorem windowCount_succ (ts : List ℕ) (n : ℕ) : windowCount pre post ts (n + 1) =
    windowCount pre post ts n + if InWindows pre post ts n then 1 else 0 := by
  unfold windowCount
  rw [List.range_succ, List.countP_append, List.countP_singleton]
  simp

theorem windowCount_succ_le (ts : List ℕ) (n : ℕ) :
    windowCount pre post ts (n + 1) ≤ windowCount pre post ts n + 1 := by
  rw [windowCount_succ]
  split_ifs <;> omega

/-- How many of the numbers below `n` are at least `k`. -/
theorem countP_range_le (k n : ℕ) : (List.range n).countP (fun i => k ≤ i) = n - k := by
  induction n with
  | zero => simp
  | succ n ih =>
    rw [List.range_succ, List.countP_append, ih, List.countP_singleton]
    by_cases hk : k ≤ n
    · simp [hk]
      omega
    · simp [hk]
      omega

/-- **How much a new trigger adds**: at most the items before it that its window covers. -/
theorem windowCount_concat_le (ts : List ℕ) (n : ℕ) :
    windowCount pre post (ts ++ [n]) n ≤ windowCount pre post ts n + min n pre := by
  have hnew : (List.range n).countP (fun i => n ≤ i + pre) = min n pre := by
    have hsub : ∀ i, n ≤ i + pre ↔ n - pre ≤ i := fun i => by omega
    simp only [hsub, countP_range_le]
    omega
  rw [← hnew]
  unfold windowCount
  generalize List.range n = l
  induction l with
  | nil => simp
  | cons i l ih =>
    simp only [List.countP_cons, decide_eq_true_eq]
    -- an item in the new windows is in an old one or in that of `n`
    have hor : InWindows pre post (ts ++ [n]) i → InWindows pre post ts i ∨ n ≤ i + pre := by
      rintro ⟨t, ht, hpre, hpost⟩
      rcases List.mem_append.mp ht with hold | hn
      · exact Or.inl ⟨t, hold, hpre, hpost⟩
      · rw [List.mem_singleton.mp hn] at hpre
        exact Or.inr hpre
    by_cases hold : InWindows pre post ts i
    · simp only [hold, if_true]
      split_ifs <;> omega
    · by_cases hwin : InWindows pre post (ts ++ [n]) i
      · simp only [hold, hwin, (hor hwin).resolve_left hold, if_true, if_false]
        omega
      · simp only [hold, hwin, if_false]
        omega

theorem map_filter_zipIdx (k : ℕ) (l : List α) :
    (l.zipIdx.filter fun p => k ≤ p.2).map Prod.fst = l.drop k := by
  induction l using List.reverseRecOn with
  | nil => simp
  | append_singleton l x ih =>
    rw [List.zipIdx_append, List.filter_append, List.map_append, ih]
    by_cases hk : k ≤ l.length
    · simp [hk, List.drop_append_of_le_length]
    · rw [List.drop_of_length_le (by omega), List.drop_of_length_le (by simp; omega)]
      simp [hk]

/-- **Where the first window begins**: at the first trigger, or `pre` items before it. -/
theorem windowed_append {a b : List α} {ts : List ℕ} (hts : ∀ t ∈ ts, a.length ≤ t) :
    ∃ rest, windowed pre post (a.length :: ts) (a ++ b) =
      a.drop (a.length - pre) ++ rest := by
  have hfirst : a.zipIdx.filter (fun p => InWindows pre post (a.length :: ts) p.2) =
      a.zipIdx.filter fun p => a.length - pre ≤ p.2 := by
    apply List.filter_congr
    rintro ⟨x, i⟩ hi
    have hlt : i < a.length := by simpa using (List.mem_zipIdx hi).2.1
    rw [decide_eq_decide]
    constructor
    · rintro ⟨t, ht, hpre, -⟩
      have hle : a.length ≤ t := by
        rcases List.mem_cons.mp ht with rfl | hrest
        · exact Nat.le_refl _
        · exact hts t hrest
      show a.length - pre ≤ i
      omega
    · intro hle
      have hle' : a.length - pre ≤ i := hle
      exact ⟨a.length, List.mem_cons_self, by omega, by omega⟩
  unfold windowed
  rw [List.zipIdx_append, List.filter_append, List.map_append, hfirst, map_filter_zipIdx]
  exact ⟨_, rfl⟩

end Windows

end Rf215Sdr.Lib
