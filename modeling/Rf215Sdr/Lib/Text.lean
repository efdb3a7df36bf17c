import Mathlib.Data.List.DropRight
import Mathlib.Data.List.Induction
import Mathlib.Data.List.TakeWhile
import Mathlib.Tactic.Common

/-!
# Trimming and Lines

Trimming a list at both ends, and texts as lists of lines.

## Main results

- `trimBy_append_right`: trimming does not see what it removes.
- `trimBy_append_cons`: trimming around an item that stays.
- `splitLines_joinLines`: the lines of a joined text.
-/

namespace Rf215Sdr.Lib

variable {α : Type*}

/-! ## Trimming -/

/-- The list without the items satisfying `p` at its two ends. -/
def trimBy (p : α → Bool) (l : List α) : List α :=
  ((l.dropWhile p).reverse.dropWhile p).reverse

/-- An item that stays stops the trimming at the front. -/
theorem dropWhile_append_cons {p : α → Bool} {a : α} (h : p a = false) (l r : List α) :
    (l ++ a :: r).dropWhile p = l.dropWhile p ++ a :: r := by
  induction l with
  | nil => exact List.dropWhile_cons_of_neg (by simp [h])
  | cons b l ih =>
    rw [List.cons_append, List.dropWhile_cons, List.dropWhile_cons, ih]
    cases p b <;> rfl

/-- **Trimming around an item that stays.** -/
theorem trimBy_append_cons {p : α → Bool} {a : α} (h : p a = false) (l r : List α) :
    trimBy p (l ++ a :: r) = l.dropWhile p ++ a :: r.rdropWhile p := by
  unfold trimBy List.rdropWhile
  -- the same from both ends
  rw [dropWhile_append_cons h, List.reverse_append, List.reverse_cons, List.append_assoc,
    List.singleton_append, dropWhile_append_cons h]
  simp

theorem trimBy_append_right {p : α → Bool} {r : List α} (hr : ∀ a ∈ r, p a = true)
    (l : List α) : trimBy p (l ++ r) = trimBy p l := by
  unfold trimBy
  rw [List.dropWhile_append]
  split_ifs with hall
  · -- nothing of `l` is left either
    rw [List.isEmpty_iff] at hall
    rw [hall, List.dropWhile_eq_nil_iff.mpr hr]
  · rw [List.reverse_append, List.dropWhile_append_of_pos]
    intro a ha
    exact hr a (List.mem_reverse.mp ha)

theorem trimBy_dropWhile (p : α → Bool) (l : List α) : trimBy p (l.dropWhile p) = trimBy p l := by
  unfold trimBy
  rw [List.dropWhile_idempotent]

theorem trimBy_subset (p : α → Bool) (l : List α) : trimBy p l ⊆ l := by
  intro a ha
  have hfront := (List.dropWhile_suffix p).subset (List.mem_reverse.mp ha)
  exact (List.dropWhile_suffix p).subset (List.mem_reverse.mp hfront)

/-- Tests that agree on a list trim it alike. -/
theorem trimBy_congr {p q : α → Bool} {l : List α} (h : ∀ a ∈ l, p a = q a) :
    trimBy p l = trimBy q l := by
  have hfront : ∀ {m : List α}, (∀ a ∈ m, p a = q a) → m.dropWhile p = m.dropWhile q := by
    intro m hm
    induction m with
    | nil => rfl
    | cons a m ih =>
      rw [List.forall_mem_cons] at hm
      simp only [List.dropWhile_cons, hm.1, ih hm.2]
  unfold trimBy
  rw [hfront h, hfront]
  intro a ha
  exact h a ((List.dropWhile_suffix q).subset (List.mem_reverse.mp ha))

/-- Nothing to trim. -/
theorem trimBy_eq_self {p : α → Bool} {l : List α} (hhead : ∀ a ∈ l.head?, p a = false)
    (hlast : ∀ a ∈ l.getLast?, p a = false) : trimBy p l = l := by
  -- both ends alike
  have hfront : ∀ {m : List α}, (∀ a ∈ m.head?, p a = false) → m.dropWhile p = m := by
    intro m hm
    cases m with
    | nil => rfl
    | cons a m => rw [List.dropWhile_cons_of_neg (by simp [hm a rfl])]
  unfold trimBy
  rw [hfront hhead, hfront (by rw [List.head?_reverse]; exact hlast), List.reverse_reverse]

/-- An item that stays at the front stays in front. -/
theorem head?_trimBy {p : α → Bool} {a : α} (h : p a = false) (l : List α) :
    (trimBy p (a :: l)).head? = some a := by
  unfold trimBy
  rw [List.dropWhile_cons_of_neg (by simp [h]), List.reverse_cons, List.dropWhile_append]
  split_ifs with hall
  · -- all the rest is trimmed, or something of it stays behind `a`
    rw [List.dropWhile_cons_of_neg (by simp [h])]
    rfl
  · rw [List.reverse_append]
    rfl

/-! ## Lines -/

/-- The lines of a text; a text ending in a newline has an empty last line. -/
def splitLines : List Char → List (List Char)
  | [] => [[]]
  | c :: cs =>
    if c = '\n' then [] :: splitLines cs
    else
      match splitLines cs with
      | [] => [[c]]
      | l :: ls => (c :: l) :: ls

/-- The text made of the given lines. -/
def joinLines : List (List Char) → List Char
  | [] => []
  | [l] => l
  | l :: ls => l ++ '\n' :: joinLines ls

theorem joinLines_cons (l : List Char) {ls : List (List Char)} (h : ls ≠ []) :
    joinLines (l :: ls) = l ++ '\n' :: joinLines ls := by
  cases ls with
  | nil => exact absurd rfl h
  | cons l' ls => rfl

/-- A line, a newline, and the rest. -/
theorem splitLines_append {l : List Char} (h : '\n' ∉ l) (rest : List Char) :
    splitLines (l ++ '\n' :: rest) = l :: splitLines rest := by
  induction l with
  | nil => rfl
  | cons c l ih =>
    rw [List.mem_cons, not_or] at h
    rw [List.cons_append, splitLines, if_neg (Ne.symm h.1), ih h.2]

theorem splitLines_eq_singleton {l : List Char} (h : '\n' ∉ l) : splitLines l = [l] := by
  induction l with
  | nil => rfl
  | cons c l ih =>
    rw [List.mem_cons, not_or] at h
    rw [splitLines, if_neg (Ne.symm h.1), ih h.2]

/-- **The lines of a joined text.** -/
theorem splitLines_joinLines {ls : List (List Char)} (hne : ls ≠ [])
    (h : ∀ l ∈ ls, '\n' ∉ l) : splitLines (joinLines ls) = ls := by
  induction ls with
  | nil => exact absurd rfl hne
  | cons l ls ih =>
    have hl := h l List.mem_cons_self
    cases ls with
    | nil => exact splitLines_eq_singleton hl
    | cons l' ls =>
      rw [joinLines_cons l (List.cons_ne_nil _ _), splitLines_append hl,
        ih (List.cons_ne_nil _ _) fun m hm => h m (List.mem_cons_of_mem l hm)]

/-- Joining with an empty last line ends the text with a newline. -/
theorem joinLines_concat_nil {ls : List (List Char)} (hne : ls ≠ []) :
    joinLines (ls ++ [[]]) = joinLines ls ++ ['\n'] := by
  induction ls with
  | nil => exact absurd rfl hne
  | cons l ls ih =>
    cases ls with
    | nil => rfl
    | cons l' ls =>
      rw [List.cons_append, joinLines_cons l (by simp), ih (List.cons_ne_nil _ _),
        joinLines_cons l (List.cons_ne_nil _ _), List.append_assoc, List.cons_append]

/-- The characters of a joined text. -/
theorem mem_joinLines {ls : List (List Char)} {c : Char} (h : c ∈ joinLines ls) :
    c = '\n' ∨ ∃ l ∈ ls, c ∈ l := by
  induction ls with
  | nil => exact absurd h List.not_mem_nil
  | cons l ls ih =>
    cases ls with
    | nil => exact Or.inr ⟨l, List.mem_cons_self, h⟩
    | cons l' ls =>
      rw [joinLines_cons l (List.cons_ne_nil _ _), List.mem_append, List.mem_cons] at h
      rcases h with hl | hc | hrest
      · exact Or.inr ⟨l, List.mem_cons_self, hl⟩
      · exact Or.inl hc
      · rcases ih hrest with hc | ⟨m, hm, hc⟩
        · exact Or.inl hc
        · exact Or.inr ⟨m, List.mem_cons_of_mem l hm, hc⟩

/-- Its length. -/
theorem length_joinLines_le {ls : List (List Char)} {n : ℕ} (h : ∀ l ∈ ls, l.length ≤ n) :
    (joinLines ls).length ≤ ls.length * (n + 1) := by
  induction ls with
  | nil => exact Nat.zero_le _
  | cons l ls ih =>
    have hl := h l List.mem_cons_self
    cases ls with
    | nil =>
      rw [List.length_singleton, Nat.one_mul]
      exact Nat.le_succ_of_le hl
    | cons l' ls =>
      have hrest := ih fun m hm => h m (List.mem_cons_of_mem l hm)
      rw [joinLines_cons l (List.cons_ne_nil _ _), List.length_append, List.length_cons,
        List.length_cons, Nat.succ_mul]
      omega

/-- Its last character is that of its last line, unless that line is empty. -/
theorem getLast?_joinLines {ls : List (List Char)} {l : List Char} (hl : l ≠ []) :
    (joinLines (ls ++ [l])).getLast? = l.getLast? := by
  induction ls with
  | nil => rfl
  | cons m ls ih =>
    -- the last line is behind every newline
    have hrest : joinLines (ls ++ [l]) ≠ [] := by
      intro hnil
      rw [hnil] at ih
      exact hl (List.getLast?_eq_none_iff.mp ih.symm)
    rw [List.cons_append, joinLines_cons m (by simp), List.getLast?_append,
      List.getLast?_cons_of_ne_nil hrest, ih]
    obtain ⟨c, hc⟩ := Option.ne_none_iff_exists'.mp (mt List.getLast?_eq_none_iff.mp hl)
    rw [hc]
    rfl

end Rf215Sdr.Lib
