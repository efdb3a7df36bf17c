import Mathlib.Logic.Function.Basic
import Mathlib.Tactic.Common

/-!
# Assignments Where the Last One Wins

A store is a function from keys to values, and a list of assignments is carried out on it one
after the other. What the list does is determined by the value it gives to each key last.

## Main results

- `assignAll_apply`: the value of a key after a list of assignments.
- `assignAll_append`: one list after the other.
-/

namespace Rf215Sdr.Lib

variable {κ : Type*} [DecidableEq κ] {ν : κ → Type*}

/-- A list of assignments, carried out one after the other. -/
def assignAll (f : ∀ k, ν k) (as : List (Σ k, ν k)) : ∀ k, ν k :=
  as.foldl (fun g a => Function.update g a.1 a.2) f

/-- The value an assignment gives to `k`. -/
def valueFor (k : κ) (a : Σ k, ν k) : Option (ν k) :=
  if h : a.1 = k then some (h ▸ a.2) else none

/-- The value a list of assignments gives to `k` last. -/
def lastOf (k : κ) : List (Σ k, ν k) → Option (ν k)
  | [] => none
  | a :: as => (lastOf k as).or (valueFor k a)

theorem update_apply (f : ∀ k, ν k) (a : Σ k, ν k) (k : κ) :
    Function.update f a.1 a.2 k = (valueFor k a).getD (f k) := by
  obtain ⟨j, v⟩ := a
  unfold valueFor
  by_cases h : j = k
  · subst h
    simp
  · simp [h, Function.update_of_ne (Ne.symm h)]

/-- **The value of a key after a list of assignments** is the last one given to it, or the one it
had. -/
theorem assignAll_apply (f : ∀ k, ν k) (as : List (Σ k, ν k)) (k : κ) :
    assignAll f as k = (lastOf k as).getD (f k) := by
  induction as generalizing f with
  | nil => rfl
  | cons a as ih =>
    show assignAll (Function.update f a.1 a.2) as k = _
    rw [ih, update_apply, lastOf]
    cases lastOf k as <;> rfl

theorem assignAll_append (f : ∀ k, ν k) (as bs : List (Σ k, ν k)) :
    assignAll f (as ++ bs) = assignAll (assignAll f as) bs :=
  List.foldl_append

end Rf215Sdr.Lib
