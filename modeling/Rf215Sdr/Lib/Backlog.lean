import Mathlib.Algebra.GroupWithZero.Nat
import Mathlib.Data.List.Basic
import Mathlib.Data.List.Infix
import Mathlib.Tactic.Common

/-!
# Backlog of a Server

Work arrives and service is offered step by step; an offer that finds no work is lost. The
backlog is a recursion over the steps, but it can be read off their sums: it stays within a
bound exactly if no run of steps brings that much more work than it offers service.

## Main results

- `backlog_le_iff`: the backlog after some steps, by the sums over the last of them.
-/

namespace Rf215Sdr.Lib

/-- One step: the work that arrives, and the work that could be served. -/
structure Offer where
  arrives : ℕ
  serves : ℕ
  deriving DecidableEq, Repr

/-- The work left after some steps, `b` of it there before. -/
def backlog (b : ℕ) (os : List Offer) : ℕ :=
  os.foldl (fun b o => b + o.arrives - o.serves) b

/-- All the work that arrives. -/
def arrivals (os : List Offer) : ℕ :=
  (os.map Offer.arrives).sum

/-- All the service that is offered. -/
def services (os : List Offer) : ℕ :=
  (os.map Offer.serves).sum

@[simp] theorem backlog_nil (b : ℕ) : backlog b [] = b := rfl

@[simp] theorem backlog_cons (b : ℕ) (o : Offer) (os : List Offer) :
    backlog b (o :: os) = backlog (b + o.arrives - o.serves) os := rfl

@[simp] theorem arrivals_cons (o : Offer) (os : List Offer) :
    arrivals (o :: os) = o.arrives + arrivals os := by
  simp [arrivals]

@[simp] theorem services_cons (o : Offer) (os : List Offer) :
    services (o :: os) = o.serves + services os := by
  simp [services]

/-- The backlog stays within `m` if all steps together and the last ones alone, however many,
bring at most `m` more than they serve. -/
theorem backlog_le_iff (b m : ℕ) (os : List Offer) :
    backlog b os ≤ m ↔
      b + arrivals os ≤ services os + m ∧
        ∀ pre suf, os = pre ++ suf → arrivals suf ≤ services suf + m := by
  induction os generalizing b with
  | nil => simp [arrivals, services]
  | cons o os ih =>
    rw [backlog_cons, ih, arrivals_cons, services_cons]
    constructor
    · rintro ⟨hall, hlast⟩
      have hrest := hlast [] os rfl
      refine ⟨by omega, ?_⟩
      intro pre suf hsplit
      cases pre with
      | nil =>
        obtain rfl : o :: os = suf := hsplit
        rw [arrivals_cons, services_cons]
        omega
      | cons p pre =>
        obtain ⟨-, htail⟩ := List.cons.inj hsplit
        exact hlast pre suf htail
    · rintro ⟨hall, hlast⟩
      have hrest := hlast [o] os rfl
      refine ⟨by omega, ?_⟩
      intro pre suf hsplit
      exact hlast (o :: pre) suf (by rw [hsplit, List.cons_append])

end Rf215Sdr.Lib
