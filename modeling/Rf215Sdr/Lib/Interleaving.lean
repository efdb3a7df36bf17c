import Mathlib.Algebra.Order.Ring.Int
import Mathlib.Data.List.Basic
import Mathlib.Data.List.Induction
import Mathlib.Tactic.Common

/-!
# Interleaved Systems

Several parties acting on one state: every action is one atomic step of one of them, and is
refused in the states in which that party cannot take it. A run is any finite list of
actions none of which is refused, so a statement about all runs is about all interleavings.

## Main results

- `run_induction`: induction along a run, with the actions taken so far in view.
- `run_invariant`: what every permitted step preserves holds after every run.
- `reachable_simulation`: a step-by-step simulation takes reachable states to reachable ones.
-/

namespace Rf215Sdr.Lib

/-- A system of interleaved parties: its initial state, and the state after one action,
`none` when the action is not possible. -/
structure System (σ α : Type*) where
  init : σ
  step : σ → α → Option σ

namespace System

variable {σ τ α β : Type*} (S : System σ α)

/-! ## Runs -/

/-- The state after a list of actions, `none` when one of them was not possible. -/
def run (s : σ) : List α → Option σ
  | [] => some s
  | a :: as => (S.step s a).bind fun s' => run s' as

@[simp] theorem run_nil (s : σ) : S.run s [] = some s := rfl

/-- A run is a first step and a run of the rest. -/
theorem run_cons_eq_some {s t : σ} {a : α} {as : List α} :
    S.run s (a :: as) = some t ↔ ∃ s', S.step s a = some s' ∧ S.run s' as = some t := by
  show (S.step s a).bind (fun s' => S.run s' as) = some t ↔ _
  rw [Option.bind_eq_some_iff]

theorem run_append_eq_some {s t : σ} {as bs : List α} :
    S.run s (as ++ bs) = some t ↔ ∃ s', S.run s as = some s' ∧ S.run s' bs = some t := by
  induction as generalizing s with
  | nil => simp
  | cons a as ih =>
    rw [List.cons_append, run_cons_eq_some]
    constructor
    · rintro ⟨s₁, hstep, hrest⟩
      obtain ⟨s₂, hrun, hlast⟩ := ih.mp hrest
      exact ⟨s₂, (S.run_cons_eq_some).mpr ⟨s₁, hstep, hrun⟩, hlast⟩
    · rintro ⟨s₂, hrun, hlast⟩
      obtain ⟨s₁, hstep, hrun⟩ := (S.run_cons_eq_some).mp hrun
      exact ⟨s₁, hstep, ih.mpr ⟨s₂, hrun, hlast⟩⟩

/-- A run of one action. -/
theorem run_singleton {s t : σ} {a : α} (hstep : S.step s a = some t) : S.run s [a] = some t :=
  (S.run_cons_eq_some).mpr ⟨t, hstep, rfl⟩

/-- One more action at the end. -/
theorem run_concat {s s' t : σ} {as : List α} {a : α} (hrun : S.run s as = some s')
    (hstep : S.step s' a = some t) : S.run s (as ++ [a]) = some t :=
  (S.run_append_eq_some).mpr ⟨s', hrun, S.run_singleton hstep⟩

/-- A state some run leads to. -/
def Reachable (s : σ) : Prop :=
  ∃ as : List α, S.run S.init as = some s

theorem reachable_init : S.Reachable S.init :=
  ⟨[], rfl⟩

variable {S}

theorem Reachable.step {s t : σ} {a : α} (h : S.Reachable s) (hstep : S.step s a = some t) :
    S.Reachable t := by
  obtain ⟨as, hrun⟩ := h
  exact ⟨as ++ [a], S.run_concat hrun hstep⟩

theorem Reachable.run {s t : σ} {as : List α} (h : S.Reachable s) (hrun : S.run s as = some t) :
    S.Reachable t := by
  obtain ⟨bs, hbs⟩ := h
  exact ⟨bs ++ as, (S.run_append_eq_some).mpr ⟨s, hbs, hrun⟩⟩

/-! ## Invariants -/

/-- **Induction along a run**, with the actions taken so far in view. -/
theorem run_induction {s₀ : σ} {R : List α → σ → Prop} (hnil : R [] s₀)
    (hstep : ∀ as s a t, R as s → S.step s a = some t → R (as ++ [a]) t)
    {s : σ} {as : List α} (hrun : S.run s₀ as = some s) : R as s := by
  induction as using List.reverseRecOn generalizing s with
  | nil =>
    obtain rfl := Option.some.inj hrun
    exact hnil
  | append_singleton as a ih =>
    -- the last action was taken in the state the others led to
    obtain ⟨s', hbefore, hlast⟩ := (S.run_append_eq_some).mp hrun
    obtain ⟨t, hst, hdone⟩ := (S.run_cons_eq_some).mp hlast
    obtain rfl := Option.some.inj hdone
    exact hstep as s' a t (ih hbefore) hst

/-- **Invariant rule** for runs whose actions all satisfy `Q`. -/
theorem run_invariant {P : σ → Prop} {Q : α → Prop}
    (hstep : ∀ s a t, Q a → S.step s a = some t → P s → P t) {s t : σ} {as : List α}
    (has : ∀ a ∈ as, Q a) (hrun : S.run s as = some t) (hs : P s) : P t := by
  induction as generalizing s with
  | nil =>
    obtain rfl := Option.some.inj hrun
    exact hs
  | cons a as ih =>
    obtain ⟨s', hfirst, hrest⟩ := (S.run_cons_eq_some).mp hrun
    apply ih _ hrest
    · exact hstep s a s' (has a List.mem_cons_self) hfirst hs
    · exact fun b hb => has b (List.mem_cons_of_mem a hb)

/-- **Invariant rule** for reachable states. -/
theorem Reachable.invariant {P : σ → Prop} (hinit : P S.init)
    (hstep : ∀ s a t, S.step s a = some t → P s → P t) {s : σ} (h : S.Reachable s) : P s := by
  obtain ⟨as, hrun⟩ := h
  apply run_invariant (Q := fun _ => True) _ (fun _ _ => trivial) hrun hinit
  exact fun s a t _ hst => hstep s a t hst

/-! ## Simulation -/

/-- **Simulation rule**: if every step of `S` is a run of `S'` between the abstractions of
its two states, then reachable states have reachable abstractions. -/
theorem reachable_simulation {S' : System τ β} (abs : σ → τ) (hinit : abs S.init = S'.init)
    (hstep : ∀ s a t, S.step s a = some t → ∃ bs, S'.run (abs s) bs = some (abs t))
    {s : σ} (h : S.Reachable s) : S'.Reachable (abs s) := by
  apply h.invariant (P := fun s => S'.Reachable (abs s))
  · rw [hinit]
    exact S'.reachable_init
  · intro s a t hst hs
    obtain ⟨bs, hrun⟩ := hstep s a t hst
    exact hs.run hrun

end System

end Rf215Sdr.Lib
