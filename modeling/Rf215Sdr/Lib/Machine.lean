import Mathlib.Data.List.Basic
import Mathlib.Tactic.Common

/-!
# Clocked Machines

A synchronous circuit as a reset state and a next-state function, run over the list of
inputs sampled at successive clock edges. An *observation* reads the registers before an
edge together with the input sampled at that edge; `eventsAt` collects what is observed
along a run, each observation stamped with the number of edges seen when it is made.

## Main results

- `run_invariant`: what every edge preserves holds after every run.
- `eventsAt_append`: the events of a run split where the input splits.
- `eventsAt_simulation`: a step-for-step simulation transports whole event lists.
-/

namespace Rf215Sdr.Lib

/-- A clocked machine: its registers after reset, and after one clock edge. -/
structure Machine (σ ι : Type*) where
  reset : σ
  step : σ → ι → σ

namespace Machine

variable {σ τ ι ω ω' : Type*} (m : Machine σ ι)

/-! ## Runs -/

/-- The registers after the edges that sample `is`. -/
def run (s : σ) (is : List ι) : σ :=
  is.foldl m.step s

@[simp] theorem run_nil (s : σ) : m.run s [] = s := rfl

@[simp] theorem run_cons (s : σ) (i : ι) (is : List ι) :
    m.run s (i :: is) = m.run (m.step s i) is := rfl

theorem run_append (s : σ) (is js : List ι) :
    m.run s (is ++ js) = m.run (m.run s is) js :=
  List.foldl_append

/-- A register state some input list leads to from reset. -/
def Reachable (s : σ) : Prop :=
  ∃ is : List ι, m.run m.reset is = s

/-- Invariant rule: what every edge preserves survives every run. -/
theorem run_invariant {P : σ → Prop} (hstep : ∀ s i, P s → P (m.step s i))
    {s : σ} (hs : P s) (is : List ι) : P (m.run s is) := by
  induction is generalizing s with
  | nil => exact hs
  | cons i is ih => exact ih (hstep s i hs)

/-- Invariant rule for reachable states. -/
theorem Reachable.invariant {P : σ → Prop} (hreset : P m.reset)
    (hstep : ∀ s i, P s → P (m.step s i)) {s : σ} (h : m.Reachable s) : P s := by
  obtain ⟨is, rfl⟩ := h
  exact m.run_invariant hstep hreset is

/-! ## Observed events -/

/-- The observations made along a run that starts after `n` edges, each stamped with the
number of edges seen once its own edge has passed. -/
def eventsAt (obs : σ → ι → Option ω) (s : σ) (n : ℕ) : List ι → List (ω × ℕ)
  | [] => []
  | i :: is =>
    ((obs s i).map fun e => (e, n + 1)).toList ++ eventsAt obs (m.step s i) (n + 1) is

/-- The observations made along a run, without their stamps. -/
def events (obs : σ → ι → Option ω) (s : σ) (is : List ι) : List ω :=
  (m.eventsAt obs s 0 is).map Prod.fst

variable {m} {obs : σ → ι → Option ω}

@[simp] theorem eventsAt_nil (s : σ) (n : ℕ) : m.eventsAt obs s n [] = [] := rfl

theorem eventsAt_cons (s : σ) (n : ℕ) (i : ι) (is : List ι) :
    m.eventsAt obs s n (i :: is) =
      ((obs s i).map fun e => (e, n + 1)).toList ++
        m.eventsAt obs (m.step s i) (n + 1) is := rfl

/-- An edge that shows nothing only moves the clock on. -/
theorem eventsAt_cons_none {s : σ} {i : ι} (h : obs s i = none) (n : ℕ) (is : List ι) :
    m.eventsAt obs s n (i :: is) = m.eventsAt obs (m.step s i) (n + 1) is := by
  simp [eventsAt_cons, h]

theorem eventsAt_append (s : σ) (n : ℕ) (is js : List ι) :
    m.eventsAt obs s n (is ++ js) =
      m.eventsAt obs s n is ++ m.eventsAt obs (m.run s is) (n + is.length) js := by
  induction is generalizing s n with
  | nil => simp
  | cons i is ih =>
    simp only [List.cons_append, eventsAt_cons, ih, run_cons, List.length_cons,
      List.append_assoc]
    rw [show n + 1 + is.length = n + (is.length + 1) by omega]

/-- Stamps are the only thing the starting count changes. -/
theorem eventsAt_map_fst (s : σ) (n : ℕ) (is : List ι) :
    (m.eventsAt obs s n is).map Prod.fst = m.events obs s is := by
  suffices h : ∀ k, (m.eventsAt obs s n is).map Prod.fst =
      (m.eventsAt obs s k is).map Prod.fst from h 0
  intro k
  -- the two stamps run in step
  induction is generalizing s n k with
  | nil => rfl
  | cons i is ih =>
    simp only [eventsAt_cons, List.map_append, ih (m.step s i) (n + 1) (k + 1)]
    cases obs s i <;> rfl

@[simp] theorem events_nil (s : σ) : m.events obs s [] = [] := rfl

theorem events_cons (s : σ) (i : ι) (is : List ι) :
    m.events obs s (i :: is) = (obs s i).toList ++ m.events obs (m.step s i) is := by
  rw [← eventsAt_map_fst s 0, eventsAt_cons, List.map_append, eventsAt_map_fst]
  cases obs s i <;> rfl

theorem events_append (s : σ) (is js : List ι) :
    m.events obs s (is ++ js) = m.events obs s is ++ m.events obs (m.run s is) js := by
  rw [← eventsAt_map_fst s 0, eventsAt_append, List.map_append, eventsAt_map_fst,
    eventsAt_map_fst]

/-- An observation with its stamp is made at the edge behind which the stamp counts. -/
theorem mem_eventsAt_iff (s : σ) (n : ℕ) (is : List ι) (e : ω) (t : ℕ) :
    (e, t) ∈ m.eventsAt obs s n is ↔
      ∃ pre i post, is = pre ++ i :: post ∧ obs (m.run s pre) i = some e ∧
        t = n + pre.length + 1 := by
  induction is generalizing s n with
  | nil => simp
  | cons j is ih =>
    rw [eventsAt_cons, List.mem_append, ih]
    constructor
    · rintro (h | ⟨pre, i, post, rfl, h, rfl⟩)
      · -- the first edge shows it
        have hshown : obs s j = some e ∧ t = n + 1 := by
          cases hobs : obs s j with
          | none => simp [hobs] at h
          | some e' => simpa [hobs, eq_comm] using h
        exact ⟨[], j, is, rfl, hshown.1, hshown.2⟩
      · exact ⟨j :: pre, i, post, rfl, h, by rw [List.length_cons]; omega⟩
    · rintro ⟨pre, i, post, hsplit, h, rfl⟩
      cases pre with
      | nil =>
        obtain ⟨rfl, rfl⟩ : j = i ∧ is = post := by simpa using hsplit
        have hobs : obs s j = some e := h
        left
        simp [hobs]
      | cons k pre =>
        obtain ⟨rfl, rfl⟩ : j = k ∧ is = pre ++ i :: post := by simpa using hsplit
        exact Or.inr ⟨pre, i, post, rfl, h, by rw [List.length_cons]; omega⟩

/-! ## Simulation -/

/-- **Simulation rule**: if `abs` commutes with every edge on states satisfying `P`, and
`obs'` shows the `g`-image of what `obs` shows, then the abstract machine's events are the
`g`-images of the concrete machine's, with the same stamps. -/
theorem eventsAt_simulation {m' : Machine τ ι} {obs' : τ → ι → Option ω'} {P : σ → Prop}
    (abs : σ → τ) (g : ω → ω') (hinv : ∀ s i, P s → P (m.step s i))
    (hstep : ∀ s i, P s → abs (m.step s i) = m'.step (abs s) i)
    (hobs : ∀ s i, P s → obs' (abs s) i = (obs s i).map g)
    {s : σ} (hs : P s) (n : ℕ) (is : List ι) :
    m'.eventsAt obs' (abs s) n is = (m.eventsAt obs s n is).map (Prod.map g id) := by
  induction is generalizing s n with
  | nil => rfl
  | cons i is ih =>
    rw [eventsAt_cons, eventsAt_cons, List.map_append, hobs s i hs, ← hstep s i hs,
      ih (hinv s i hs)]
    cases obs s i <;> rfl

/-- The simulated state itself, after a run. -/
theorem run_simulation {m' : Machine τ ι} {P : σ → Prop}
    (abs : σ → τ) (hinv : ∀ s i, P s → P (m.step s i))
    (hstep : ∀ s i, P s → abs (m.step s i) = m'.step (abs s) i)
    {s : σ} (hs : P s) (is : List ι) :
    abs (m.run s is) = m'.run (abs s) is := by
  induction is generalizing s with
  | nil => rfl
  | cons i is ih =>
    rw [run_cons, run_cons, ih (hinv s i hs), hstep s i hs]

/-! ## Unbounded input streams -/

variable (m)

/-- The registers before edge `n` of an unbounded input stream, edges counted from 0. -/
def stateAt (w : ℕ → ι) : ℕ → σ
  | 0 => m.reset
  | n + 1 => m.step (stateAt w n) (w n)

theorem stateAt_succ (w : ℕ → ι) (n : ℕ) :
    m.stateAt w (n + 1) = m.step (m.stateAt w n) (w n) := rfl

end Machine

end Rf215Sdr.Lib
