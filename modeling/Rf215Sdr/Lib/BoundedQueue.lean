import Rf215Sdr.Lib.Interleaving
import Rf215Sdr.Lib.Machine

/-!
# Bounded Queues and Clocked Machines That Implement Them

The queue every FIFO is meant to be: values leave in the order in which they came, and no more
than `cap` are inside at a time. A clocked machine implements an interleaved system if the
actions it performs along its runs are runs of that system.

## Main results

- `boundedQueue_conserves`: what went in is what came out and then what is still inside.
- `Machine.refines`: a relation kept at every edge makes whole runs implementations.
-/

namespace Rf215Sdr.Lib

/-! ## The queue -/

/-- What happens to a queue: a value enters, or a value leaves. -/
inductive QueueOp (α : Type*) where
  | put (a : α)
  | get (a : α)
  deriving DecidableEq, Repr

/-- The values that entered. -/
def putsOf {α : Type*} (ops : List (QueueOp α)) : List α :=
  ops.filterMap fun | .put a => some a | .get _ => none

/-- The values that left. -/
def getsOf {α : Type*} (ops : List (QueueOp α)) : List α :=
  ops.filterMap fun | .put _ => none | .get a => some a

section Ops

variable {α : Type*}

theorem putsOf_append (ops ops' : List (QueueOp α)) :
    putsOf (ops ++ ops') = putsOf ops ++ putsOf ops' :=
  List.filterMap_append

theorem getsOf_append (ops ops' : List (QueueOp α)) :
    getsOf (ops ++ ops') = getsOf ops ++ getsOf ops' :=
  List.filterMap_append

@[simp] theorem putsOf_map_put (l : List α) : putsOf (l.map QueueOp.put) = l := by
  simp [putsOf, List.filterMap_map]

@[simp] theorem putsOf_map_get (l : List α) : putsOf (l.map QueueOp.get) = [] := by
  simp [putsOf, List.filterMap_map]

@[simp] theorem getsOf_map_put (l : List α) : getsOf (l.map QueueOp.put) = [] := by
  simp [getsOf, List.filterMap_map]

@[simp] theorem getsOf_map_get (l : List α) : getsOf (l.map QueueOp.get) = l := by
  simp [getsOf, List.filterMap_map]

end Ops

/-- A queue with room for `cap` values: `put` needs room, and `get` takes the oldest value. -/
def boundedQueue (α : Type*) [DecidableEq α] (cap : ℕ) : System (List α) (QueueOp α) where
  init := []
  step q
    | .put a => if q.length < cap then some (q ++ [a]) else none
    | .get a => if q.head? = some a then some q.tail else none

section Queue

variable {α : Type*} [DecidableEq α] {cap : ℕ}

theorem boundedQueue_put {q q' : List α} {a : α} :
    (boundedQueue α cap).step q (.put a) = some q' ↔ q.length < cap ∧ q' = q ++ [a] := by
  show (if q.length < cap then some (q ++ [a]) else none) = some q' ↔ _
  split_ifs with h <;> simp [h, eq_comm]

theorem boundedQueue_get {q q' : List α} {a : α} :
    (boundedQueue α cap).step q (.get a) = some q' ↔ q = a :: q' := by
  show (if q.head? = some a then some q.tail else none) = some q' ↔ _
  cases q with
  | nil => simp
  | cons b q =>
    by_cases h : b = a
    · simp [h]
    · simp [h]

/-- **Conservation**: what was inside and what came in is what left and what is inside now,
in this order; and the bound is kept. -/
theorem boundedQueue_conserves {q q' : List α} {ops : List (QueueOp α)}
    (hrun : (boundedQueue α cap).run q ops = some q') (hq : q.length ≤ cap) :
    q ++ putsOf ops = getsOf ops ++ q' ∧ q'.length ≤ cap := by
  induction ops generalizing q with
  | nil =>
    obtain rfl := Option.some.inj hrun
    exact ⟨by simp [putsOf, getsOf], hq⟩
  | cons op ops ih =>
    obtain ⟨q₁, hstep, hrest⟩ := (System.run_cons_eq_some _).mp hrun
    cases op with
    | put a =>
      obtain ⟨hroom, rfl⟩ := boundedQueue_put.mp hstep
      obtain ⟨hcons, hlen⟩ := ih hrest (by simpa [Nat.succ_le_iff] using hroom)
      refine ⟨?_, hlen⟩
      calc q ++ putsOf (.put a :: ops) = q ++ [a] ++ putsOf ops := by simp [putsOf]
        _ = getsOf ops ++ q' := hcons
    | get a =>
      obtain rfl := boundedQueue_get.mp hstep
      obtain ⟨hcons, hlen⟩ := ih hrest (by simp at hq; omega)
      refine ⟨?_, hlen⟩
      calc a :: q₁ ++ putsOf (.get a :: ops) = a :: (q₁ ++ putsOf ops) := by simp [putsOf]
        _ = a :: (getsOf ops ++ q') := by rw [hcons]

end Queue

/-! ## Machines that implement a system -/

namespace Machine

variable {σ τ ι α : Type*} (m : Machine σ ι) (acts : σ → ι → List α)

/-- The actions performed along a run, several at one edge where `acts` says so. -/
def trace (s : σ) : List ι → List α
  | [] => []
  | i :: is => acts s i ++ trace (m.step s i) is

@[simp] theorem trace_nil (s : σ) : m.trace acts s [] = [] := rfl

theorem trace_cons (s : σ) (i : ι) (is : List ι) :
    m.trace acts s (i :: is) = acts s i ++ m.trace acts (m.step s i) is := rfl

theorem trace_append (s : σ) (is js : List ι) :
    m.trace acts s (is ++ js) = m.trace acts s is ++ m.trace acts (m.run s is) js := by
  induction is generalizing s with
  | nil => rfl
  | cons i is ih => rw [List.cons_append, trace_cons, trace_cons, ih, List.append_assoc, run_cons]

variable {m acts}

/-- **Refinement rule**: if every edge performs actions the system can take, between the
states related to the registers before and after it, then every run performs a run of the
system. -/
theorem refines {S : System τ α} {R : σ → τ → Prop}
    (hstep : ∀ s t i, R s t → ∃ t', S.run t (acts s i) = some t' ∧ R (m.step s i) t')
    {s : σ} {t : τ} (hst : R s t) (is : List ι) :
    ∃ t', S.run t (m.trace acts s is) = some t' ∧ R (m.run s is) t' := by
  induction is generalizing s t with
  | nil => exact ⟨t, rfl, hst⟩
  | cons i is ih =>
    obtain ⟨t₁, hfirst, hrel⟩ := hstep s t i hst
    obtain ⟨t', hrest, hlast⟩ := ih hrel
    exact ⟨t', (S.run_append_eq_some).mpr ⟨t₁, hfirst, hrest⟩, hlast⟩

end Machine

end Rf215Sdr.Lib
