import Mathlib.Data.Int.Basic
import Mathlib.Data.List.Induction
import Rf215Sdr.Lib.Interleaving

/-!
# Gap Counts and Lossy Queues

Two ledgers of a receiver that may lose items. A *gap counter* compares sequence numbers with
the one it expects and adds up the signed differences; they telescope. A *lossy queue* drops
an item offered to it when it is full; what was taken and what is waiting are the items not
dropped, in the order in which they were offered.

## Main results

- `gaps_balance`: the span of the numbers seen is their count plus the reported gaps.
- `kept_of_reachable`, `length_queue_le`: nothing but a reported drop loses an item, and the
  queue never holds more than its capacity.
-/

namespace Rf215Sdr.Lib

/-! ## Gap counters -/

/-- The number expected next, and the sum of the signed gaps reported so far. -/
@[ext]
structure GapCounter where
  expected : Option ℕ
  missed : ℤ
  deriving DecidableEq, Repr

/-- Nothing seen yet. -/
def GapCounter.init : GapCounter :=
  ⟨none, 0⟩

/-- The signed gap reported for `n`: none for the first number. -/
def GapCounter.gap (g : GapCounter) (n : ℕ) : ℤ :=
  match g.expected with
  | none => 0
  | some e => n - e

/-- A number comes in; the next one is expected to follow it, modulo `m`. -/
def GapCounter.observe (m : ℕ) (g : GapCounter) (n : ℕ) : GapCounter where
  expected := some ((n + 1) % m)
  missed := g.missed + g.gap n

/-- The counter after a list of numbers. -/
def gaps (m : ℕ) (ns : List ℕ) : GapCounter :=
  ns.foldl (GapCounter.observe m) GapCounter.init

@[simp] theorem gaps_nil (m : ℕ) : gaps m [] = GapCounter.init := rfl

theorem gaps_append_singleton (m : ℕ) (ns : List ℕ) (n : ℕ) :
    gaps m (ns ++ [n]) = (gaps m ns).observe m n := by
  simp [gaps, List.foldl_append]

/-- **Telescoping**: as long as no number is the last one below the modulus, the span from
the first to the last number is their count plus the gaps reported. -/
theorem gaps_balance {m : ℕ} {ns : List ℕ} (hm : ∀ n ∈ ns, n + 1 < m) {first last : ℕ}
    (hfirst : ns.head? = some first) (hlast : ns.getLast? = some last) :
    (gaps m ns).expected = some (last + 1) ∧
      (last : ℤ) - first + 1 = (gaps m ns).missed + ns.length := by
  induction ns using List.reverseRecOn generalizing last with
  | nil => cases hfirst
  | append_singleton ns n ih =>
    obtain rfl : n = last := by simpa using hlast
    -- the expected number does not wrap around
    have hn : (n + 1) % m = n + 1 := Nat.mod_eq_of_lt (hm n (by simp))
    rw [gaps_append_singleton, List.length_append, List.length_singleton]
    cases ns with
    | nil =>
      obtain rfl : n = first := by simpa using hfirst
      refine ⟨by simp [GapCounter.observe, hn], ?_⟩
      simp [GapCounter.observe, GapCounter.gap, GapCounter.init]
    | cons k ks =>
      have hlast' : (k :: ks).getLast? = some ((k :: ks).getLast (by simp)) :=
        List.getLast?_eq_some_getLast (by simp)
      -- the number expected follows the last one seen, so the gap telescopes
      obtain ⟨hexp, hbal⟩ := ih (fun j hj => hm j (List.mem_append_left _ hj)) hfirst hlast'
      refine ⟨by simp [GapCounter.observe, hn], ?_⟩
      simp only [GapCounter.observe, GapCounter.gap, hexp]
      push_cast
      omega

/-! ## Lossy queues -/

/-- The items offered, each with whether it was dropped; the queue; the items taken. -/
structure LossyQueue (α : Type*) where
  offers : List (α × Bool)
  queue : List α
  taken : List α

/-- The two operations. -/
inductive LossyQueue.Op (α : Type*) where
  | offer (a : α)
  | take

namespace LossyQueue

variable {α : Type*}

/-- A queue of capacity `cap` is full; without a capacity it never is. -/
def full (cap : Option ℕ) (queue : List α) : Bool :=
  match cap with
  | none => false
  | some c => decide (c ≤ queue.length)

/-- Offering drops the item when the queue is full; taking needs an item. -/
def step (cap : Option ℕ) (q : LossyQueue α) : Op α → Option (LossyQueue α)
  | .offer a =>
    if full cap q.queue then some { q with offers := q.offers ++ [(a, true)] }
    else some { q with offers := q.offers ++ [(a, false)], queue := q.queue ++ [a] }
  | .take =>
    match q.queue with
    | [] => none
    | a :: rest => some { q with queue := rest, taken := q.taken ++ [a] }

/-- A lossy queue, empty at first. -/
def system (cap : Option ℕ) : System (LossyQueue α) (Op α) where
  init := ⟨[], [], []⟩
  step := step cap

/-- The offered items that were not dropped. -/
def kept (offers : List (α × Bool)) : List α :=
  (offers.filter fun o => !o.2).map Prod.fst

/-- How many offers were dropped. -/
def dropped (offers : List (α × Bool)) : ℕ :=
  offers.countP fun o => o.2

theorem kept_append (os os' : List (α × Bool)) : kept (os ++ os') = kept os ++ kept os' := by
  simp [kept]

/-- Every offer is kept or dropped. -/
theorem length_eq (offers : List (α × Bool)) :
    offers.length = (kept offers).length + dropped offers := by
  induction offers with
  | nil => rfl
  | cons o os ih =>
    obtain ⟨a, lost⟩ := o
    cases lost <;> simp_all [kept, dropped] <;> omega

/-- What an operation can do: an item is dropped, queued, or taken. -/
theorem step_cases {cap : Option ℕ} {q q' : LossyQueue α} {op : Op α}
    (h : step cap q op = some q') :
    (∃ a, full cap q.queue = true ∧ q' = { q with offers := q.offers ++ [(a, true)] }) ∨
      (∃ a, full cap q.queue = false ∧
        q' = { q with offers := q.offers ++ [(a, false)], queue := q.queue ++ [a] }) ∨
      ∃ a rest, q.queue = a :: rest ∧ q' = { q with queue := rest, taken := q.taken ++ [a] } := by
  cases op with
  | offer a =>
    unfold step at h
    split_ifs at h with hfull
    · exact Or.inl ⟨a, hfull, (Option.some.inj h).symm⟩
    · exact Or.inr (Or.inl ⟨a, Bool.eq_false_iff.mpr hfull, (Option.some.inj h).symm⟩)
  | take =>
    unfold step at h
    cases hq : q.queue with
    | nil => simp [hq] at h
    | cons a rest =>
      simp only [hq, Option.some.injEq] at h
      exact Or.inr (Or.inr ⟨a, rest, rfl, h.symm⟩)

/-- What was taken and what is waiting are the kept items in the order of the offers. -/
theorem kept_of_reachable {cap : Option ℕ} {q : LossyQueue α} (h : (system cap).Reachable q) :
    q.taken ++ q.queue = kept q.offers := by
  apply h.invariant (P := fun q => q.taken ++ q.queue = kept q.offers) rfl
  intro q op q' hstep hq
  obtain ⟨a, -, rfl⟩ | ⟨a, -, rfl⟩ | ⟨a, rest, hqueue, rfl⟩ := step_cases hstep
  · -- a dropped offer is not kept
    simpa [kept_append, kept] using hq
  · show q.taken ++ (q.queue ++ [a]) = kept (q.offers ++ [(a, false)])
    rw [kept_append, ← hq, List.append_assoc]
    rfl
  · -- the item changes sides
    show q.taken ++ [a] ++ rest = kept q.offers
    rw [← hq, hqueue, List.append_assoc]
    rfl

/-- The queue never holds more than its capacity. -/
theorem length_queue_le {c : ℕ} {q : LossyQueue α} (h : (system (some c)).Reachable q) :
    q.queue.length ≤ c := by
  apply h.invariant (P := fun q => q.queue.length ≤ c) (Nat.zero_le c)
  intro q op q' hstep hq
  obtain ⟨a, -, rfl⟩ | ⟨a, hroom, rfl⟩ | ⟨a, rest, hqueue, rfl⟩ := step_cases hstep
  · exact hq
  · have hlt : q.queue.length < c := by simpa [full] using hroom
    rw [List.length_append]
    exact hlt
  · rw [hqueue] at hq
    exact Nat.le_of_succ_le hq

end LossyQueue

end Rf215Sdr.Lib
