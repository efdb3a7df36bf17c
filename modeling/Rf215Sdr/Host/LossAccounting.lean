import Mathlib.Algebra.BigOperators.Group.List.Basic
import Mathlib.Tactic.Ring
import Rf215Sdr.Host.Receiver
import Rf215Sdr.Lib.LossyQueue

/-!
# Loss Accounting of the UDP Receiver

Every sequence number between the first and the last one accepted is accounted for: reported
as missed, written out, waiting in the queue, or reported as lost. The receiver refines the
lossy queue, with the vector in the hands of `work` counted as taken; its warnings add up to
the gap counter of the numbers accepted.

## Main results

- `receiver_simulates`: reachable receivers are reachable lossy queues.
- `ledger_of_run`: what the log, the history and the schedule say about one another.
- `losses_accounted`: the balance, at every point where both threads are between iterations.
-/

namespace Rf215Sdr.Host

open Rf215Sdr.Lib

/-! ## Reading the log and the schedule -/

/-- The count of packets reported as missed by one line. -/
def RxLog.missedCount : RxLog → ℤ
  | .missed count _ _ => count
  | _ => 0

/-- A vector is reported as lost. -/
def RxLog.isFifoFull : RxLog → Bool
  | .fifoFull => true
  | _ => false

/-- The sum of the signed counts reported as missed packets. -/
def missedTotal (log : List RxLog) : ℤ :=
  (log.map RxLog.missedCount).sum

/-- The number of vectors reported as lost. -/
def lostTotal (log : List RxLog) : ℕ :=
  log.countP RxLog.isFifoFull

/-- What an action brings in: sequence number and vector of a datagram of the right length. -/
def acceptedBy (b : UdpIqSource) : ReceiverAct → Option (ℕ × List Sample)
  | .recv dgram _ => decode b dgram
  | _ => none

/-- The accepted datagrams of a schedule, in order. -/
def accepted (b : UdpIqSource) (as : List ReceiverAct) : List (ℕ × List Sample) :=
  as.filterMap (acceptedBy b)

theorem missedTotal_append (l l' : List RxLog) :
    missedTotal (l ++ l') = missedTotal l + missedTotal l' := by
  simp [missedTotal]

theorem lostTotal_append (l l' : List RxLog) :
    lostTotal (l ++ l') = lostTotal l + lostTotal l' := by
  simp [lostTotal]

theorem accepted_concat (b : UdpIqSource) (as : List ReceiverAct) (a : ReceiverAct) :
    accepted b (as ++ [a]) = accepted b as ++ (acceptedBy b a).toList := by
  unfold accepted
  rw [List.filterMap_append]
  cases h : acceptedBy b a <;> simp [h]

/-! ## The receiver is a lossy queue -/

namespace Receiver

/-- The datagram accepted by `_rx_loop` and not yet offered to the queue. -/
def inHand (s : Receiver) : List (ℕ × List Sample) :=
  match s.rx with
  | .putting n vec => [(n, vec)]
  | _ => []

/-- The vector taken by `work` and not yet written. -/
def inWork (s : Receiver) : List (List Sample) :=
  match s.work with
  | .writing _ _ vec => [vec]
  | _ => []

/-- The vectors written by the call of `work` that is under way. -/
def producedSoFar (s : Receiver) : ℕ :=
  match s.work with
  | .idle => 0
  | .looping _ produced => produced
  | .writing _ produced _ => produced

/-- The queue of the block, with the vector in the hands of `work` counted as taken. -/
def toLossy (s : Receiver) : LossyQueue (List Sample) where
  offers := s.history.map fun a => (a.vec, a.lost)
  queue := s.queue
  taken := s.out ++ s.inWork

end Receiver

/-- `maxsize` as a capacity. -/
def UdpIqSource.capacity (b : UdpIqSource) : Option ℕ :=
  if 0 < b.queueLen then some b.queueLen.toNat else none

theorem full_capacity (b : UdpIqSource) (queue : List (List Sample)) :
    LossyQueue.full b.capacity queue = Receiver.queueFull b queue := by
  unfold UdpIqSource.capacity Receiver.queueFull LossyQueue.full
  split_ifs with hpos
  · simp only [hpos, decide_true, Bool.true_and, decide_eq_decide]
    omega
  · simp [hpos]

/-- **Refinement**: every step of the receiver is at most one operation of the lossy queue. -/
theorem receiver_simulates {b : UdpIqSource} {s : Receiver} (h : (receiver b).Reachable s) :
    (LossyQueue.system b.capacity).Reachable s.toLossy := by
  apply System.reachable_simulation Receiver.toLossy rfl _ h
  intro s a t hst
  -- a step that leaves history, queue and taken vectors alone is no operation
  cases Receiver.stepped_of_step hst with
  | ignored => exact ⟨[], rfl⟩
  | accepted => exact ⟨[], rfl⟩
  | timeout => exact ⟨[], rfl⟩
  | close => exact ⟨[], rfl⟩
  | put hrx =>
    rename_i n vec
    -- `put_nowait` is an offer, dropped or not
    refine ⟨[.offer vec], ?_⟩
    show (LossyQueue.step b.capacity s.toLossy (.offer vec)).bind some = _
    unfold LossyQueue.step Receiver.putNowait
    rw [show s.toLossy.queue = s.queue from rfl, full_capacity]
    split_ifs <;> simp [Receiver.toLossy, Receiver.inWork]
  | call hwork =>
    refine ⟨[], ?_⟩
    simp [Receiver.toLossy, Receiver.inWork, hwork]
  | get hwork hlt =>
    unfold Receiver.getNowait
    cases hq : s.queue with
    | nil =>
      refine ⟨[], ?_⟩
      simp [Receiver.toLossy, Receiver.inWork, hwork, hq]
    | cons vec rest =>
      -- `get_nowait` takes a vector; an empty queue only ends the call
      refine ⟨[.take], ?_⟩
      show (LossyQueue.step b.capacity s.toLossy .take).bind some = _
      simp [LossyQueue.step, Receiver.toLossy, Receiver.inWork, hwork, hq]
  | write hwork =>
    refine ⟨[], ?_⟩
    simp [Receiver.toLossy, Receiver.inWork, hwork]
  | ret hwork =>
    refine ⟨[], ?_⟩
    simp [Receiver.toLossy, Receiver.inWork, hwork]

/-! ## The ledger -/

/-- What log, history and schedule say about one another, at any point of a run. -/
structure Ledger (b : UdpIqSource) (as : List ReceiverAct) (s : Receiver) : Prop where
  accepted_eq : accepted b as = s.history.map (fun a => (a.seq, a.vec)) ++ s.inHand
  counter_eq : (⟨s.seq, missedTotal s.log⟩ : GapCounter) =
    gaps (2 ^ 64) ((accepted b as).map Prod.fst)
  lost_eq : lostTotal s.log = s.history.countP Accepted.lost
  returned_eq : s.returned.sum + s.producedSoFar = s.out.length

/-- The warning about a sequence number reports the gap of the counter. -/
theorem missedTotal_gapWarning (s : Receiver) (n : ℕ) (missed : ℤ) :
    missedTotal (s.gapWarning n) = GapCounter.gap ⟨s.seq, missed⟩ n := by
  unfold Receiver.gapWarning GapCounter.gap
  cases s.seq with
  | none => rfl
  | some e =>
    dsimp only
    split_ifs with hne
    · simp [missedTotal, RxLog.missedCount]
    · simp [missedTotal, not_not.mp hne]

theorem lostTotal_gapWarning (s : Receiver) (n : ℕ) : lostTotal (s.gapWarning n) = 0 := by
  unfold Receiver.gapWarning
  cases s.seq with
  | none => rfl
  | some e =>
    dsimp only
    split_ifs <;> rfl

/-- `(seq + 1) & 0xFFFFFFFFFFFFFFFF`. -/
theorem and_mask64 (n : ℕ) : n &&& 0xFFFFFFFFFFFFFFFF = n % 2 ^ 64 :=
  Nat.and_two_pow_sub_one_eq_mod n 64

/-- A sequence number read out of a datagram has 64 bits. -/
theorem seq_lt_of_mem_accepted {b : UdpIqSource} {as : List ReceiverAct}
    {p : ℕ × List Sample} (hp : p ∈ accepted b as) : p.1 < 2 ^ 64 := by
  obtain ⟨a, -, ha⟩ := List.mem_filterMap.mp hp
  cases a with
  | recv dgram second =>
    exact seq_lt_of_decode ha
  | _ => cases ha

/-- An accepted datagram moves the counter on. -/
theorem Ledger.accept {b : UdpIqSource} {as : List ReceiverAct} {s : Receiver}
    (h : Ledger b as s) (hrx : s.rx = .waiting) {dgram : List Byte} {second : Bool} {n : ℕ}
    {vec : List Sample} (hdecode : decode b dgram = some (n, vec)) :
    Ledger b (as ++ [.recv dgram second]) (s.accept b n vec second) := by
  obtain ⟨hacc, hcount, hlost, hret⟩ := h
  have hnew : accepted b (as ++ [.recv dgram second]) = accepted b as ++ [(n, vec)] := by
    rw [accepted_concat]
    simp [acceptedBy, hdecode]
  -- the rate line counts for neither total
  have hrate : missedTotal (if second then [RxLog.rate (s.rateCount + b.vecLen)] else []) = 0 ∧
      lostTotal (if second then [RxLog.rate (s.rateCount + b.vecLen)] else []) = 0 := by
    cases second <;> exact ⟨rfl, rfl⟩
  refine ⟨?_, ?_, ?_, hret⟩
  · rw [hnew, hacc]
    simp [Receiver.accept, Receiver.inHand, hrx]
  · -- the gap counter observes the number, and the warning reports its gap
    rw [hnew, List.map_append, List.map_cons, List.map_nil, gaps_append_singleton, ← hcount]
    unfold Receiver.accept GapCounter.observe
    dsimp only
    rw [missedTotal_append, missedTotal_append, hrate.1,
      missedTotal_gapWarning s n (missedTotal s.log), and_mask64, add_zero]
  · unfold Receiver.accept
    dsimp only
    rw [lostTotal_append, lostTotal_append, hrate.2, lostTotal_gapWarning, hlost]
    rfl

/-- The put that follows moves the datagram into the history. -/
theorem Ledger.putNowait {b : UdpIqSource} {as : List ReceiverAct} {s : Receiver}
    (h : Ledger b as s) {n : ℕ} {vec : List Sample} (hrx : s.rx = .putting n vec) :
    Ledger b (as ++ [.put]) (s.putNowait b n vec) := by
  obtain ⟨hacc, hcount, hlost, hret⟩ := h
  have hsame : accepted b (as ++ [.put]) = accepted b as := by
    rw [accepted_concat]
    exact List.append_nil _
  -- the datagram in hand becomes the last one of the history
  have hhand : s.inHand = [(n, vec)] := by
    simp [Receiver.inHand, hrx]
  unfold Receiver.putNowait
  split_ifs with hfull
  · refine ⟨?_, ?_, ?_, hret⟩
    · rw [hsame, hacc, hhand]
      simp [Receiver.inHand]
    · rw [hsame, ← hcount]
      dsimp only
      rw [missedTotal_append]
      simp [missedTotal, RxLog.missedCount]
    · dsimp only
      rw [lostTotal_append, hlost, List.countP_append]
      rfl
  · refine ⟨?_, by rw [hsame, ← hcount], ?_, hret⟩
    · rw [hsame, hacc, hhand]
      simp [Receiver.inHand]
    · dsimp only
      rw [hlost, List.countP_append]
      rfl

/-- A step of `work` touches neither history nor log. -/
theorem Ledger.of_work {b : UdpIqSource} {as : List ReceiverAct} {s t : Receiver}
    (h : Ledger b as s) {a : ReceiverAct} (ha : acceptedBy b a = none)
    (hhist : t.history = s.history) (hrx : t.rx = s.rx) (hseq : t.seq = s.seq)
    (hlog : t.log = s.log) (hret : t.returned.sum + t.producedSoFar = t.out.length) :
    Ledger b (as ++ [a]) t := by
  obtain ⟨hacc, hcount, hlost, -⟩ := h
  have hsame : accepted b (as ++ [a]) = accepted b as := by
    rw [accepted_concat, ha]
    exact List.append_nil _
  refine ⟨?_, ?_, ?_, hret⟩
  · rw [hsame, hacc, hhist]
    simp only [Receiver.inHand, hrx]
  · rw [hsame, ← hcount, hseq, hlog]
  · rw [hlog, hhist, hlost]

/-- **The ledger holds along every run.** -/
theorem ledger_of_run {b : UdpIqSource} {as : List ReceiverAct} {s : Receiver}
    (hrun : (receiver b).run Receiver.init as = some s) : Ledger b as s := by
  apply System.run_induction (S := receiver b) (R := Ledger b) _ _ hrun
  · exact ⟨rfl, rfl, rfl, rfl⟩
  · intro as s a t hs hst
    -- `_rx_loop` moves log, counter and history; `work` only the vectors written
    cases Receiver.stepped_of_step hst with
    | ignored hrx hdecode bytes =>
      obtain ⟨hacc, hcount, hlost, hret⟩ := hs
      rename_i dgram second
      have hsame : accepted b (as ++ [.recv dgram second]) = accepted b as := by
        rw [accepted_concat]
        simp [acceptedBy, hdecode]
      refine ⟨?_, ?_, ?_, hret⟩
      · rw [hsame, hacc]
        simp [Receiver.inHand]
      · rw [hsame, ← hcount]
        dsimp only
        rw [missedTotal_append]
        simp [missedTotal, RxLog.missedCount]
      · dsimp only
        rw [lostTotal_append, hlost]
        rfl
    | accepted hrx hdecode => exact hs.accept hrx hdecode
    | timeout => exact hs.of_work rfl rfl rfl rfl rfl hs.returned_eq
    | close hrx =>
      obtain ⟨hacc, hcount, hlost, hret⟩ := hs
      have hsame : accepted b (as ++ [.close]) = accepted b as := by
        rw [accepted_concat]
        exact List.append_nil _
      refine ⟨?_, ?_, hlost, hret⟩
      · rw [hsame, hacc]
        simp [Receiver.inHand, hrx]
      · rw [hsame, ← hcount]
    | put hrx => exact hs.putNowait hrx
    | call hwork =>
      refine hs.of_work rfl rfl rfl rfl rfl ?_
      simpa [Receiver.producedSoFar, hwork] using hs.returned_eq
    | get hwork hlt =>
      unfold Receiver.getNowait
      cases hq : s.queue with
      | nil =>
        refine hs.of_work rfl rfl rfl rfl rfl ?_
        simpa [Receiver.producedSoFar, hwork] using hs.returned_eq
      | cons vec rest =>
        refine hs.of_work rfl rfl rfl rfl rfl ?_
        simpa [Receiver.producedSoFar, hwork] using hs.returned_eq
    | write hwork =>
      refine hs.of_work rfl rfl rfl rfl rfl ?_
      have := hs.returned_eq
      simp only [Receiver.producedSoFar, hwork, List.length_append, List.length_singleton] at this ⊢
      omega
    | ret hwork =>
      refine hs.of_work rfl rfl rfl rfl rfl ?_
      simpa [Receiver.producedSoFar, hwork] using hs.returned_eq

/-! ## The balance -/

/-- Both threads are between iterations: `_rx_loop` holds no datagram and `work` no vector, so
that it is idle or at the head of its loop. -/
def Receiver.Between (s : Receiver) : Prop :=
  (∀ n vec, s.rx ≠ .putting n vec) ∧ ∀ outLen produced vec, s.work ≠ .writing outLen produced vec

/-- **Loss accounting**: at every point between iterations, the span from the first to the
last accepted sequence number is the sum of the gaps reported, the vectors written, the
vectors waiting and the vectors reported lost; written and waiting vectors are the accepted
ones not reported lost, in order; the queue keeps its bound. -/
theorem losses_accounted (b : UdpIqSource) (hlen : 1 ≤ b.queueLen) (as : List ReceiverAct)
    (hseq : ∀ p ∈ accepted b as, p.1 ≠ 2 ^ 64 - 1) (s : Receiver)
    (hrun : (receiver b).run Receiver.init as = some s) (hbetween : s.Between) :
    (∀ first last, (accepted b as).head? = some first → (accepted b as).getLast? = some last →
      (last.1 : ℤ) - first.1 + 1 =
        missedTotal s.log + s.out.length + s.queue.length + lostTotal s.log) ∧
      s.history.map (fun a => (a.seq, a.vec)) = accepted b as ∧
      lostTotal s.log = s.history.countP Accepted.lost ∧
      s.out ++ s.queue = (s.history.filter fun a => !a.lost).map Accepted.vec ∧
      (s.queue.length : ℤ) ≤ b.queueLen := by
  obtain ⟨hacc, hcount, hlost, -⟩ := ledger_of_run hrun
  have hlossy := receiver_simulates ⟨as, hrun⟩
  obtain ⟨hrx, hwork⟩ := hbetween
  have hhand : s.inHand = [] := by
    unfold Receiver.inHand
    split
    · next n vec h => exact absurd h (hrx n vec)
    · rfl
  have hnone : s.inWork = [] := by
    unfold Receiver.inWork
    split
    · next outLen produced vec h => exact absurd h (hwork outLen produced vec)
    · rfl
  have hhist : s.history.map (fun a => (a.seq, a.vec)) = accepted b as := by
    rw [hacc, hhand, List.append_nil]
  -- what the lossy queue says about written and waiting vectors
  have hkept : s.out ++ s.queue = LossyQueue.kept (s.history.map fun a => (a.vec, a.lost)) := by
    have := LossyQueue.kept_of_reachable hlossy
    simpa [Receiver.toLossy, hnone] using this
  have hkept' : s.out ++ s.queue = (s.history.filter fun a => !a.lost).map Accepted.vec := by
    rw [hkept, LossyQueue.kept, List.filter_map, List.map_map]
    rfl
  refine ⟨?_, hhist, hlost, hkept', ?_⟩
  · intro first last hfirst hlast
    -- no sequence number wraps, so the gap counter telescopes
    have hbound : ∀ n ∈ (accepted b as).map Prod.fst, n + 1 < 2 ^ 64 := by
      intro n hn
      obtain ⟨p, hp, rfl⟩ := List.mem_map.mp hn
      have := hseq p hp
      have := seq_lt_of_mem_accepted hp
      omega
    have hhead : ((accepted b as).map Prod.fst).head? = some first.1 := by
      rw [List.head?_map, hfirst]
      rfl
    have hend : ((accepted b as).map Prod.fst).getLast? = some last.1 := by
      rw [List.getLast?_map, hlast]
      rfl
    obtain ⟨-, hspan⟩ := gaps_balance hbound hhead hend
    -- every offer was written, is waiting, or was reported lost
    have htotal : s.history.length = s.out.length + s.queue.length + lostTotal s.log := by
      have h := LossyQueue.length_eq (s.history.map fun a => (a.vec, a.lost))
      rw [← hkept, List.length_map, List.length_append, LossyQueue.dropped, List.countP_map] at h
      rw [h, hlost]
      rfl
    -- one history entry for each number
    have hcount' : ((accepted b as).map Prod.fst).length = s.history.length := by
      rw [List.length_map, ← hhist, List.length_map]
    rw [hspan, ← hcount, hcount', htotal]
    push_cast
    ring
  · have hcap : b.capacity = some b.queueLen.toNat := if_pos (by omega)
    rw [hcap] at hlossy
    have := LossyQueue.length_queue_le hlossy
    show (s.toLossy.queue.length : ℤ) ≤ b.queueLen
    omega

/-- Datagrams 5, 7 and 6 with room for one vector: one packet reported missing, then minus
two, and the vector of datagram 7 lost while `work` was not called. -/
theorem losses_accounted_reordered :
    let b : UdpIqSource := ⟨12, 1, by decide, by decide⟩
    let dgram : BitVec 64 → List Byte :=
      fun n => beBytes 8 n ++ [(0x80024000 : BitVec 32)].flatMap (beBytes 4)
    let as : List ReceiverAct :=
      [.recv (dgram 5) false, .put, .recv (dgram 7) false, .put, .call 2, .get,
        .recv (dgram 6) false, .write, .get, .put]
    ∃ s, (receiver b).run Receiver.init as = some s ∧
      ((6 : ℕ) : ℤ) - (5 : ℕ) + 1 =
        missedTotal s.log + s.out.length + s.queue.length + lostTotal s.log ∧
      s.out ++ s.queue = (s.history.filter fun a => !a.lost).map Accepted.vec := by
  intro b dgram as
  have hdecode : ∀ n, decode b (dgram n) = some (n.toNat, [toSample 0x80024000]) := by
    intro n
    have hvec : [(0x80024000 : BitVec 32)].length = b.vecLen := by decide
    exact decode_beBytes n hvec
  have hacc : accepted b as =
      [(5, [toSample 0x80024000]), (7, [toSample 0x80024000]), (6, [toSample 0x80024000])] := by
    have hrecv : accepted b as = [dgram 5, dgram 7, dgram 6].filterMap (decode b) := rfl
    rw [hrecv]
    simp only [List.filterMap_cons, hdecode, List.filterMap_nil]
    rfl
  have hseq : ∀ p ∈ accepted b as, p.1 ≠ 2 ^ 64 - 1 := by
    rw [hacc]
    simp
  obtain ⟨s, hrun, hbetween⟩ : ∃ s, (receiver b).run Receiver.init as = some s ∧ s.Between :=
    ⟨_, rfl, fun _ _ h => (by cases h), fun _ _ _ h => (by cases h)⟩
  obtain ⟨hspan, -, -, hkept, -⟩ := losses_accounted b (by decide) as hseq s hrun hbetween
  rw [hacc] at hspan
  exact ⟨s, hrun, hspan _ _ rfl rfl, hkept⟩

end Rf215Sdr.Host
