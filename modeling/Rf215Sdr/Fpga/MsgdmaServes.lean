import Rf215Sdr.Fpga.Msgdma
import Rf215Sdr.Fpga.WriteMasterAnswers

/-!
# The DMA Controller Serves Its Descriptors

That nothing is served twice or out of order is a matter of the invariant; that everything is
served needs a measure. The edges that count are those at which a beat is at hand, the bus does
not wait and the response FIFO has room: each brings the oldest unanswered descriptor nearer to
its response, by a byte, or by one of the steps before the first byte and behind the last one.

## Main results

- `MsgdmaHistory.owes_clock`: one edge, with what is still owed.
- `msgdma_serves`: descriptors become commands once each and in order, and all are answered.
-/

namespace Rf215Sdr.Fpga

open Rf215Sdr.Lib

/-! ## The measure -/

/-- The edges that descriptors take at most: one for each byte, and three for each. -/
def costOf (ws : List DescriptorWord) : ℕ :=
  (ws.map fun w => w.command.bytes + 3).sum

theorem costOf_cons (w : DescriptorWord) (ws : List DescriptorWord) :
    costOf (w :: ws) = w.command.bytes + 3 + costOf ws :=
  List.sum_cons

namespace Msgdma

/-- A beat is at hand, the bus does not wait, and the response FIFO has room. -/
def attended (s : Msgdma) (i : MsgdmaIn) : Bool :=
  s.master.served (s.masterIn i) && !s.dispatcher.responseFifoFull

/-- The edges until the descriptor FIFO shows its oldest word. -/
def settling (s : Msgdma) : ℕ :=
  if s.dispatcher.writeCommandEmptyD1 then 2
  else if s.dispatcher.writeCommandEmptyD2 then 1
  else 0

/-- They matter while descriptors wait. -/
def waits (s : Msgdma) (todo : List DescriptorWord) : ℕ :=
  if todo = [] then 0 else s.settling

/-- What the command being carried out still takes, of whose bytes at most `m` are missing. -/
def ahead (s : Msgdma) (m : ℕ) : ℕ :=
  if s.master.responseValid then 1 else m + 2

/-- Of the descriptors `first`, `k` were issued and `n` answered; the others are answered after
at most `b` edges that count. -/
inductive Owes (s : Msgdma) (first : List DescriptorWord) : (k n b : ℕ) → Prop
  | idle {k b : ℕ} (hb : s.waits (first.drop k) + costOf (first.drop k) ≤ b) : Owes s first k k b
  | busy {n m b : ℕ} (hs : s.master.Awaits m)
      (hb : s.ahead m + (s.waits (first.drop (n + 1)) + costOf (first.drop (n + 1))) ≤ b) :
      Owes s first (n + 1) n b

/-- Who owes nothing has answered. -/
theorem Owes.answered {s : Msgdma} {first : List DescriptorWord} {k n : ℕ}
    (h : s.Owes first k n 0) : first.length ≤ n := by
  cases h with
  | idle hb =>
    cases hdrop : first.drop k with
    | nil => exact List.drop_eq_nil_iff.mp hdrop
    | cons w ws =>
      rw [hdrop, costOf_cons] at hb
      omega
  | @busy _ m _ hs hb =>
    have hpos : 0 < s.ahead m := by
      unfold ahead
      split_ifs <;> omega
    omega

end Msgdma

/-! ## One edge -/

namespace MsgdmaHistory

variable {stream : ℕ → StBeat64} {ddr₀ ddr : ℕ → Byte} {pushed first : List DescriptorWord}
  {k n r taken b : ℕ} {s : Msgdma} {i : MsgdmaIn}

/-- While descriptors wait, the FIFO settles. -/
theorem settling_clock (h : MsgdmaHistory stream ddr₀ pushed k n r taken s ddr)
    (hlt : k < pushed.length) : (s.clock i).settling = s.settling - 1 := by
  have hempty : s.dispatcher.descriptors.empty = false := by
    rw [Bool.eq_false_iff, ne_eq, h.queue.empty_iff]
    exact Nat.ne_of_gt hlt
  have hd1 : (s.clock i).dispatcher.writeCommandEmptyD1 = false := hempty
  have hd2 : (s.clock i).dispatcher.writeCommandEmptyD2 = s.dispatcher.writeCommandEmptyD1 := rfl
  unfold Msgdma.settling
  rw [hd1, hd2]
  cases s.dispatcher.writeCommandEmptyD1 <;> cases s.dispatcher.writeCommandEmptyD2 <;> rfl

theorem waits_clock (h : MsgdmaHistory stream ddr₀ pushed k n r taken s ddr)
    (hfirst : first <+: pushed) (j : ℕ) (hj : k ≤ j) :
    (s.clock i).waits (first.drop j) ≤ s.waits (first.drop k) - 1 := by
  unfold Msgdma.waits
  by_cases hdone : first.drop j = []
  · rw [if_pos hdone]
    exact Nat.zero_le _
  · have hjlt : j < first.length := by
      rw [List.drop_eq_nil_iff, Nat.not_le] at hdone
      exact hdone
    have hlt : k < pushed.length := by
      have := hfirst.length_le
      omega
    have hwait : first.drop k ≠ [] := by
      rw [ne_eq, List.drop_eq_nil_iff]
      omega
    rw [if_neg hdone, if_neg hwait, h.settling_clock hlt]

/-- **The oldest descriptor is issued** once the FIFO shows it, the master is ready and the
response FIFO has room. -/
theorem issue_of_settled (h : MsgdmaHistory stream ddr₀ pushed k n r taken s ddr)
    (hlt : k < pushed.length) (hsettled : s.settling = 0) (hready : s.master.commandReady = true)
    (hroom : s.dispatcher.responseFifoFull = false) :
    s.dispatcher.issueWriteDescriptor s.master.commandReady = true := by
  have hempty : s.dispatcher.descriptors.empty = false := by
    rw [Bool.eq_false_iff, ne_eq, h.queue.empty_iff]
    exact Nat.ne_of_gt hlt
  have hd : s.dispatcher.writeCommandEmptyD1 = false ∧
      s.dispatcher.writeCommandEmptyD2 = false := by
    unfold Msgdma.settling at hsettled
    split_ifs at hsettled with hd1 hd2
    exact ⟨Bool.eq_false_iff.mpr hd1, Bool.eq_false_iff.mpr hd2⟩
  simp [Dispatcher.issueWriteDescriptor, Dispatcher.writeCommandValid, Dispatcher.stop,
    Dispatcher.stopIssuingCommands, Dispatcher.stopDescriptors, h.control_eq, h.swReset_eq, hempty,
    hd.1, hd.2, hready, hroom]

/-- Nothing is issued before. -/
theorem settled_of_issue
    (hissue : s.dispatcher.issueWriteDescriptor s.master.commandReady = true) :
    s.settling = 0 ∧ s.master.commandReady = true := by
  simp only [Dispatcher.issueWriteDescriptor, Dispatcher.writeCommandValid, Bool.and_eq_true,
    Bool.not_eq_true'] at hissue
  obtain ⟨⟨⟨-, hd1⟩, hd2⟩, hready⟩ := hissue
  refine ⟨?_, hready⟩
  simp [Msgdma.settling, hd1, hd2]

/-- The command issued last is waited for. -/
theorem awaits_last (h : MsgdmaHistory stream ddr₀ pushed (n + 1) n r taken s ddr)
    {w : DescriptorWord} (hw : pushed[n]? = some w) (hbytes : 0 < w.command.bytes) :
    s.master.Awaits w.command.bytes := by
  obtain ⟨p, -, hphase, -⟩ := h.master.phase
  apply hphase.awaits h.length_commands _ hbytes
  rw [List.take_add_one, hw, Option.toList_some, List.map_append, List.map_singleton,
    List.getLast?_concat]

/-- **One edge with what is owed**: the edges that count make it less. -/
theorem owes_clock (h : MsgdmaHistory stream ddr₀ pushed k n r taken s ddr)
    (hnext : MsgdmaHistory stream ddr₀ (pushed ++ (s.dispatcher.pushes i.host).toList)
      (k + (s.dispatcher.issueWriteDescriptor s.master.commandReady).toNat)
      (n + s.master.responseValid.toNat)
      (r + (s.dispatcher.responseFifoRead i.host i.cells).toNat)
      (taken + (s.master.accepts (s.masterIn i)).toList.length) (s.clock i)
      (s.master.ddrAfter (s.masterIn i) ddr))
    (hfirst : first <+: pushed) (hbytes : ∀ w ∈ first, 0 < w.command.bytes)
    (hopen : n < first.length) (howes : s.Owes first k n b) :
    ∃ b', b' + (s.attended i).toNat ≤ b ∧ (s.clock i).Owes first
      (k + (s.dispatcher.issueWriteDescriptor s.master.commandReady).toNat)
      (n + s.master.responseValid.toNat) b' := by
  have hattended := Bool.toNat_le (s.attended i)
  obtain ⟨p, -, hphase, -⟩ := h.master.phase
  cases howes with
  | idle hb =>
    obtain ⟨hready, hresp⟩ := hphase.commandReady_of_length h.length_commands
    have hlt : k < pushed.length := Nat.lt_of_lt_of_le hopen hfirst.length_le
    obtain ⟨later, hlater⟩ := hfirst
    have hw : pushed[k]? = some first[k] := by
      rw [← hlater, List.getElem?_append_left hopen, List.getElem?_eq_getElem hopen]
    rw [List.drop_eq_getElem_cons hopen, costOf_cons] at hb
    have hwaits : s.waits (first[k] :: first.drop (k + 1)) = s.settling :=
      if_neg (List.cons_ne_nil _ _)
    rw [hwaits] at hb
    cases hissue : s.dispatcher.issueWriteDescriptor s.master.commandReady with
    | true =>
      -- the descriptor is issued, and all its bytes are missing
      obtain ⟨hsettled, -⟩ := settled_of_issue hissue
      obtain ⟨-, hresp', -⟩ := h.busy_of_issue (i := i) hissue
      rw [hissue, hresp] at hnext
      have hw' : (pushed ++ (s.dispatcher.pushes i.host).toList)[k]? = some first[k] := by
        rw [List.getElem?_append_left hlt, hw]
      have hstill := hnext.awaits_last hw' (hbytes _ (List.getElem_mem hopen))
      have hwaits' := h.waits_clock (i := i) ⟨later, hlater⟩ (k + 1) (Nat.le_succ k)
      rw [List.drop_eq_getElem_cons hopen, hwaits, hsettled] at hwaits'
      have hahead : (s.clock i).ahead first[k].command.bytes = first[k].command.bytes + 2 := by
        unfold Msgdma.ahead
        rw [hresp', if_neg Bool.false_ne_true]
      refine ⟨b - 1, by omega, ?_⟩
      rw [hresp]
      refine .busy hstill ?_
      rw [hahead]
      omega
    | false =>
      -- the FIFO settles, or the response FIFO is full
      have hnot : s.settling = 0 → s.attended i = false := by
        intro hsettled
        cases hfull : s.dispatcher.responseFifoFull with
        | true => simp [Msgdma.attended, hfull]
        | false =>
          rw [h.issue_of_settled hlt hsettled hready hfull] at hissue
          cases hissue
      have hwaits' := h.waits_clock (i := i) ⟨later, hlater⟩ k (Nat.le_refl k)
      rw [List.drop_eq_getElem_cons hopen, hwaits] at hwaits'
      refine ⟨b - (s.attended i).toNat, by omega, ?_⟩
      rw [hresp]
      refine .idle ?_
      show (s.clock i).waits (first.drop k) + costOf (first.drop k) ≤ _
      rw [List.drop_eq_getElem_cons hopen, costOf_cons]
      by_cases hsettled : s.settling = 0
      · rw [hnot hsettled, Bool.toNat_false]
        omega
      · omega
  | @busy _ m _ hs hb =>
    have hnone : s.dispatcher.issueWriteDescriptor s.master.commandReady = false := by
      rw [Bool.eq_false_iff]
      intro hissue
      have hlen := (hphase.of_commandReady (settled_of_issue hissue).2).1
      rw [h.length_commands] at hlen
      exact absurd hlen (Nat.succ_ne_self n)
    have hwaits' := h.waits_clock (i := i) hfirst (n + 1) (Nat.le_refl _)
    rw [hnone]
    cases hresp : s.master.responseValid with
    | true =>
      -- the response is taken at this edge
      have hahead : s.ahead m = 1 := if_pos hresp
      refine ⟨b - 1, by omega, .idle ?_⟩
      show (s.clock i).waits (first.drop (n + 1)) + costOf (first.drop (n + 1)) ≤ _
      omega
    | false =>
      have hahead : s.ahead m = m + 2 := by
        unfold Msgdma.ahead
        rw [hresp, if_neg Bool.false_ne_true]
      have hdirected := WriteMaster.directed_of_not_ready (hs.commandReady_eq hresp)
        (h.directed i).toUndisturbed
      obtain ⟨hs', hserved⟩ := hs.clock h.master.calm hdirected hresp
      -- an edge that counts serves the master
      have hless : (s.clock i).ahead (m - (s.master.served (s.masterIn i)).toNat) +
          (s.attended i).toNat ≤ m + 2 := by
        unfold Msgdma.ahead Msgdma.attended
        cases hserve : s.master.served (s.masterIn i) with
        | false =>
          rw [Bool.false_and, Bool.toNat_false]
          split_ifs <;> omega
        | true =>
          have hone := Bool.toNat_le (true && !s.dispatcher.responseFifoFull)
          rw [Bool.toNat_true]
          split_ifs with hvalid
          · omega
          · have hpos := (hserved hserve).resolve_right hvalid
            omega
      refine ⟨b - (s.attended i).toNat, by omega, .busy hs' ?_⟩
      show (s.clock i).ahead _ + _ ≤ _
      omega

end MsgdmaHistory

/-! ## Runs -/

section Runs

variable (start : MsgdmaStart) (is : List MsgdmaIn)

/-- The edges that count among those of `js`, behind the run `is`. -/
def attendedCount (js : List MsgdmaIn) : ℕ :=
  ((msgdma start).events (fun st i => if st.1.attended i then some () else none)
    (msgdmaAfter start is) js).length

theorem attendedCount_cons (i : MsgdmaIn) (js : List MsgdmaIn) :
    attendedCount start is (i :: js) =
      ((msgdmaAfter start is).1.attended i).toNat + attendedCount start (is ++ [i]) js := by
  have hafter : msgdmaAfter start (is ++ [i]) = (msgdma start).step (msgdmaAfter start is) i := by
    simp [msgdmaAfter, Machine.run_append]
  unfold attendedCount
  rw [Machine.events_cons, List.length_append, hafter]
  cases (msgdmaAfter start is).1.attended i <;> rfl

/-- Responses are not taken back. -/
theorem commandsAnswered_append_le (js : List MsgdmaIn) :
    commandsAnswered start is ≤ commandsAnswered start (is ++ js) := by
  unfold commandsAnswered
  rw [Machine.events_append, List.length_append]
  exact Nat.le_add_right _ _

theorem prefix_descriptorsPushed (js : List MsgdmaIn) :
    descriptorsPushed start is <+: descriptorsPushed start (is ++ js) := by
  unfold descriptorsPushed
  rw [Machine.events_append]
  exact List.prefix_append _ _

/-- What is owed behind a run. -/
def OwesAfter (first : List DescriptorWord) (b : ℕ) : Prop :=
  (msgdmaAfter start is).1.Owes first (commandsIssued start is).length (commandsAnswered start is) b

/-- **One more edge.** -/
theorem OwesAfter.concat {start : MsgdmaStart} {is : List MsgdmaIn} {first : List DescriptorWord}
    {b : ℕ} (h : OwesAfter start is first b) {i : MsgdmaIn} (his : ∀ j ∈ is ++ [i], j.Undisturbed)
    (hplain : ∀ w ∈ descriptorsPushed start (is ++ [i]), w.Plain)
    (hfirst : first <+: descriptorsPushed start is) (hbytes : ∀ w ∈ first, 0 < w.command.bytes)
    (hopen : commandsAnswered start is < first.length) :
    ∃ b', b' + ((msgdmaAfter start is).1.attended i).toNat ≤ b ∧
      OwesAfter start (is ++ [i]) first b' := by
  obtain ⟨stream, hstream⟩ := exists_stream (sinkBeats start (is ++ [i]))
  rw [sinkBeats_concat] at hstream
  obtain ⟨hold, hbeat⟩ := load_append_toList hstream
  rw [descriptorsPushed_concat] at hplain
  obtain ⟨k, hissued, hrun⟩ := MsgdmaHistory.run start is
    (fun j hj => his j (List.mem_append_left _ hj))
    (fun w hw => hplain w (List.mem_append_left _ hw)) hold
  have hi := his i (List.mem_append_right _ (List.mem_singleton_self i))
  have hnext := hrun.clock hi
    (fun w hw => hplain w (List.mem_append_right _ (Option.mem_toList.mpr hw))) hbeat
  have hlen : (commandsIssued start is).length = k := by rw [hissued, hrun.length_commands]
  have hlen' : (commandsIssued start (is ++ [i])).length =
      k + ((msgdmaAfter start is).1.dispatcher.issueWriteDescriptor
        (msgdmaAfter start is).1.master.commandReady).toNat := by
    rw [commandsIssued_concat, hissued, ← hrun.commands_clock, hnext.length_commands]
  unfold OwesAfter at h ⊢
  rw [hlen] at h
  rw [hlen', commandsAnswered_concat, msgdmaAfter_concat]
  exact hrun.owes_clock hnext hfirst hbytes hopen h

/-- **Enough edges that count** bring all responses. -/
theorem OwesAfter.run {start : MsgdmaStart} {is : List MsgdmaIn} {first : List DescriptorWord}
    {b : ℕ} (h : OwesAfter start is first b) {js : List MsgdmaIn}
    (his : ∀ j ∈ is ++ js, j.Undisturbed)
    (hplain : ∀ w ∈ descriptorsPushed start (is ++ js), w.Plain)
    (hfirst : first <+: descriptorsPushed start is) (hbytes : ∀ w ∈ first, 0 < w.command.bytes)
    (hmany : b ≤ attendedCount start is js) :
    first.length ≤ commandsAnswered start (is ++ js) := by
  induction js generalizing is b with
  | nil =>
    obtain rfl : b = 0 := Nat.le_zero.mp hmany
    rw [List.append_nil]
    exact h.answered
  | cons i js ih =>
    by_cases hopen : commandsAnswered start is < first.length
    · have happend : is ++ i :: js = is ++ [i] ++ js := by simp
      rw [happend] at his hplain ⊢
      obtain ⟨b', hb, hnext⟩ := h.concat (fun j hj => his j (List.mem_append_left _ hj))
        (fun w hw => hplain w ((prefix_descriptorsPushed start (is ++ [i]) js).subset hw)) hfirst
        hbytes hopen
      rw [attendedCount_cons] at hmany
      exact ih hnext his hplain (hfirst.trans (prefix_descriptorsPushed start is [i])) (by omega)
    · exact (Nat.le_of_not_lt hopen).trans (commandsAnswered_append_le start is (i :: js))

end Runs

end Rf215Sdr.Fpga
