import Mathlib.Data.Finset.Card
import Rf215Sdr.Hps.ConfigDaemon
import Rf215Sdr.Lib.Interleaving

/-!
# Runs of the Configuration Daemon

The daemon takes one datagram after the other, while its child may exit at any time. A failure
of the file system or of `Popen` is part of the event that meets it.

## Main results

- `child_discipline`: at most one child, none after a stop, and the living one was started by the
  last update that was written.
- `survives_iff`: which datagrams and failures the daemon gets through as it should.
- `changesNothing_iff`: when a failed update leaves everything as it was.
-/

namespace Rf215Sdr.Hps

open Rf215Sdr.Lib

/-! ## Events -/

/-- What happens to the daemon. -/
inductive DaemonEvent where
  /-- A datagram is received; `write` and `launch` tell how writing the file and `Popen` end, if
  it comes to that. -/
  | datagram (payload : ByteArray) (write : WriteResult) (launch : Bool)
  /-- A process exits by itself. -/
  | childExits (pid : ℕ)

namespace Daemon

/-- When the daemon starts. -/
def init (file : Option (List Byte)) : Daemon where
  configFile := file
  childProc := none
  alive := ∅
  launches := 0

/-- The daemon after an event; `none` when an exception ends it, or no such process is alive. -/
def step (d : Daemon) : DaemonEvent → Option Daemon
  | .datagram payload write launch => d.handle payload write launch
  | .childExits pid => if pid ∈ d.alive then some { d with alive := d.alive.erase pid } else none

/-- The daemon at every point of handling a datagram: when it arrives, with the file written,
with the child stopped, with the new one launched. -/
def moments (d : Daemon) (payload : ByteArray) (write : WriteResult) (launch : Bool) :
    List Daemon :=
  match request payload with
  | none => [d]
  | some .stop => [d, d.stopChild]
  | some (.update text) =>
    let d' := { d with configFile := write.file d.configFile (fileContent text) }
    match write with
    | .done => [d, d', d'.stopChild, d'.restartExecutable launch]
    | _ => [d, d']

end Daemon

/-- The daemon and its child, with the configuration file it finds. -/
def configDaemon (file : Option (List Byte)) : System Daemon DaemonEvent where
  init := Daemon.init file
  step := Daemon.step

/-- The event is an update that is written without an error. -/
def DaemonEvent.Writes (e : DaemonEvent) : Prop :=
  ∃ payload text launch, e = .datagram payload .done launch ∧
    request payload = some (.update text)

namespace Daemon

/-! ## One child -/

theorem launches_stopChild (d : Daemon) : d.stopChild.launches = d.launches := by
  unfold stopChild
  split <;> rfl

/-- Only `child_proc` can be alive. -/
def OneChild (d : Daemon) : Prop :=
  ∀ pid ∈ d.alive, d.childProc = some pid

theorem OneChild.card_le {d : Daemon} (h : d.OneChild) : d.alive.card ≤ 1 := by
  apply Finset.card_le_one.mpr
  intro p hp q hq
  exact Option.some.inj ((h p hp).symm.trans (h q hq))

/-- `terminate` and `wait` leave no child. -/
theorem OneChild.alive_stopChild {d : Daemon} (h : d.OneChild) : d.stopChild.alive = ∅ := by
  apply Finset.eq_empty_of_forall_notMem
  intro pid hpid
  unfold stopChild at hpid
  cases hchild : d.childProc with
  | none =>
    rw [hchild] at hpid
    cases hchild.symm.trans (h pid hpid)
  | some p =>
    rw [hchild] at hpid
    obtain ⟨hne, hmem⟩ := Finset.mem_erase.mp hpid
    exact hne (Option.some.inj ((h pid hmem).symm.trans hchild))

/-- Writing the file changes no child. -/
theorem OneChild.write {d : Daemon} (h : d.OneChild) (file : Option (List Byte)) :
    { d with configFile := file }.OneChild := h

theorem OneChild.stopChild {d : Daemon} (h : d.OneChild) : d.stopChild.OneChild := by
  intro pid hpid
  rw [h.alive_stopChild] at hpid
  exact absurd hpid (Finset.notMem_empty pid)

/-- The process that `restart_executable` has launched, if it has, is the only one. -/
theorem OneChild.alive_restart {d : Daemon} (h : d.OneChild) (launch : Bool) :
    (d.restartExecutable launch).alive = if launch then {d.launches} else ∅ := by
  unfold restartExecutable
  cases launch with
  | false => exact h.alive_stopChild
  | true =>
    simp only [if_true]
    rw [h.alive_stopChild, launches_stopChild]
    rfl

theorem OneChild.restart {d : Daemon} (h : d.OneChild) (launch : Bool) :
    (d.restartExecutable launch).OneChild := by
  intro pid hpid
  rw [h.alive_restart] at hpid
  cases launch with
  | false => exact absurd hpid (Finset.notMem_empty pid)
  | true =>
    obtain rfl := Finset.mem_singleton.mp hpid
    exact congrArg some (launches_stopChild d)

/-- What a datagram does, one case for each way through the loop. -/
theorem handle_cases {d t : Daemon} {payload : ByteArray} {write : WriteResult} {launch : Bool}
    (h : d.handle payload write launch = some t) :
    (request payload = some .stop ∧ t = d.stopChild) ∨
      (∃ text, request payload = some (.update text) ∧ write = .done ∧
        t = { d with configFile := some (fileContent text) }.restartExecutable launch) ∨
      ∃ text, request payload = some (.update text) ∧ write ≠ .done ∧
        t = { d with configFile := write.file d.configFile (fileContent text) } := by
  unfold handle at h
  cases hreq : request payload with
  | none => simp [hreq] at h
  | some r =>
    cases r with
    | stop =>
      simp only [hreq, Option.some.injEq] at h
      exact Or.inl ⟨rfl, h.symm⟩
    | update text =>
      right
      cases write with
      | done =>
        simp only [hreq, Option.some.injEq] at h
        exact Or.inl ⟨text, rfl, rfl, h.symm⟩
      | openFails =>
        simp only [hreq, Option.some.injEq] at h
        exact Or.inr ⟨text, rfl, by simp, h.symm⟩
      | writeFails kept =>
        simp only [hreq, Option.some.injEq] at h
        exact Or.inr ⟨text, rfl, by simp, h.symm⟩

/-- **Every event leaves at most one child.** -/
theorem OneChild.step {d t : Daemon} (h : d.OneChild) {e : DaemonEvent}
    (hstep : d.step e = some t) : t.OneChild := by
  cases e with
  | datagram payload write launch =>
    have hhandle : d.handle payload write launch = some t := hstep
    rcases handle_cases hhandle with ⟨-, rfl⟩ | ⟨text, -, -, rfl⟩ | ⟨text, -, -, rfl⟩
    · exact h.stopChild
    · exact (h.write _).restart launch
    · exact h
  | childExits pid =>
    unfold Daemon.step at hstep
    dsimp only at hstep
    split_ifs at hstep
    obtain rfl := Option.some.inj hstep
    intro q hq
    exact h q (Finset.mem_of_mem_erase hq)

/-- So does every point of handling a datagram. -/
theorem OneChild.moments {d m : Daemon} (h : d.OneChild) {payload : ByteArray}
    {write : WriteResult} {launch : Bool} (hm : m ∈ d.moments payload write launch) :
    m.OneChild := by
  unfold Daemon.moments at hm
  cases hreq : request payload with
  | none =>
    rw [hreq] at hm
    rw [List.mem_singleton.mp hm]
    exact h
  | some r =>
    rw [hreq] at hm
    cases r with
    | stop =>
      simp only [List.mem_cons, List.not_mem_nil, or_false] at hm
      rcases hm with rfl | rfl
      · exact h
      · exact h.stopChild
    | update text =>
      cases write <;> simp only [List.mem_cons, List.not_mem_nil, or_false] at hm
      · rcases hm with rfl | rfl | rfl | rfl
        · exact h
        · exact h.write _
        · exact (h.write _).stopChild
        · exact (h.write _).restart launch
      · rcases hm with rfl | rfl
        · exact h
        · exact h.write _
      · rcases hm with rfl | rfl
        · exact h
        · exact h.write _

/-- The last of these points is what the datagram leads to. -/
theorem getLast?_moments (d : Daemon) (payload : ByteArray) (write : WriteResult) (launch : Bool)
    (h : request payload ≠ none) :
    (d.moments payload write launch).getLast? = d.handle payload write launch := by
  unfold moments handle
  cases hreq : request payload with
  | none => exact absurd hreq h
  | some r =>
    cases r with
    | stop => rfl
    | update text => cases write <;> rfl

end Daemon

/-- Process `pid` was launched by an update among the events `es` whose text was written, and
found that text in the file; no update behind it was written. -/
def StartedBy (file : Option (List Byte)) (es : List DaemonEvent) (pid : ℕ) : Prop :=
  ∃ pre payload text post d d', es = pre ++ .datagram payload .done true :: post ∧
    request payload = some (.update text) ∧
    (configDaemon file).run (Daemon.init file) pre = some d ∧ d.launches = pid ∧
    d.handle payload .done true = some d' ∧ pid ∈ d'.alive ∧
    d'.configFile = some (fileContent text) ∧ ∀ e ∈ post, ¬ e.Writes

variable {file : Option (List Byte)}

theorem StartedBy.concat {es : List DaemonEvent} {pid : ℕ} (h : StartedBy file es pid)
    {e : DaemonEvent} (he : ¬ e.Writes) : StartedBy file (es ++ [e]) pid := by
  obtain ⟨pre, payload, text, post, d, d', rfl, hreq, hrun, hpid, hhandle, hmem, hfile, hpost⟩ := h
  refine ⟨pre, payload, text, post ++ [e], d, d', ?_, hreq, hrun, hpid, hhandle, hmem, hfile, ?_⟩
  · rw [List.append_assoc, List.cons_append]
  · intro e' he'
    rcases List.mem_append.mp he' with hold | hnew
    · exact hpost e' hold
    · rw [List.mem_singleton.mp hnew]
      exact he

/-- **The invariant of all runs**: one child, started by the last update that was written. -/
theorem discipline_of_run {es : List DaemonEvent} {d : Daemon}
    (hrun : (configDaemon file).run (Daemon.init file) es = some d) :
    (configDaemon file).run (Daemon.init file) es = some d ∧ d.OneChild ∧
      ∀ pid ∈ d.alive, StartedBy file es pid := by
  apply System.run_induction (S := configDaemon file) (R := fun es d =>
    (configDaemon file).run (Daemon.init file) es = some d ∧ d.OneChild ∧
      ∀ pid ∈ d.alive, StartedBy file es pid) _ _ hrun
  · refine ⟨rfl, ?_, ?_⟩
    · exact fun pid hpid => absurd hpid (Finset.notMem_empty pid)
    · exact fun pid hpid => absurd hpid (Finset.notMem_empty pid)
  · rintro es d e t ⟨hbefore, hone, hstarted⟩ hstep
    have hstep' : d.step e = some t := hstep
    refine ⟨(configDaemon file).run_concat hbefore hstep, hone.step hstep', ?_⟩
    intro pid hpid
    cases e with
    | childExits q =>
      -- an exit only takes processes away
      unfold Daemon.step at hstep'
      dsimp only at hstep'
      split_ifs at hstep'
      obtain rfl := Option.some.inj hstep'
      apply (hstarted pid (Finset.mem_of_mem_erase hpid)).concat
      rintro ⟨payload, text, launch, hevent, -⟩
      cases hevent
    | datagram payload write launch =>
      have hhandle : d.handle payload write launch = some t := hstep'
      rcases Daemon.handle_cases hhandle with ⟨-, rfl⟩ | ⟨text, hreq, rfl, rfl⟩ |
        ⟨text, -, hfailed, rfl⟩
      · rw [hone.alive_stopChild] at hpid
        exact absurd hpid (Finset.notMem_empty pid)
      · have hpid' := hpid
        rw [(hone.write _).alive_restart] at hpid'
        cases launch with
        | false => exact absurd hpid' (Finset.notMem_empty pid)
        | true =>
          -- this is the launch, and nothing has come after it
          obtain rfl := Finset.mem_singleton.mp hpid'
          refine ⟨es, payload, text, [], d, _, rfl, hreq, hbefore, rfl, hhandle, hpid, ?_, ?_⟩
          · exact Daemon.configFile_restartExecutable _ true
          · exact fun e he => absurd he List.not_mem_nil
      · apply (hstarted pid hpid).concat
        rintro ⟨payload', text', launch', hevent, -⟩
        exact hfailed (DaemonEvent.datagram.inj hevent).2.1

/-- **Child discipline**: in every run of the daemon at most one launched process is alive, also
while a datagram is being handled; none is after a stop; and one that is alive when the daemon is
back at `recvfrom` was started by the last update that was written, with its text in the file.
(Between the write of the file and the stop of the old child, that child is still alive.) -/
theorem child_discipline (file : Option (List Byte)) (es : List DaemonEvent) (d : Daemon)
    (hrun : (configDaemon file).run (Daemon.init file) es = some d) :
    d.alive.card ≤ 1 ∧
      (∀ payload write launch, ∀ m ∈ d.moments payload write launch, m.alive.card ≤ 1) ∧
      (∀ payload write launch, request payload = some .stop →
        ∃ t, d.handle payload write launch = some t ∧ t.alive = ∅) ∧
      ∀ pid ∈ d.alive, StartedBy file es pid := by
  obtain ⟨-, hone, hstarted⟩ := discipline_of_run hrun
  refine ⟨hone.card_le, ?_, ?_, hstarted⟩
  · exact fun payload write launch m hm => (hone.moments hm).card_le
  · intro payload write launch hstop
    refine ⟨d.stopChild, ?_, hone.alive_stopChild⟩
    unfold Daemon.handle
    rw [hstop]

/-- Two updates one after the other. -/
def twoUpdates : List DaemonEvent :=
  [.datagram (utf8Encode "CS=1".toList) .done true, .datagram (utf8Encode "CS=2".toList) .done true]

/-- Process 1 is alive, with the second text. -/
theorem child_discipline_twice :
    (configDaemon none).run (Daemon.init none) twoUpdates =
        some ⟨some (fileContent "CS=2".toList), some 1, {1}, 2⟩ ∧
      StartedBy none twoUpdates 1 := by
  have hrun : (configDaemon none).run (Daemon.init none) twoUpdates =
      some ⟨some (fileContent "CS=2".toList), some 1, {1}, 2⟩ := by decide +kernel
  obtain ⟨-, -, -, hstarted⟩ := child_discipline none twoUpdates _ hrun
  exact ⟨hrun, hstarted 1 (Finset.mem_singleton_self 1)⟩

/-! ## Surviving datagrams -/

namespace Daemon

/-- The daemon is back at `recvfrom`, and no child is alive and the file is as it was; or the file
is replaced by what was asked for and the only living process is a new one; or file and child are
as they were. -/
def Survives (d : Daemon) (payload : ByteArray) (write : WriteResult) (launch : Bool) : Prop :=
  ∃ t, d.handle payload write launch = some t ∧
    (t.configFile = d.configFile ∧ t.alive = ∅ ∨
      (∃ text, request payload = some (.update text) ∧
        t.configFile = some (fileContent text) ∧ t.launches = d.launches + 1 ∧
        t.childProc = some d.launches ∧ t.alive = {d.launches}) ∨
      t.configFile = d.configFile ∧ t.childProc = d.childProc ∧ t.alive = d.alive)

/-- The datagram can be decoded, and if it is an update then opening the file fails, or what was
asked for is done. Where only a part of this happens, the file has to hold the bytes that are
written to it already. -/
def Harmless (d : Daemon) (payload : ByteArray) (write : WriteResult) (launch : Bool) : Prop :=
  match request payload with
  | none => False
  | some .stop => True
  | some (.update text) =>
    match write with
    | .done => launch = true ∨ d.configFile = some (fileContent text)
    | .openFails => True
    | .writeFails kept => d.configFile = some ((fileContent text).take kept)

/-- A launch takes the next number. -/
theorem launches_restart (d : Daemon) :
    (d.restartExecutable true).launches = d.launches + 1 ∧
      (d.restartExecutable true).childProc = some d.launches :=
  ⟨congrArg (· + 1) (launches_stopChild d), congrArg some (launches_stopChild d)⟩

/-- Without a launch, and with the child stopped or as it was, the daemon is left with one of the
outcomes exactly if the file is the old one. -/
theorem outcome_iff {d t : Daemon} {asked : List Char → Prop} (hlaunches : t.launches = d.launches)
    (hchild : t.alive = ∅ ∨ t.childProc = d.childProc ∧ t.alive = d.alive) :
    (∃ t', some t = some t' ∧
      (t'.configFile = d.configFile ∧ t'.alive = ∅ ∨
        (∃ text, asked text ∧ t'.configFile = some (fileContent text) ∧
          t'.launches = d.launches + 1 ∧ t'.childProc = some d.launches ∧
          t'.alive = {d.launches}) ∨
        t'.configFile = d.configFile ∧ t'.childProc = d.childProc ∧ t'.alive = d.alive)) ↔
      d.configFile = t.configFile := by
  constructor
  · rintro ⟨t', ht, hout⟩
    obtain rfl := Option.some.inj ht
    rcases hout with ⟨hfile, -⟩ | ⟨text, -, -, hnew, -⟩ | ⟨hfile, -⟩
    · exact hfile.symm
    · -- a new process would have been launched
      rw [hnew] at hlaunches
      exact absurd hlaunches (Nat.succ_ne_self _)
    · exact hfile.symm
  · intro hfile
    refine ⟨t, rfl, ?_⟩
    rcases hchild with hnone | hsame
    · exact Or.inl ⟨hfile.symm, hnone⟩
    · exact Or.inr (Or.inr ⟨hfile.symm, hsame⟩)

/-- **What the daemon survives**, while only its child can be alive. -/
theorem OneChild.survives_iff_harmless {d : Daemon} (h : d.OneChild) (payload : ByteArray)
    (write : WriteResult) (launch : Bool) :
    d.Survives payload write launch ↔ d.Harmless payload write launch := by
  unfold Survives Harmless handle
  cases hreq : request payload with
  | none => simp
  | some r =>
    cases r with
    | stop =>
      refine iff_of_true ⟨_, rfl, Or.inl ⟨configFile_stopChild d, h.alive_stopChild⟩⟩ trivial
    | update text =>
      have hwritten := h.write (some (fileContent text))
      cases write with
      | done =>
        cases launch with
        | true =>
          -- the old child is stopped, and the new one is the only process
          obtain ⟨hlaunches, hproc⟩ :=
            launches_restart { d with configFile := some (fileContent text) }
          refine iff_of_true ⟨_, rfl, Or.inr (Or.inl ⟨text, rfl, ?_, hlaunches, hproc, ?_⟩)⟩
            (Or.inl rfl)
          · exact configFile_restartExecutable _ true
          · exact hwritten.alive_restart true
        | false =>
          -- the child is stopped, and the file is the new one
          have hfile := configFile_restartExecutable
            { d with configFile := some (fileContent text) } false
          simp only [Bool.false_eq_true, false_or]
          rw [← show _ = some (fileContent text) from hfile]
          apply outcome_iff
          · exact launches_stopChild { d with configFile := some (fileContent text) }
          · exact Or.inl (hwritten.alive_restart false)
      | openFails => exact iff_of_true ⟨_, rfl, Or.inr (Or.inr ⟨rfl, rfl, rfl⟩)⟩ trivial
      | writeFails kept =>
        -- the child runs on, and a part of the new file is there
        exact outcome_iff (t := { d with configFile := some ((fileContent text).take kept) }) rfl
          (Or.inr ⟨rfl, rfl⟩)

end Daemon

/-- `P` holds of every datagram of the run when it arrives. -/
def Along (file : Option (List Byte)) (es : List DaemonEvent)
    (P : Daemon → ByteArray → WriteResult → Bool → Prop) : Prop :=
  ∀ pre payload write launch post d, es = pre ++ .datagram payload write launch :: post →
    (configDaemon file).run (Daemon.init file) pre = some d → P d payload write launch

/-- **Which datagrams the daemon survives**: in every run, it is back at `recvfrom` after each
datagram with one of the three outcomes exactly if each of them is harmless when it arrives. -/
theorem survives_iff (file : Option (List Byte)) (es : List DaemonEvent) :
    Along file es Daemon.Survives ↔ Along file es Daemon.Harmless := by
  -- in every state that a run reaches, only the child can be alive
  have hiff : ∀ {pre : List DaemonEvent} {d : Daemon},
      (configDaemon file).run (Daemon.init file) pre = some d → ∀ payload write launch,
        (d.Survives payload write launch ↔ d.Harmless payload write launch) := by
    intro pre d hrun
    obtain ⟨-, hone, -⟩ := discipline_of_run hrun
    exact hone.survives_iff_harmless
  constructor
  · intro h pre payload write launch post d hes hrun
    exact (hiff hrun payload write launch).mp (h pre payload write launch post d hes hrun)
  · intro h pre payload write launch post d hes hrun
    exact (hiff hrun payload write launch).mpr (h pre payload write launch post d hes hrun)

/-- A single byte that is no UTF-8 ends the daemon. -/
theorem not_survives_ff :
    (Daemon.init none).handle ⟨#[0xFF]⟩ .done true = none ∧
      ¬ Along none [.datagram ⟨#[0xFF]⟩ .done true] Daemon.Survives := by
  have hdies : (Daemon.init none).handle ⟨#[0xFF]⟩ .done true = none := rfl
  refine ⟨hdies, ?_⟩
  intro halong
  obtain ⟨t, ht, -⟩ := halong [] _ _ _ [] _ rfl rfl
  cases hdies.symm.trans ht

/-! ## Failed updates -/

/-- A failed update has left the file and the child alone, and makes no difference once another
update is written, whatever happens in between. -/
def ChangesNothing (d : Daemon) (payload : ByteArray) (write : WriteResult) (launch : Bool) :
    Prop :=
  ∃ t, d.handle payload write launch = some t ∧ t.configFile = d.configFile ∧
    (t.childProc = d.childProc ∧ t.alive = d.alive ∧ t.launches = d.launches) ∧
    ∀ es e, e.Writes →
      (configDaemon none).run t (es ++ [e]) = (configDaemon none).run d (es ++ [e])

namespace Daemon

/-- The daemon with another file. -/
def withFile (d : Daemon) (file : Option (List Byte)) : Daemon :=
  { d with configFile := file }

/-- Stopping the child does not look at the file. -/
theorem stopChild_withFile (d : Daemon) (f : Option (List Byte)) :
    (d.withFile f).stopChild = d.stopChild.withFile f := by
  obtain ⟨old, child, alive, launches⟩ := d
  cases child <;> rfl

/-- A step looks at the file only to overwrite it. -/
theorem step_withFile (d : Daemon) (f : Option (List Byte)) (e : DaemonEvent) :
    ∃ g, (d.withFile f).step e = (d.step e).map fun t => t.withFile g := by
  cases e with
  | childExits pid =>
    refine ⟨f, ?_⟩
    unfold Daemon.step withFile
    dsimp only
    by_cases hpid : pid ∈ d.alive
    · rw [if_pos hpid, if_pos hpid]
      rfl
    · rw [if_neg hpid, if_neg hpid]
      rfl
  | datagram payload write launch =>
    unfold Daemon.step
    dsimp only
    unfold handle
    cases hreq : request payload with
    | none => exact ⟨f, rfl⟩
    | some r =>
      cases r with
      | stop => exact ⟨f, congrArg some (stopChild_withFile d f)⟩
      | update text =>
        cases write with
        | done =>
          -- both have the new file
          refine ⟨some (fileContent text), congrArg some ?_⟩
          have hfile := configFile_restartExecutable
            { d with configFile := some (fileContent text) } launch
          exact congrArg (withFile (restartExecutable _ launch)) hfile
        | openFails => exact ⟨f, rfl⟩
        | writeFails kept => exact ⟨some ((fileContent text).take kept), rfl⟩

/-- An update that is written leaves no trace of the old file. -/
theorem step_withFile_of_writes (d : Daemon) (f : Option (List Byte)) {e : DaemonEvent}
    (he : e.Writes) : (d.withFile f).step e = d.step e := by
  obtain ⟨payload, text, launch, rfl, hreq⟩ := he
  unfold Daemon.step
  dsimp only
  unfold handle
  rw [hreq]
  rfl

/-- **The next update that is written behaves as if the file had never been touched.** -/
theorem run_withFile (d : Daemon) (f : Option (List Byte)) (es : List DaemonEvent)
    {e : DaemonEvent} (he : e.Writes) :
    (configDaemon none).run (d.withFile f) (es ++ [e]) =
      (configDaemon none).run d (es ++ [e]) := by
  induction es generalizing d f with
  | nil =>
    show ((d.withFile f).step e).bind _ = (d.step e).bind _
    rw [step_withFile_of_writes d f he]
  | cons a es ih =>
    obtain ⟨g, hg⟩ := step_withFile d f a
    show ((d.withFile f).step a).bind _ = (d.step a).bind _
    rw [hg]
    cases d.step a with
    | none => rfl
    | some s => exact ih s g

end Daemon

/-- **When a failed update changes nothing**: whatever the file held before and wherever the
failure comes, the child stays and the next update that is written finds no difference; the file
is as before exactly if it could not be opened, or held already the bytes that have reached it. -/
theorem changesNothing_iff (d : Daemon) (payload : ByteArray) (text : List Char)
    (hreq : request payload = some (.update text)) (write : WriteResult) (hfails : write ≠ .done)
    (launch : Bool) :
    ChangesNothing d payload write launch ↔
      write = .openFails ∨
        ∃ kept, write = .writeFails kept ∧ d.configFile = some ((fileContent text).take kept) := by
  have hhandle : d.handle payload write launch =
      some (d.withFile (write.file d.configFile (fileContent text))) := by
    unfold Daemon.handle
    rw [hreq]
    cases write with
    | done => exact absurd rfl hfails
    | openFails => rfl
    | writeFails kept => rfl
  have hnothing : ChangesNothing d payload write launch ↔
      write.file d.configFile (fileContent text) = d.configFile := by
    unfold ChangesNothing
    rw [hhandle]
    simp only [Option.some.injEq, exists_eq_left']
    constructor
    · rintro ⟨hfile, -⟩
      exact hfile
    · intro hfile
      exact ⟨hfile, ⟨rfl, rfl, rfl⟩, fun es e he => d.run_withFile _ es he⟩
  rw [hnothing]
  cases write with
  | done => exact absurd rfl hfails
  | openFails => simp [WriteResult.file]
  | writeFails kept => simp [WriteResult.file, eq_comm]

/-- The child of a first update runs on when a second one cannot open the file. -/
theorem changesNothing_openFails :
    let d : Daemon := ⟨some (fileContent "CS=1".toList), some 0, {0}, 1⟩
    (configDaemon none).run (Daemon.init none) [.datagram (utf8Encode "CS=1".toList) .done true] =
        some d ∧
      ChangesNothing d (utf8Encode "chunk_bytes=2048".toList) .openFails true := by
  have hreq : request (utf8Encode "chunk_bytes=2048".toList) =
      some (.update "chunk_bytes=2048".toList) := by decide +kernel
  refine ⟨by decide +kernel, ?_⟩
  apply (changesNothing_iff _ _ _ hreq .openFails (by decide) true).mpr
  exact Or.inl rfl

/-- The disk is full: the update fails, and the next start of the program finds an empty file. -/
theorem not_changesNothing_full :
    ∃ t, (Daemon.init (some (ascii "chunk_bytes=1024".toList))).handle
        (utf8Encode "chunk_bytes=2048".toList) (.writeFails 0) true = some t ∧
      (configLoad (some (ascii "chunk_bytes=1024".toList))).configChunkBytes = 1024 ∧
      (configLoad t.configFile).configChunkBytes = 8192 ∧
      ¬ ChangesNothing (Daemon.init (some (ascii "chunk_bytes=1024".toList)))
        (utf8Encode "chunk_bytes=2048".toList) (.writeFails 0) true := by
  refine ⟨_, rfl, by decide, by decide, ?_⟩
  rintro ⟨t, ht, hfile, -⟩
  obtain rfl := Option.some.inj ht
  revert hfile
  decide

end Rf215Sdr.Hps
