import Rf215Sdr.Hps.Datagram
import Rf215Sdr.Lib.PyText
import Rf215Sdr.Lib.RingBuffer
import Rf215Sdr.Lib.TriggerWindows

/-!
# The Debug Log in Trigger Mode

`debug_txt.c`, compiled with `DEBUG_TXT` and `DEBUG_TXT_MODE == DEBUG_MODE_TRIGGER`: samples go
into a ring buffer, a sample above the threshold has the buffer written to the file, and the
samples behind it are written as they come.

## Main results

- `Tracks.logSample`: the ring buffer and the counters after one more sample.
- `debugFile_logIqData`: what any sequence of chunks writes.
- `recorded_eq_windowed_iff`: when that is the windows around the triggers.
- `logged_iff`: the same of the file.
-/

namespace Rf215Sdr.Hps

open Rf215Sdr.Lib

/-! ## Samples -/

/-- `convert_14bit_2complement`. -/
def convert14bit2complement (rawValue : BitVec 16) : BitVec 16 :=
  let rawValue := rawValue &&& 0x3FFF
  if rawValue &&& 0x2000 ≠ 0 then rawValue ||| 0xC000 else rawValue

/-- `i_value` and `q_value` of one word. -/
structure IqPair where
  iValue : BitVec 16
  qValue : BitVec 16
  deriving DecidableEq, Repr

def IqPair.ofWord (word : BitVec 32) : IqPair where
  iValue := convert14bit2complement (((word >>> 16) &&& 0x3FFF).setWidth 16)
  qValue := convert14bit2complement ((word &&& 0x3FFF).setWidth 16)

/-- `DEBUG_TRIGGER_THRESHOLD`. -/
def debugTriggerThreshold : ℕ := 100

/-- `DEBUG_PRE_SAMPLES`. -/
abbrev debugPreSamples : ℕ := 1000

/-- `DEBUG_POST_SAMPLES`. -/
abbrev debugPostSamples : ℕ := 1000

/-- The test for a trigger. -/
def IqPair.above (s : IqPair) : Bool :=
  debugTriggerThreshold < s.iValue.toInt.natAbs || debugTriggerThreshold < s.qValue.toInt.natAbs

/-- The line `"%d %d\n"` without its newline. -/
def IqPair.line (s : IqPair) : List Char :=
  pyStr s.iValue.toInt ++ ' ' :: pyStr s.qValue.toInt

/-- The samples of the words in a chunk. -/
def samples (ddrBuf : List Byte) : List IqPair :=
  (groups 4 ddrBuf).map fun g => IqPair.ofWord (loadWord g)

/-! ## The module's state -/

/-- The static variables of `debug_txt.c`, and the lines written to `debug_file`. -/
structure DebugTxt where
  preBufferI : Fin debugPreSamples → BitVec 16
  preBufferQ : Fin debugPreSamples → BitVec 16
  preBufIdx : Fin debugPreSamples
  preBufFull : Bool
  triggered : Bool
  postRemaining : BitVec 32
  /-- `none` is no open file -/
  debugFile : Option (List (List Char))

namespace DebugTxt

/-- Their values when the program starts. -/
def static : DebugTxt where
  preBufferI := fun _ => 0
  preBufferQ := fun _ => 0
  preBufIdx := 0
  preBufFull := false
  triggered := false
  postRemaining := 0
  debugFile := none

/-- What `debug_txt_init` writes. -/
def fileHeader : List (List Char) :=
  ["# IQ Data Debug Log".toList,
    "# Format: I_value Q_value (decimal, signed 14-bit)".toList,
    "# Each line represents one 32-bit word from DMA".toList, []]

/-- `debug_txt_init`, with a file that can be opened or not. -/
def init (d : DebugTxt) (opens : Bool) : DebugTxt :=
  if opens then
    { d with
      debugFile := some fileHeader
      preBufIdx := 0
      preBufFull := false
      triggered := false
      postRemaining := 0 }
  else { d with debugFile := none }

/-- `fprintf` of some samples. -/
def fprintf (d : DebugTxt) (ss : List IqPair) : DebugTxt :=
  { d with debugFile := d.debugFile.map (· ++ ss.map IqPair.line) }

/-- A sample put into the ring buffer. -/
def store (d : DebugTxt) (s : IqPair) : DebugTxt :=
  let next := Fin.ofNat debugPreSamples (d.preBufIdx + 1)
  { d with
    preBufferI := Function.update d.preBufferI d.preBufIdx s.iValue
    preBufferQ := Function.update d.preBufferQ d.preBufIdx s.qValue
    preBufIdx := next
    preBufFull := d.preBufFull || next == 0 }

/-- The samples of the ring buffer, in the order in which they are written. -/
def dump (d : DebugTxt) : List IqPair :=
  let start := if d.preBufFull then d.preBufIdx else 0
  let count := if d.preBufFull then debugPreSamples else d.preBufIdx
  (List.range count).map fun j =>
    let pos := Fin.ofNat debugPreSamples (start + j)
    ⟨d.preBufferI pos, d.preBufferQ pos⟩

/-- What happens to one sample. -/
def logSample (d : DebugTxt) (s : IqPair) : DebugTxt :=
  let d := d.store s
  if !d.triggered then
    if s.above then
      let d := { d with triggered := true, postRemaining := BitVec.ofNat 32 debugPostSamples }
      -- the buffer, and the sample again
      (d.fprintf d.dump).fprintf [s]
    else d
  else
    let d := d.fprintf [s]
    let d := { d with postRemaining := d.postRemaining - 1 }
    if d.postRemaining = 0 then { d with triggered := false } else d

/-- `debug_txt_log_iq_data`. -/
def logIqData (d : DebugTxt) (ddrBuf : List Byte) : DebugTxt :=
  if d.debugFile.isNone then d else (samples ddrBuf).foldl logSample d

end DebugTxt

/-! ## What is recorded

The same with the whole history in place of the ring buffer. -/

/-- What is written for samples behind a history, when `quiet` of them are behind a trigger. -/
def recorded {α : Type*} (above : α → Bool) (pre post : ℕ) : List α → ℕ → List α → List α
  | _, _, [] => []
  | history, quiet + 1, x :: xs => x :: recorded above pre post (history ++ [x]) quiet xs
  | history, 0, x :: xs =>
    if above x then
      (history ++ [x]).drop (history.length + 1 - pre) ++
        x :: recorded above pre post (history ++ [x]) post xs
    else recorded above pre post (history ++ [x]) 0 xs

section Refinement

open DebugTxt

/-- The two arrays as one. -/
def DebugTxt.ring (d : DebugTxt) : Ring IqPair debugPreSamples where
  buf := fun pos => ⟨d.preBufferI pos, d.preBufferQ pos⟩
  idx := d.preBufIdx
  full := d.preBufFull

@[simp] theorem ring_store (d : DebugTxt) (s : IqPair) : (d.store s).ring = d.ring.push s := by
  unfold DebugTxt.store DebugTxt.ring Ring.push
  congr 1
  funext pos
  by_cases hpos : pos = d.preBufIdx
  · subst hpos
    simp
  · simp [Function.update_of_ne hpos]

theorem dump_eq (d : DebugTxt) : d.dump = d.ring.contents := rfl

/-- The state after a history of samples, when `quiet` more are behind a trigger. -/
structure Tracks (d : DebugTxt) (history : List IqPair) (quiet : ℕ) : Prop where
  holds : d.ring.Holds history
  remaining : d.postRemaining.toNat = quiet
  triggered_iff : d.triggered = true ↔ 0 < quiet

theorem tracks_init (d : DebugTxt) : Tracks (d.init true) [] 0 where
  holds := Ring.holds_nil rfl rfl
  remaining := rfl
  triggered_iff := by simp [DebugTxt.init]

theorem Tracks.holds_store {d : DebugTxt} {history : List IqPair} {quiet : ℕ}
    (h : Tracks d history quiet) (s : IqPair) : (d.store s).ring.Holds (history ++ [s]) := by
  simpa using h.holds.push s

/-- After it the dump loop reads the end of the history, this sample last. -/
theorem Tracks.dump_store {d : DebugTxt} {history : List IqPair} {quiet : ℕ}
    (h : Tracks d history quiet) (s : IqPair) :
    (d.store s).dump = (history ++ [s]).drop (history.length + 1 - debugPreSamples) := by
  simpa [dump_eq] using Ring.contents_eq (h.holds_store s)

theorem Tracks.idle {d : DebugTxt} {history : List IqPair} (h : Tracks d history 0) :
    d.triggered = false := by
  simpa using h.triggered_iff

/-- Behind a trigger the counter can be decremented. -/
theorem Tracks.postRemaining_pred {d : DebugTxt} {history : List IqPair} {quiet : ℕ}
    (h : Tracks d history (quiet + 1)) : (d.postRemaining - 1).toNat = quiet := by
  have hone : 1#32 ≤ d.postRemaining := by
    rw [BitVec.le_def, h.remaining]
    exact Nat.succ_le_succ (Nat.zero_le quiet)
  have hsub : (d.postRemaining - 1).toNat = d.postRemaining.toNat - 1 :=
    BitVec.toNat_sub_of_le hone
  rw [hsub, h.remaining]
  exact Nat.add_sub_cancel quiet 1

/-- A sample below the threshold is only stored. -/
theorem Tracks.logSample_below {d : DebugTxt} {history : List IqPair} (h : Tracks d history 0)
    {s : IqPair} (hs : s.above = false) :
    Tracks (d.logSample s) (history ++ [s]) 0 ∧ (d.logSample s).debugFile = d.debugFile := by
  have hstep : d.logSample s = d.store s := by
    simp [DebugTxt.logSample, DebugTxt.store, h.idle, hs]
  rw [hstep]
  exact ⟨⟨h.holds_store s, h.remaining, h.triggered_iff⟩, rfl⟩

/-- A sample above it starts a window. -/
theorem Tracks.logSample_above {d : DebugTxt} {history : List IqPair} (h : Tracks d history 0)
    {s : IqPair} (hs : s.above = true) :
    Tracks (d.logSample s) (history ++ [s]) debugPostSamples ∧
      (d.logSample s).debugFile = d.debugFile.map (· ++
        ((history ++ [s]).drop (history.length + 1 - debugPreSamples) ++ [s]).map IqPair.line) := by
  have hdump := h.dump_store s
  have hstep : d.logSample s =
      ({ d.store s with
        triggered := true
        postRemaining := BitVec.ofNat 32 debugPostSamples }.fprintf (d.store s).dump).fprintf
          [s] := by
    simp [DebugTxt.logSample, DebugTxt.store, h.idle, hs, DebugTxt.dump]
  rw [hstep, hdump]
  refine ⟨⟨h.holds_store s, rfl, by simp [DebugTxt.fprintf]⟩, ?_⟩
  simp [DebugTxt.fprintf, DebugTxt.store, Function.comp_def]

/-- A sample behind a trigger is written. -/
theorem Tracks.logSample_quiet {d : DebugTxt} {history : List IqPair} {quiet : ℕ}
    (h : Tracks d history (quiet + 1)) (s : IqPair) :
    Tracks (d.logSample s) (history ++ [s]) quiet ∧
      (d.logSample s).debugFile = d.debugFile.map (· ++ [s.line]) := by
  have hbusy : d.triggered = true := h.triggered_iff.mpr (Nat.succ_pos quiet)
  have hremaining : (d.postRemaining - 1#32).toNat = quiet := h.postRemaining_pred
  have hlast : d.postRemaining - 1#32 = 0#32 ↔ quiet = 0 := by
    rw [← hremaining, BitVec.toNat_eq]
    rfl
  by_cases hzero : quiet = 0
  · -- the last sample of the window
    have hstep : d.logSample s = { (d.store s).fprintf [s] with
        postRemaining := d.postRemaining - 1
        triggered := false } := by
      simp [DebugTxt.logSample, DebugTxt.store, DebugTxt.fprintf, hbusy, hlast.mpr hzero]
    rw [hstep]
    exact ⟨⟨h.holds_store s, hremaining, by simp [hzero]⟩, rfl⟩
  · have hstep : d.logSample s = { (d.store s).fprintf [s] with
        postRemaining := d.postRemaining - 1 } := by
      simp [DebugTxt.logSample, DebugTxt.store, DebugTxt.fprintf, hbusy, mt hlast.mp hzero]
    rw [hstep]
    refine ⟨⟨h.holds_store s, hremaining, ?_⟩, rfl⟩
    show d.triggered = true ↔ 0 < quiet
    exact iff_of_true hbusy (Nat.pos_of_ne_zero hzero)

/-- What a run of samples writes. -/
theorem Tracks.debugFile_foldl {d : DebugTxt} {history : List IqPair} {quiet : ℕ}
    (h : Tracks d history quiet) (ss : List IqPair) :
    (ss.foldl logSample d).debugFile = d.debugFile.map (· ++
      (recorded IqPair.above debugPreSamples debugPostSamples history quiet ss).map
        IqPair.line) := by
  induction ss generalizing d history quiet with
  | nil => simp [recorded]
  | cons s ss ih =>
    cases quiet with
    | succ quiet =>
      obtain ⟨hnext, hfile⟩ := h.logSample_quiet s
      simp [ih hnext, hfile, recorded, Function.comp_def]
    | zero =>
      by_cases hs : s.above = true
      · obtain ⟨hnext, hfile⟩ := h.logSample_above hs
        simp [ih hnext, hfile, recorded, hs, Function.comp_def]
      · rw [Bool.not_eq_true] at hs
        obtain ⟨hnext, hfile⟩ := h.logSample_below hs
        simp [ih hnext, hfile, recorded, hs]

/-- The file stays open. -/
theorem isSome_debugFile_foldl (ss : List IqPair) (d : DebugTxt) :
    (ss.foldl logSample d).debugFile.isSome = d.debugFile.isSome := by
  induction ss generalizing d with
  | nil => rfl
  | cons s ss ih =>
    have hstep : (d.logSample s).debugFile.isSome = d.debugFile.isSome := by
      unfold DebugTxt.logSample
      dsimp only
      split_ifs <;> simp [DebugTxt.fprintf, DebugTxt.store]
    rw [List.foldl_cons, ih, hstep]

/-- Chunks of whole words are cut into samples like the bytes put together. -/
theorem samples_flatten {chunks : List (List Byte)} (h : ∀ c ∈ chunks, 4 ∣ c.length) :
    samples chunks.flatten = chunks.flatMap samples := by
  induction chunks with
  | nil => rfl
  | cons c chunks ih =>
    rw [List.forall_mem_cons] at h
    have hcut := groups_append_of_dvd (by decide) h.1 chunks.flatten
    rw [List.flatMap_cons, ← ih h.2]
    simp [samples, hcut]

/-- An open file has every sample of every chunk logged. -/
theorem foldl_logIqData_flatMap {d : DebugTxt} (hopen : d.debugFile.isSome = true)
    (chunks : List (List Byte)) :
    chunks.foldl logIqData d = (chunks.flatMap samples).foldl logSample d := by
  induction chunks generalizing d with
  | nil => rfl
  | cons c chunks ih =>
    have hnone : d.debugFile.isNone = false := by rw [← Option.not_isSome, hopen, Bool.not_true]
    have hchunk : d.logIqData c = (samples c).foldl logSample d := by
      unfold DebugTxt.logIqData
      rw [hnone]
      rfl
    rw [List.foldl_cons, hchunk, List.flatMap_cons, List.foldl_append]
    exact ih ((isSome_debugFile_foldl _ d).trans hopen)

/-- **Where chunk boundaries fall makes no difference.** -/
theorem foldl_logIqData {d : DebugTxt} (hopen : d.debugFile.isSome = true)
    {chunks : List (List Byte)} (h : ∀ c ∈ chunks, 4 ∣ c.length) :
    chunks.foldl logIqData d = (samples chunks.flatten).foldl logSample d := by
  rw [samples_flatten h]
  exact foldl_logIqData_flatMap hopen chunks

/-- **What any sequence of chunks writes** behind the header. -/
theorem debugFile_logIqData (d : DebugTxt) {chunks : List (List Byte)}
    (h : ∀ c ∈ chunks, 4 ∣ c.length) :
    (chunks.foldl logIqData (d.init true)).debugFile =
      some (fileHeader ++ (recorded IqPair.above debugPreSamples debugPostSamples [] 0
        (samples chunks.flatten)).map IqPair.line) := by
  rw [foldl_logIqData rfl h, (tracks_init d).debugFile_foldl]
  rfl

end Refinement

/-! ## The windows around the triggers -/

section Windows

variable {α : Type*} {above : α → Bool} (pre post : ℕ)

/-- Nothing is written before the first trigger. -/
theorem recorded_append_below {a : List α} (ha : ∀ x ∈ a, above x = false) (history xs : List α) :
    recorded above pre post history 0 (a ++ xs) =
      recorded above pre post (history ++ a) 0 xs := by
  induction a generalizing history with
  | nil => simp
  | cons x a ih =>
    rw [List.forall_mem_cons] at ha
    simp [recorded, ha.1, ih ha.2]

/-- What is written from a first trigger on. -/
theorem recorded_trigger {a : List α} (ha : ∀ x ∈ a, above x = false) {x : α}
    (hx : above x = true) (b : List α) :
    recorded above pre post [] 0 (a ++ x :: b) = (a ++ [x]).drop (a.length + 1 - pre) ++
      x :: recorded above pre post (a ++ [x]) post b := by
  simp [recorded_append_below pre post ha, recorded, hx]

/-- **No window is written short**: what is written is at least as long as what comes into the
windows. -/
theorem windowCount_le_recorded {history : List α} {quiet : ℕ} {ts : List ℕ}
    (hts : ∀ t ∈ ts, t + post < history.length + quiet) (xs : List α) :
    windowCount pre post (ts ++ triggersFrom above post history.length quiet xs)
        (history.length + xs.length) ≤
      windowCount pre post ts history.length +
        (recorded above pre post history quiet xs).length := by
  induction xs generalizing history quiet ts with
  | nil => simp [triggersFrom, recorded]
  | cons x xs ih =>
    have hlen : (history ++ [x]).length = history.length + 1 := by simp
    have hadd : history.length + (x :: xs).length = history.length + 1 + xs.length := by
      simp only [List.length_cons]
      omega
    rw [hadd]
    cases quiet with
    | succ quiet =>
      -- one more item, written as it comes
      have hone : windowCount pre post ts (history.length + 1) ≤
          windowCount pre post ts history.length + 1 := windowCount_succ_le ts history.length
      have hrest := @ih (history ++ [x]) quiet ts fun t ht => by have hlt := hts t ht; omega
      rw [hlen] at hrest
      simp only [triggersFrom, recorded, List.length_cons]
      omega
    | zero =>
      by_cases hx : above x = true
      · -- a trigger adds at most `pre` items before it, and itself
        have hnew : windowCount pre post (ts ++ [history.length]) history.length ≤
            windowCount pre post ts history.length + min history.length pre :=
          windowCount_concat_le ts history.length
        have hone : windowCount pre post (ts ++ [history.length]) (history.length + 1) ≤
            windowCount pre post (ts ++ [history.length]) history.length + 1 :=
          windowCount_succ_le _ history.length
        have hquiet : ∀ t ∈ ts ++ [history.length], t + post < (history ++ [x]).length + post := by
          intro t ht
          rcases List.mem_append.mp ht with hold | hn
          · have hlt := hts t hold
            omega
          · rw [List.mem_singleton.mp hn]
            omega
        have hrest := ih hquiet
        rw [hlen, List.append_assoc, List.singleton_append] at hrest
        simp only [triggersFrom, recorded, hx, if_true, List.length_append, List.length_cons,
          List.length_drop, List.length_nil]
        omega
      · -- an item behind every window is not written
        rw [Bool.not_eq_true] at hx
        have hout : ¬ InWindows pre post ts history.length := by
          rintro ⟨t, ht, -, hpost⟩
          have hlt := hts t ht
          omega
        have hnone : windowCount pre post ts (history.length + 1) =
            windowCount pre post ts history.length := by
          rw [windowCount_succ, if_neg hout, Nat.add_zero]
        have hrest := @ih (history ++ [x]) 0 ts fun t ht => by have hlt := hts t ht; omega
        rw [hlen] at hrest
        simp only [triggersFrom, recorded, hx, Bool.false_eq_true, if_false]
        omega

/-- A first trigger with fewer than `pre` items before it: too much is written. -/
theorem length_recorded_gt {a : List α} (ha : ∀ x ∈ a, above x = false) (hshort : a.length < pre)
    {x : α} (hx : above x = true) (b : List α) :
    (windowed pre post (triggers above post (a ++ x :: b)) (a ++ x :: b)).length <
      (recorded above pre post [] 0 (a ++ x :: b)).length := by
  have htriggers : triggers above post (a ++ x :: b) =
      [a.length] ++ triggersFrom above post (a ++ [x]).length post b := by
    simp [triggers, triggersFrom_append_below ha, triggersFrom, hx]
  have hquiet : ∀ t ∈ [a.length], t + post < (a ++ [x]).length + post := by
    intro t ht
    simp [List.mem_singleton.mp ht]
  have hrest : windowCount pre post ([a.length] ++ triggersFrom above post (a ++ [x]).length post b)
      ((a ++ [x]).length + b.length) ≤ windowCount pre post [a.length] (a ++ [x]).length +
        (recorded above pre post (a ++ [x]) post b).length :=
    windowCount_le_recorded pre post hquiet b
  have hnew : windowCount pre post [a.length] a.length ≤
      windowCount pre post [] a.length + min a.length pre := windowCount_concat_le [] a.length
  have hnil : windowCount pre post [] a.length = 0 := by simp [windowCount, InWindows]
  have hone : windowCount pre post [a.length] (a.length + 1) ≤
      windowCount pre post [a.length] a.length + 1 := windowCount_succ_le _ _
  rw [length_windowed, htriggers, recorded_trigger pre post ha hx]
  simp only [List.length_append, List.length_cons, List.length_nil, List.length_drop,
    Nat.zero_add] at hrest ⊢
  rw [← Nat.add_assoc, Nat.add_right_comm]
  omega

/-- One with at least `pre` items before it: the trigger is written in the place of the item
before it. -/
theorem getElem?_recorded_ne {a : List α} (ha : ∀ x ∈ a, above x = false) (hpre : 0 < pre)
    (hlong : pre ≤ a.length) {x : α} (hx : above x = true) (b : List α) :
    (windowed pre post (triggers above post (a ++ x :: b)) (a ++ x :: b))[pre - 1]? ≠
      (recorded above pre post [] 0 (a ++ x :: b))[pre - 1]? := by
  have htriggers : triggers above post (a ++ x :: b) =
      a.length :: triggersFrom above post (a.length + 1) post b := by
    simp [triggers, triggersFrom_append_below ha, triggersFrom, hx]
  have hlater : ∀ t ∈ triggersFrom above post (a.length + 1) post b, a.length ≤ t := by
    intro t ht
    have hle := le_of_mem_triggersFrom ht
    omega
  obtain ⟨rest, hwindowed⟩ : ∃ rest, windowed pre post
      (a.length :: triggersFrom above post (a.length + 1) post b) (a ++ x :: b) =
        a.drop (a.length - pre) ++ rest := windowed_append hlater
  -- in the window this is the last item below the threshold
  have hwant : (windowed pre post (triggers above post (a ++ x :: b)) (a ++ x :: b))[pre - 1]? =
      a[a.length - 1]? := by
    rw [htriggers, hwindowed, List.getElem?_append_left (by simp; omega), List.getElem?_drop]
    congr 1
    omega
  -- in the ring buffer it is the trigger itself
  have hgot : (recorded above pre post [] 0 (a ++ x :: b))[pre - 1]? = some x := by
    rw [recorded_trigger pre post ha hx, List.getElem?_append_left (by simp; omega), List.getElem?_drop,
      show a.length + 1 - pre + (pre - 1) = a.length by omega]
    simp
  rw [hwant, hgot]
  intro heq
  have hbelow := ha x (List.mem_of_getElem? heq)
  rw [hx] at hbelow
  cases hbelow

/-- **When the windows around the triggers are written**: when there is none. -/
theorem recorded_eq_windowed_iff (hpre : 0 < pre) (xs : List α) :
    recorded above pre post [] 0 xs = windowed pre post (triggers above post xs) xs ↔
      ∀ x ∈ xs, above x = false := by
  constructor
  · intro heq
    by_contra hsome
    -- the first trigger
    obtain ⟨x, hfind⟩ : ∃ x, xs.find? above = some x := by
      rw [← Option.isSome_iff_exists, List.find?_isSome]
      simpa using hsome
    obtain ⟨hx, a, b, rfl, ha⟩ := List.find?_eq_some_iff_append.mp hfind
    have ha' : ∀ y ∈ a, above y = false := fun y hy => by simpa using ha y hy
    rcases Nat.lt_or_ge a.length pre with hshort | hlong
    · have hlt := length_recorded_gt pre post ha' hshort hx b
      rw [heq] at hlt
      exact Nat.lt_irrefl _ hlt
    · exact getElem?_recorded_ne pre post ha' hpre hlong hx b (by rw [heq])
  · intro hbelow
    have htriggers : triggers above post xs = [] := triggersFrom_below hbelow 0
    have hrecorded := recorded_append_below pre post hbelow [] []
    rw [List.append_nil] at hrecorded
    rw [htriggers, windowed_nil, hrecorded]
    rfl

end Windows

theorem line_injective : Function.Injective IqPair.line := by
  rintro ⟨i, q⟩ ⟨i', q'⟩ h
  -- a number has no blank in it
  have hblank : ∀ n : ℤ, ' ' ∉ pyStr n :=
    fun n hmem => absurd ((pyStr_visible n).2 _ hmem).1 (by decide)
  obtain ⟨hi, -, hq⟩ := (List.append_cons_inj_of_notMem (hblank _) (hblank _)).mp h
  rw [IqPair.mk.injEq]
  exact ⟨BitVec.eq_of_toInt_eq (pyStr_injective hi), BitVec.eq_of_toInt_eq (pyStr_injective hq)⟩

/-- **When the log is the windows around the triggers**, each sample once, for any chunks of whole
words: only when no sample is above the threshold. -/
theorem logged_iff (d : DebugTxt) {chunks : List (List Byte)} (h : ∀ c ∈ chunks, 4 ∣ c.length) :
    let ss := samples chunks.flatten
    (chunks.foldl DebugTxt.logIqData (d.init true)).debugFile =
        some (DebugTxt.fileHeader ++ (windowed debugPreSamples debugPostSamples
          (triggers IqPair.above debugPostSamples ss) ss).map IqPair.line) ↔
      ∀ s ∈ ss, s.above = false := by
  dsimp only
  rw [debugFile_logIqData d h, Option.some_inj, List.append_cancel_left_eq,
    (List.map_injective_iff.mpr line_injective).eq_iff]
  exact recorded_eq_windowed_iff debugPreSamples debugPostSamples (by decide) _

/-- Two chunks of samples below the threshold: only the header is written. -/
theorem logged_below :
    ([[1, 0, 2, 0], [0x9D, 0x3F, 100, 0]].foldl DebugTxt.logIqData
      (DebugTxt.static.init true)).debugFile = some DebugTxt.fileHeader := by
  have hwords : ∀ c ∈ ([[1, 0, 2, 0], [0x9D, 0x3F, 100, 0]] : List (List Byte)), 4 ∣ c.length := by
    decide
  rw [(logged_iff DebugTxt.static hwords).mpr (by decide)]
  rfl

/-- One sample with I = 101 and Q = 1 is written twice. -/
theorem not_logged_once :
    ([[1, 0, 101, 0]].foldl DebugTxt.logIqData (DebugTxt.static.init true)).debugFile =
        some (DebugTxt.fileHeader ++ ["101 1".toList, "101 1".toList]) ∧
      ([[1, 0, 101, 0]].foldl DebugTxt.logIqData (DebugTxt.static.init true)).debugFile ≠
        some (DebugTxt.fileHeader ++ (windowed debugPreSamples debugPostSamples
          (triggers IqPair.above debugPostSamples (samples [1, 0, 101, 0]))
            (samples [1, 0, 101, 0])).map IqPair.line) := by
  decide +kernel

end Rf215Sdr.Hps
