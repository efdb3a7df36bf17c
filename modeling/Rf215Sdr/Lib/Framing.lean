import Mathlib.Data.List.Basic
import Mathlib.Data.List.Chain
import Mathlib.Tactic.Common
import Rf215Sdr.Lib.Machine

/-!
# Hunt-and-Lock Frame Synchronisation

A frame synchroniser over an arbitrary symbol type: a sliding window of the last `len`
symbols, and a lock that is either lost (hunting) or counts the symbols since the last
frame boundary. Hunting ends when a head symbol reaches the front of the window. A locked
synchroniser looks at its window once every `len` symbols: an idle window keeps the lock, a
valid window is emitted and keeps the lock, any other window loses it.

The *phase* of a locked synchroniser at a frame boundary of the sender is the number of
symbols of the next frame it reads before it looks at its window, `len` meaning aligned.

## Main results

- `eventsAt_aligned`: an aligned synchroniser emits exactly the valid frames.
- `eventsAt_acquire`: from a quiet window, the first valid frame is the price of the lock.
- `locked_after_valid`: once a valid frame has gone by, the lock is never lost.
-/

namespace Rf215Sdr.Lib

/-- A frame format: how long frames are, which symbols may start one, which windows are
fill, and which windows are payload. `blank` is the symbol a reset window is filled with. -/
structure FrameFormat (α : Type*) where
  len : ℕ
  head : α → Bool
  idle : List α → Bool
  valid : List α → Bool
  blank : α
  len_pos : 0 < len
  head_blank : head blank = false
  head_of_valid : ∀ a w, valid (a :: w) = true → head a = true
  not_head_of_idle : ∀ w, idle w = true → ∀ a ∈ w, head a = false

/-- Registers of a synchroniser: the last symbols received, the lock (symbols since the last
frame boundary, `none` while hunting), and what the last edge emitted. -/
@[ext]
structure Sync (α : Type*) where
  window : List α
  lock : Option ℕ
  out : Option (List α)

namespace FrameFormat

variable {α : Type*} (F : FrameFormat α)

/-- One received symbol. -/
def syncStep (s : Sync α) (a : α) : Sync α :=
  -- the window slides in every state
  let w := s.window.tail ++ [a]
  match s.lock with
  | none => { window := w, lock := if w.head?.any F.head then some 0 else none, out := none }
  | some c =>
    -- a frame boundary: fill keeps the lock, payload is emitted, anything else loses it
    if c + 1 = F.len then
      if F.idle w then { window := w, lock := some 0, out := none }
      else if F.valid w then { window := w, lock := some 0, out := some w }
      else { window := w, lock := none, out := none }
    else { window := w, lock := some (c + 1), out := none }

/-- The synchroniser, hunting over a blank window after reset. -/
def sync : Machine (Sync α) α where
  reset := { window := List.replicate F.len F.blank, lock := none, out := none }
  step := F.syncStep

/-- What an edge emits. -/
def emitted (s : Sync α) (a : α) : Option (List α) :=
  (F.syncStep s a).out

/-- The shape every reachable register state has. -/
structure Wf (s : Sync α) : Prop where
  window_length : s.window.length = F.len
  lock_lt : ∀ c, s.lock = some c → c < F.len

/-- No symbol in the window can start a frame. -/
def Quiet (w : List α) : Prop :=
  ∀ a ∈ w, F.head a = false

/-- A transmitted frame: `len` symbols, either fill or payload. -/
structure Frame where
  symbols : List α
  length_eq : symbols.length = F.len
  idle_or_valid : F.idle symbols = true ∨ F.valid symbols = true

/-- Frames sent back to back. -/
def serialize (fs : List F.Frame) : List α :=
  fs.flatMap Frame.symbols

/-- The window `o` symbols into `f`, reaching into the following frame `g`. -/
def straddle (f g : F.Frame) (o : ℕ) : List α :=
  ((f.symbols ++ g.symbols).drop o).take F.len

variable {F}

/-! ## One step -/

@[simp] theorem sync_step (s : Sync α) (a : α) : F.sync.step s a = F.syncStep s a := rfl

@[simp] theorem syncStep_window (s : Sync α) (a : α) :
    (F.syncStep s a).window = s.window.tail ++ [a] := by
  unfold syncStep
  cases s.lock with
  | none => rfl
  | some c =>
    simp only
    split_ifs <;> rfl

theorem syncStep_hunting {s : Sync α} (h : s.lock = none) (a : α) :
    F.syncStep s a =
      { window := s.window.tail ++ [a]
        lock := if (s.window.tail ++ [a]).head?.any F.head then some 0 else none
        out := none } := by
  simp [syncStep, h]

theorem syncStep_counting {s : Sync α} {c : ℕ} (h : s.lock = some c) (hc : c + 1 ≠ F.len)
    (a : α) :
    F.syncStep s a = { window := s.window.tail ++ [a], lock := some (c + 1), out := none } := by
  simp [syncStep, h, hc]

/-- A window cannot be both fill and payload. -/
theorem valid_eq_false_of_idle {w : List α} (hw : w ≠ []) (h : F.idle w = true) :
    F.valid w = false := by
  cases w with
  | nil => exact absurd rfl hw
  | cons a w =>
    by_contra hv
    have hhead := F.head_of_valid a w (by simpa using hv)
    have hnot := F.not_head_of_idle _ h a (List.mem_cons_self ..)
    rw [hhead] at hnot
    cases hnot

/-- At a frame boundary the window decides both the lock and the output. -/
theorem syncStep_boundary {s : Sync α} {c : ℕ} (h : s.lock = some c) (hc : c + 1 = F.len)
    (a : α) :
    F.syncStep s a =
      { window := s.window.tail ++ [a]
        lock := if F.idle (s.window.tail ++ [a]) || F.valid (s.window.tail ++ [a]) then some 0
          else none
        out := if F.valid (s.window.tail ++ [a]) then some (s.window.tail ++ [a]) else none } := by
  have hne : s.window.tail ++ [a] ≠ [] := by simp
  simp only [syncStep, h, hc, if_true]
  by_cases hi : F.idle (s.window.tail ++ [a]) = true
  · simp [hi, valid_eq_false_of_idle hne hi]
  · by_cases hv : F.valid (s.window.tail ++ [a]) = true <;> simp [hi, hv]

theorem Wf.step {s : Sync α} (hs : F.Wf s) (a : α) : F.Wf (F.syncStep s a) := by
  refine ⟨?_, ?_⟩
  · -- one symbol leaves the window, one enters it
    have hlen := hs.window_length
    have hpos := F.len_pos
    simp only [syncStep_window, List.length_append, List.length_tail, List.length_singleton]
    omega
  · -- the count is reset before it reaches `len`
    intro c hc
    have hpos := F.len_pos
    cases hl : s.lock with
    | none =>
      rw [syncStep_hunting hl] at hc
      simp only at hc
      split at hc <;> simp_all
    | some k =>
      have hk := hs.lock_lt k hl
      by_cases hb : k + 1 = F.len
      · rw [syncStep_boundary hl hb] at hc
        simp only at hc
        split at hc <;> simp_all
      · rw [syncStep_counting hl hb] at hc
        simp only [Option.some.injEq] at hc
        omega

theorem wf_reset : F.Wf F.sync.reset :=
  ⟨by simp [sync], by simp [sync]⟩

theorem Wf.run {s : Sync α} (hs : F.Wf s) (as : List α) : F.Wf (F.sync.run s as) :=
  F.sync.run_invariant (P := F.Wf) (fun _ a h => h.step a) hs as

theorem quiet_reset : F.Quiet F.sync.reset.window := by
  intro a ha
  rw [List.eq_of_mem_replicate ha]
  exact F.head_blank

/-! ## Runs that stay inside one frame -/

/-- The window slides: after `as` it holds the last `len` symbols of what went before. -/
theorem run_window {s : Sync α} (hs : F.Wf s) (as : List α) :
    (F.sync.run s as).window = (s.window ++ as).drop as.length := by
  induction as generalizing s with
  | nil => simp
  | cons a as ih =>
    have hpos := F.len_pos
    have hlen := hs.window_length
    rw [Machine.run_cons, sync_step, ih (hs.step a), syncStep_window]
    cases hw : s.window with
    | nil => simp [hw] at hlen; omega
    | cons x xs => simp

/-- A whole frame leaves nothing else in the window. -/
theorem run_window_frame {s : Sync α} (hs : F.Wf s) (f : F.Frame) :
    (F.sync.run s f.symbols).window = f.symbols := by
  rw [run_window hs, List.drop_left' (by rw [hs.window_length, f.length_eq])]

/-- Short of the next boundary a locked synchroniser counts and emits nothing. -/
theorem run_counting {s : Sync α} {c : ℕ} (h : s.lock = some c) (as : List α)
    (hc : c + as.length < F.len) (n : ℕ) :
    (F.sync.run s as).lock = some (c + as.length) ∧
      F.sync.eventsAt F.emitted s n as = [] := by
  induction as generalizing s c n with
  | nil => exact ⟨by simpa using h, rfl⟩
  | cons a as ih =>
    simp only [List.length_cons] at hc
    have hstep := syncStep_counting (F := F) h (by omega) a
    have hnext := ih (s := F.syncStep s a) (c := c + 1) (by rw [hstep]) (by omega) (n + 1)
    refine ⟨?_, ?_⟩
    · rw [Machine.run_cons, sync_step, hnext.1, List.length_cons]
      congr 1
      omega
    · rw [Machine.eventsAt_cons_none (by rw [emitted, hstep]), sync_step, hnext.2]

/-- Running exactly up to the next boundary, the window there decides. -/
theorem run_boundary {s : Sync α} (hs : F.Wf s) {c : ℕ} (h : s.lock = some c) (as : List α)
    (hc : c + as.length = F.len) (n : ℕ) :
    (F.sync.run s as).lock =
        (if F.idle ((s.window ++ as).drop as.length) || F.valid ((s.window ++ as).drop as.length)
          then some 0 else none) ∧
      F.sync.eventsAt F.emitted s n as =
        (if F.valid ((s.window ++ as).drop as.length)
          then [((s.window ++ as).drop as.length, n + as.length)] else []) := by
  have hclt := hs.lock_lt c h
  -- count up to the last symbol, which is the boundary
  obtain ⟨pre, a, rfl⟩ : ∃ pre a, as = pre ++ [a] := by
    refine ⟨as.dropLast, as.getLast ?_, (List.dropLast_append_getLast _).symm⟩
    rintro rfl
    simp only [List.length_nil] at hc
    omega
  simp only [List.length_append, List.length_singleton] at hc
  obtain ⟨hlock, hquiet⟩ := run_counting (F := F) h pre (by omega) n
  have hwin : (F.sync.run s pre).window.tail ++ [a] =
      (s.window ++ (pre ++ [a])).drop (pre ++ [a]).length := by
    rw [← run_window hs, Machine.run_append]
    simp
  have hstep := syncStep_boundary (F := F) hlock (by omega) a
  rw [hwin] at hstep
  refine ⟨?_, ?_⟩
  · rw [Machine.run_append, Machine.run_cons, Machine.run_nil, sync_step, hstep]
  · rw [Machine.eventsAt_append, hquiet, List.nil_append, Machine.eventsAt_cons, emitted, hstep]
    have hlen : (pre ++ [a]).length = pre.length + 1 := by simp
    rw [hlen]
    by_cases hv : F.valid ((s.window ++ (pre ++ [a])).drop (pre.length + 1)) = true <;>
      simp [hv, Nat.add_assoc]

/-! ## Hunting -/

/-- While hunting, the first head to reach the front of the window sets the lock, which then
counts the symbols behind it. Nothing is emitted within one frame length. -/
theorem run_hunting {s : Sync α} (hs : F.Wf s) (h : s.lock = none) (as : List α)
    (hlen : as.length ≤ F.len) (n : ℕ) :
    (F.sync.run s as).lock =
        (((s.window ++ as).tail.take as.length).findIdx? F.head).map
          (fun j => as.length - 1 - j) ∧
      F.sync.eventsAt F.emitted s n as = [] := by
  induction as generalizing s n with
  | nil => simp [h]
  | cons a as ih =>
    simp only [List.length_cons] at hlen
    -- `y` is the symbol at the front of the window after this edge
    obtain ⟨x, xs, hw⟩ : ∃ x xs, s.window = x :: xs := by
      have hwl := hs.window_length
      have hpos := F.len_pos
      exact List.exists_cons_of_length_pos (by omega)
    obtain ⟨y, ys, hy⟩ : ∃ y ys, xs ++ [a] = y :: ys :=
      List.exists_cons_of_ne_nil (by simp)
    have hstep := syncStep_hunting (F := F) h a
    rw [hw, List.tail_cons, hy] at hstep
    simp only [List.head?_cons, Option.any_some] at hstep
    have htops : (s.window ++ a :: as).tail.take (a :: as).length =
        y :: (ys ++ as).take as.length := by
      have happ : xs ++ a :: as = y :: (ys ++ as) := by
        rw [← List.singleton_append, ← List.append_assoc, hy, List.cons_append]
      rw [hw, List.cons_append, List.tail_cons, happ, List.length_cons, List.take_succ_cons]
    rw [Machine.run_cons, Machine.eventsAt_cons_none (by rw [emitted, hstep]), sync_step, htops,
      List.findIdx?_cons, List.length_cons]
    by_cases hhead : F.head y = true
    · -- the head arrives now: from here on the lock counts
      have hcount := run_counting (F := F) (s := F.syncStep s a) (c := 0)
        (by rw [hstep]; simp [hhead]) as (by omega) (n + 1)
      refine ⟨?_, hcount.2⟩
      rw [hcount.1]
      simp [hhead]
    · -- no head yet, the hunt goes on
      have hrest := ih (s := F.syncStep s a) (hs.step a) (by rw [hstep]; simp [hhead])
        (by omega) (n + 1)
      refine ⟨?_, hrest.2⟩
      rw [hrest.1, hstep]
      simp only [hhead, List.cons_append, List.tail_cons, Bool.false_eq_true, if_false,
        Option.map_map]
      congr 1
      funext j
      simp only [Function.comp]
      omega

/-- If the last front symbol is a head, hunting has ended by then, inside the frame. -/
theorem run_hunting_head {s : Sync α} (hs : F.Wf s) (h : s.lock = none) (as : List α)
    (hne : as ≠ []) (hlen : as.length ≤ F.len) {b : α}
    (hb : (s.window ++ as)[as.length]? = some b) (hhead : F.head b = true) :
    ∃ c, (F.sync.run s as).lock = some c ∧ c < as.length := by
  have hpos := List.length_pos_iff.mpr hne
  -- the head is the last front symbol, so a search for the first head finds one
  have hlast : ((s.window ++ as).tail.take as.length)[as.length - 1]? = some b := by
    rw [List.getElem?_take_of_lt (by omega), List.getElem?_tail,
      Nat.sub_add_cancel hpos, hb]
  rw [(run_hunting hs h as hlen 0).1]
  cases hf : ((s.window ++ as).tail.take as.length).findIdx? F.head with
  | none =>
    rw [List.findIdx?_eq_none_iff] at hf
    have := hf b (List.mem_of_getElem? hlast)
    rw [hhead] at this
    cases this
  | some j => exact ⟨as.length - 1 - j, rfl, by omega⟩

/-- If no front symbol before the last is a head and the last one is, the lock is set exactly
at the end. -/
theorem run_hunting_exact {s : Sync α} (hs : F.Wf s) (h : s.lock = none) (as : List α)
    (hlen : as.length ≤ F.len) (quiet : List α) (b : α)
    (htops : (s.window ++ as).tail.take as.length = quiet ++ [b]) (hq : F.Quiet quiet)
    (hhead : F.head b = true) :
    (F.sync.run s as).lock = some 0 := by
  -- counting the front symbols: one for each symbol received
  have hlast : as.length = quiet.length + 1 := by
    have hl := congrArg List.length htops
    have hw := hs.window_length
    have hpos := F.len_pos
    simp only [List.length_take, List.length_tail, List.length_append,
      List.length_singleton] at hl
    omega
  have hnone : quiet.findIdx? F.head = none := List.findIdx?_eq_none_iff.mpr hq
  rw [(run_hunting hs h as hlen 0).1, htops, List.findIdx?_append, hnone, hlast]
  simp [List.findIdx?_cons, hhead]

/-- Symbols that cannot start a frame keep a quiet window quiet and the hunt going, however
many there are. -/
theorem run_quiet {s : Sync α} (h : s.lock = none) (hw : F.Quiet s.window) (as : List α)
    (has : F.Quiet as) (n : ℕ) :
    (F.sync.run s as).lock = none ∧ F.Quiet (F.sync.run s as).window ∧
      F.sync.eventsAt F.emitted s n as = [] := by
  induction as generalizing s n with
  | nil => exact ⟨h, hw, rfl⟩
  | cons a as ih =>
    have hw' : F.Quiet (s.window.tail ++ [a]) := by
      intro x hx
      rcases List.mem_append.mp hx with hx | hx
      · exact hw x (List.mem_of_mem_tail hx)
      · exact has x (by simp_all)
    -- nothing that could start a frame comes to the front
    have hhead : (s.window.tail ++ [a]).head?.any F.head = false := by
      cases hl : s.window.tail ++ [a] with
      | nil => rfl
      | cons y ys => simpa using hw' y (by simp [hl])
    have hstep := syncStep_hunting (F := F) h a
    rw [hhead] at hstep
    have hrest := ih (s := F.syncStep s a) (by rw [hstep]; rfl) (by rw [hstep]; exact hw')
      (fun x hx => has x (List.mem_cons_of_mem a hx)) (n + 1)
    rw [Machine.run_cons, Machine.eventsAt_cons_none (by rw [emitted, hstep]), sync_step]
    exact hrest

/-! ## Whole frames -/

@[simp] theorem serialize_nil : F.serialize [] = [] := rfl

@[simp] theorem serialize_cons (f : F.Frame) (fs : List F.Frame) :
    F.serialize (f :: fs) = f.symbols ++ F.serialize fs := rfl

theorem serialize_append (fs gs : List F.Frame) :
    F.serialize (fs ++ gs) = F.serialize fs ++ F.serialize gs :=
  List.flatMap_append

theorem length_serialize (fs : List F.Frame) :
    (F.serialize fs).length = F.len * fs.length := by
  induction fs with
  | nil => simp
  | cons f fs ih =>
    rw [serialize_cons, List.length_append, ih, f.length_eq, List.length_cons, Nat.mul_add,
      Nat.mul_one, Nat.add_comm]

theorem Frame.symbols_ne_nil (f : F.Frame) : f.symbols ≠ [] := by
  intro h
  have hl := f.length_eq
  have hpos := F.len_pos
  rw [h, List.length_nil] at hl
  omega

/-- Payload starts with a head. -/
theorem Frame.exists_head {f : F.Frame} (h : F.valid f.symbols = true) :
    ∃ b rest, f.symbols = b :: rest ∧ F.head b = true := by
  cases hf : f.symbols with
  | nil => exact absurd hf f.symbols_ne_nil
  | cons b rest => exact ⟨b, rest, rfl, F.head_of_valid b rest (hf ▸ h)⟩

/-- A frame that is not payload is fill, so nothing in it can start a frame. -/
theorem Frame.quiet_of_not_valid {f : F.Frame} (h : F.valid f.symbols = false) :
    F.Quiet f.symbols := by
  rcases f.idle_or_valid with hi | hv
  · exact F.not_head_of_idle _ hi
  · rw [h] at hv
    cases hv

/-- A window that starts with a symbol no frame starts with is not payload. -/
theorem not_valid_of_quiet_cons {a : α} {w : List α} (ha : F.head a = false) :
    F.valid (a :: w) = false := by
  by_contra hv
  rw [F.head_of_valid a w (by simpa using hv)] at ha
  cases ha

theorem Quiet.not_valid {w : List α} (hq : F.Quiet w) (hw : w ≠ []) : F.valid w = false := by
  obtain ⟨a, w, rfl⟩ := List.exists_cons_of_ne_nil hw
  exact not_valid_of_quiet_cons (hq a (List.mem_cons_self ..))

/-- A window with a head in it is not fill. -/
theorem not_idle_of_mem {w : List α} {b : α} (hb : b ∈ w) (hhead : F.head b = true) :
    F.idle w = false := by
  by_contra hi
  have := F.not_head_of_idle w (by simpa using hi) b hb
  rw [hhead] at this
  cases this

/-! ## Aligned synchronisers -/

/-- An aligned synchroniser reads one frame: the lock stays, payload comes out. -/
theorem run_frame_aligned {s : Sync α} (hs : F.Wf s) (h : s.lock = some 0) (f : F.Frame)
    (n : ℕ) :
    (F.sync.run s f.symbols).lock = some 0 ∧
      F.sync.eventsAt F.emitted s n f.symbols =
        (if F.valid f.symbols then [(f.symbols, n + F.len)] else []) := by
  have hwin : (s.window ++ f.symbols).drop f.symbols.length = f.symbols := by
    rw [List.drop_left' (by rw [hs.window_length, f.length_eq])]
  have hb := run_boundary (F := F) hs h f.symbols (by rw [f.length_eq, Nat.zero_add]) n
  rw [hwin] at hb
  refine ⟨?_, ?_⟩
  · rw [hb.1]
    rcases f.idle_or_valid with hi | hv
    · simp [hi]
    · simp [hv]
  · rw [hb.2, f.length_eq]

/-- An aligned synchroniser emits exactly the payload frames, each when its last symbol is
in. Frames are numbered from `k`, the clock stands at `z + len * k`. -/
theorem eventsAt_aligned {s : Sync α} (hs : F.Wf s) (h : s.lock = some 0)
    (fs : List F.Frame) (z k : ℕ) :
    F.sync.eventsAt F.emitted s (z + F.len * k) (F.serialize fs) =
      ((fs.zipIdx k).filter fun p => F.valid p.1.symbols).map
        fun p => (p.1.symbols, z + F.len * (p.2 + 1)) := by
  induction fs generalizing s k with
  | nil => rfl
  | cons f fs ih =>
    obtain ⟨hlock, hev⟩ := run_frame_aligned hs h f (z + F.len * k)
    have hclock : z + F.len * k + f.symbols.length = z + F.len * (k + 1) := by
      rw [f.length_eq, Nat.mul_add, Nat.mul_one, Nat.add_assoc]
    rw [serialize_cons, Machine.eventsAt_append, hev, hclock, ih (hs.run _) hlock,
      List.zipIdx_cons, List.filter_cons]
    by_cases hv : F.valid f.symbols = true
    · simp [hv, Nat.mul_add, Nat.add_assoc]
    · simp [hv]

theorem events_aligned {s : Sync α} (hs : F.Wf s) (h : s.lock = some 0) (fs : List F.Frame) :
    F.sync.events F.emitted s (F.serialize fs) =
      (fs.filter fun f => F.valid f.symbols).map Frame.symbols := by
  induction fs generalizing s with
  | nil => rfl
  | cons f fs ih =>
    obtain ⟨hlock, hev⟩ := run_frame_aligned hs h f 0
    rw [serialize_cons, Machine.events_append, ih (hs.run _) hlock, ← Machine.eventsAt_map_fst _ 0,
      hev]
    by_cases hv : F.valid f.symbols = true <;> simp [hv]

/-- An aligned synchroniser never loses its lock, not even between two boundaries. -/
theorem locked_of_aligned {s : Sync α} (hs : F.Wf s) (h : s.lock = some 0)
    (fs : List F.Frame) {as : List α} (has : as <+: F.serialize fs) :
    (F.sync.run s as).lock ≠ none := by
  induction fs generalizing s as with
  | nil =>
    rw [serialize_nil, List.prefix_nil] at has
    simp [has, h]
  | cons f fs ih =>
    rw [serialize_cons] at has
    -- either the next boundary is not reached, or a whole frame has been read
    by_cases hlt : as.length < F.len
    · rw [(run_counting (F := F) h as (by omega) 0).1]
      simp
    · obtain ⟨bs, rfl⟩ : f.symbols <+: as :=
        List.prefix_of_prefix_length_le (List.prefix_append _ _) has
          (by rw [f.length_eq]; omega)
      rw [Machine.run_append]
      exact ih (hs.run _) (run_frame_aligned hs h f 0).1
        ((List.prefix_append_right_inj _).mp has)

/-! ## Acquisition from a quiet window -/

/-- Hunting over a quiet window, the first payload frame is spent on the lock. -/
theorem run_frame_acquire {s : Sync α} (hs : F.Wf s) (h : s.lock = none)
    (hq : F.Quiet s.window) {f : F.Frame} (hv : F.valid f.symbols = true) (n : ℕ) :
    (F.sync.run s f.symbols).lock = some 0 ∧
      F.sync.eventsAt F.emitted s n f.symbols = [] := by
  -- all front symbols are old and quiet, except the last one, the head of the frame
  obtain ⟨b, rest, hf, hhead⟩ := Frame.exists_head hv
  refine ⟨?_, (run_hunting hs h _ f.length_eq.le n).2⟩
  refine run_hunting_exact hs h _ f.length_eq.le s.window.tail b ?_
    (fun x hx => hq x (List.mem_of_mem_tail hx)) hhead
  obtain ⟨x, xs, hw⟩ : ∃ x xs, s.window = x :: xs :=
    List.exists_cons_of_length_pos (by rw [hs.window_length]; exact F.len_pos)
  have hxs : xs.length + 1 = f.symbols.length := by
    rw [f.length_eq, ← hs.window_length, hw, List.length_cons]
  rw [hw, List.cons_append, List.tail_cons, List.tail_cons, ← hxs, hf,
    ← List.singleton_append (l := rest), ← List.append_assoc,
    List.take_left' (by simp)]

/-- **Acquisition**: hunting over a quiet window, exactly the payload frames but the first
come out, each when its last symbol is in. -/
theorem eventsAt_acquire {s : Sync α} (hs : F.Wf s) (h : s.lock = none)
    (hq : F.Quiet s.window) (fs : List F.Frame) (z k : ℕ) :
    F.sync.eventsAt F.emitted s (z + F.len * k) (F.serialize fs) =
      ((fs.zipIdx k).filter fun p => F.valid p.1.symbols).tail.map
        fun p => (p.1.symbols, z + F.len * (p.2 + 1)) := by
  induction fs generalizing s k with
  | nil => rfl
  | cons f fs ih =>
    have hclock : z + F.len * k + f.symbols.length = z + F.len * (k + 1) := by
      rw [f.length_eq, Nat.mul_add, Nat.mul_one, Nat.add_assoc]
    rw [serialize_cons, Machine.eventsAt_append, hclock, List.zipIdx_cons, List.filter_cons]
    by_cases hv : F.valid f.symbols = true
    · -- this frame sets the lock and is lost
      obtain ⟨hlock, hev⟩ := run_frame_acquire hs h hq hv (z + F.len * k)
      rw [hev, List.nil_append, eventsAt_aligned (hs.run _) hlock, if_pos hv, List.tail_cons]
    · -- fill changes nothing
      obtain ⟨hlock, hquiet, hev⟩ :=
        run_quiet (F := F) h hq f.symbols (f.quiet_of_not_valid (by simpa using hv))
          (z + F.len * k)
      rw [hev, List.nil_append, ih (hs.run _) hlock hquiet, if_neg hv]

/-- Once a payload frame has gone by, the lock holds at every later symbol. -/
theorem locked_after_valid {s : Sync α} (hs : F.Wf s) (h : s.lock = none)
    (hq : F.Quiet s.window) (fs gs : List F.Frame)
    (hfs : ∃ f ∈ fs, F.valid f.symbols = true) {as : List α} (has : as <+: F.serialize gs) :
    (F.sync.run s (F.serialize fs ++ as)).lock ≠ none := by
  induction fs generalizing s with
  | nil => simp at hfs
  | cons f fs ih =>
    rw [serialize_cons, List.append_assoc, Machine.run_append]
    by_cases hv : F.valid f.symbols = true
    · -- aligned from here on
      refine locked_of_aligned (hs.run _) (run_frame_acquire hs h hq hv 0).1 (fs ++ gs) ?_
      rw [serialize_append]
      exact (List.prefix_append_right_inj _).mpr has
    · obtain ⟨hlock, hquiet, -⟩ :=
        run_quiet (F := F) h hq f.symbols (f.quiet_of_not_valid (by simpa using hv)) 0
      refine ih (hs.run _) hlock hquiet ?_
      obtain ⟨g, hg, hgv⟩ := hfs
      rcases List.mem_cons.mp hg with rfl | hg
      · exact absurd hgv hv
      · exact ⟨g, hg, hgv⟩

end FrameFormat

end Rf215Sdr.Lib
