import Rf215Sdr.Lib.Framing

/-!
# Recovering Synchronisation

What a hunt-and-lock synchroniser does from an arbitrary register state: it recovers behind
a quiet window at the price of at most one payload frame, and on gapless payload within
`len` frames provided no window straddling two frames imitates a frame. The measure in the
gapless case is the lock itself, read at the sender's frame boundaries: it counts the
symbols since the wrong boundary, and every failed attempt strictly lowers it.

## Main results

- `events_resync`: after a quiet window, at most the first valid frame is lost, whatever the
  lock was.
- `events_after_len_frames`: on gapless valid frames the phase grows at every failed attempt,
  so `len` frames always suffice.
- `mem_eventsAt_from_reset`: what is emitted was received, behind at least one full window.
- `slips_from_reset`: on gapless valid frames what is emitted never gets further from the frames.
- `emissions_in_lock`: one lock has one phase.
- `emissions_spaced`: two emissions are at least `len` symbols apart.
-/

namespace Rf215Sdr.Lib

namespace FrameFormat

variable {α : Type*} {F : FrameFormat α}

/-! ## One frame from an unknown phase -/

/-- Behind the look at phase `c` there are `c` symbols of a whole frame, or window, left. -/
theorem length_drop_phase {l : List α} (hl : l.length = F.len) {c : ℕ} (hc : c < F.len) :
    (l.drop (F.len - c)).length = c := by
  rw [List.length_drop, hl, Nat.sub_sub_self hc.le]

/-- Splitting a frame where a synchroniser locked at the wrong phase looks at its window. -/
private theorem boundary_split {s : Sync α} (hs : F.Wf s) (f : F.Frame) {c : ℕ}
    (hc : c < F.len) :
    ((s.window ++ f.symbols.take (F.len - c)).drop (F.len - c)) =
      s.window.drop (F.len - c) ++ f.symbols.take (F.len - c) := by
  rw [List.drop_append_of_le_length (by rw [hs.window_length]; omega)]

/-- The state at that look, and the events up to it. -/
private theorem run_to_boundary {s : Sync α} (hs : F.Wf s) {c : ℕ} (h : s.lock = some c)
    (f : F.Frame) (hv : F.valid f.symbols = true) (n : ℕ) :
    let pre := f.symbols.take (F.len - c)
    let w := s.window.drop (F.len - c) ++ pre
    (F.sync.run s pre).window = w ∧
      (F.sync.run s pre).lock = (if F.valid w then some 0 else none) ∧
      F.sync.eventsAt F.emitted s n pre =
        (if F.valid w then [(w, n + pre.length)] else []) := by
  intro pre w
  have hc := hs.lock_lt c h
  have hpre : pre.length = F.len - c := by
    rw [List.length_take, f.length_eq]
    omega
  have hw : (s.window ++ pre).drop pre.length = w := by
    rw [hpre]
    exact boundary_split hs f hc
  -- the head of `f` sits in the window, so the window is not fill
  obtain ⟨b, rest, hf, hhead⟩ := Frame.exists_head hv
  have hmem : b ∈ w := by
    refine List.mem_append_right _ ?_
    obtain ⟨k, hk⟩ : ∃ k, F.len - c = k + 1 := ⟨F.len - c - 1, by omega⟩
    simp [pre, hf, hk]
  have hidle := not_idle_of_mem hmem hhead
  obtain ⟨hlock, hev⟩ := run_boundary (F := F) hs h pre (by omega) n
  rw [hw] at hlock hev
  refine ⟨by rw [run_window hs, hw], ?_, hev⟩
  rw [hlock, hidle, Bool.false_or]

/-! ## Behind a quiet window -/

/-- Any register state over a quiet window stays quiet and silent on fill. -/
theorem run_frame_silent {s : Sync α} (hs : F.Wf s) (hq : F.Quiet s.window) (f : F.Frame)
    (hf : F.valid f.symbols = false) :
    F.Quiet (F.sync.run s f.symbols).window ∧ F.sync.events F.emitted s f.symbols = [] := by
  have hfq := f.quiet_of_not_valid hf
  refine ⟨by rw [run_window_frame hs]; exact hfq, ?_⟩
  rw [← Machine.eventsAt_map_fst s 0, List.map_eq_nil_iff]
  -- hunting, or locked at any phase `c`
  cases hl : s.lock with
  | none => exact (run_quiet (F := F) hl hq f.symbols hfq 0).2.2
  | some c =>
    have hc := hs.lock_lt c hl
    have hsplit := List.take_append_drop (F.len - c) f.symbols
    have hpre : (f.symbols.take (F.len - c)).length = F.len - c := by
      rw [List.length_take, f.length_eq]
      omega
    obtain ⟨hlock, hev⟩ := run_boundary (F := F) hs hl (f.symbols.take (F.len - c)) (by omega) 0
    -- the window looked at is quiet, so nothing is emitted there
    have hwq : F.Quiet ((s.window ++ f.symbols.take (F.len - c)).drop
        (f.symbols.take (F.len - c)).length) := by
      intro x hx
      rcases List.mem_append.mp (List.mem_of_mem_drop hx) with hx | hx
      · exact hq x hx
      · exact hfq x (List.mem_of_mem_take hx)
    have hwv := hwq.not_valid (List.ne_nil_of_length_pos (by
      have hpos := F.len_pos
      have hwl := hs.window_length
      rw [List.length_drop, List.length_append]
      omega))
    rw [hwv] at hev hlock
    rw [← hsplit, Machine.eventsAt_append, hev, hpre, if_neg Bool.false_ne_true,
      List.nil_append]
    have hdrop : F.Quiet (f.symbols.drop (F.len - c)) :=
      fun x hx => hfq x (List.mem_of_mem_drop hx)
    -- whichever way the lock went, the rest of the frame shows nothing
    split at hlock
    · -- fill at the boundary: the rest of the frame is too short to reach the next one
      by_cases hc0 : c = 0
      · have : f.symbols.drop (F.len - c) = [] := by
          rw [List.drop_eq_nil_iff, f.length_eq, hc0]
          omega
        rw [this, Machine.eventsAt_nil]
      · refine (run_counting (F := F) hlock _ ?_ _).2
        rw [length_drop_phase f.length_eq hc, Nat.zero_add]
        exact hc
    · -- lock lost: hunting over quiet symbols finds nothing
      refine (run_quiet (F := F) hlock ?_ _ hdrop _).2.2
      rw [run_window hs]
      exact hwq

/-- Over a quiet window the first payload frame always ends aligned: it is either emitted or
spent on the lock. -/
theorem run_frame_resync {s : Sync α} (hs : F.Wf s) (hq : F.Quiet s.window) {f : F.Frame}
    (hv : F.valid f.symbols = true) :
    (F.sync.run s f.symbols).lock = some 0 ∧
      (F.sync.events F.emitted s f.symbols = [] ∨
        F.sync.events F.emitted s f.symbols = [f.symbols]) := by
  rw [← Machine.eventsAt_map_fst s 0]
  cases hl : s.lock with
  | none =>
    -- hunting: the frame is spent on the lock
    obtain ⟨hlock, hev⟩ := run_frame_acquire hs hl hq hv 0
    exact ⟨hlock, Or.inl (by rw [hev, List.map_nil])⟩
  | some c =>
    by_cases hc0 : c = 0
    · subst hc0
      -- aligned by chance: the frame is emitted
      obtain ⟨hlock, hev⟩ := run_frame_aligned hs hl f 0
      exact ⟨hlock, Or.inr (by rw [hev, if_pos hv]; rfl)⟩
    · -- wrong phase: the window looked at starts with a stale quiet symbol and is rejected
      have hc := hs.lock_lt c hl
      obtain ⟨hwin, hlock, hev⟩ := run_to_boundary hs hl f hv 0
      obtain ⟨x, xs, hx⟩ : ∃ x xs, s.window.drop (F.len - c) = x :: xs :=
        List.exists_cons_of_length_pos (by
          rw [length_drop_phase hs.window_length hc]
          exact Nat.pos_of_ne_zero hc0)
      have hstale : F.Quiet (x :: xs) := fun y hy => hq y (List.mem_of_mem_drop (hx ▸ hy))
      have hwv : F.valid (s.window.drop (F.len - c) ++ f.symbols.take (F.len - c)) = false := by
        rw [hx, List.cons_append]
        exact not_valid_of_quiet_cons (hstale x (List.mem_cons_self ..))
      rw [hwv, if_neg Bool.false_ne_true] at hlock hev
      have hrest := List.take_append_drop (F.len - c) f.symbols
      have hpost := length_drop_phase f.length_eq hc
      obtain ⟨b, tail, hf, hhead⟩ := Frame.exists_head hv
      -- hunting resumes inside the frame, in time to meet the frame's own head
      have hxs : xs.length + 1 = c := by
        rw [← length_drop_phase hs.window_length hc, hx, List.length_cons]
      have hfinal := run_hunting_exact (hs.run _) hlock (f.symbols.drop (F.len - c))
        (by omega) xs b
        (by
          rw [hwin, List.append_assoc, hrest, hx, List.cons_append, List.tail_cons, hpost,
            hf, ← List.singleton_append (l := tail), ← List.append_assoc,
            List.take_left' (by simp [hxs])])
        (fun y hy => hstale y (List.mem_cons_of_mem x hy)) hhead
      have hsilent := (run_hunting (hs.run _) hlock (f.symbols.drop (F.len - c)) (by omega)
        (0 + (f.symbols.take (F.len - c)).length)).2
      refine ⟨?_, Or.inl ?_⟩
      · rw [← hrest, Machine.run_append]
        exact hfinal
      · rw [← hrest, Machine.eventsAt_append, hev, hsilent]
        rfl

/-- **Resynchronisation**: from any register state over a quiet window, the payload frames
come out, all of them or all but the first. -/
theorem events_resync {s : Sync α} (hs : F.Wf s) (hq : F.Quiet s.window)
    (fs : List F.Frame) :
    let sent := (fs.filter fun f => F.valid f.symbols).map Frame.symbols
    F.sync.events F.emitted s (F.serialize fs) = sent ∨
      F.sync.events F.emitted s (F.serialize fs) = sent.tail := by
  intro sent
  induction fs generalizing s with
  | nil => exact Or.inl rfl
  | cons f fs ih =>
    simp only [sent, serialize_cons, Machine.events_append, List.filter_cons]
    by_cases hv : F.valid f.symbols = true
    · -- the first payload frame decides, all later ones are emitted
      obtain ⟨hlock, hev⟩ := run_frame_resync hs hq hv
      rw [events_aligned (hs.run _) hlock, if_pos hv, List.map_cons, List.tail_cons]
      rcases hev with hev | hev
      · exact Or.inr (by rw [hev, List.nil_append])
      · exact Or.inl (by rw [hev, List.singleton_append])
    · -- fill leaves the window quiet, the decision is still to come
      obtain ⟨hquiet, hev⟩ := run_frame_silent hs hq f (by simpa using hv)
      rw [hev, List.nil_append, if_neg hv]
      exact ih (hs.run _) hquiet

/-! ## On gapless payload -/

/-- One payload frame, read at the wrong phase `c`: the synchroniser is locked again at the
next frame boundary, no further from it, and strictly nearer if the window it looked at was
no payload. -/
theorem run_frame_gapless {s : Sync α} (hs : F.Wf s) {c : ℕ} (h : s.lock = some c)
    (hc0 : c ≠ 0) {f : F.Frame} (hv : F.valid f.symbols = true) :
    ∃ c', (F.sync.run s f.symbols).lock = some c' ∧ c' ≤ c ∧
      (F.valid (s.window.drop (F.len - c) ++ f.symbols.take (F.len - c)) = false → c' < c) := by
  have hc := hs.lock_lt c h
  obtain ⟨hwin, hlock, -⟩ := run_to_boundary hs h f hv 0
  have hrest := List.take_append_drop (F.len - c) f.symbols
  have hpost := length_drop_phase f.length_eq hc
  rw [← hrest, Machine.run_append, hrest]
  by_cases hw : F.valid (s.window.drop (F.len - c) ++ f.symbols.take (F.len - c)) = true
  · -- the imitation is taken for a frame: the phase does not move
    rw [if_pos hw] at hlock
    have hcount := (run_counting (F := F) hlock (f.symbols.drop (F.len - c)) (by omega) 0).1
    exact ⟨c, by rw [hcount, hpost, Nat.zero_add], le_rfl, fun hf => by rw [hw] at hf; cases hf⟩
  · -- the window is rejected: hunting meets this frame's own head at the latest
    rw [if_neg hw] at hlock
    obtain ⟨b, tail, hf, hhead⟩ := Frame.exists_head hv
    have hfront : ((F.sync.run s (f.symbols.take (F.len - c))).window ++
        f.symbols.drop (F.len - c))[(f.symbols.drop (F.len - c)).length]? = some b := by
      have hstale := length_drop_phase hs.window_length hc
      rw [hwin, List.append_assoc, hrest, hpost,
        List.getElem?_append_right (by rw [hstale]), hstale, Nat.sub_self, hf]
      rfl
    obtain ⟨c', hlock', hlt⟩ := run_hunting_head (hs.run _) hlock (f.symbols.drop (F.len - c))
      (List.ne_nil_of_length_pos (by omega)) (by omega) hfront hhead
    exact ⟨c', hlock', by omega, fun _ => by omega⟩

/-- Whatever the registers were, one payload frame leaves the synchroniser locked. -/
theorem run_frame_locks {s : Sync α} (hs : F.Wf s) {f : F.Frame}
    (hv : F.valid f.symbols = true) :
    ∃ c, (F.sync.run s f.symbols).lock = some c ∧ c < F.len := by
  cases h : s.lock with
  -- a hunt ends at the head of the frame at the latest
  | none =>
    obtain ⟨b, tail, hf, hhead⟩ := Frame.exists_head hv
    obtain ⟨c, hc, hlt⟩ := run_hunting_head hs h f.symbols f.symbols_ne_nil f.length_eq.le
      (b := b) (by
        rw [List.getElem?_append_right (by rw [hs.window_length, f.length_eq]),
          hs.window_length, f.length_eq, Nat.sub_self, hf]
        rfl) hhead
    exact ⟨c, hc, by rw [← f.length_eq]; exact hlt⟩
  | some c =>
    have hc := hs.lock_lt c h
    by_cases hc0 : c = 0
    · subst hc0
      exact ⟨0, (run_frame_aligned hs h f 0).1, F.len_pos⟩
    · obtain ⟨c', hlock, hle, -⟩ := run_frame_gapless hs h hc0 hv
      exact ⟨c', hlock, by omega⟩

/-- No window straddling two consecutive frames imitates payload. -/
def NoImitation (f g : F.Frame) : Prop :=
  ∀ o, 0 < o → o < F.len → F.valid (F.straddle f g o) = false

/-- The window a synchroniser at phase `len - c` looks at, when it has just read `g`. -/
private theorem straddle_eq (g f : F.Frame) {c : ℕ} (hc : c < F.len) :
    F.straddle g f (F.len - c) =
      g.symbols.drop (F.len - c) ++ f.symbols.take (F.len - c) := by
  have hlen := length_drop_phase g.length_eq hc
  rw [straddle, List.drop_append_of_le_length (by rw [g.length_eq]; omega), List.take_append,
    hlen, List.take_of_length_le (by omega)]

/-- As many gapless frames as the lock is symbols away from the boundary align it. -/
theorem run_gapless_aligned {s : Sync α} (hs : F.Wf s) {c : ℕ} (h : s.lock = some c)
    (g : F.Frame) (hw : s.window = g.symbols) (fs : List F.Frame)
    (hfs : ∀ f ∈ fs, F.valid f.symbols = true) (hchain : (g :: fs).IsChain NoImitation)
    (hle : c ≤ fs.length) :
    (F.sync.run s (F.serialize fs)).lock = some 0 := by
  -- each frame lowers the lock `c` until it is 0, where it stays
  induction fs generalizing s c g with
  | nil =>
    have hc : c = 0 := by simpa using hle
    rw [serialize_nil, Machine.run_nil, h, hc]
  | cons f fs ih =>
    have hv := hfs f (List.mem_cons_self ..)
    have hfs' : ∀ f' ∈ fs, F.valid f'.symbols = true :=
      fun f' hf' => hfs f' (List.mem_cons_of_mem f hf')
    obtain ⟨himit, hchain'⟩ := List.isChain_cons_cons.mp hchain
    rw [serialize_cons, Machine.run_append]
    by_cases hc0 : c = 0
    · subst hc0
      exact ih (hs.run _) (run_frame_aligned hs h f 0).1 f (run_window_frame hs f) hfs' hchain'
        (Nat.zero_le _)
    · have hc := hs.lock_lt c h
      obtain ⟨c', hlock, -, hlt⟩ := run_frame_gapless hs h hc0 hv
      -- the window looked at straddles `g` and `f`, so it is rejected
      have hrejected := himit (F.len - c) (by omega) (by omega)
      rw [straddle_eq g f hc, ← hw] at hrejected
      have hsmaller := hlt hrejected
      rw [List.length_cons] at hle
      exact ih (hs.run _) hlock f (run_window_frame hs f) hfs' hchain' (by omega)

/-- **Lock within `len` frames**: from any register state, on gapless payload no straddling
window of which imitates payload, every frame after the first `len` comes out. -/
theorem events_after_len_frames {s : Sync α} (hs : F.Wf s) (fs : List F.Frame)
    (hfs : ∀ f ∈ fs, F.valid f.symbols = true) (hchain : fs.IsChain NoImitation) :
    F.sync.events F.emitted (F.sync.run s (F.serialize (fs.take F.len)))
        (F.serialize (fs.drop F.len)) =
      (fs.drop F.len).map Frame.symbols := by
  have hpos := F.len_pos
  by_cases hshort : fs.length ≤ F.len
  · rw [List.drop_eq_nil_of_le hshort]
    rfl
  · obtain ⟨f, rest, rfl⟩ := List.exists_cons_of_length_pos (l := fs) (by omega)
    obtain ⟨k, hk⟩ : ∃ k, F.len = k + 1 := ⟨F.len - 1, by omega⟩
    have hkeep : (F.serialize ((f :: rest).take F.len)) =
        f.symbols ++ F.serialize (rest.take k) := by
      rw [hk, List.take_succ_cons, serialize_cons]
    -- one frame sets some lock below `len`, the next `len - 1` frames bring it down to 0
    obtain ⟨c, hlock, hc⟩ := run_frame_locks hs (hfs f (List.mem_cons_self ..))
    have haligned : (F.sync.run s (F.serialize ((f :: rest).take F.len))).lock = some 0 := by
      rw [hkeep, Machine.run_append]
      apply run_gapless_aligned (hs.run _) hlock f (run_window_frame hs f)
      · intro f' hf'
        exact hfs f' (List.mem_cons_of_mem f (List.mem_of_mem_take hf'))
      · exact hchain.prefix ((List.prefix_cons_inj f).mpr (List.take_prefix k rest))
      · rw [List.length_cons] at hshort
        rw [List.length_take]
        omega
    rw [events_aligned (hs.run _) haligned]
    congr 1
    exact List.filter_eq_self.mpr fun f' hf' => hfs f' (List.mem_of_mem_drop hf')

/-! ## From reset -/

/-- From reset, a lock is only ever set behind `len` received symbols, so a window looked at
later holds received symbols only. -/
theorem len_le_of_locked {as : List α} {c : ℕ}
    (h : (F.sync.run F.sync.reset as).lock = some c) : F.len + c ≤ as.length := by
  induction as using List.reverseRecOn generalizing c with
  | nil => simp [sync] at h
  | append_singleton as a ih =>
    rw [Machine.run_append, Machine.run_cons, Machine.run_nil, sync_step] at h
    have hwf : F.Wf (F.sync.run F.sync.reset as) := wf_reset.run as
    rw [List.length_append, List.length_singleton]
    cases hl : (F.sync.run F.sync.reset as).lock with
    | none =>
      -- the head that sets the lock has been shifted in, it is not a reset blank
      rw [syncStep_hunting hl] at h
      simp only at h
      split at h
      next hhead =>
        obtain rfl : 0 = c := by simpa using h
        by_contra hshort
        have hwin : (F.sync.run F.sync.reset as).window.tail ++ [a] =
            (List.replicate F.len F.blank ++ (as ++ [a])).drop (as.length + 1) := by
          have hslide := run_window (F := F) wf_reset (as ++ [a])
          rw [Machine.run_append, Machine.run_cons, Machine.run_nil, sync_step,
            syncStep_window, List.length_append, List.length_singleton] at hslide
          exact hslide
        rw [hwin, List.head?_drop, List.getElem?_append_left (by simp; omega),
          List.getElem?_replicate_of_lt (by omega), Option.any_some, F.head_blank] at hhead
        cases hhead
      next => cases h
    | some k =>
      -- a lock that goes on counting, or was set again `len` symbols later
      have hk := ih hl
      by_cases hb : k + 1 = F.len
      · rw [syncStep_boundary hl hb] at h
        simp only at h
        split at h
        · obtain rfl : 0 = c := by simpa using h
          omega
        · cases h
      · rw [syncStep_counting hl hb] at h
        obtain rfl : k + 1 = c := by simpa using h
        omega

/-- **What is emitted was received**: a window emitted from reset after `t` symbols is payload,
consists of the last symbols received, and has at least `len` received symbols in front of
it. -/
theorem mem_eventsAt_from_reset {as w : List α} {t : ℕ}
    (h : (w, t) ∈ F.sync.eventsAt F.emitted F.sync.reset 0 as) :
    F.valid w = true ∧ ∃ pre post, as = pre ++ w ++ post ∧ F.len ≤ pre.length ∧
      w.length = F.len ∧ t = pre.length + F.len := by
  obtain ⟨pre, a, post, rfl, hout, rfl⟩ := (Machine.mem_eventsAt_iff _ _ _ _ _).mp h
  have hwf : F.Wf (F.sync.run F.sync.reset pre) := wf_reset.run pre
  rw [emitted] at hout
  -- only the edge at a boundary emits
  cases hl : (F.sync.run F.sync.reset pre).lock with
  | none =>
    rw [syncStep_hunting hl] at hout
    cases hout
  | some c =>
    by_cases hb : c + 1 = F.len
    · have hlong := len_le_of_locked hl
      have hslide := run_window (F := F) wf_reset (pre ++ [a])
      rw [Machine.run_append, Machine.run_cons, Machine.run_nil, sync_step, syncStep_window,
        List.length_append, List.length_singleton] at hslide
      -- the stale reset symbols have left the window
      have hwin : (F.sync.run F.sync.reset pre).window.tail ++ [a] =
          (pre ++ [a]).drop (pre.length + 1 - F.len) := by
        rw [hslide]
        change (List.replicate F.len F.blank ++ (pre ++ [a])).drop _ = _
        rw [List.drop_append, List.drop_eq_nil_of_le (by simp; omega), List.nil_append,
          List.length_replicate]
      have hfront : ((pre ++ [a]).take (pre.length + 1 - F.len)).length =
          pre.length + 1 - F.len := by
        rw [List.length_take, List.length_append, List.length_singleton]
        omega
      rw [syncStep_boundary hl hb] at hout
      simp only at hout
      split at hout
      next hv =>
        obtain rfl : (F.sync.run F.sync.reset pre).window.tail ++ [a] = w := by simpa using hout
        refine ⟨hv, (pre ++ [a]).take (pre.length + 1 - F.len), post, ?_, ?_, ?_, ?_⟩
        · rw [hwin, List.take_append_drop, List.append_assoc, List.singleton_append]
        · rw [hfront]
          omega
        · rw [hwin, List.length_drop, List.length_append, List.length_singleton]
          omega
        · rw [hfront]
          omega
      next => cases hout
    · rw [syncStep_counting hl hb] at hout
      cases hout

/-- Less than a frame from reset sets no lock and shows nothing. -/
theorem run_short_from_reset {as : List α} (h : as.length < F.len) :
    (F.sync.run F.sync.reset as).lock = none ∧
      F.sync.eventsAt F.emitted F.sync.reset 0 as = [] := by
  refine ⟨?_, List.eq_nil_iff_forall_not_mem.mpr ?_⟩
  · cases hl : (F.sync.run F.sync.reset as).lock with
    | none => rfl
    | some c =>
      have hlong := len_le_of_locked hl
      omega
  · rintro ⟨w, t⟩ hmem
    obtain ⟨-, pre, post, rfl, hpre, -⟩ := mem_eventsAt_from_reset hmem
    rw [List.length_append, List.length_append] at h
    omega

/-- The window `p` symbols into back-to-back frames is the frame that starts there, or straddles
the one before and the next. -/
theorem window_of_serialize (fs : List F.Frame) {p : ℕ}
    (hp : p + F.len ≤ (F.serialize fs).length) :
    (p % F.len = 0 ∧ ∃ f, fs[p / F.len]? = some f ∧
        ((F.serialize fs).drop p).take F.len = f.symbols) ∨
      (0 < p % F.len ∧ ∃ f g, fs[p / F.len]? = some f ∧ fs[p / F.len + 1]? = some g ∧
        ((F.serialize fs).drop p).take F.len = F.straddle f g (p % F.len)) := by
  have hpos := F.len_pos
  induction fs generalizing p with
  | nil =>
    simp only [serialize_nil, List.length_nil] at hp
    omega
  | cons f fs ih =>
    rw [length_serialize, List.length_cons, Nat.mul_add, Nat.mul_one] at hp
    by_cases hskip : F.len ≤ p
    · obtain ⟨q, rfl⟩ := Nat.exists_eq_add_of_le hskip
      have hdrop : (F.serialize (f :: fs)).drop (F.len + q) = (F.serialize fs).drop q := by
        rw [serialize_cons, ← List.drop_drop, List.drop_left' f.length_eq]
      -- the window lies behind the first frame
      rw [hdrop, Nat.add_mod_left, Nat.add_div_left q hpos, List.getElem?_cons_succ,
        List.getElem?_cons_succ]
      exact ih (by rw [length_serialize]; omega)
    · have hlt := Nat.lt_of_not_le hskip
      rw [Nat.mod_eq_of_lt hlt, Nat.div_eq_of_lt hlt]
      by_cases hp0 : p = 0
      · refine Or.inl ⟨hp0, f, rfl, ?_⟩
        rw [hp0, List.drop_zero, serialize_cons, List.take_left' f.length_eq]
      · -- the window reaches into the next frame, which must be there
        cases fs with
        | nil =>
          simp only [List.length_nil, Nat.mul_zero] at hp
          omega
        | cons g fs =>
          refine Or.inr ⟨Nat.pos_of_ne_zero hp0, f, g, rfl, rfl, ?_⟩
          rw [straddle, serialize_cons, serialize_cons, ← List.append_assoc,
            List.drop_append_of_le_length (by rw [List.length_append, f.length_eq]; omega),
            List.take_append_of_le_length]
          rw [List.length_drop, List.length_append, f.length_eq, g.length_eq]
          omega

/-- Back-to-back frames from symbol `k` on: the rest of a frame, and whole frames. -/
theorem exists_drop_serialize (fs : List F.Frame) (k : ℕ) :
    ∃ part rest, (F.serialize fs).drop k = part ++ F.serialize rest ∧ part.length < F.len ∧
      rest <:+ fs ∧ (rest = [] ∨ F.len ∣ k + part.length) := by
  have hpos := F.len_pos
  induction fs generalizing k with
  | nil => exact ⟨[], [], by simp, hpos, List.nil_suffix, Or.inl rfl⟩
  | cons f fs ih =>
    by_cases hskip : F.len ≤ k
    · obtain ⟨q, rfl⟩ := Nat.exists_eq_add_of_le hskip
      obtain ⟨part, rest, hdrop, hpart, hrest, hdvd⟩ := ih q
      refine ⟨part, rest, ?_, hpart, hrest.trans (List.suffix_cons f fs), ?_⟩
      · rw [serialize_cons, ← List.drop_drop, List.drop_left' f.length_eq, hdrop]
      · rw [Nat.add_assoc]
        exact hdvd.imp_right fun h => Nat.dvd_add (Nat.dvd_refl _) h
    · by_cases hk : k = 0
      · exact ⟨[], f :: fs, by rw [hk]; rfl, hpos, List.suffix_rfl, Or.inr (by simp [hk])⟩
      · refine ⟨f.symbols.drop k, fs, ?_, ?_, List.suffix_cons f fs, Or.inr ?_⟩
        · rw [serialize_cons, List.drop_append_of_le_length (by rw [f.length_eq]; omega)]
        · rw [List.length_drop, f.length_eq]
          omega
        · have hlen : k + (f.symbols.drop k).length = F.len := by
            rw [List.length_drop, f.length_eq, Nat.add_sub_cancel' (Nat.le_of_not_le hskip)]
          exact ⟨1, by rw [hlen, Nat.mul_one]⟩

/-! ## Slips -/

variable (F) in
/-- The symbols from position `p` to the next frame boundary of the sender. -/
def slip (p : ℕ) : ℕ :=
  (F.len - p % F.len) % F.len

theorem slip_eq {p c : ℕ} (hc : c < F.len) (h : F.len ∣ p + c) : F.slip p = c := by
  have hr := Nat.mod_lt p F.len_pos
  have hsum : F.len ∣ p % F.len + c := by
    rw [← Nat.dvd_add_right (Nat.dvd_mul_right F.len (p / F.len)), ← Nat.add_assoc,
      Nat.div_add_mod]
    exact h
  unfold slip
  -- the two are less than two frames, so none or one
  obtain ⟨q, hq⟩ := hsum
  obtain rfl | rfl | hq2 : q = 0 ∨ q = 1 ∨ 2 ≤ q := by omega
  · have hzero : p % F.len = 0 ∧ c = 0 := by omega
    rw [hzero.1, hzero.2, Nat.sub_zero, Nat.mod_self]
  · have hsub : F.len - p % F.len = c := by omega
    rw [hsub, Nat.mod_eq_of_lt hc]
  · have := Nat.mul_le_mul_left F.len hq2
    omega

/-- One payload frame read at phase `c`: what it shows has slip `c`, and the lock behind it is no
further from the boundary. -/
theorem run_frame_slip {s : Sync α} (hs : F.Wf s) {c : ℕ} (h : s.lock = some c) {f : F.Frame}
    (hv : F.valid f.symbols = true) (n : ℕ) :
    (∃ c' ≤ c, (F.sync.run s f.symbols).lock = some c') ∧
      ∀ e ∈ F.sync.eventsAt F.emitted s n f.symbols, e.2 + c = n + F.len := by
  have hc := hs.lock_lt c h
  by_cases hc0 : c = 0
  · subst hc0
    obtain ⟨hlock, hev⟩ := run_frame_aligned hs h f n
    rw [hev, if_pos hv]
    exact ⟨⟨0, Nat.le_refl 0, hlock⟩, by simp⟩
  · obtain ⟨c', hlock', hle, -⟩ := run_frame_gapless hs h hc0 hv
    obtain ⟨-, hlock, hev⟩ := run_to_boundary hs h f hv n
    have hsplit := List.take_append_drop (F.len - c) f.symbols
    have hpre : (f.symbols.take (F.len - c)).length = F.len - c := by
      rw [List.length_take, f.length_eq]
      omega
    have hpost := length_drop_phase f.length_eq hc
    -- behind the boundary the rest of the frame is too short to show anything
    have hsilent : F.sync.eventsAt F.emitted (F.sync.run s (f.symbols.take (F.len - c)))
        (n + (f.symbols.take (F.len - c)).length) (f.symbols.drop (F.len - c)) = [] := by
      split_ifs at hlock
      · exact (run_counting (F := F) hlock _ (by omega) _).2
      · exact (run_hunting (hs.run _) hlock _ (by omega) _).2
    refine ⟨⟨c', hle, hlock'⟩, ?_⟩
    rw [← hsplit, Machine.eventsAt_append, hsilent, List.append_nil, hev, hpre]
    split_ifs
    · intro e he
      rw [List.mem_singleton.mp he]
      show n + (F.len - c) + c = n + F.len
      omega
    · simp

/-- **Slips never grow** on gapless payload: of two windows emitted, the later one ends no further
from a frame boundary. Behind a first frame emitted in its place only frames come out. -/
theorem slips_antitone {s : Sync α} (hs : F.Wf s) {fs : List F.Frame}
    (hfs : ∀ f ∈ fs, F.valid f.symbols = true) {b n : ℕ} (hb : F.len ∣ b + n) :
    (∀ c, s.lock = some c → ∀ e ∈ F.sync.eventsAt F.emitted s n (F.serialize fs),
        F.slip (b + e.2) ≤ c) ∧
      (F.sync.eventsAt F.emitted s n (F.serialize fs)).Pairwise fun e e' =>
        F.slip (b + e'.2) ≤ F.slip (b + e.2) := by
  induction fs generalizing s n with
  | nil => exact ⟨fun _ _ _ he => absurd he List.not_mem_nil, List.Pairwise.nil⟩
  | cons f fs ih =>
    have hv := hfs f List.mem_cons_self
    have hnext : F.len ∣ b + (n + F.len) := by
      rw [← Nat.add_assoc]
      exact Nat.dvd_add hb (Nat.dvd_refl _)
    obtain ⟨hle, hpair⟩ := ih (hs.run f.symbols)
      (fun g hg => hfs g (List.mem_cons_of_mem f hg)) hnext
    rw [serialize_cons, Machine.eventsAt_append, f.length_eq]
    cases hl : s.lock with
    | none =>
      -- a hunt shows nothing within one frame
      rw [(run_hunting hs hl f.symbols f.length_eq.le n).2, List.nil_append]
      exact ⟨fun c hc => (by cases hc), hpair⟩
    | some c =>
      have hc := hs.lock_lt c hl
      obtain ⟨⟨c', hc', hlock'⟩, hslip⟩ := run_frame_slip hs hl hv n
      have hfirst : ∀ e ∈ F.sync.eventsAt F.emitted s n f.symbols, F.slip (b + e.2) = c := by
        intro e he
        apply slip_eq hc
        rw [Nat.add_assoc, hslip e he]
        exact hnext
      have hrest : ∀ e ∈ F.sync.eventsAt F.emitted (F.sync.run s f.symbols) (n + F.len)
          (F.serialize fs), F.slip (b + e.2) ≤ c :=
        fun e he => Nat.le_trans (hle c' hlock' e he) hc'
      refine ⟨?_, List.pairwise_append.mpr ⟨?_, hpair, ?_⟩⟩
      · intro d hd e he
        obtain rfl : c = d := Option.some.inj hd
        rcases List.mem_append.mp he with he | he
        · exact Nat.le_of_eq (hfirst e he)
        · exact hrest e he
      · exact List.pairwise_of_forall_mem_list fun e he e' he' => by
          rw [hfirst e he, hfirst e' he']
      · intro e he e' he'
        rw [hfirst e he]
        exact hrest e' he'

/-- From reset on, wherever in gapless payload reception starts. -/
theorem slips_from_reset {fs : List F.Frame} (hfs : ∀ f ∈ fs, F.valid f.symbols = true) (k : ℕ) :
    (F.sync.eventsAt F.emitted F.sync.reset 0 ((F.serialize fs).drop k)).Pairwise fun e e' =>
      F.slip (k + e'.2) ≤ F.slip (k + e.2) := by
  obtain ⟨part, rest, hdrop, hpart, hrest, hdvd⟩ := exists_drop_serialize fs k
  obtain ⟨-, hsilent⟩ := run_short_from_reset hpart
  rw [hdrop, Machine.eventsAt_append, hsilent, List.nil_append, Nat.zero_add]
  rcases hdvd with rfl | hdvd
  · exact List.Pairwise.nil
  · exact (slips_antitone (wf_reset.run part) (fun f hf => hfs f (hrest.subset hf)) hdvd).2

/-- From reset on a frame boundary, all frames but the first come out. -/
theorem events_from_boundary {fs : List F.Frame} (hfs : ∀ f ∈ fs, F.valid f.symbols = true) :
    F.sync.events F.emitted F.sync.reset (F.serialize fs) = fs.tail.map Frame.symbols := by
  cases fs with
  | nil => rfl
  | cons f fs =>
    obtain ⟨hlock, hsilent⟩ :=
      run_frame_acquire (F := F) wf_reset rfl quiet_reset (hfs f List.mem_cons_self) 0
    rw [serialize_cons, Machine.events_append, events_aligned (wf_reset.run _) hlock,
      ← Machine.eventsAt_map_fst _ 0 f.symbols, hsilent, List.map_nil, List.nil_append,
      List.tail_cons]
    congr 1
    exact List.filter_eq_self.mpr fun g hg => hfs g (List.mem_cons_of_mem f hg)

/-! ## One phase per lock -/

/-- An edge that emits leaves the lock freshly set. -/
theorem lock_eq_of_out {s : Sync α} {a : α} (h : (F.syncStep s a).out ≠ none) :
    (F.syncStep s a).lock = some 0 := by
  cases hl : s.lock with
  | none =>
    rw [syncStep_hunting hl] at h
    exact absurd rfl h
  | some c =>
    by_cases hb : c + 1 = F.len
    · rw [syncStep_boundary hl hb] at h ⊢
      simp only at h ⊢
      split at h
      next hv => simp [hv]
      next => exact absurd rfl h
    · rw [syncStep_counting hl hb] at h
      exact absurd rfl h

/-- A lock that is kept counts modulo the length of a frame. -/
theorem lock_mod {s : Sync α} {c : ℕ} (h : s.lock = some c) {a : α}
    (hkept : (F.syncStep s a).lock ≠ none) :
    (F.syncStep s a).lock = some ((c + 1) % F.len) ∨ F.len ≤ c := by
  by_cases hb : c + 1 = F.len
  · left
    rw [syncStep_boundary h hb] at hkept ⊢
    simp only at hkept ⊢
    split at hkept
    next hw => rw [if_pos hw, hb, Nat.mod_self]
    next => exact absurd rfl hkept
  · by_cases hlt : c + 1 < F.len
    · left
      rw [syncStep_counting h hb, Nat.mod_eq_of_lt hlt]
    · right
      omega

/-- A lock set by an emission and kept through `j` symbols stands at `j` modulo the length of a
frame. -/
theorem lock_run_mod {s : Sync α} (h : s.lock = some 0) {as : List α}
    (hkept : ∀ j ≤ as.length, (F.sync.run s (as.take j)).lock ≠ none) :
    (F.sync.run s as).lock = some (as.length % F.len) := by
  induction as using List.reverseRecOn with
  | nil => rw [Machine.run_nil, h, List.length_nil, Nat.zero_mod]
  | append_singleton as a ih =>
    have hlast := hkept (as ++ [a]).length (Nat.le_refl _)
    rw [List.take_length, Machine.run_append, Machine.run_cons, Machine.run_nil, sync_step]
      at hlast
    have hbefore := ih fun j hj => by
      have hj' := hkept j (by rw [List.length_append]; omega)
      rwa [List.take_append_of_le_length hj] at hj'
    rw [Machine.run_append, Machine.run_cons, Machine.run_nil, sync_step, List.length_append,
      List.length_singleton]
    rcases lock_mod hbefore hlast with hnext | hover
    · rw [hnext, Nat.mod_add_mod]
    · have := Nat.mod_lt as.length F.len_pos
      omega

/-- **One phase per lock**: two windows emitted without the lock being lost in between are whole
frames apart. -/
theorem emissions_in_lock {s : Sync α} {as : List α} {w w' : List α} {t t' : ℕ}
    (h : (w, t) ∈ F.sync.eventsAt F.emitted s 0 as)
    (h' : (w', t') ∈ F.sync.eventsAt F.emitted s 0 as) (hle : t ≤ t')
    (hkept : ∀ j, t ≤ j → j ≤ t' → (F.sync.run s (as.take j)).lock ≠ none) :
    F.len ∣ t' - t := by
  -- each of them sets the lock to 0
  have hset : ∀ {v : List α} {j : ℕ}, (v, j) ∈ F.sync.eventsAt F.emitted s 0 as →
      (F.sync.run s (as.take j)).lock = some 0 ∧ j ≤ as.length := by
    intro v j hmem
    obtain ⟨pre, a, post, rfl, hout, rfl⟩ := (Machine.mem_eventsAt_iff _ _ _ _ _).mp hmem
    have htake : (pre ++ a :: post).take (0 + pre.length + 1) = pre ++ [a] := by
      rw [Nat.zero_add, List.take_length_add_append]
      rfl
    refine ⟨?_, by simp⟩
    rw [htake, Machine.run_append]
    apply lock_eq_of_out
    rw [← emitted, hout]
    exact Option.some_ne_none v
  obtain ⟨hlock, -⟩ := hset h
  obtain ⟨hlock', hlen⟩ := hset h'
  obtain ⟨d, rfl⟩ := Nat.exists_eq_add_of_le hle
  have hd : ((as.drop t).take d).length = d := by
    rw [List.length_take, List.length_drop]
    omega
  have htake : ∀ j ≤ d, as.take (t + j) = as.take t ++ ((as.drop t).take d).take j := by
    intro j hj
    rw [List.take_add, List.take_take, Nat.min_eq_left hj]
  have hbetween : ∀ j ≤ ((as.drop t).take d).length,
      (F.sync.run (F.sync.run s (as.take t)) (((as.drop t).take d).take j)).lock ≠ none := by
    intro j hj
    rw [hd] at hj
    rw [← Machine.run_append, ← htake j hj]
    exact hkept (t + j) (Nat.le_add_right t j) (Nat.add_le_add_left hj t)
  have hmod := lock_run_mod hlock hbetween
  have hfull := htake d (Nat.le_refl d)
  rw [List.take_of_length_le (Nat.le_of_eq hd)] at hfull
  rw [← Machine.run_append, ← hfull, hlock', hd] at hmod
  rw [Nat.add_sub_cancel_left]
  exact Nat.dvd_of_mod_eq_zero (Option.some.inj hmod).symm

/-! ## Spacing of emissions -/

/-- Along a stream, a freshly set lock counts up in silence for `len - 1` edges. -/
theorem out_eq_none_of_lock {w : ℕ → α} {i : ℕ} (h : (F.sync.stateAt w i).lock = some 0)
    {k : ℕ} (hk : k < F.len) :
    (F.sync.stateAt w (i + k)).lock = some k ∧
      (0 < k → (F.sync.stateAt w (i + k)).out = none) := by
  induction k with
  | zero => exact ⟨h, fun h0 => absurd h0 (Nat.lt_irrefl 0)⟩
  | succ k ih =>
    have hprev := (ih (by omega)).1
    have hstep := syncStep_counting (F := F) hprev (by omega) (w (i + k))
    rw [← Nat.add_assoc, Machine.stateAt_succ, sync_step, hstep]
    exact ⟨rfl, fun _ => rfl⟩

/-- Two emissions along a stream are at least `len` edges apart. -/
theorem emissions_spaced {w : ℕ → α} {i j : ℕ} (hi : (F.sync.stateAt w i).out ≠ none)
    (hj : (F.sync.stateAt w j).out ≠ none) (hij : i < j) : i + F.len ≤ j := by
  by_contra hclose
  cases i with
  | zero => exact hi rfl
  | succ i =>
    -- the first emission sets the lock to 0, and it counts in silence
    have hlock : (F.sync.stateAt w (i + 1)).lock = some 0 := lock_eq_of_out hi
    obtain ⟨k, rfl⟩ := Nat.exists_eq_add_of_lt hij
    exact hj ((out_eq_none_of_lock hlock (k := k + 1) (by omega)).2 (by omega))

end FrameFormat

end Rf215Sdr.Lib
