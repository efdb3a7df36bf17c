import Rf215Sdr.Lib.Bytes
import Rf215Sdr.Lib.Memory

/-!
# The DMA Engine

The DMA controller as `dma_loop` sees it through its registers: a descriptor is assembled in
two registers and started by writing the control register, the engine copies the next bytes
of its input stream to the descriptor's address, in any number of partial steps, may raise its
busy bit at any time meanwhile, and clears it and queues one response when it is done. It writes
from a whole word on, uses up whole words of the stream, and counts as many bits of the length as
it is generated for.

The controller that is clocked behind these registers is compared with it in `MsgdmaEngine`.

## Main results

- `InFlight.engineStep`: an engine step takes a transfer further or finishes it.
- `InFlight.engineStep_frame`: it touches no memory outside the bytes it counts.
-/

namespace Rf215Sdr.Hps

open Rf215Sdr.Lib

/-! ## Addresses and lengths -/

/-- `LENGTH_WIDTH` of the write master in `soc_system_msgdma_0.v`. -/
def lengthWidth : ℕ := 18

/-- The width of `DMA_DESC_LEN`: an engine of this width counts all of it. -/
def registerWidth : ℕ := 32

/-- The bytes an engine that counts `lw` bits makes of a length. -/
def counted (lw : ℕ) (length : BitVec 32) : ℕ :=
  length.toNat % 2 ^ lw

/-- The first address written; the bus addresses words of eight bytes. -/
def wordBase (addr : BitVec 32) : ℕ :=
  8 * (addr.toNat / 8)

/-- The bytes of the words that `n` bytes come from. -/
def wholeWords (n : ℕ) : ℕ :=
  8 * ((n + 7) / 8)

/-- The bytes of the stream used up for a length. -/
def consumed (lw : ℕ) (length : BitVec 32) : ℕ :=
  wholeWords (counted lw length)

theorem counted_le (lw : ℕ) (length : BitVec 32) : counted lw length ≤ length.toNat :=
  Nat.mod_le _ _

theorem le_wholeWords (n : ℕ) : n ≤ wholeWords n := by
  unfold wholeWords
  omega

theorem wholeWords_of_dvd {n : ℕ} (h : 8 ∣ n) : wholeWords n = n := by
  unfold wholeWords
  omega

/-! ## Registers and steps -/

/-- A descriptor that was started, with the number of bytes written so far. -/
structure Descriptor where
  addr : BitVec 32
  length : BitVec 32
  written : ℕ
  deriving DecidableEq, Repr

/-- The registers of the engine and what it has to do. -/
structure Engine where
  writeAddr : BitVec 32
  length : BitVec 32
  /-- The descriptors outstanding, the one being executed first. -/
  descs : List Descriptor
  /-- Bit 0 of the status register. -/
  busy : Bool
  /-- The number of responses in the response FIFO. -/
  responses : ℕ
  /-- The number of stream bytes consumed. -/
  pos : ℕ

/-- After the reset in `dma_init`. -/
def Engine.init : Engine where
  writeAddr := 0
  length := 0
  descs := []
  busy := false
  responses := 0
  pos := 0

/-- `DMA_DESC_CONTROL` is written with `0x80000000`. -/
def Engine.go (e : Engine) : Engine :=
  { e with descs := e.descs ++ [⟨e.writeAddr, e.length, 0⟩] }

/-- One step of the engine. -/
inductive EngineAct where
  /-- The next `k` bytes of the stream are written. -/
  | write (k : ℕ)
  | raiseBusy
  /-- The descriptor is finished. -/
  | done
  deriving DecidableEq, Repr

/-- An engine that counts `lw` bits of a length, and the memory, after a step; an engine without
a descriptor does nothing. -/
def engineStep (lw : ℕ) (stream : ℕ → Byte) (e : Engine) (ddr : ℕ → Byte) :
    EngineAct → Option (Engine × (ℕ → Byte))
  | act =>
    match e.descs with
    | [] => none
    | d :: rest =>
      match act with
      | .write k =>
        if d.written + k ≤ counted lw d.length then
          some ({ e with descs := { d with written := d.written + k } :: rest, pos := e.pos + k },
            store ddr (wordBase d.addr + d.written) (load stream e.pos k))
        else none
      | .raiseBusy => some ({ e with busy := true }, ddr)
      | .done =>
        -- a length that counts as 0 is never answered
        if d.written = counted lw d.length ∧ d.written ≠ 0 then
          some ({ e with
            descs := rest
            busy := false
            responses := e.responses + 1
            -- what is left of the last word is dropped
            pos := e.pos + (wholeWords d.written - d.written) }, ddr)
        else none

/-- A step leaves the descriptor registers alone. -/
theorem engineStep_regs {lw : ℕ} {stream : ℕ → Byte} {e e' : Engine} {ddr ddr' : ℕ → Byte}
    {act : EngineAct} (h : engineStep lw stream e ddr act = some (e', ddr')) :
    e'.writeAddr = e.writeAddr ∧ e'.length = e.length := by
  unfold engineStep at h
  split at h
  · cases h
  · cases act with
    | write k =>
      dsimp only at h
      split_ifs at h
      obtain ⟨rfl, -⟩ := Prod.mk.inj (Option.some.inj h)
      exact ⟨rfl, rfl⟩
    | raiseBusy =>
      obtain ⟨rfl, -⟩ := Prod.mk.inj (Option.some.inj h)
      exact ⟨rfl, rfl⟩
    | done =>
      dsimp only at h
      split_ifs at h
      obtain ⟨rfl, -⟩ := Prod.mk.inj (Option.some.inj h)
      exact ⟨rfl, rfl⟩

/-! ## One transfer -/

/-- The engine has nothing to do and has consumed `p` bytes. -/
structure Quiet (e : Engine) (p : ℕ) : Prop where
  descs_eq : e.descs = []
  busy_eq : e.busy = false
  responses_eq : e.responses = 0
  pos_eq : e.pos = p

/-- The engine is copying the bytes it counts, from position `p` of the stream to the word at
`addr`. -/
def Running (lw : ℕ) (stream : ℕ → Byte) (e : Engine) (ddr : ℕ → Byte) (addr len : BitVec 32)
    (p : ℕ) : Prop :=
  ∃ w ≤ counted lw len, e.descs = [⟨addr, len, w⟩] ∧ e.responses = 0 ∧ e.pos = p + w ∧
    load ddr (wordBase addr) w = load stream p w

/-- It has copied them, and its response is waiting. -/
structure Finished (lw : ℕ) (stream : ℕ → Byte) (e : Engine) (ddr : ℕ → Byte)
    (addr len : BitVec 32) (p : ℕ) : Prop where
  descs_eq : e.descs = []
  busy_eq : e.busy = false
  responses_eq : e.responses = 1
  pos_eq : e.pos = p + consumed lw len
  copied : load ddr (wordBase addr) (counted lw len) = load stream p (counted lw len)

/-- The transfer was started and its response was not taken yet. -/
def InFlight (lw : ℕ) (stream : ℕ → Byte) (e : Engine) (ddr : ℕ → Byte) (addr len : BitVec 32)
    (p : ℕ) : Prop :=
  Running lw stream e ddr addr len p ∨ Finished lw stream e ddr addr len p

/-- Writing the control register starts the transfer the registers describe. -/
theorem Quiet.go {lw : ℕ} {stream : ℕ → Byte} {e : Engine} {ddr : ℕ → Byte} {p : ℕ}
    (h : Quiet e p) :
    InFlight lw stream e.go ddr e.writeAddr e.length p := by
  left
  refine ⟨0, Nat.zero_le _, ?_, h.responses_eq, h.pos_eq, rfl⟩
  show e.descs ++ [_] = _
  rw [h.descs_eq]
  rfl

/-- Taking the response leaves the engine quiet. -/
theorem Finished.pop {lw : ℕ} {stream : ℕ → Byte} {e : Engine} {ddr : ℕ → Byte}
    {addr len : BitVec 32} {p : ℕ} (h : Finished lw stream e ddr addr len p) :
    Quiet { e with responses := e.responses - 1 } (p + consumed lw len) :=
  ⟨h.descs_eq, h.busy_eq, by rw [h.responses_eq], h.pos_eq⟩

/-- A response tells that the transfer is finished. -/
theorem InFlight.finished_of_response {lw : ℕ} {stream : ℕ → Byte} {e : Engine} {ddr : ℕ → Byte}
    {addr len : BitVec 32} {p : ℕ} (h : InFlight lw stream e ddr addr len p)
    (hresp : e.responses ≠ 0) : Finished lw stream e ddr addr len p := by
  rcases h with ⟨w, -, -, hzero, -⟩ | hfin
  · exact absurd hzero hresp
  · exact hfin

/-- A quiet engine takes no step. -/
theorem Quiet.engineStep_eq_none {lw : ℕ} {stream : ℕ → Byte} {e : Engine} {ddr : ℕ → Byte} {p : ℕ}
    (h : Quiet e p) (act : EngineAct) : engineStep lw stream e ddr act = none := by
  unfold engineStep
  rw [h.descs_eq]

/-- Neither does one whose transfer is finished. -/
theorem Finished.engineStep_eq_none {lw : ℕ} {stream : ℕ → Byte} {e : Engine} {ddr : ℕ → Byte}
    {addr len : BitVec 32} {p : ℕ} (h : Finished lw stream e ddr addr len p) (act : EngineAct) :
    engineStep lw stream e ddr act = none := by
  unfold engineStep
  rw [h.descs_eq]

/-- **Progress of a transfer**: an engine step leaves it in flight. -/
theorem InFlight.engineStep {lw : ℕ} {stream : ℕ → Byte} {e e' : Engine} {ddr ddr' : ℕ → Byte}
    {addr len : BitVec 32} {p : ℕ} (h : InFlight lw stream e ddr addr len p) {act : EngineAct}
    (hstep : engineStep lw stream e ddr act = some (e', ddr')) :
    InFlight lw stream e' ddr' addr len p := by
  -- only a running engine takes a step
  rcases h with ⟨w, hw, hdescs, hresp, hpos, hcopied⟩ | hfin
  · simp only [Hps.engineStep, hdescs] at hstep
    cases act with
    | write k =>
      dsimp only at hstep
      split_ifs at hstep with hroom
      obtain ⟨rfl, rfl⟩ := Prod.mk.inj (Option.some.inj hstep)
      left
      refine ⟨w + k, hroom, rfl, hresp, ?_, ?_⟩
      · show e.pos + k = p + (w + k)
        rw [hpos, Nat.add_assoc]
      · rw [hpos]
        exact load_store_extend hcopied k
    | raiseBusy =>
      obtain ⟨rfl, rfl⟩ := Prod.mk.inj (Option.some.inj hstep)
      exact Or.inl ⟨w, hw, rfl, hresp, hpos, hcopied⟩
    | done =>
      dsimp only at hstep
      split_ifs at hstep with hall
      obtain ⟨rfl, rfl⟩ := Prod.mk.inj (Option.some.inj hstep)
      -- all bytes are written: the response is queued
      obtain ⟨rfl, -⟩ := hall
      refine Or.inr ⟨rfl, rfl, by rw [hresp], ?_, hcopied⟩
      show e.pos + (wholeWords (counted lw len) - counted lw len) = p + consumed lw len
      have hle := le_wholeWords (counted lw len)
      rw [hpos, consumed]
      omega
  · rw [hfin.engineStep_eq_none] at hstep
    cases hstep

/-- **Frame rule**: an engine step leaves the memory outside the bytes it counts alone. -/
theorem InFlight.engineStep_frame {lw : ℕ} {stream : ℕ → Byte} {e e' : Engine} {ddr ddr' : ℕ → Byte}
    {addr len : BitVec 32} {p : ℕ} (h : InFlight lw stream e ddr addr len p) {act : EngineAct}
    (hstep : Hps.engineStep lw stream e ddr act = some (e', ddr')) {a n : ℕ}
    (hdisjoint : a + n ≤ wordBase addr ∨ wordBase addr + counted lw len ≤ a) :
    load ddr' a n = load ddr a n := by
  rcases h with ⟨w, hw, hdescs, -⟩ | hfin
  · simp only [Hps.engineStep, hdescs] at hstep
    cases act with
    | write k =>
      dsimp only at hstep
      split_ifs at hstep with hroom
      obtain ⟨-, rfl⟩ := Prod.mk.inj (Option.some.inj hstep)
      -- what is written lies inside the buffer
      apply load_store_disjoint
      rw [length_load]
      omega
    | raiseBusy =>
      obtain ⟨-, rfl⟩ := Prod.mk.inj (Option.some.inj hstep)
      rfl
    | done =>
      dsimp only at hstep
      split_ifs at hstep
      obtain ⟨-, rfl⟩ := Prod.mk.inj (Option.some.inj hstep)
      rfl
  · rw [hfin.engineStep_eq_none] at hstep
    cases hstep

/-- At most one descriptor is outstanding, and it is the one that was started. -/
theorem InFlight.descs {lw : ℕ} {stream : ℕ → Byte} {e : Engine} {ddr : ℕ → Byte}
    {addr len : BitVec 32} {p : ℕ} (h : InFlight lw stream e ddr addr len p) :
    e.descs.length ≤ 1 ∧ e.responses ≤ 1 ∧
      ∀ d ∈ e.descs, d.addr = addr ∧ d.length = len := by
  rcases h with ⟨w, -, hdescs, hresp, -⟩ | hfin
  · rw [hdescs, hresp]
    refine ⟨Nat.le_refl _, Nat.zero_le _, ?_⟩
    intro d hd
    obtain rfl := List.mem_singleton.mp hd
    exact ⟨rfl, rfl⟩
  · rw [hfin.descs_eq, hfin.responses_eq]
    exact ⟨Nat.zero_le _, Nat.le_refl _, fun d hd => absurd hd List.not_mem_nil⟩

end Rf215Sdr.Hps
