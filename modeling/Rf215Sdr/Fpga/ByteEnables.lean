import Mathlib.Data.BitVec
import Mathlib.Tactic.Common

/-!
# The Byte Enable Generator

Model of `byte_enable_generator.v`, through which the write master drives its byte enables. A
transfer whose enables the bus does not support is cut into several: the state machine for
`2 * n` lanes runs one for `n` lanes on each half, the lower half first unless the whole word is
enabled. The machines for 4 and for 8 lanes are written out in the source; here they are two
instances of `double`.

## Main results

- `Cuts.double`: if the machine for a half cuts every transfer correctly, so does the whole one.
- `sixtyFourBit_cuts`: so does the one the write master uses.
- `SixtyFourBitAt.lowestOf`: it writes the lowest lanes first.
-/

namespace Rf215Sdr.Fpga

/-! ## State machines -/

/-- The outputs and the next state of a byte enable state machine with `n` lanes. -/
structure ByteEnableFsm (n : ℕ) (σ : Type) where
  waitrequestOut : σ → (writeIn : Bool) → (byteenableIn : BitVec n) → (waitrequestIn : Bool) → Bool
  byteenableOut : σ → (writeIn : Bool) → (byteenableIn : BitVec n) → BitVec n
  clock : σ → (writeIn : Bool) → (byteenableIn : BitVec n) → (waitrequestIn : Bool) → σ

/-- `sixteen_bit_byteenable_FSM`: every pair of enables is supported. -/
def sixteenBit : ByteEnableFsm 2 Unit where
  waitrequestOut _ writeIn _ waitrequestIn := writeIn && waitrequestIn
  byteenableOut _ writeIn byteenableIn := if writeIn then byteenableIn else 0
  clock _ _ _ _ := ()

/-- The registers of a machine with two halves. -/
structure Halves (σ : Type) where
  stateBit : Bool
  lower : σ
  upper : σ
  deriving DecidableEq, Repr

section Double

variable {n : ℕ} {σ : Type} (F : ByteEnableFsm n σ)

/-- `byteenable_in` of the lower half. -/
def lowerIn (byteenableIn : BitVec (n + n)) : BitVec n :=
  byteenableIn.extractLsb' 0 n

/-- `byteenable_in` of the upper half. -/
def upperIn (byteenableIn : BitVec (n + n)) : BitVec n :=
  byteenableIn.extractLsb' n n

def fullWordTransfer (be : BitVec (n + n)) : Bool :=
  lowerIn be == BitVec.allOnes n && upperIn be == BitVec.allOnes n

def twoStageTransfer (be : BitVec (n + n)) : Bool :=
  !fullWordTransfer be && lowerIn be != 0 && upperIn be != 0

def lowerEnable (s : Halves σ) (writeIn : Bool) (be : BitVec (n + n)) : Bool :=
  (writeIn && fullWordTransfer be) || (writeIn && !twoStageTransfer be && lowerIn be != 0) ||
    (writeIn && twoStageTransfer be && lowerIn be != 0 && !s.stateBit)

def upperEnable (s : Halves σ) (writeIn : Bool) (be : BitVec (n + n)) : Bool :=
  (writeIn && fullWordTransfer be) || (writeIn && !twoStageTransfer be && upperIn be != 0) ||
    (writeIn && twoStageTransfer be && upperIn be != 0 && s.stateBit)

def lowerStall (s : Halves σ) (writeIn : Bool) (be : BitVec (n + n)) (wait : Bool) : Bool :=
  F.waitrequestOut s.lower (lowerEnable s writeIn be) (lowerIn be) wait

def upperStall (s : Halves σ) (writeIn : Bool) (be : BitVec (n + n)) (wait : Bool) : Bool :=
  F.waitrequestOut s.upper (upperEnable s writeIn be) (upperIn be) wait

def advanceToNextState (s : Halves σ) (writeIn : Bool) (be : BitVec (n + n)) (wait : Bool) : Bool :=
  twoStageTransfer be && !lowerStall F s writeIn be wait && writeIn && !s.stateBit && !wait

def transferDone (s : Halves σ) (writeIn : Bool) (be : BitVec (n + n)) (wait : Bool) : Bool :=
  (fullWordTransfer be && !wait && writeIn) ||
    (!twoStageTransfer be && !lowerStall F s writeIn be wait && !upperStall F s writeIn be wait &&
      writeIn && !wait) ||
    (twoStageTransfer be && s.stateBit && !upperStall F s writeIn be wait && writeIn && !wait)

/-- The machine with twice as many lanes. -/
def ByteEnableFsm.double : ByteEnableFsm (n + n) (Halves σ) where
  waitrequestOut s writeIn be wait := wait || (!transferDone F s writeIn be wait && writeIn)
  byteenableOut s writeIn be :=
    F.byteenableOut s.upper (upperEnable s writeIn be) (upperIn be) ++
      F.byteenableOut s.lower (lowerEnable s writeIn be) (lowerIn be)
  clock s writeIn be wait :=
    { stateBit :=
        if transferDone F s writeIn be wait then false
        else if advanceToNextState F s writeIn be wait then true else s.stateBit
      lower := F.clock s.lower (lowerEnable s writeIn be) (lowerIn be) wait
      upper := F.clock s.upper (upperEnable s writeIn be) (upperIn be) wait }

end Double

/-- `thirty_two_bit_byteenable_FSM`. -/
def thirtyTwoBit : ByteEnableFsm 4 (Halves Unit) :=
  sixteenBit.double

/-- `sixty_four_bit_byteenable_FSM`. -/
def sixtyFourBit : ByteEnableFsm 8 (Halves (Halves Unit)) :=
  thirtyTwoBit.double

/-! ## Transfers cut into supported ones -/

/-- What happens at an edge of a transfer with enables `be` of which the lanes `done` are done:
some of the others are written, and the machine goes on, or is idle again with all of them
done. -/
structure ByteEnableFsm.Stepped {n : ℕ} {σ : Type} (F : ByteEnableFsm n σ) (idle : σ)
    (At : BitVec n → BitVec n → σ → Prop) (be done : BitVec n) (s : σ) : Prop where
  nonzero : F.byteenableOut s true be ≠ 0#n
  fresh : F.byteenableOut s true be &&& done = 0#n
  within : (F.byteenableOut s true be ||| done) &&& be = F.byteenableOut s true be ||| done
  goesOn : F.waitrequestOut s true be false = true →
    At be (F.byteenableOut s true be ||| done) (F.clock s true be false)
  ends : F.waitrequestOut s true be false = false →
    F.byteenableOut s true be ||| done = be ∧ F.clock s true be false = idle

/-- The machine cuts every transfer into supported ones. `At be done s` says that it is in state
`s` when the lanes `done` of `be` are done. -/
structure ByteEnableFsm.Cuts {n : ℕ} {σ : Type} (F : ByteEnableFsm n σ) (idle : σ)
    (At : BitVec n → BitVec n → σ → Prop) : Prop where
  start : ∀ be, be ≠ 0#n → At be 0#n idle
  step : ∀ be done s, be ≠ 0#n → At be done s → F.Stepped idle At be done s
  /-- A whole word takes one edge. -/
  whole : F.byteenableOut idle true (BitVec.allOnes n) = BitVec.allOnes n ∧
    F.waitrequestOut idle true (BitVec.allOnes n) false = false ∧
    F.clock idle true (BitVec.allOnes n) false = idle
  /-- Nothing happens while the bus waits. -/
  wait : ∀ s be, F.clock s true be true = s ∧ F.waitrequestOut s true be true = true
  /-- Nothing happens without a transfer. -/
  off : ∀ s be w, F.clock s false be w = s ∧ F.byteenableOut s false be = 0#n ∧
    F.waitrequestOut s false be false = false

theorem sixteenBit_cuts : sixteenBit.Cuts () fun _ done _ => done = 0#2 where
  start _ _ := rfl
  step be done s hbe h := by
    subst h
    constructor
    case nonzero => simpa [sixteenBit] using hbe
    case goesOn => exact fun hw => absurd hw (by simp [sixteenBit])
    all_goals simp [sixteenBit]
  whole := ⟨rfl, rfl, rfl⟩
  wait _ _ := ⟨rfl, rfl⟩
  off _ _ _ := ⟨rfl, rfl, rfl⟩

section Double

variable {n : ℕ} {σ : Type} {F : ByteEnableFsm n σ}

@[simp] theorem lowerIn_append (u l : BitVec n) : lowerIn (u ++ l) = l :=
  BitVec.extractLsb'_append_eq_right

@[simp] theorem upperIn_append (u l : BitVec n) : upperIn (u ++ l) = u :=
  BitVec.extractLsb'_append_eq_left

theorem upperIn_append_lowerIn (be : BitVec (n + n)) : upperIn be ++ lowerIn be = be := by
  unfold upperIn lowerIn
  rw [BitVec.extractLsb'_append_extractLsb'_eq_extractLsb' (by omega)]
  apply BitVec.eq_of_getLsbD_eq
  intro i hi
  simp [hi]

/-- The places of a transfer of the whole machine. -/
inductive DoubleAt (At : BitVec n → BitVec n → σ → Prop) (idle : σ) :
    BitVec (n + n) → BitVec (n + n) → Halves σ → Prop
  | whole : DoubleAt At idle (BitVec.allOnes n ++ BitVec.allOnes n) (0#n ++ 0#n) ⟨false, idle, idle⟩
  /-- Only the lower half has lanes. -/
  | lower {l d : BitVec n} {s : σ} (hl : l ≠ 0#n) (h : At l d s) :
    DoubleAt At idle (0#n ++ l) (0#n ++ d) ⟨false, s, idle⟩
  /-- Only the upper half has lanes. -/
  | upper {u d : BitVec n} {s : σ} (hu : u ≠ 0#n) (h : At u d s) :
    DoubleAt At idle (u ++ 0#n) (d ++ 0#n) ⟨false, idle, s⟩
  /-- Both halves have lanes, and the lower one is not done yet. -/
  | first {u l d : BitVec n} {s : σ} (hu : u ≠ 0#n) (hl : l ≠ 0#n)
      (hpart : fullWordTransfer (u ++ l) = false)
      (h : At l d s) : DoubleAt At idle (u ++ l) (0#n ++ d) ⟨false, s, idle⟩
  /-- Both halves have lanes, and the lower one is done. -/
  | second {u l d : BitVec n} {s : σ} (hu : u ≠ 0#n) (hl : l ≠ 0#n)
      (hpart : fullWordTransfer (u ++ l) = false)
      (h : At u d s) : DoubleAt At idle (u ++ l) (d ++ l) ⟨true, idle, s⟩

theorem append_ne_zero {u l : BitVec n} (h : u ≠ 0#n ∨ l ≠ 0#n) : u ++ l ≠ 0#(n + n) := by
  intro hzero
  have hu : upperIn (u ++ l) = 0#n := by
    rw [hzero]
    simp [upperIn]
  have hl : lowerIn (u ++ l) = 0#n := by
    rw [hzero]
    simp [lowerIn]
  rw [upperIn_append] at hu
  rw [lowerIn_append] at hl
  exact h.elim (fun hne => hne hu) (fun hne => hne hl)

theorem width_ne_zero {l : BitVec n} (h : l ≠ 0#n) : n ≠ 0 := by
  rintro rfl
  exact h BitVec.of_length_zero

/-- Only the lower half takes part. -/
theorem ByteEnableFsm.Cuts.double_lower {idle : σ} {At : BitVec n → BitVec n → σ → Prop}
    (h : F.Cuts idle At) {l d : BitVec n} {s : σ} (hl : l ≠ 0#n) (hs : At l d s) :
    F.double.Stepped ⟨false, idle, idle⟩ (DoubleAt At idle) (0#n ++ l) (0#n ++ d)
      ⟨false, s, idle⟩ := by
  have hfull : fullWordTransfer (0#n ++ l) = false := by
    simp [fullWordTransfer, width_ne_zero hl]
  have htwo : twoStageTransfer (0#n ++ l) = false := by simp [twoStageTransfer]
  have hlow : lowerEnable (⟨false, s, idle⟩ : Halves σ) true (0#n ++ l) = true := by
    simp [lowerEnable, htwo, hl]
  have hup : upperEnable (⟨false, s, idle⟩ : Halves σ) true (0#n ++ l) = false := by
    simp [upperEnable, hfull, htwo]
  obtain ⟨hclock, hout, hstall⟩ := h.off idle 0#n false
  obtain ⟨hnonzero, hfresh, hwithin, hgoes, hends⟩ := h.step l d s hl hs
  constructor <;>
    simp only [ByteEnableFsm.double, transferDone, advanceToNextState, lowerStall, upperStall,
      hfull, htwo, hlow, hup, lowerIn_append, upperIn_append, hclock, hout, hstall]
  · exact append_ne_zero (Or.inr hnonzero)
  · simp [hfresh]
  · simp [hwithin]
  · cases hst : F.waitrequestOut s true l false with
    | false => simp
    | true => simpa using DoubleAt.lower hl (hgoes hst)
  · cases hst : F.waitrequestOut s true l false with
    | false => simp [hends hst]
    | true => simp

/-- Only the upper half takes part. -/
theorem ByteEnableFsm.Cuts.double_upper {idle : σ} {At : BitVec n → BitVec n → σ → Prop}
    (h : F.Cuts idle At) {u d : BitVec n} {s : σ} (hu : u ≠ 0#n) (hs : At u d s) :
    F.double.Stepped ⟨false, idle, idle⟩ (DoubleAt At idle) (u ++ 0#n) (d ++ 0#n)
      ⟨false, idle, s⟩ := by
  have hfull : fullWordTransfer (u ++ 0#n) = false := by
    simp [fullWordTransfer, width_ne_zero hu]
  have htwo : twoStageTransfer (u ++ 0#n) = false := by simp [twoStageTransfer]
  have hlow : lowerEnable (⟨false, idle, s⟩ : Halves σ) true (u ++ 0#n) = false := by
    simp [lowerEnable, hfull, htwo]
  have hup : upperEnable (⟨false, idle, s⟩ : Halves σ) true (u ++ 0#n) = true := by
    simp [upperEnable, htwo, hu]
  obtain ⟨hclock, hout, hstall⟩ := h.off idle 0#n false
  obtain ⟨hnonzero, hfresh, hwithin, hgoes, hends⟩ := h.step u d s hu hs
  constructor <;>
    simp only [ByteEnableFsm.double, transferDone, advanceToNextState, lowerStall, upperStall,
      hfull, htwo, hlow, hup, lowerIn_append, upperIn_append, hclock, hout, hstall]
  · exact append_ne_zero (Or.inl hnonzero)
  · simp [hfresh]
  · simp [hwithin]
  · cases hst : F.waitrequestOut s true u false with
    | false => simp
    | true => simpa using DoubleAt.upper hu (hgoes hst)
  · cases hst : F.waitrequestOut s true u false with
    | false => simp [hends hst]
    | true => simp

/-- The lower half comes first, and the upper one has to follow. -/
theorem ByteEnableFsm.Cuts.double_first {idle : σ} {At : BitVec n → BitVec n → σ → Prop}
    (h : F.Cuts idle At) {u l d : BitVec n} {s : σ} (hu : u ≠ 0#n) (hl : l ≠ 0#n)
    (hpart : fullWordTransfer (u ++ l) = false) (hs : At l d s) :
    F.double.Stepped ⟨false, idle, idle⟩ (DoubleAt At idle) (u ++ l) (0#n ++ d)
      ⟨false, s, idle⟩ := by
  have htwo : twoStageTransfer (u ++ l) = true := by simp [twoStageTransfer, hpart, hu, hl]
  have hlow : lowerEnable (⟨false, s, idle⟩ : Halves σ) true (u ++ l) = true := by
    simp [lowerEnable, htwo, hl]
  have hup : upperEnable (⟨false, s, idle⟩ : Halves σ) true (u ++ l) = false := by
    simp [upperEnable, hpart, htwo]
  obtain ⟨hclock, hout, hstall⟩ := h.off idle u false
  obtain ⟨hnonzero, hfresh, hwithin, hgoes, hends⟩ := h.step l d s hl hs
  constructor <;>
    simp only [ByteEnableFsm.double, transferDone, advanceToNextState, lowerStall, upperStall,
      hpart, htwo, hlow, hup, lowerIn_append, upperIn_append, hclock, hout, hstall]
  · exact append_ne_zero (Or.inr hnonzero)
  · simp [hfresh]
  · simp [hwithin]
  · cases hst : F.waitrequestOut s true l false with
    | false =>
      obtain ⟨hall, hidle⟩ := hends hst
      simpa [hall, hidle] using DoubleAt.second hu hl hpart (h.start u hu)
    | true => simpa using DoubleAt.first hu hl hpart (hgoes hst)
  · simp

/-- The upper half follows. -/
theorem ByteEnableFsm.Cuts.double_second {idle : σ} {At : BitVec n → BitVec n → σ → Prop}
    (h : F.Cuts idle At) {u l d : BitVec n} {s : σ} (hu : u ≠ 0#n) (hl : l ≠ 0#n)
    (hpart : fullWordTransfer (u ++ l) = false) (hs : At u d s) :
    F.double.Stepped ⟨false, idle, idle⟩ (DoubleAt At idle) (u ++ l) (d ++ l)
      ⟨true, idle, s⟩ := by
  have htwo : twoStageTransfer (u ++ l) = true := by simp [twoStageTransfer, hpart, hu, hl]
  have hlow : lowerEnable (⟨true, idle, s⟩ : Halves σ) true (u ++ l) = false := by
    simp [lowerEnable, hpart, htwo]
  have hup : upperEnable (⟨true, idle, s⟩ : Halves σ) true (u ++ l) = true := by
    simp [upperEnable, htwo, hu]
  obtain ⟨hclock, hout, hstall⟩ := h.off idle l false
  obtain ⟨hnonzero, hfresh, hwithin, hgoes, hends⟩ := h.step u d s hu hs
  constructor <;>
    simp only [ByteEnableFsm.double, transferDone, advanceToNextState, lowerStall, upperStall,
      hpart, htwo, hlow, hup, lowerIn_append, upperIn_append, hclock, hout, hstall]
  · exact append_ne_zero (Or.inl hnonzero)
  · simp [hfresh]
  · simp [hwithin]
  · cases hst : F.waitrequestOut s true u false with
    | false => simp
    | true => simpa using DoubleAt.second hu hl hpart (hgoes hst)
  · cases hst : F.waitrequestOut s true u false with
    | false => simp [hends hst]
    | true => simp

/-- Both halves of a whole word are written at once. -/
theorem ByteEnableFsm.Cuts.double_whole {idle : σ} {At : BitVec n → BitVec n → σ → Prop}
    (h : F.Cuts idle At) :
    F.double.byteenableOut ⟨false, idle, idle⟩ true (BitVec.allOnes n ++ BitVec.allOnes n) =
        BitVec.allOnes n ++ BitVec.allOnes n ∧
      F.double.waitrequestOut ⟨false, idle, idle⟩ true (BitVec.allOnes n ++ BitVec.allOnes n)
        false = false ∧
      F.double.clock ⟨false, idle, idle⟩ true (BitVec.allOnes n ++ BitVec.allOnes n) false =
        ⟨false, idle, idle⟩ := by
  have hfull : fullWordTransfer (BitVec.allOnes n ++ BitVec.allOnes n) = true := by
    simp [fullWordTransfer]
  obtain ⟨hout, -, hclock⟩ := h.whole
  refine ⟨?_, ?_, ?_⟩ <;>
    simp [ByteEnableFsm.double, transferDone, lowerEnable, upperEnable, hfull, hout, hclock]

/-- **Doubling keeps the cutting correct.** -/
theorem ByteEnableFsm.Cuts.double {idle : σ} {At : BitVec n → BitVec n → σ → Prop}
    (h : F.Cuts idle At) : F.double.Cuts ⟨false, idle, idle⟩ (DoubleAt At idle) where
  start be hbe := by
    rw [← upperIn_append_lowerIn be] at hbe ⊢
    generalize upperIn be = u at hbe ⊢
    generalize lowerIn be = l at hbe ⊢
    have hzero : (0#(n + n)) = 0#n ++ 0#n := by simp
    rw [hzero] at hbe ⊢
    by_cases hu : u = 0#n
    · subst hu
      have hl : l ≠ 0#n := fun hl => hbe (by rw [hl])
      exact .lower hl (h.start l hl)
    · by_cases hl : l = 0#n
      · subst hl
        exact .upper hu (h.start u hu)
      · cases hfull : fullWordTransfer (u ++ l) with
        | false => exact .first hu hl hfull (h.start l hl)
        | true =>
          simp only [fullWordTransfer, lowerIn_append, upperIn_append, Bool.and_eq_true,
            beq_iff_eq] at hfull
          obtain ⟨rfl, rfl⟩ := hfull
          exact .whole
  step be done s hbe hs := by
    cases hs with
    | whole =>
      obtain ⟨hout, hstall, hclock⟩ := h.double_whole
      constructor
      case nonzero => rwa [hout]
      case goesOn => rw [hstall]; exact fun hw => absurd hw Bool.false_ne_true
      all_goals simp [hout, hclock]
    | lower hl hs => exact h.double_lower hl hs
    | upper hu hs => exact h.double_upper hu hs
    | first hu hl hpart hs => exact h.double_first hu hl hpart hs
    | second hu hl hpart hs => exact h.double_second hu hl hpart hs
  whole := by
    have hones : BitVec.allOnes (n + n) = BitVec.allOnes n ++ BitVec.allOnes n := by
      apply BitVec.eq_of_getLsbD_eq
      intro i hi
      simp only [BitVec.getLsbD_allOnes, BitVec.getLsbD_append]
      split_ifs <;> simp <;> omega
    rw [hones]
    exact h.double_whole
  wait s be := by
    have hkeep : ∀ (en : Bool) (t : σ) (b : BitVec n), F.clock t en b true = t := by
      intro en t b
      cases en
      · exact (h.off t b true).1
      · exact (h.wait t b).1
    simp [ByteEnableFsm.double, transferDone, advanceToNextState, hkeep]
  off s be w := by
    have hkeep : ∀ (t : σ) (b : BitVec n), F.clock t false b w = t := fun t b => (h.off t b w).1
    have hzero : ∀ (t : σ) (b : BitVec n), F.byteenableOut t false b = 0#n :=
      fun t b => (h.off t b w).2.1
    simp [ByteEnableFsm.double, transferDone, advanceToNextState, lowerEnable, upperEnable, hkeep,
      hzero]

end Double

/-! ## The order of the lanes -/

section Order

variable {n : ℕ} {σ : Type}

/-- The lanes `done` are the lowest ones of `be`. -/
structure LowestOf (be done : BitVec n) : Prop where
  within : ∀ j, done.getLsbD j = true → be.getLsbD j = true
  below : ∀ i j, i ≤ j → done.getLsbD j = true → be.getLsbD i = true → done.getLsbD i = true

theorem lowestOf_zero (be : BitVec n) : LowestOf be 0#n where
  within j h := by simp at h
  below i j _ h := by simp at h

/-- Some lanes of the lower half. -/
theorem LowestOf.lower {l d : BitVec n} (h : LowestOf l d) (u : BitVec n) :
    LowestOf (u ++ l) (0#n ++ d) where
  within j hj := by
    rw [BitVec.getLsbD_append] at hj ⊢
    split_ifs at hj ⊢ with hlow
    · exact h.within j hj
    · simp at hj
  below i j hij hj hi := by
    rw [BitVec.getLsbD_append] at hi hj ⊢
    split_ifs at hj with hlow
    · rw [if_pos (Nat.lt_of_le_of_lt hij hlow)] at hi ⊢
      exact h.below i j hij hj hi
    · simp at hj

/-- The lower half, and some lanes of the upper one. -/
theorem LowestOf.upper {u d : BitVec n} (h : LowestOf u d) (l : BitVec n) :
    LowestOf (u ++ l) (d ++ l) where
  within j hj := by
    rw [BitVec.getLsbD_append] at hj ⊢
    split_ifs at hj ⊢ with hlow
    · exact hj
    · exact h.within _ hj
  below i j hij hj hi := by
    rw [BitVec.getLsbD_append] at hi hj ⊢
    split_ifs at hi ⊢ with hlow
    · exact hi
    · rw [if_neg (fun hj => hlow (Nat.lt_of_le_of_lt hij hj))] at hj
      exact h.below _ _ (Nat.sub_le_sub_right hij n) hj hi

/-- **The lowest lanes come first**, if this holds in each half. -/
theorem DoubleAt.lowestOf {At : BitVec n → BitVec n → σ → Prop} {idle : σ}
    (hAt : ∀ be done s, At be done s → LowestOf be done) {be done : BitVec (n + n)} {s : Halves σ}
    (h : DoubleAt At idle be done s) : LowestOf be done := by
  cases h with
  | whole => exact (lowestOf_zero _).lower _
  | lower hl h => exact (hAt _ _ _ h).lower _
  | upper hu h => exact (hAt _ _ _ h).upper _
  | first hu hl hpart h => exact (hAt _ _ _ h).lower _
  | second hu hl hpart h => exact (hAt _ _ _ h).upper _

end Order

/-- The places of a transfer with eight lanes. -/
abbrev SixtyFourBitAt : BitVec 8 → BitVec 8 → Halves (Halves Unit) → Prop :=
  DoubleAt (n := 4) (DoubleAt (n := 2) (fun _ done _ => done = 0#2) ()) ⟨false, (), ()⟩

/-- No transfer is in progress. -/
def Halves.idle : Halves (Halves Unit) :=
  ⟨false, ⟨false, (), ()⟩, ⟨false, (), ()⟩⟩

/-- **The generator of the write master**: whatever the enables, the edges the bus accepts write
each enabled lane once and no other one, and then the machine is idle again. -/
theorem sixtyFourBit_cuts : sixtyFourBit.Cuts Halves.idle SixtyFourBitAt :=
  sixteenBit_cuts.double.double

/-- It writes the lowest lanes first. -/
theorem SixtyFourBitAt.lowestOf {be done : BitVec 8} {s : Halves (Halves Unit)}
    (h : SixtyFourBitAt be done s) : LowestOf be done := by
  refine DoubleAt.lowestOf (fun _ _ _ hhalf => DoubleAt.lowestOf ?_ hhalf) h
  intro be done _ hdone
  rw [hdone]
  exact lowestOf_zero be

end Rf215Sdr.Fpga
