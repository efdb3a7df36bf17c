import Rf215Sdr.Lib.Binary64
import Rf215Sdr.Lib.PyText

/-!
# Sending a Configuration from GNU Radio

The block `rf215_cfg_sender` of `eval_setup.grc`: the register values `start` derives from the
parameters, and the text it sends to the board.

## Main results

- `ccf0FromFreq_grid`: a frequency on the 25 kHz grid is sent as its number of steps.
- `start_eq`: the datagram is the twelve lines of the configuration, each ended by a newline.
- `isLine_of_mem`, `length_of_mem`: these lines are printable and short.
-/

namespace Rf215Sdr.Host

open Rf215Sdr.Lib

/-! ## The block -/

/-- `ccf0_from_freq`: steps of 25 kHz; `none` when `round` raises. -/
def ccf0FromFreq (fHz : PyFloat) : Option ℕ :=
  (fHz.div 25000).round.map (maskBits 16)

/-- The block after `__init__`. -/
structure CfgSender where
  cf : PyFloat
  chunk : ℤ
  sr : ℕ
  agcOn : ℤ
  agcTarget : ℕ
  manualGain : ℕ
  sr_lt : sr < 2 ^ 3
  agcTarget_lt : agcTarget < 2 ^ 3
  manualGain_lt : manualGain < 2 ^ 5

/-- `__init__`, for numbers that `float` and `int` have converted. -/
def CfgSender.init (cf : PyFloat) (chunk sr agcOn agcTarget manualGain : ℤ) : CfgSender where
  cf := cf
  chunk := chunk
  sr := maskBits 3 sr
  agcOn := agcOn
  agcTarget := maskBits 3 agcTarget
  manualGain := maskBits 5 manualGain
  sr_lt := maskBits_lt 3 sr
  agcTarget_lt := maskBits_lt 3 agcTarget
  manualGain_lt := maskBits_lt 5 manualGain

namespace CfgSender

/-! ## What `start` computes -/

/-- `rxdfe_val`: the enable bit and the sample rate. -/
def rxdfeVal (b : CfgSender) : ℕ :=
  0x80 ||| b.sr

/-- `r09_agcc`. -/
def r09Agcc (b : CfgSender) : ℕ :=
  if b.agcOn ≠ 0 then 0x81 else 0x00

/-- `rf09_agcs`. -/
def rf09Agcs (b : CfgSender) : ℕ :=
  if b.agcOn ≠ 0 then b.agcTarget <<< 5 else b.agcTarget <<< 5 ||| b.manualGain

/-- The lines of the f-string, without their indentation. -/
def cfgLines (b : CfgSender) (ccf0 : ℕ) : List (List Char) :=
  [ "# Update from config_daemon".toList,
    "chunk_bytes=".toList ++ pyStr b.chunk,
    "IQIFC1=0x42".toList,
    "CS    =0x08".toList,
    "CCF0L =0x".toList ++ fmt02X (ccf0 &&& 0xFF),
    "CCF0H =0x".toList ++ fmt02X (ccf0 >>> 8),
    "CNL   =0x00".toList,
    "CNM   =0x00".toList,
    "RXBWC =0x18".toList,
    "RXDFE =0x".toList ++ fmt02X b.rxdfeVal,
    "R09_AGCC=0x".toList ++ fmt02X b.r09Agcc,
    "RF09_AGCS=0x".toList ++ fmt02X b.rf09Agcs ]

/-- The indentation of the f-string, in front of its closing quotes too. -/
def indentation : List Char :=
  List.replicate 12 ' '

/-- The f-string. -/
def template (b : CfgSender) (ccf0 : ℕ) : List Char :=
  joinLines ((b.cfgLines ccf0).map (indentation ++ ·) ++ [indentation])

/-- `cfg_txt`. -/
def cfgTxt (b : CfgSender) (ccf0 : ℕ) : List Char :=
  dedent (b.template ccf0)

/-- The datagram that `start` sends; `none` when it raises before. -/
def start (b : CfgSender) : Option ByteArray := do
  let ccf0 ← ccf0FromFreq b.cf
  return utf8Encode (b.cfgTxt ccf0)

/-! ## The lines -/

theorem rxdfeVal_lt (b : CfgSender) : b.rxdfeVal < 256 :=
  Nat.or_lt_two_pow (n := 8) (by decide) (Nat.lt_trans b.sr_lt (by decide))

theorem r09Agcc_lt (b : CfgSender) : b.r09Agcc < 256 := by
  unfold r09Agcc
  split_ifs <;> decide

theorem rf09Agcs_lt (b : CfgSender) : b.rf09Agcs < 256 := by
  -- the target is in the three highest bits, the gain in the other five
  have htarget : b.agcTarget <<< 5 < 2 ^ 8 := by
    rw [Nat.shiftLeft_eq]
    have := b.agcTarget_lt
    omega
  unfold rf09Agcs
  split_ifs
  · exact htarget
  · exact Nat.or_lt_two_pow htarget (Nat.lt_trans b.manualGain_lt (by decide))

theorem ccf0_low_lt (ccf0 : ℕ) : ccf0 &&& 0xFF < 256 :=
  Nat.lt_succ_of_le Nat.and_le_right

theorem ccf0_high_lt {ccf0 : ℕ} (h : ccf0 < 2 ^ 16) : ccf0 >>> 8 < 256 := by
  rw [Nat.shiftRight_eq_div_pow]
  omega

/-- A line of printable characters that does not start with a blank. -/
def IsLine (l : List Char) : Prop :=
  Printable l ∧ ∃ c, l.head? = some c ∧ isIndent c = false

theorem IsLine.append {l val : List Char} (h : IsLine l) (hval : Printable val) :
    IsLine (l ++ val) := by
  obtain ⟨hprint, c, hhead, hc⟩ := h
  refine ⟨hprint.append hval, c, ?_, hc⟩
  rw [List.head?_append, hhead]
  rfl

theorem IsLine.ne_nil {l : List Char} (h : IsLine l) : l ≠ [] := by
  rintro rfl
  obtain ⟨-, c, hc, -⟩ := h
  cases hc

/-- Every line of the configuration is one. -/
theorem isLine_of_mem (b : CfgSender) {ccf0 : ℕ} (hccf0 : ccf0 < 2 ^ 16) :
    ∀ l ∈ b.cfgLines ccf0, IsLine l := by
  -- every line is a literal, or a literal and a formatted number
  have hreg : ∀ {key : List Char} {n : ℕ}, IsLine key → n < 256 → IsLine (key ++ fmt02X n) :=
    fun hkey hn => hkey.append (fmt02X_visible hn).printable
  simp only [cfgLines, List.forall_mem_cons]
  refine ⟨?_, ?_, ?_, ?_, ?_, ?_, ?_, ?_, ?_, ?_, ?_, ?_, fun l hl => absurd hl List.not_mem_nil⟩
  · exact ⟨by decide, '#', rfl, rfl⟩
  · exact IsLine.append ⟨by decide, 'c', rfl, rfl⟩ (pyStr_visible b.chunk).printable
  · exact ⟨by decide, 'I', rfl, rfl⟩
  · exact ⟨by decide, 'C', rfl, rfl⟩
  · exact hreg ⟨by decide, 'C', rfl, rfl⟩ (ccf0_low_lt ccf0)
  · exact hreg ⟨by decide, 'C', rfl, rfl⟩ (ccf0_high_lt hccf0)
  · exact ⟨by decide, 'C', rfl, rfl⟩
  · exact ⟨by decide, 'C', rfl, rfl⟩
  · exact ⟨by decide, 'R', rfl, rfl⟩
  · exact hreg ⟨by decide, 'R', rfl, rfl⟩ b.rxdfeVal_lt
  · exact hreg ⟨by decide, 'R', rfl, rfl⟩ b.r09Agcc_lt
  · exact hreg ⟨by decide, 'R', rfl, rfl⟩ b.rf09Agcs_lt

/-- None is longer than the comment, as long as the chunk size fits an `int`. -/
theorem length_of_mem (b : CfgSender) {ccf0 : ℕ} (hccf0 : ccf0 < 2 ^ 16) (hpos : 0 ≤ b.chunk)
    (hmax : b.chunk < 2 ^ 31) : ∀ l ∈ b.cfgLines ccf0, l.length ≤ 27 := by
  -- ten digits at most
  have hchunk : (pyStr b.chunk).length ≤ 10 := by
    rw [pyStr_of_nonneg hpos, Nat.length_toDigits_le_iff (by decide) (by decide)]
    omega
  have hreg : ∀ {key : List Char} {n : ℕ}, key.length ≤ 25 → n < 256 →
      (key ++ fmt02X n).length ≤ 27 := by
    intro key n hkey hn
    rw [List.length_append, fmt02X_eq hn]
    exact Nat.add_le_add_right hkey 2
  simp only [cfgLines, List.forall_mem_cons]
  refine ⟨?_, ?_, ?_, ?_, ?_, ?_, ?_, ?_, ?_, ?_, ?_, ?_, fun l hl => absurd hl List.not_mem_nil⟩
  · decide
  · rw [List.length_append]
    exact Nat.le_trans (Nat.add_le_add_left hchunk _) (by decide)
  · decide
  · decide
  · exact hreg (by decide) (ccf0_low_lt ccf0)
  · exact hreg (by decide) (ccf0_high_lt hccf0)
  · decide
  · decide
  · decide
  · exact hreg (by decide) b.rxdfeVal_lt
  · exact hreg (by decide) b.r09Agcc_lt
  · exact hreg (by decide) b.rf09Agcs_lt

/-- The twelve lines, each ended by a newline. -/
theorem cfgTxt_eq (b : CfgSender) {ccf0 : ℕ} (hccf0 : ccf0 < 2 ^ 16) :
    b.cfgTxt ccf0 = joinLines (b.cfgLines ccf0) ++ ['\n'] := by
  have hne : b.cfgLines ccf0 ≠ [] := List.cons_ne_nil _ _
  rw [← joinLines_concat_nil hne]
  apply dedent_indented _ hne
  · -- no line has an indentation of its own
    intro l hl
    obtain ⟨hprint, hhead⟩ := b.isLine_of_mem hccf0 l hl
    exact ⟨hprint.newline_notMem, hhead⟩
  · intro c hc
    rw [List.eq_of_mem_replicate hc]
    rfl

end CfgSender

theorem ccf0FromFreq_lt {fHz : PyFloat} {ccf0 : ℕ} (h : ccf0FromFreq fHz = some ccf0) :
    ccf0 < 2 ^ 16 := by
  obtain ⟨n, -, rfl⟩ := Option.map_eq_some_iff.mp h
  exact maskBits_lt 16 n

/-- **A frequency on the 25 kHz grid is sent as its number of steps.** -/
theorem ccf0FromFreq_grid {steps : ℕ} (h : steps < 2 ^ 16) :
    ccf0FromFreq (.finite (25000 * steps)) = some steps := by
  have hround : ((PyFloat.finite (25000 * steps)).div 25000).round = some (steps : ℤ) :=
    round_div_mul (d := 25000) (by decide) (Nat.lt_trans h (by decide))
  unfold ccf0FromFreq
  rw [hround, Option.map_some, maskBits]
  congr 1
  omega

/-- **The datagram is the twelve lines of the configuration.** -/
theorem CfgSender.start_eq {b : CfgSender} {data : ByteArray} (h : b.start = some data) :
    ∃ ccf0, ccf0FromFreq b.cf = some ccf0 ∧
      data = utf8Encode (joinLines (b.cfgLines ccf0) ++ ['\n']) := by
  obtain ⟨ccf0, hccf0, hdata⟩ := Option.bind_eq_some_iff.mp h
  refine ⟨ccf0, hccf0, ?_⟩
  rw [← b.cfgTxt_eq (ccf0FromFreq_lt hccf0)]
  exact (Option.some.inj hdata).symm

end Rf215Sdr.Host
