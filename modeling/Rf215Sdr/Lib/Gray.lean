import Mathlib.Algebra.Order.Ring.Int
import Mathlib.Data.List.Basic
import Mathlib.Data.Nat.ModEq
import Mathlib.Tactic.Common

/-!
# Gray Codes of Wrapping Counters

The reflected Gray code of a `w`-bit counter, and what it is for: a register that samples the
code while it changes may take every bit from before or from after the change, and still holds
the code of one of the two counts.

## Main results

- `decode_encode`: decoding gives the counter back.
- `encode_succ_differ_unique`: the codes of successive counts differ in one bit only.
- `exists_count_of_mixes`: a bit-by-bit mixture of two successive codes is one of them.
-/

namespace Rf215Sdr.Lib

variable {w : ℕ}

/-! ## Words given bit by bit -/

/-- The word whose bit `i` is `f i`. -/
def ofBits (f : Fin w → Bool) : BitVec w :=
  (BitVec.iunfoldr (fun i (_ : Unit) => ((), f i)) ()).2

theorem getLsbD_ofBits (f : Fin w → Bool) (i : Fin w) : (ofBits f).getLsbD i = f i :=
  BitVec.iunfoldr_getLsbD (fun _ => ()) i fun _ => rfl

/-! ## The code and its inverse -/

namespace Gray

/-- Each bit is the exclusive or of its own and the next higher bit of the counter. -/
def encode (x : BitVec w) : BitVec w :=
  x ^^^ (x >>> 1)

theorem getLsbD_encode (x : BitVec w) (i : ℕ) :
    (encode x).getLsbD i = (x.getLsbD i ^^ x.getLsbD (i + 1)) := by
  rw [encode, BitVec.getLsbD_xor, BitVec.getLsbD_ushiftRight, Nat.add_comm 1 i]

/-- Bit `i` of the counter: bit `i` of the code and all the bits above it, the highest of
them first. -/
def decodeBit (g : BitVec w) (i : ℕ) : Bool :=
  (List.range (w - 1 - i)).foldl (fun acc k => acc ^^ g.getLsbD (w - 1 - k)) (g.getLsbD i)

/-- The counter a code stands for. -/
def decode (g : BitVec w) : BitVec w :=
  ofBits fun i => decodeBit g i

/-- Adding up the bits of a code from the top leaves one bit of the counter. -/
theorem foldl_encode (x : BitVec w) (b : Bool) {m : ℕ} (hm : m < w) :
    (List.range m).foldl (fun acc k => acc ^^ (encode x).getLsbD (w - 1 - k)) b =
      (b ^^ x.getLsbD (w - m)) := by
  induction m with
  | zero => simp
  | succ m ih =>
    rw [List.range_succ, List.foldl_append, ih (Nat.lt_of_succ_lt hm), List.foldl_cons,
      List.foldl_nil, getLsbD_encode]
    -- the bit added last before cancels against the upper half of this one
    have hup : w - 1 - m + 1 = w - m := by omega
    have hlow : w - 1 - m = w - (m + 1) := by omega
    rw [hup, hlow, Bool.xor_assoc, Bool.xor_comm (x.getLsbD (w - (m + 1))),
      ← Bool.xor_assoc (x.getLsbD (w - m)), Bool.xor_self, Bool.false_xor]

theorem decodeBit_encode (x : BitVec w) {i : ℕ} (hi : i < w) :
    decodeBit (encode x) i = x.getLsbD i := by
  unfold decodeBit
  rw [foldl_encode x _ (by omega), getLsbD_encode, show w - (w - 1 - i) = i + 1 by omega,
    Bool.xor_assoc, Bool.xor_self, Bool.xor_false]

/-- **Round trip**: decoding a code gives the counter back. -/
theorem decode_encode (x : BitVec w) : decode (encode x) = x := by
  apply BitVec.eq_of_getLsbD_eq
  intro i hi
  rw [decode, getLsbD_ofBits _ ⟨i, hi⟩]
  exact decodeBit_encode x hi

/-! ## Successive counts -/

/-- Counting up by one flips bit `i` exactly when all the bits below it are set. -/
theorem getLsbD_succ (x : BitVec w) {i : ℕ} (hi : i < w) :
    (x + 1#w).getLsbD i = (x.getLsbD i ^^ decide (∀ j < i, x.getLsbD j = true)) := by
  rw [BitVec.getLsbD_add hi]
  cases i with
  | zero => simp [hi]
  | succ i =>
    have hone : (1#w).getLsbD (i + 1) = false := by simp
    rw [BitVec.carry_succ_one i x (by omega), hone, Bool.false_xor]
    simp only [Nat.lt_succ_iff]

/-- A bit in which two successive codes differ sits on the first zero bit of the counter, or
on the top bit if there is none: all bits below are set, and it is not set itself. -/
theorem first_zero_of_differ {x : BitVec w} {i : ℕ}
    (h : (encode x).getLsbD i ≠ (encode (x + 1#w)).getLsbD i) :
    i < w ∧ (∀ j < i, x.getLsbD j = true) ∧ (i + 1 < w → x.getLsbD i = false) := by
  have hi : i < w := by
    by_contra hge
    apply h
    rw [BitVec.getLsbD_of_ge _ _ (by omega), BitVec.getLsbD_of_ge _ _ (by omega)]
  rw [getLsbD_encode, getLsbD_encode, getLsbD_succ x hi] at h
  by_cases hlow : ∀ j < i, x.getLsbD j = true
  · refine ⟨hi, hlow, fun htop => ?_⟩
    rw [getLsbD_succ x htop, decide_eq_true hlow] at h
    by_contra hset
    apply h
    have hset : x.getLsbD i = true := by simpa using hset
    -- with bit `i` set as well, the carry flips both halves
    have hup : ∀ j < i + 1, x.getLsbD j = true := by
      intro j hj
      rcases Nat.lt_succ_iff_lt_or_eq.mp hj with hlt | rfl
      · exact hlow j hlt
      · exact hset
    rw [decide_eq_true hup]
    cases x.getLsbD i <;> cases x.getLsbD (i + 1) <;> rfl
  · -- without the carry neither half flips
    exfalso
    apply h
    have hup : ¬∀ j < i + 1, x.getLsbD j = true :=
      fun hall => hlow fun j hj => hall j (Nat.lt_succ_of_lt hj)
    rw [decide_eq_false hlow, Bool.xor_false]
    by_cases htop : i + 1 < w
    · rw [getLsbD_succ x htop, decide_eq_false hup, Bool.xor_false]
    · rw [BitVec.getLsbD_of_ge x (i + 1) (by omega),
        BitVec.getLsbD_of_ge (x + 1#w) (i + 1) (by omega)]

/-- **One bit only**: two bits in which successive codes differ are the same bit. -/
theorem encode_succ_differ_unique {x : BitVec w} {p q : ℕ}
    (hp : (encode x).getLsbD p ≠ (encode (x + 1#w)).getLsbD p)
    (hq : (encode x).getLsbD q ≠ (encode (x + 1#w)).getLsbD q) : p = q := by
  obtain ⟨hpw, hpset, hpzero⟩ := first_zero_of_differ hp
  obtain ⟨hqw, hqset, hqzero⟩ := first_zero_of_differ hq
  -- the lower of two such bits would be set and not set
  rcases Nat.lt_trichotomy p q with hlt | heq | hgt
  · have hset := hqset p hlt
    rw [hpzero (by omega)] at hset
    cases hset
  · exact heq
  · have hset := hpset q hgt
    rw [hqzero (by omega)] at hset
    cases hset

/-! ## Sampling a code that changes -/

/-- Every bit of `m` is that of `a` or that of `b`. -/
def Mixes (a b m : BitVec w) : Prop :=
  ∀ i, m.getLsbD i = a.getLsbD i ∨ m.getLsbD i = b.getLsbD i

/-- The bits of `b` where `sel` is set, the bits of `a` elsewhere. -/
def mix (sel a b : BitVec w) : BitVec w :=
  (b &&& sel) ||| (a &&& ~~~sel)

theorem mixes_mix (sel a b : BitVec w) : Mixes a b (mix sel a b) := by
  intro i
  simp only [mix, BitVec.getLsbD_or, BitVec.getLsbD_and, BitVec.getLsbD_not]
  by_cases hi : i < w
  · cases sel.getLsbD i <;> simp [hi]
  · left
    rw [BitVec.getLsbD_of_ge a i (by omega), BitVec.getLsbD_of_ge b i (by omega)]
    simp

theorem Mixes.eq_of_same {a m : BitVec w} (h : Mixes a a m) : m = a := by
  apply BitVec.eq_of_getLsbD_eq
  intro i _
  exact (h i).elim id id

/-- A mixture of two words that differ in at most one bit is one of them. -/
theorem Mixes.eq_or_eq {a b m : BitVec w} (h : Mixes a b m)
    (hone : ∀ p q, a.getLsbD p ≠ b.getLsbD p → a.getLsbD q ≠ b.getLsbD q → p = q) :
    m = a ∨ m = b := by
  by_cases hall : ∀ i, m.getLsbD i = a.getLsbD i
  · left
    exact BitVec.eq_of_getLsbD_eq fun i _ => hall i
  · -- a bit taken from `b` is where the two differ, so all the others agree anyway
    right
    push Not at hall
    obtain ⟨p, hp⟩ := hall
    have hpb : m.getLsbD p = b.getLsbD p := (h p).resolve_left hp
    apply BitVec.eq_of_getLsbD_eq
    intro i _
    rcases h i with ha | hb
    · by_cases hdiff : a.getLsbD i = b.getLsbD i
      · exact ha.trans hdiff
      · obtain rfl := hone p i (fun heq => hp (hpb.trans heq.symm)) hdiff
        exact hpb
    · exact hb

/-- The code of a count, taken modulo `2 ^ w`. -/
def code (w k : ℕ) : BitVec w :=
  encode (BitVec.ofNat w k)

theorem decode_code (k : ℕ) : decode (code w k) = BitVec.ofNat w k :=
  decode_encode _

theorem ofNat_succ (k : ℕ) : BitVec.ofNat w (k + 1) = BitVec.ofNat w k + 1#w := by
  apply BitVec.eq_of_toNat_eq
  simp [BitVec.toNat_add]

/-- **Sampling is safe**: a mixture of the codes of two counts at most one apart is the code
of a count between them. -/
theorem exists_count_of_mixes {k k' : ℕ} {m : BitVec w} (hle : k ≤ k') (hstep : k' ≤ k + 1)
    (h : Mixes (code w k) (code w k') m) : ∃ j, k ≤ j ∧ j ≤ k' ∧ m = code w j := by
  rcases Nat.lt_or_ge k k' with hlt | hge
  · obtain rfl : k' = k + 1 := by omega
    have hcode : code w (k + 1) = encode (BitVec.ofNat w k + 1#w) := by
      rw [code, ofNat_succ]
    have hone := h.eq_or_eq fun p q hp hq => by
      rw [hcode] at hp hq
      exact encode_succ_differ_unique hp hq
    rcases hone with hold | hnew
    · exact ⟨k, Nat.le_refl k, hle, hold⟩
    · exact ⟨k + 1, hle, Nat.le_refl _, hnew⟩
  · obtain rfl : k' = k := by omega
    exact ⟨k', hle, Nat.le_refl k', h.eq_of_same⟩

/-! ## Telling wrapped counts apart -/

/-- Two counts less than a whole turn apart are equal if the wrapped counters are. -/
theorem eq_of_ofNat_eq {k l : ℕ} (hle : k ≤ l) (hlt : l < k + 2 ^ w)
    (h : BitVec.ofNat w k = BitVec.ofNat w l) : k = l := by
  have hmod : k % 2 ^ w = l % 2 ^ w := by
    simpa using congrArg BitVec.toNat h
  -- their difference is a multiple of a whole turn
  have hdvd : 2 ^ w ∣ l - k := (Nat.modEq_iff_dvd' hle).mp hmod
  obtain ⟨c, hc⟩ := hdvd
  rcases Nat.eq_zero_or_pos c with rfl | hpos
  · omega
  · have : 2 ^ w * 1 ≤ 2 ^ w * c := Nat.mul_le_mul_left _ hpos
    omega

/-- **Full and empty told apart by one more bit**: of two counters at most `2 ^ w` apart, the
low `w` bits agree and the top bits differ exactly when they are `2 ^ w` apart. -/
theorem wrapped_eq_and_top_ne {k l : ℕ} (hle : k ≤ l) (hroom : l ≤ k + 2 ^ w) :
    (BitVec.ofNat w k == BitVec.ofNat w l &&
        (BitVec.ofNat (w + 1) k).getLsbD w != (BitVec.ofNat (w + 1) l).getLsbD w) =
      decide (l = k + 2 ^ w) := by
  rcases Nat.lt_or_ge l (k + 2 ^ w) with hlt | hge
  · rw [decide_eq_false (Nat.ne_of_lt hlt)]
    by_cases heq : k = l
    · subst heq
      simp
    · -- the low bits differ already
      have hlow : BitVec.ofNat w k ≠ BitVec.ofNat w l := fun h => heq (eq_of_ofNat_eq hle hlt h)
      rw [beq_false_of_ne hlow, Bool.false_and]
  · obtain rfl : l = k + 2 ^ w := by omega
    have hlow : BitVec.ofNat w k = BitVec.ofNat w (k + 2 ^ w) := by
      apply BitVec.eq_of_toNat_eq
      simp
    have htop : Nat.testBit (k + 2 ^ w) w = !Nat.testBit k w := by
      rw [Nat.add_comm, Nat.testBit_two_pow_add_eq]
    rw [← hlow, BitVec.getLsbD_ofNat, BitVec.getLsbD_ofNat, htop]
    simp

end Gray

end Rf215Sdr.Lib
