import Mathlib.Algebra.Order.Ring.Int
import Mathlib.Data.List.Basic
import Mathlib.Tactic.Common

/-!
# Words as Symbol Sequences

A word cut into `n` symbols of `b` bits, the most significant symbol first. Bit pairs on a
serial line and bytes of a big-endian word are both instances.

## Main results

- `symbols_shiftIn`: shifting a symbol in at the bottom drops the top one.
- `symbols_injective`: a word is determined by its symbols.
- `ofSymbols_symbols`: reading the symbols back gives the word.
-/

namespace Rf215Sdr.Lib

variable {m : ℕ}

/-- The `n` lowest `b`-bit symbols of a word, most significant first. -/
def symbols (b n : ℕ) (w : BitVec m) : List (BitVec b) :=
  (List.range n).map fun k => w.extractLsb' (b * (n - 1 - k)) b

@[simp] theorem length_symbols (b n : ℕ) (w : BitVec m) : (symbols b n w).length = n := by
  simp [symbols]

theorem getElem_symbols (b n : ℕ) (w : BitVec m) (k : ℕ) (hk : k < (symbols b n w).length) :
    (symbols b n w)[k] = w.extractLsb' (b * (n - 1 - k)) b := by
  simp [symbols]

theorem getElem?_symbols {b n : ℕ} (w : BitVec m) {k : ℕ} (hk : k < n) :
    (symbols b n w)[k]? = some (w.extractLsb' (b * (n - 1 - k)) b) := by
  simp [symbols, hk]

/-- Every symbol ends inside the word. -/
theorem symbol_end_le (b : ℕ) {n k : ℕ} (hk : k < n) : b * (n - 1 - k) + b ≤ b * n := by
  calc b * (n - 1 - k) + b = b * (n - 1 - k + 1) := (Nat.mul_succ b _).symm
    _ ≤ b * n := Nat.mul_le_mul_left b (by omega)

/-- The top symbol comes first. -/
theorem symbols_succ (b n : ℕ) (w : BitVec m) :
    symbols b (n + 1) w = w.extractLsb' (b * n) b :: symbols b n w := by
  apply List.ext_getElem
  · simp
  · intro k hk _
    cases k with
    | zero => simp [symbols]
    | succ k =>
      rw [List.getElem_cons_succ, getElem_symbols, getElem_symbols]
      congr 2
      omega

/-- Symbols above the appended one are those of the upper part. -/
theorem extractLsb'_append_symbol {b l : ℕ} (w : BitVec l) (p : BitVec b) (j : ℕ) :
    (w ++ p).extractLsb' (b * (j + 1)) b = w.extractLsb' (b * j) b := by
  apply BitVec.eq_of_getLsbD_eq
  intro i hi
  have hmul : b * (j + 1) = b * j + b := Nat.mul_succ b j
  simp only [BitVec.getLsbD_extractLsb', BitVec.getLsbD_append, hi, decide_true, Bool.true_and]
  -- bit `i` of symbol `j + 1` lies above the appended symbol
  rw [if_neg (by omega)]
  congr 1
  omega

/-- Appending a symbol at the bottom of a word appends it to the sequence. -/
theorem symbols_append {b n l : ℕ} (w : BitVec l) (p : BitVec b) :
    symbols b (n + 1) (w ++ p) = symbols b n w ++ [p] := by
  apply List.ext_getElem
  · simp
  · intro k hk _
    rw [getElem_symbols]
    rw [length_symbols] at hk
    by_cases hlast : k = n
    · -- the appended symbol
      subst hlast
      rw [List.getElem_append_right (by simp)]
      apply BitVec.eq_of_getLsbD_eq
      intro i hi
      simp [BitVec.getLsbD_append, hi]
    · -- a symbol of the old word, one place further up
      rw [List.getElem_append_left (by rw [length_symbols]; omega), getElem_symbols]
      obtain ⟨j, hj⟩ : ∃ j, n = k + 1 + j := ⟨n - k - 1, by omega⟩
      have hup : n + 1 - 1 - k = j + 1 := by omega
      have hdown : n - 1 - k = j := by omega
      rw [hup, hdown, extractLsb'_append_symbol]

/-- Only the low bits of a word matter for its low symbols. -/
theorem symbols_extractLsb' {b n l : ℕ} (w : BitVec m) (hl : b * n ≤ l) :
    symbols b n (w.extractLsb' 0 l) = symbols b n w := by
  apply List.ext_getElem
  · simp
  · intro k hk _
    rw [length_symbols] at hk
    rw [getElem_symbols, getElem_symbols]
    have hend := symbol_end_le b hk
    apply BitVec.eq_of_getLsbD_eq
    intro i hi
    simp only [BitVec.getLsbD_extractLsb', hi, decide_true, Bool.true_and, Nat.zero_add]
    rw [decide_eq_true (by omega), Bool.true_and]

/-- Shifting a symbol in at the bottom drops the top symbol and appends the new one. -/
theorem symbols_shiftIn {b n : ℕ} (w : BitVec m) (p : BitVec b) :
    symbols b (n + 1) (w.extractLsb' 0 (b * n) ++ p) = (symbols b (n + 1) w).tail ++ [p] := by
  rw [symbols_append, symbols_extractLsb' w (Nat.le_refl _), symbols_succ b n w,
    List.tail_cons]

/-- Symbols of the upper and of the lower part of a word. -/
theorem symbols_add (b n k : ℕ) (w : BitVec m) :
    symbols b (n + k) w = symbols b n (w.extractLsb' (b * k) (b * n)) ++ symbols b k w := by
  induction n with
  | zero => simp [symbols]
  | succ n ih =>
    rw [Nat.succ_add, symbols_succ, ih, symbols_succ b n, List.cons_append]
    congr 1
    · -- the top symbol of the upper part
      apply BitVec.eq_of_getLsbD_eq
      intro i hi
      have hmul : b * (n + 1) = b * n + b := Nat.mul_succ b n
      have hadd : b * (n + k) = b * n + b * k := Nat.mul_add b n k
      simp only [BitVec.getLsbD_extractLsb', hi, decide_true, Bool.true_and]
      rw [decide_eq_true (by omega), Bool.true_and]
      congr 1
      omega
    · -- the other symbols do not see the top one
      congr 1
      have hcut : (w.extractLsb' (b * k) (b * (n + 1))).extractLsb' 0 (b * n) =
          w.extractLsb' (b * k) (b * n) := by
        apply BitVec.eq_of_getLsbD_eq
        intro i hi
        have hmul : b * (n + 1) = b * n + b := Nat.mul_succ b n
        simp only [BitVec.getLsbD_extractLsb', hi, decide_true, Bool.true_and, Nat.zero_add]
        rw [decide_eq_true (by omega), Bool.true_and]
      rw [← hcut, symbols_extractLsb' _ (Nat.le_refl _)]

/-- A word is determined by its symbols. -/
theorem symbols_injective {b n : ℕ} (hb : 0 < b) (hm : m = b * n) {w w' : BitVec m}
    (h : symbols b n w = symbols b n w') : w = w' := by
  apply BitVec.eq_of_getLsbD_eq
  intro i hi
  have hdiv : i / b < n := by
    rw [Nat.div_lt_iff_lt_mul hb, Nat.mul_comm]
    omega
  have hk : n - 1 - i / b < n :=
    Nat.lt_of_le_of_lt (Nat.sub_le _ _) (Nat.sub_one_lt (Nat.ne_of_gt (Nat.zero_lt_of_lt hdiv)))
  -- bit `i` is bit `i % b` of the symbol number `i / b`, counted from below
  have hsym := congrArg (fun l => l[n - 1 - i / b]?) h
  simp only [getElem?_symbols w hk, getElem?_symbols w' hk, Option.some.injEq] at hsym
  have hback : n - 1 - (n - 1 - i / b) = i / b := Nat.sub_sub_self (Nat.le_sub_one_of_lt hdiv)
  have hbit := congrArg (fun v => v.getLsbD (i % b)) hsym
  simp only [hback, BitVec.getLsbD_extractLsb', Nat.mod_lt i hb, decide_true, Bool.true_and,
    Nat.div_add_mod] at hbit
  exact hbit

/-- A window of symbols cut out of two words side by side is the word cut out there. -/
theorem symbols_straddle {b n : ℕ} (w w' : BitVec (b * n)) {o : ℕ} (ho : o ≤ n) :
    symbols b n ((w ++ w').extractLsb' (b * (n - o)) (b * n)) =
      ((symbols b n w ++ symbols b n w').drop o).take n := by
  apply List.ext_getElem
  · simp
    omega
  · intro k hk _
    rw [length_symbols] at hk
    rw [getElem_symbols, List.getElem_take, List.getElem_drop]
    have hin : ∀ i, i < b → b * (n - 1 - k) + i < b * n := by
      intro i hi
      have hend := symbol_end_le b hk
      omega
    apply BitVec.eq_of_getLsbD_eq
    intro i hi
    by_cases hfirst : o + k < n
    · -- still in the first word: the cut lies above the second one
      rw [List.getElem_append_left (by rw [length_symbols]; omega), getElem_symbols]
      have hpos : b * (n - o) + (b * (n - 1 - k) + i) = b * n + (b * (n - 1 - (o + k)) + i) := by
        have hsum : n - o + (n - 1 - k) = n + (n - 1 - (o + k)) := by omega
        calc b * (n - o) + (b * (n - 1 - k) + i) = b * (n - o + (n - 1 - k)) + i := by
              rw [Nat.mul_add]; omega
          _ = b * (n + (n - 1 - (o + k))) + i := by rw [hsum]
          _ = b * n + (b * (n - 1 - (o + k)) + i) := by rw [Nat.mul_add]; omega
      simp only [BitVec.getLsbD_extractLsb', BitVec.getLsbD_append, hi, decide_true,
        Bool.true_and, decide_eq_true (hin i hi)]
      rw [hpos, if_neg (by omega)]
      congr 1
      omega
    · -- already in the second word
      rw [List.getElem_append_right (by rw [length_symbols]; omega), getElem_symbols]
      have hlow : b * (n - o) + (b * (n - 1 - k) + i) = b * (n - 1 - (o + k - n)) + i := by
        have hsum : n - o + (n - 1 - k) = n - 1 - (o + k - n) := by omega
        calc b * (n - o) + (b * (n - 1 - k) + i) = b * (n - o + (n - 1 - k)) + i := by
              rw [Nat.mul_add]; omega
          _ = b * (n - 1 - (o + k - n)) + i := by rw [hsum]
      have hlt : b * (n - 1 - (o + k - n)) + i < b * n := by
        have hend := symbol_end_le b (show o + k - n < n by omega)
        omega
      simp only [BitVec.getLsbD_extractLsb', BitVec.getLsbD_append, hi, decide_true,
        Bool.true_and, decide_eq_true (hin i hi)]
      rw [hlow, if_pos hlt]
      simp only [length_symbols]

/-! ## Reading symbols back -/

/-- The number whose `b`-bit digits, most significant first, are the given symbols. -/
def ofSymbols {b : ℕ} (l : List (BitVec b)) : ℕ :=
  l.foldl (fun acc x => acc * 2 ^ b + x.toNat) 0

theorem ofSymbols_append_singleton {b : ℕ} (l : List (BitVec b)) (x : BitVec b) :
    ofSymbols (l ++ [x]) = ofSymbols l * 2 ^ b + x.toNat := by
  simp [ofSymbols, List.foldl_append]

/-- Cutting off the lowest symbol. -/
theorem symbols_succ' (b n : ℕ) (w : BitVec m) :
    symbols b (n + 1) w = symbols b n (w.extractLsb' b (m - b)) ++ [w.extractLsb' 0 b] := by
  apply List.ext_getElem
  · simp
  · intro k hk _
    rw [length_symbols] at hk
    rw [getElem_symbols]
    by_cases hlast : k = n
    · subst hlast
      rw [List.getElem_append_right (by simp)]
      simp
    · rw [List.getElem_append_left (by rw [length_symbols]; omega), getElem_symbols]
      obtain ⟨j, hj⟩ : ∃ j, n = k + 1 + j := ⟨n - k - 1, by omega⟩
      have hup : n + 1 - 1 - k = j + 1 := by omega
      have hdown : n - 1 - k = j := by omega
      rw [hup, hdown]
      apply BitVec.eq_of_getLsbD_eq
      intro i hi
      have hmul : b * (j + 1) = b * j + b := Nat.mul_succ b j
      simp only [BitVec.getLsbD_extractLsb', hi, decide_true, Bool.true_and]
      by_cases hin : b * j + i < m - b
      · rw [decide_eq_true hin, Bool.true_and]
        congr 1
        omega
      · -- beyond the top of the word both sides read zero
        rw [decide_eq_false hin, Bool.false_and]
        exact BitVec.getLsbD_of_ge w _ (by omega)

/-- Reading the symbols of a word back gives the word. -/
theorem ofSymbols_symbols {b n : ℕ} (w : BitVec m) (hm : m = b * n) :
    ofSymbols (symbols b n w) = w.toNat := by
  induction n generalizing m with
  | zero =>
    subst hm
    have hw : w.toNat < 2 ^ (b * 0) := w.isLt
    simp only [Nat.mul_zero, Nat.pow_zero] at hw
    simp only [symbols, List.range_zero, List.map_nil, ofSymbols, List.foldl_nil]
    omega
  | succ n ih =>
    have hupper : m - b = b * n := by
      rw [hm, Nat.mul_succ]
      omega
    have hw : w.toNat / 2 ^ b < 2 ^ (m - b) := by
      rw [Nat.div_lt_iff_lt_mul (Nat.two_pow_pos b), ← Nat.pow_add]
      exact Nat.lt_of_lt_of_le w.isLt (Nat.pow_le_pow_right (by decide) (by omega))
    rw [symbols_succ', ofSymbols_append_singleton, ih _ hupper, BitVec.extractLsb'_toNat,
      BitVec.extractLsb'_toNat, Nat.shiftRight_eq_div_pow, Nat.shiftRight_eq_div_pow,
      Nat.pow_zero, Nat.div_one, Nat.mod_eq_of_lt hw, Nat.div_add_mod']

end Rf215Sdr.Lib
