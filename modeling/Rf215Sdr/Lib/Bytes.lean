import Mathlib.Data.List.Induction
import Mathlib.Data.Nat.Init
import Mathlib.Order.Basic
import Rf215Sdr.Lib.Symbols

/-!
# Bytes and Byte Orders

Big-endian and little-endian byte strings of a word, and the cutting of a byte string into
groups of one length. Whatever crosses a byte-order boundary is a word written in one order
and read in another, a group at a time.

## Main results

- `ofBeBytes_beBytes`, `ofLeBytes_leBytes`: a word written and read in one order comes back.
- `leBytes_ofLeBytes`: a byte string read and written in one order comes back.
- `groups_flatMap`: cutting commutes with serializing items of one length.
- `flatten_groups`: the whole groups, joined, are a prefix of the input.
-/

namespace Rf215Sdr.Lib

/-- Eight bits. -/
abbrev Byte := BitVec 8

/-! ## Reading symbols is one-to-one -/

theorem ofSymbols_lt {b : ℕ} (l : List (BitVec b)) : ofSymbols l < 2 ^ (b * l.length) := by
  induction l using List.reverseRecOn with
  | nil => exact Nat.one_pos
  | append_singleton l x ih =>
    rw [ofSymbols_append_singleton, List.length_append, List.length_singleton, Nat.mul_succ,
      Nat.pow_add]
    calc ofSymbols l * 2 ^ b + x.toNat < ofSymbols l * 2 ^ b + 2 ^ b := by
          exact Nat.add_lt_add_left x.isLt _
      _ = (ofSymbols l + 1) * 2 ^ b := (Nat.succ_mul _ _).symm
      _ ≤ 2 ^ (b * l.length) * 2 ^ b := Nat.mul_le_mul_right _ ih

/-- Cutting the number read from symbols into symbols gives them back. -/
theorem symbols_ofSymbols {b n : ℕ} (l : List (BitVec b)) (hn : l.length = n) :
    symbols b n (BitVec.ofNat (b * n) (ofSymbols l)) = l := by
  induction l using List.reverseRecOn generalizing n with
  | nil =>
    subst hn
    rfl
  | append_singleton l x ih =>
    subst hn
    rw [List.length_append, List.length_singleton, ofSymbols_append_singleton]
    -- the new symbol is the lowest one of the word
    have hword : BitVec.ofNat (b * (l.length + 1)) (ofSymbols l * 2 ^ b + x.toNat) =
        BitVec.ofNat (b * l.length) (ofSymbols l) ++ x := by
      apply BitVec.eq_of_toNat_eq
      have hlt := ofSymbols_lt (l ++ [x])
      rw [ofSymbols_append_singleton, List.length_append, List.length_singleton] at hlt
      rw [BitVec.toNat_ofNat, Nat.mod_eq_of_lt hlt, BitVec.toNat_append, BitVec.toNat_ofNat,
        Nat.mod_eq_of_lt (ofSymbols_lt l), Nat.shiftLeft_eq, Nat.mul_comm (ofSymbols l),
        Nat.two_pow_add_eq_or_of_lt x.isLt]
    rw [hword, symbols_append, ih rfl]

/-! ## The two byte orders -/

variable {m : ℕ}

/-- The `n` low bytes of a word, highest first. -/
def beBytes (n : ℕ) (w : BitVec m) : List Byte :=
  symbols 8 n w

/-- The `n` low bytes of a word, lowest first. -/
def leBytes (n : ℕ) (w : BitVec m) : List Byte :=
  (beBytes n w).reverse

/-- The number a byte string stands for, highest byte first. -/
def ofBeBytes (bs : List Byte) : ℕ :=
  ofSymbols bs

/-- The number a byte string stands for, lowest byte first. -/
def ofLeBytes (bs : List Byte) : ℕ :=
  ofSymbols bs.reverse

@[simp] theorem length_beBytes (n : ℕ) (w : BitVec m) : (beBytes n w).length = n :=
  length_symbols 8 n w

@[simp] theorem length_leBytes (n : ℕ) (w : BitVec m) : (leBytes n w).length = n := by
  simp [leBytes]

/-- Writing and reading highest byte first. -/
theorem ofBeBytes_beBytes {n : ℕ} (w : BitVec (8 * n)) : ofBeBytes (beBytes n w) = w.toNat :=
  ofSymbols_symbols w rfl

/-- Writing and reading lowest byte first. -/
theorem ofLeBytes_leBytes {n : ℕ} (w : BitVec (8 * n)) : ofLeBytes (leBytes n w) = w.toNat := by
  rw [ofLeBytes, leBytes, List.reverse_reverse]
  exact ofBeBytes_beBytes w

/-- Reading and writing lowest byte first. -/
theorem leBytes_ofLeBytes {n : ℕ} {bs : List Byte} (h : bs.length = n) :
    leBytes n (BitVec.ofNat (8 * n) (ofLeBytes bs)) = bs := by
  rw [leBytes, beBytes, ofLeBytes, symbols_ofSymbols _ (by rw [List.length_reverse, h]),
    List.reverse_reverse]

/-! ## Groups of one length -/

variable {α β : Type*}

/-- The whole groups of `n` consecutive items; what is left over at the end is dropped. -/
def groups (n : ℕ) (l : List α) : List (List α) :=
  (List.range (l.length / n)).map fun k => (l.drop (n * k)).take n

@[simp] theorem length_groups (n : ℕ) (l : List α) : (groups n l).length = l.length / n := by
  simp [groups]

theorem getElem?_groups {n : ℕ} {l : List α} {k : ℕ} (hk : k < l.length / n) :
    (groups n l)[k]? = some ((l.drop (n * k)).take n) := by
  simp [groups, hk]

/-- Every group is whole. -/
theorem length_of_mem_groups {n : ℕ} {l g : List α} (h : g ∈ groups n l) : g.length = n := by
  obtain ⟨k, hk, rfl⟩ := List.mem_map.mp h
  rw [List.mem_range] at hk
  have hle : n * (k + 1) ≤ l.length :=
    Nat.le_trans (Nat.mul_le_mul_left n hk) (Nat.mul_div_le l.length n)
  rw [List.length_take, List.length_drop]
  rw [Nat.mul_succ] at hle
  exact Nat.min_eq_left (by omega)

/-- Too few items for a group. -/
theorem groups_of_length_lt {n : ℕ} {l : List α} (h : l.length < n) : groups n l = [] := by
  simp [groups, Nat.div_eq_of_lt h]

/-- The first group comes first. -/
theorem groups_append {n : ℕ} (hn : 0 < n) {g : List α} (hg : g.length = n) (l : List α) :
    groups n (g ++ l) = g :: groups n l := by
  unfold groups
  rw [List.length_append, hg, Nat.add_div_left _ hn, List.range_succ_eq_map, List.map_cons,
    List.map_map]
  congr 1
  · rw [Nat.mul_zero, List.drop_zero, ← hg, List.take_left]
  · apply List.map_congr_left
    intro k _
    show ((g ++ l).drop (n * (k + 1))).take n = (l.drop (n * k)).take n
    rw [Nat.mul_succ, Nat.add_comm (n * k), ← List.drop_drop, ← hg, List.drop_left]

/-- **Induction along groups**: a list is too short for a group, or starts with one. -/
theorem groups_induction {n : ℕ} (hn : 0 < n) {P : List α → Prop}
    (hshort : ∀ l, l.length < n → P l)
    (hgroup : ∀ g l, g.length = n → P l → P (g ++ l)) (l : List α) : P l := by
  induction hlen : l.length using Nat.strongRecOn generalizing l with
  | _ len ih =>
    by_cases hl : l.length < n
    · exact hshort l hl
    · -- a whole group, and a shorter list behind it
      rw [← List.take_append_drop n l]
      apply hgroup
      · rw [List.length_take]
        omega
      · apply ih (l.drop n).length _ _ rfl
        rw [List.length_drop]
        omega

/-- The groups joined again: everything but the items left over at the end. -/
theorem flatten_groups {n : ℕ} (hn : 0 < n) (l : List α) :
    (groups n l).flatten = l.take (n * (l.length / n)) := by
  induction l using groups_induction hn with
  | hshort l hl =>
    rw [groups_of_length_lt hl, Nat.div_eq_of_lt hl]
    rfl
  | hgroup g l hg ih =>
    rw [groups_append hn hg, List.flatten_cons, ih, List.length_append, hg,
      Nat.add_div_left _ hn, Nat.mul_succ, Nat.add_comm (n * _), ← hg, List.take_length_add_append]

/-! ## Items serialized to one length -/

theorem length_flatMap_const {f : α → List β} {n : ℕ} (hf : ∀ a, (f a).length = n)
    (l : List α) : (l.flatMap f).length = n * l.length := by
  induction l with
  | nil => rfl
  | cons a l ih =>
    rw [List.flatMap_cons, List.length_append, hf, ih, List.length_cons, Nat.mul_succ,
      Nat.add_comm]

/-- Whole groups are cut off by themselves. -/
theorem groups_append_of_dvd {n : ℕ} (hn : 0 < n) {l : List α} (hl : n ∣ l.length)
    (l' : List α) : groups n (l ++ l') = groups n l ++ groups n l' := by
  induction l using groups_induction hn with
  | hshort l hlt =>
    obtain rfl : l = [] := List.eq_nil_of_length_eq_zero (Nat.eq_zero_of_dvd_of_lt hl hlt)
    have hnil : groups n ([] : List α) = [] := groups_of_length_lt hn
    rw [hnil]
    rfl
  | hgroup g l hg ih =>
    have hrest : n ∣ l.length := by
      rw [List.length_append, hg] at hl
      exact (Nat.dvd_add_right (Nat.dvd_refl n)).mp hl
    rw [List.append_assoc, groups_append hn hg, groups_append hn hg, ih hrest]
    rfl

/-- **Cutting commutes with serializing**: groups of `c` items of `n` bytes each are the
groups of `n * c` bytes. -/
theorem groups_flatMap {f : α → List β} {n c : ℕ} (hn : 0 < n) (hc : 0 < c)
    (hf : ∀ a, (f a).length = n) (l : List α) :
    groups (n * c) (l.flatMap f) = (groups c l).map fun g => g.flatMap f := by
  have hnc : 0 < n * c := Nat.mul_pos hn hc
  induction l using groups_induction hc with
  | hshort l hl =>
    -- too few items for a group are too few bytes for one
    rw [groups_of_length_lt hl, groups_of_length_lt, List.map_nil]
    rw [length_flatMap_const hf]
    exact Nat.mul_lt_mul_of_pos_left hl hn
  | hgroup g l hg ih =>
    rw [List.flatMap_append, groups_append hnc _, ih, groups_append hc hg, List.map_cons]
    rw [length_flatMap_const hf, hg]

/-- Cutting at the length of one item gives the items back. -/
theorem groups_flatMap_item {f : α → List β} {n : ℕ} (hn : 0 < n) (hf : ∀ a, (f a).length = n)
    (l : List α) : groups n (l.flatMap f) = l.map f := by
  induction l with
  | nil => exact groups_of_length_lt hn
  | cons a l ih => rw [List.flatMap_cons, groups_append hn (hf a), ih, List.map_cons]

end Rf215Sdr.Lib
