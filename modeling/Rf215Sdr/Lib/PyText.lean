import Rf215Sdr.Lib.CString
import Rf215Sdr.Lib.Text

/-!
# Python Text

The parts of Python's text handling that a program uses to write and read small text
messages: `str.strip`, `textwrap.dedent`, the formats of integers, and UTF-8.

## Main results

- `dedent_indented`: `textwrap.dedent` takes a common indentation away.
- `strtoul_fmt02X`: what `:02X` writes for a byte is read back by `strtoul`.
- `bytesOf_utf8Encode`: a text of ASCII characters is encoded one byte a character.
-/

namespace Rf215Sdr.Lib

/-! ## Stripping -/

/-- `str.isspace` on one character. -/
def isPySpace (c : Char) : Bool :=
  let n := c.toNat
  (9 ≤ n && n ≤ 13) || (28 ≤ n && n ≤ 32) || n == 0x85 || n == 0xA0 || n == 0x1680 ||
    (0x2000 ≤ n && n ≤ 0x200A) || n == 0x2028 || n == 0x2029 || n == 0x202F || n == 0x205F ||
    n == 0x3000

/-- `str.strip()`. -/
def strip (text : List Char) : List Char :=
  trimBy isPySpace text

/-! ## Dedenting -/

/-- The characters `textwrap.dedent` takes for indentation. -/
def isIndent (c : Char) : Bool :=
  c == ' ' || c == '\t'

/-- The longest common prefix of two lists. -/
def commonPrefix : List Char → List Char → List Char
  | a :: as, b :: bs => if a = b then a :: commonPrefix as bs else []
  | _, _ => []

/-- The indentation common to the lines that have a character of their own. -/
def margin (ls : List (List Char)) : List Char :=
  match (ls.filter fun l => !l.all isIndent).map (List.takeWhile isIndent) with
  | [] => []
  | indent :: indents => indents.foldl commonPrefix indent

/-- `textwrap.dedent`: lines of white space become empty, the margin is taken off every line
that starts with it. -/
def dedent (text : List Char) : List Char :=
  let ls := (splitLines text).map fun l => if l.all isIndent then [] else l
  let m := margin ls
  joinLines (ls.map fun l => if m.isPrefixOf l then l.drop m.length else l)

@[simp] theorem commonPrefix_self (l : List Char) : commonPrefix l l = l := by
  induction l with
  | nil => rfl
  | cons c l ih => rw [commonPrefix, if_pos rfl, ih]

/-- The common prefix of equal lists. -/
theorem foldl_commonPrefix {l : List Char} {ls : List (List Char)} (h : ∀ m ∈ ls, m = l) :
    ls.foldl commonPrefix l = l := by
  induction ls with
  | nil => rfl
  | cons m ls ih =>
    rw [List.foldl_cons, h m List.mem_cons_self, commonPrefix_self]
    exact ih fun k hk => h k (List.mem_cons_of_mem m hk)

/-- A line behind an indentation. -/
theorem takeWhile_indent {ind l : List Char} (hind : ∀ c ∈ ind, isIndent c = true)
    (hl : ∃ c, l.head? = some c ∧ isIndent c = false) :
    (ind ++ l).takeWhile isIndent = ind ∧ (ind ++ l).all isIndent = false := by
  obtain ⟨c, hc, hno⟩ := hl
  cases l with
  | nil => cases hc
  | cons d l =>
    obtain rfl := Option.some.inj hc
    constructor
    · rw [List.takeWhile_append_of_pos hind, List.takeWhile_cons_of_neg (by simp [hno]),
        List.append_nil]
    · rw [List.all_append, List.all_cons, hno, Bool.false_and, Bool.and_false]

/-- **`dedent` takes a common indentation away**, and the blanks of the closing line. -/
theorem dedent_indented {ind : List Char} (hind : ∀ c ∈ ind, isIndent c = true)
    {ls : List (List Char)} (hne : ls ≠ [])
    (hls : ∀ l ∈ ls, '\n' ∉ l ∧ ∃ c, l.head? = some c ∧ isIndent c = false) :
    dedent (joinLines (ls.map (ind ++ ·) ++ [ind])) = joinLines (ls ++ [[]]) := by
  have hindnl : '\n' ∉ ind := fun h => absurd (hind _ h) (by decide)
  -- neither the indentation nor a line has a newline in it
  have hsplit : splitLines (joinLines (ls.map (ind ++ ·) ++ [ind])) =
      ls.map (ind ++ ·) ++ [ind] := by
    apply splitLines_joinLines (by simp)
    intro l hl
    rcases List.mem_append.mp hl with hmap | hlast
    · obtain ⟨m, hm, rfl⟩ := List.mem_map.mp hmap
      intro h
      rcases List.mem_append.mp h with hi | hm'
      · exact hindnl hi
      · exact (hls m hm).1 hm'
    · rw [List.mem_singleton.mp hlast]
      exact hindnl
  -- of all lines only the closing one is white space
  have hblank : ((ls.map (ind ++ ·) ++ [ind]).map fun l => if l.all isIndent then [] else l) =
      ls.map (ind ++ ·) ++ [[]] := by
    rw [List.map_append, List.map_map]
    congr 1
    · apply List.map_congr_left
      intro l hl
      show (if (ind ++ l).all isIndent then [] else ind ++ l) = ind ++ l
      rw [(takeWhile_indent hind (hls l hl).2).2, if_neg Bool.false_ne_true]
    · rw [List.map_cons, List.map_nil, if_pos (List.all_eq_true.mpr hind)]
  -- every line that counts has the indentation `ind`
  have hmargin : margin (ls.map (ind ++ ·) ++ [[]]) = ind := by
    -- the empty line does not count
    have hcount : (ls.map (ind ++ ·) ++ [[]]).filter (fun l => !l.all isIndent) =
        ls.map (ind ++ ·) := by
      rw [List.filter_append, List.filter_eq_self.mpr]
      · exact List.append_nil _
      · intro l hl
        obtain ⟨m, hm, rfl⟩ := List.mem_map.mp hl
        rw [(takeWhile_indent hind (hls m hm).2).2]
        rfl
    have hindents : (ls.map (ind ++ ·)).map (List.takeWhile isIndent) = ls.map fun _ => ind := by
      rw [List.map_map]
      apply List.map_congr_left
      intro l hl
      exact (takeWhile_indent hind (hls l hl).2).1
    unfold margin
    rw [hcount, hindents]
    cases ls with
    | nil => exact absurd rfl hne
    | cons l ls =>
      apply foldl_commonPrefix
      intro m hm
      obtain ⟨-, -, rfl⟩ := List.mem_map.mp hm
      rfl
  unfold dedent
  simp only [hsplit, hblank, hmargin]
  rw [List.map_append, List.map_map]
  congr 2
  · -- taking the margin off leaves the lines themselves
    conv_rhs => rw [← List.map_id ls]
    apply List.map_congr_left
    intro l _
    show (if ind.isPrefixOf (ind ++ l) then (ind ++ l).drop ind.length else ind ++ l) = l
    rw [if_pos (List.isPrefixOf_iff_prefix.mpr (List.prefix_append ind l)), List.drop_left]
  · rw [List.map_cons, List.map_nil, List.drop_nil, ite_self]

/-! ## Integers -/

/-- `n & (2 ** k - 1)` on an integer of any size. -/
def maskBits (k : ℕ) (n : ℤ) : ℕ :=
  (n % 2 ^ k).toNat

theorem maskBits_lt (k : ℕ) (n : ℤ) : maskBits k n < 2 ^ k := by
  have hpos : (0 : ℤ) < 2 ^ k := Int.pow_pos (by decide)
  rw [maskBits, Int.toNat_lt (Int.emod_nonneg n hpos.ne'), Nat.cast_pow]
  exact Int.emod_lt_of_pos n hpos

/-- `str(n)`. -/
def pyStr (n : ℤ) : List Char :=
  if n < 0 then '-' :: Nat.toDigits 10 n.natAbs else Nat.toDigits 10 n.toNat

theorem pyStr_of_nonneg {n : ℤ} (hn : 0 ≤ n) : pyStr n = Nat.toDigits 10 n.toNat :=
  if_neg (Int.not_lt.mpr hn)

/-- An integer is written in visible characters. -/
theorem pyStr_visible (n : ℤ) : Visible (pyStr n) := by
  have hdigits : ∀ m : ℕ, ∀ c ∈ Nat.toDigits 10 m, 33 ≤ c.toNat ∧ c.toNat < 127 := by
    intro m c hc
    have hdigit := Nat.isDigit_of_mem_toDigits (by decide) (by decide) hc
    have hrange : 48 ≤ c.toNat ∧ c.toNat ≤ 57 := Char.isDigit_iff_toNat.mp hdigit
    omega
  unfold pyStr
  split_ifs
  · refine ⟨List.cons_ne_nil _ _, ?_⟩
    intro c hc
    rcases List.mem_cons.mp hc with rfl | hc
    · decide
    · exact hdigits _ c hc
  · exact ⟨Nat.toDigits_ne_nil, hdigits _⟩

theorem toDigits_injective : Function.Injective (Nat.toDigits 10) := by
  intro m n h
  rw [← Nat.ofDigitChars_ten_toDigits (n := m), h, Nat.ofDigitChars_ten_toDigits]

/-- Different integers are written differently. -/
theorem pyStr_injective : Function.Injective pyStr := by
  -- a sign is no digit
  have hsign : ∀ m n : ℕ, '-' :: Nat.toDigits 10 m ≠ Nat.toDigits 10 n := by
    intro m n h
    have hmem : '-' ∈ Nat.toDigits 10 n := h ▸ List.mem_cons_self
    exact absurd (Nat.isDigit_of_mem_toDigits (by decide) (by decide) hmem) (by decide)
  intro m n h
  unfold pyStr at h
  split_ifs at h with hm hn hn
  · have habs := toDigits_injective (List.cons.inj h).2
    omega
  · exact absurd h (hsign _ _)
  · exact absurd h.symm (hsign _ _)
  · have habs := toDigits_injective h
    omega

/-- `f"{n:02X}"` for a number that is not negative. -/
def fmt02X (n : ℕ) : List Char :=
  let digits := (Nat.toDigits 16 n).map Char.toUpper
  List.replicate (2 - digits.length) '0' ++ digits

/-- One upper-case hexadecimal digit. -/
def hexDigit (d : ℕ) : Char :=
  (Nat.digitChar d).toUpper

theorem digitValue_hexDigit {d : ℕ} (hd : d < 16) : digitValue (ch (hexDigit d)) = some d := by
  revert d
  decide

/-- Which are visible. -/
theorem hexDigit_visible {d : ℕ} (hd : d < 16) :
    33 ≤ (hexDigit d).toNat ∧ (hexDigit d).toNat < 127 := by
  revert d
  decide

/-- A byte is written as two digits. -/
theorem fmt02X_eq {n : ℕ} (hn : n < 256) : fmt02X n = [hexDigit (n / 16), hexDigit (n % 16)] := by
  -- one digit is padded with a zero
  by_cases hone : n < 16
  · have hdigits : Nat.toDigits 16 n = [Nat.digitChar n] := Nat.toDigits_of_lt_base hone
    unfold fmt02X
    rw [hdigits, Nat.div_eq_of_lt hone, Nat.mod_eq_of_lt hone]
    rfl
  · have hdigits : Nat.toDigits 16 n = [Nat.digitChar (n / 16), Nat.digitChar (n % 16)] := by
      rw [Nat.toDigits_of_base_le (by decide) (Nat.le_of_not_lt hone),
        Nat.toDigits_of_lt_base (by omega)]
      rfl
    unfold fmt02X
    rw [hdigits]
    rfl

theorem fmt02X_visible {n : ℕ} (hn : n < 256) : Visible (fmt02X n) := by
  rw [fmt02X_eq hn]
  refine ⟨List.cons_ne_nil _ _, ?_⟩
  intro c hc
  rcases List.mem_cons.mp hc with rfl | hc
  · exact hexDigit_visible (by omega)
  · rw [List.mem_singleton.mp hc]
    exact hexDigit_visible (Nat.mod_lt n (by decide))

/-- **A byte written by `:02X` behind `0x` is read back by `strtoul`.** -/
theorem strtoul_fmt02X {n : ℕ} (hn : n < 256) :
    strtoul 0 (ascii ('0' :: 'x' :: fmt02X n)) = BitVec.ofNat 32 n := by
  have hhigh : n / 16 < 16 := by omega
  have hlow : n % 16 < 16 := Nat.mod_lt n (by decide)
  rw [fmt02X_eq hn, strtoul_hex (digitValue_hexDigit hhigh) hhigh (digitValue_hexDigit hlow) hlow,
    Nat.div_add_mod']

/-! ## UTF-8 -/

/-- `text.encode()`. -/
def utf8Encode (text : List Char) : ByteArray :=
  (text.flatMap String.utf8EncodeChar).toByteArray

/-- `data.decode("utf-8")`: `none` when it raises. -/
def utf8Decode (data : ByteArray) : Option (List Char) :=
  data.utf8Decode?.map Array.toList

/-- The bytes of an encoded text. -/
def bytesOf (data : ByteArray) : List Byte :=
  data.data.toList.map UInt8.toBitVec

/-- Characters below 128. -/
def IsAscii (text : List Char) : Prop :=
  ∀ c ∈ text, c.toNat < 128

instance (text : List Char) : Decidable (IsAscii text) :=
  List.decidableBAll (fun c : Char => c.toNat < 128) text

/-- Decoding undoes encoding. -/
theorem utf8Decode_utf8Encode (text : List Char) : utf8Decode (utf8Encode text) = some text := by
  unfold utf8Decode
  have hcore : (utf8Encode text).utf8Decode? = some text.toArray := List.utf8Decode?_utf8Encode
  rw [hcore]
  rfl

/-- Texts are encoded one after the other. -/
theorem bytesOf_utf8Encode_append (s t : List Char) :
    bytesOf (utf8Encode (s ++ t)) = bytesOf (utf8Encode s) ++ bytesOf (utf8Encode t) := by
  unfold bytesOf utf8Encode
  rw [List.toList_data_toByteArray, List.toList_data_toByteArray, List.toList_data_toByteArray,
    List.flatMap_append, List.map_append]

/-- **ASCII characters are encoded one byte each.** -/
theorem bytesOf_utf8Encode {text : List Char} (h : IsAscii text) :
    bytesOf (utf8Encode text) = ascii text := by
  unfold bytesOf utf8Encode
  rw [List.toList_data_toByteArray, List.map_flatMap]
  induction text with
  | nil => rfl
  | cons c text ih =>
    have hc : c.val.toNat ≤ 0x7F := Nat.le_of_lt_succ (h c List.mem_cons_self)
    -- below 128 the encoding is the code itself
    have hchar : (String.utf8EncodeChar c).map UInt8.toBitVec = [ch c] := by
      unfold String.utf8EncodeChar
      dsimp only
      rw [if_pos hc]
      rfl
    rw [List.flatMap_cons, hchar, ih fun d hd => h d (List.mem_cons_of_mem c hd)]
    rfl

/-- The size of an encoded ASCII text. -/
theorem size_utf8Encode {text : List Char} (h : IsAscii text) :
    (utf8Encode text).size = text.length := by
  have hlen := congrArg List.length (bytesOf_utf8Encode h)
  rw [bytesOf, List.length_map, length_ascii] at hlen
  exact hlen

end Rf215Sdr.Lib
