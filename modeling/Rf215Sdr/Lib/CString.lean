import Mathlib.Algebra.Order.Ring.Int
import Mathlib.Data.List.TakeWhile
import Rf215Sdr.Lib.Bytes

/-!
# C Strings and Streams

The routines of the C library that a line-based parser rests on, for a machine whose `long`
has 32 bits: `fgets`, `strchr`, `strtoul`, `strtol` and `atoi`, on lists of bytes.

## Main results

- `pieces_line`: a line that fits the buffer is read in one piece.
- `foldl_pieces_lines`: a reader that does not see newlines reads line by line.
- `atoi_toDigits`: the decimal digits of a number are read back.
- `strtoul_hex`: so are two hexadecimal digits behind `0x`.
-/

namespace Rf215Sdr.Lib

/-- The code of a character below 256. -/
def ch (c : Char) : Byte :=
  BitVec.ofNat 8 c.toNat

/-- The bytes of a text in a one-byte encoding. -/
def ascii (text : List Char) : List Byte :=
  text.map ch

@[simp] theorem ascii_append (s t : List Char) : ascii (s ++ t) = ascii s ++ ascii t :=
  List.map_append

@[simp] theorem length_ascii (s : List Char) : (ascii s).length = s.length :=
  List.length_map _

/-- Characters below 256 have different codes. -/
theorem ch_inj {c d : Char} (hc : c.toNat < 256) (hd : d.toNat < 256) : ch c = ch d ↔ c = d := by
  constructor
  · intro h
    have hnat := congrArg BitVec.toNat h
    simp only [ch, BitVec.toNat_ofNat] at hnat
    rw [Nat.mod_eq_of_lt hc, Nat.mod_eq_of_lt hd] at hnat
    exact Char.toNat_inj.mp hnat
  · rintro rfl
    rfl

/-- Characters with a glyph, or a space. -/
def Printable (text : List Char) : Prop :=
  ∀ c ∈ text, 32 ≤ c.toNat ∧ c.toNat < 127

-- the list is searched, not the type of characters
instance (text : List Char) : Decidable (Printable text) :=
  List.decidableBAll (fun c : Char => 32 ≤ c.toNat ∧ c.toNat < 127) text

theorem Printable.append {s t : List Char} (hs : Printable s) (ht : Printable t) :
    Printable (s ++ t) := by
  intro c hc
  rcases List.mem_append.mp hc with h | h
  · exact hs c h
  · exact ht c h

/-- A printable text ends no line. -/
theorem Printable.newline_notMem {text : List Char} (h : Printable text) : '\n' ∉ text :=
  fun hmem => absurd (h _ hmem).1 (by decide)

/-- A character is in a text exactly when its code is in the bytes. -/
theorem ch_mem_ascii {text : List Char} (h : Printable text) {c : Char} (hc : c.toNat < 256) :
    ch c ∈ ascii text ↔ c ∈ text := by
  constructor
  · intro hmem
    obtain ⟨d, hd, hcode⟩ := List.mem_map.mp hmem
    have hd' := (h d hd).2
    rwa [← (ch_inj (by omega) hc).mp hcode]
  · exact List.mem_map_of_mem

/-- Nor a string. -/
theorem Printable.zero_notMem {text : List Char} (h : Printable text) :
    (0 : Byte) ∉ ascii text := by
  have hnul : Char.ofNat 0 ∉ text := fun hmem => absurd (h _ hmem).1 (by decide)
  exact fun hmem => hnul ((ch_mem_ascii h (by decide)).mp hmem)

/-- Characters with a glyph, at least one. -/
def Visible (text : List Char) : Prop :=
  text ≠ [] ∧ ∀ c ∈ text, 33 ≤ c.toNat ∧ c.toNat < 127

theorem Visible.printable {text : List Char} (h : Visible text) : Printable text :=
  fun c hc => ⟨Nat.le_of_succ_le (h.2 c hc).1, (h.2 c hc).2⟩

/-- The C string in a buffer: up to the first zero byte. -/
def cstring (buf : List Byte) : List Byte :=
  buf.takeWhile (· != 0)

theorem cstring_eq {buf : List Byte} (h : (0 : Byte) ∉ buf) : cstring buf = buf := by
  unfold cstring
  rw [List.takeWhile_eq_self_iff]
  intro b hb
  simpa using fun h0 : b = 0 => h (h0 ▸ hb)

theorem zero_notMem_cstring (buf : List Byte) : (0 : Byte) ∉ cstring buf := by
  intro hmem
  have hne := List.mem_takeWhile_imp hmem
  simp at hne

/-- What `strncpy(dst, src, n)` leaves in an array of `n` bytes: at most `n` bytes of the string,
filled up with zero bytes. -/
def strncpy (n : ℕ) (src : List Byte) : List Byte :=
  (cstring src).take n ++ List.replicate (n - (cstring src).length) 0

/-- **`strncpy` terminates its copy only if the string is shorter than the array.** -/
theorem zero_mem_strncpy_iff (n : ℕ) (src : List Byte) :
    (0 : Byte) ∈ strncpy n src ↔ (cstring src).length < n := by
  have hcopied : (0 : Byte) ∉ (cstring src).take n :=
    fun hmem => zero_notMem_cstring src (List.mem_of_mem_take hmem)
  unfold strncpy
  rw [List.mem_append, or_iff_right hcopied, List.mem_replicate, and_iff_left rfl]
  omega

/-! ## Reading lines -/

/-- At most `n` bytes, up to and including the first newline. -/
def takeLine : ℕ → List Byte → List Byte
  | 0, _ => []
  | _, [] => []
  | n + 1, b :: bs => if b = ch '\n' then [b] else b :: takeLine n bs

/-- `fgets(line, size, f)`: the bytes read and what is left of the stream; `none` at its
end. -/
def fgets (size : ℕ) : List Byte → Option (List Byte × List Byte)
  | [] => none
  | b :: bs =>
    let line := takeLine (size - 1) (b :: bs)
    some (line, (b :: bs).drop line.length)

/-- What `n` calls of `fgets` read. -/
def piecesFuel (size : ℕ) : ℕ → List Byte → List (List Byte)
  | 0, _ => []
  | n + 1, rest =>
    match fgets size rest with
    | none => []
    | some (line, rest') => line :: piecesFuel size n rest'

/-- What `fgets` reads until the end of the stream; each call takes at least one byte. -/
def pieces (size : ℕ) (content : List Byte) : List (List Byte) :=
  piecesFuel size content.length content

theorem takeLine_append_newline {l : List Byte} (h : ch '\n' ∉ l) {n : ℕ} (hn : l.length < n)
    (rest : List Byte) : takeLine n (l ++ ch '\n' :: rest) = l ++ [ch '\n'] := by
  induction l generalizing n with
  | nil =>
    obtain ⟨m, rfl⟩ := Nat.exists_eq_add_of_lt hn
    simp [takeLine]
  | cons b l ih =>
    rw [List.mem_cons, not_or] at h
    obtain ⟨m, rfl⟩ : ∃ m, n = m + 1 := ⟨n - 1, by omega⟩
    rw [List.length_cons] at hn
    rw [List.cons_append, takeLine, if_neg (Ne.symm h.1), ih h.2 (by omega)]
    rfl

theorem takeLine_eq_self {l : List Byte} (h : ch '\n' ∉ l) {n : ℕ} (hn : l.length ≤ n) :
    takeLine n l = l := by
  induction l generalizing n with
  | nil => cases n <;> rfl
  | cons b l ih =>
    rw [List.mem_cons, not_or] at h
    obtain ⟨m, rfl⟩ : ∃ m, n = m + 1 := ⟨n - 1, by rw [List.length_cons] at hn; omega⟩
    rw [List.length_cons] at hn
    rw [takeLine, if_neg (Ne.symm h.1), ih h.2 (by omega)]

theorem takeLine_ne_nil {n : ℕ} (hn : 0 < n) {l : List Byte} (hl : l ≠ []) :
    takeLine n l ≠ [] := by
  obtain ⟨m, rfl⟩ : ∃ m, n = m + 1 := ⟨n - 1, by omega⟩
  cases l with
  | nil => exact absurd rfl hl
  | cons b l =>
    unfold takeLine
    split_ifs <;> simp

/-- More calls than bytes read nothing more. -/
theorem piecesFuel_eq {size : ℕ} (hsize : 2 ≤ size) {n : ℕ} {content : List Byte}
    (hn : content.length ≤ n) : piecesFuel size n content = pieces size content := by
  unfold pieces
  -- every call takes at least one byte, so the fuel never runs out
  induction hlen : content.length using Nat.strongRecOn generalizing n content with
  | _ len ih =>
    cases content with
    | nil =>
      obtain rfl : len = 0 := hlen.symm
      cases n <;> rfl
    | cons b bs =>
      obtain ⟨k, rfl⟩ : ∃ k, len = k + 1 := ⟨bs.length, by rw [← hlen, List.length_cons]⟩
      obtain ⟨m, rfl⟩ : ∃ m, n = m + 1 := ⟨n - 1, by omega⟩
      have hne := takeLine_ne_nil (show 0 < size - 1 by omega) (List.cons_ne_nil b bs)
      have hpos := List.length_pos_iff.mpr hne
      -- what is left is shorter
      have hshort : ((b :: bs).drop (takeLine (size - 1) (b :: bs)).length).length < k + 1 := by
        rw [List.length_drop]
        omega
      simp only [piecesFuel, fgets]
      congr 1
      rw [ih _ hshort (by omega) rfl, ih _ hshort (n := k) (by omega) rfl]

theorem pieces_nil (size : ℕ) : pieces size [] = [] := rfl

/-- The first call of `fgets`, and the rest. -/
theorem pieces_eq_cons {size : ℕ} (hsize : 2 ≤ size) {content : List Byte} (h : content ≠ []) :
    pieces size content = takeLine (size - 1) content ::
      pieces size (content.drop (takeLine (size - 1) content).length) := by
  cases content with
  | nil => exact absurd rfl h
  | cons b bs =>
    have hne := takeLine_ne_nil (show 0 < size - 1 by omega) (List.cons_ne_nil b bs)
    have hpos := List.length_pos_iff.mpr hne
    show piecesFuel size (bs.length + 1) (b :: bs) = _
    simp only [piecesFuel, fgets]
    rw [piecesFuel_eq hsize]
    rw [List.length_drop, List.length_cons]
    omega

/-- **A line that fits the buffer is read in one piece.** -/
theorem pieces_line {size : ℕ} {l : List Byte} (h : ch '\n' ∉ l) (hlen : l.length + 2 ≤ size)
    (rest : List Byte) :
    pieces size (l ++ ch '\n' :: rest) = (l ++ [ch '\n']) :: pieces size rest := by
  -- the newline goes with the line
  have hsplit : l ++ ch '\n' :: rest = (l ++ [ch '\n']) ++ rest := by
    rw [List.append_assoc]
    rfl
  rw [pieces_eq_cons (by omega) (by simp), takeLine_append_newline h (by omega), hsplit,
    List.drop_left]

/-- So is what follows the last newline. -/
theorem pieces_last {size : ℕ} {l : List Byte} (h : ch '\n' ∉ l) (hne : l ≠ [])
    (hlen : l.length + 1 ≤ size) : pieces size l = [l] := by
  have hpos := List.length_pos_iff.mpr hne
  rw [pieces_eq_cons (by omega) hne, takeLine_eq_self h (by omega), List.drop_length, pieces_nil]

/-! ## Reading long lines -/

/-- A buffer that is too short for a line gets its first bytes. -/
theorem takeLine_append_of_le {l : List Byte} (h : ch '\n' ∉ l) {n : ℕ} (hn : n ≤ l.length)
    (rest : List Byte) : takeLine n (l ++ rest) = l.take n := by
  induction l generalizing n with
  | nil =>
    obtain rfl : n = 0 := Nat.le_zero.mp hn
    rfl
  | cons b l ih =>
    cases n with
    | zero => rfl
    | succ n =>
      rw [List.mem_cons, not_or] at h
      rw [List.cons_append, takeLine, if_neg (Ne.symm h.1), ih h.2 (Nat.le_of_succ_le_succ hn)]
      rfl

/-- A line that does not fit is read in pieces of equal length. -/
theorem pieces_long {size : ℕ} (hsize : 2 ≤ size) {l : List Byte} (h : ch '\n' ∉ l)
    (hlen : size - 1 ≤ l.length) :
    pieces size l = l.take (size - 1) :: pieces size (l.drop (size - 1)) := by
  have hne : l ≠ [] := List.ne_nil_of_length_pos (by omega)
  have hself : takeLine (size - 1) l = l.take (size - 1) := by
    rw [← List.append_nil l, takeLine_append_of_le h hlen, List.append_nil]
  rw [pieces_eq_cons hsize hne, hself, List.length_take_of_le hlen]

theorem takeLine_prefix_self (n : ℕ) (l : List Byte) : takeLine n l <+: l := by
  induction l generalizing n with
  | nil => cases n <;> exact List.prefix_rfl
  | cons b l ih =>
    cases n with
    | zero => exact List.nil_prefix
    | succ n =>
      unfold takeLine
      split_ifs
      · exact ⟨l, rfl⟩
      · exact List.prefix_cons_inj b |>.mpr (ih n)

/-- Every piece is taken from the stream. -/
theorem subset_of_mem_pieces {size : ℕ} (hsize : 2 ≤ size) {p content : List Byte}
    (hp : p ∈ pieces size content) : p ⊆ content := by
  induction hlen : content.length using Nat.strongRecOn generalizing content with
  | _ len ih =>
    by_cases hnil : content = []
    · rw [hnil, pieces_nil] at hp
      exact absurd hp List.not_mem_nil
    · rw [pieces_eq_cons hsize hnil] at hp
      rcases List.mem_cons.mp hp with rfl | hrest
      · exact (takeLine_prefix_self _ content).subset
      · have hpos := List.length_pos_iff.mpr (takeLine_ne_nil (show 0 < size - 1 by omega) hnil)
        have hle := (takeLine_prefix_self (size - 1) content).length_le
        refine List.Subset.trans (ih _ ?_ hrest rfl) (List.drop_subset _ content)
        rw [List.length_drop]
        omega

section Readers

variable {β : Type*} {f : β → List Byte → β} (hnil : ∀ b, f b [] = b)
  (hnewline : ∀ b p, f b (p ++ [ch '\n']) = f b p)

include hnil hnewline

/-- A reader that does not see the newline at the end of a piece reads a line, and then the
rest. -/
theorem foldl_pieces_append {size : ℕ} (hsize : 2 ≤ size) {l : List Byte} (h : ch '\n' ∉ l)
    (rest : List Byte) (b : β) :
    (pieces size (l ++ ch '\n' :: rest)).foldl f b =
      (pieces size rest).foldl f ((pieces size l).foldl f b) := by
  induction hlen : l.length using Nat.strongRecOn generalizing l b with
  | _ len ih =>
    by_cases hfits : l.length + 2 ≤ size
    · -- the newline comes with the last piece of the line
      have hline : (pieces size l).foldl f b = f b l := by
        by_cases hl : l = []
        · rw [hl, pieces_nil, hnil]
          rfl
        · rw [pieces_last h hl (by omega)]
          rfl
      rw [pieces_line h hfits, List.foldl_cons, hnewline, hline]
    · -- the first piece is full, and the line goes on behind it
      have hfull : size - 1 ≤ l.length := by omega
      have hnl : ch '\n' ∉ l.drop (size - 1) := fun hmem => h (List.mem_of_mem_drop hmem)
      rw [pieces_eq_cons hsize (by simp), takeLine_append_of_le h hfull, pieces_long hsize h hfull,
        List.length_take_of_le hfull, List.drop_append_of_le_length hfull, List.foldl_cons,
        List.foldl_cons]
      refine ih _ ?_ hnl _ rfl
      rw [List.length_drop]
      omega

/-- **Such a reader reads line by line**, each line in pieces of its own. -/
theorem foldl_pieces_lines {size : ℕ} (hsize : 2 ≤ size) (content : List Byte) (b : β) :
    (pieces size content).foldl f b =
      (content.splitOn (ch '\n')).foldl (fun b l => (pieces size l).foldl f b) b := by
  induction hlen : content.length using Nat.strongRecOn generalizing content b with
  | _ len ih =>
    by_cases hmem : ch '\n' ∈ content
    · obtain ⟨l, rest, rfl, hl⟩ := List.eq_append_cons_of_mem hmem
      rw [foldl_pieces_append hnil hnewline hsize hl,
        List.splitOn_append_cons_self_of_not_mem hl, List.foldl_cons]
      refine ih _ ?_ rest _ rfl
      rw [← hlen, List.length_append, List.length_cons]
      omega
    · rw [List.splitOn_eq_singleton hmem]
      rfl

end Readers

/-- A line of the content has no newline, and nothing that the content has not. -/
theorem of_mem_splitOn {a : Byte} {l content : List Byte} (h : l ∈ content.splitOn a) :
    a ∉ l ∧ l ⊆ content := by
  induction hlen : content.length using Nat.strongRecOn generalizing content with
  | _ len ih =>
    by_cases hmem : a ∈ content
    · obtain ⟨m, rest, rfl, hm⟩ := List.eq_append_cons_of_mem hmem
      rw [List.splitOn_append_cons_self_of_not_mem hm] at h
      rcases List.mem_cons.mp h with rfl | hrest
      · exact ⟨hm, List.subset_append_left l _⟩
      · have hshort : rest.length < len := by
          rw [← hlen, List.length_append, List.length_cons]
          omega
        obtain ⟨hnotMem, hsub⟩ := ih _ hshort hrest rfl
        refine ⟨hnotMem, fun b hb => ?_⟩
        exact List.mem_append_right m (List.mem_cons_of_mem a (hsub hb))
    · rw [List.splitOn_eq_singleton hmem, List.mem_singleton] at h
      subst h
      exact ⟨hmem, fun b hb => hb⟩

/-- What stands before and behind the first `c`: `strchr`, and a zero byte put in its place. -/
def splitAtFirst (c : Byte) (s : List Byte) : Option (List Byte × List Byte) :=
  if c ∈ s then some (s.takeWhile (· != c), (s.dropWhile (· != c)).tail) else none

theorem splitAtFirst_append {c : Byte} {key : List Byte} (h : c ∉ key) (val : List Byte) :
    splitAtFirst c (key ++ c :: val) = some (key, val) := by
  have hkey : ∀ b ∈ key, (b != c) = true := by
    intro b hb
    simpa using fun hbc : b = c => h (hbc ▸ hb)
  unfold splitAtFirst
  rw [if_pos (by simp), List.takeWhile_append_of_pos hkey, List.dropWhile_append_of_pos hkey]
  simp

theorem subset_of_splitAtFirst {c : Byte} {s key val : List Byte}
    (h : splitAtFirst c s = some (key, val)) : key ⊆ s ∧ val ⊆ s := by
  unfold splitAtFirst at h
  split_ifs at h
  cases h
  refine ⟨(List.takeWhile_prefix _).subset, fun b hb => ?_⟩
  exact (List.dropWhile_suffix _).subset (List.mem_of_mem_tail hb)

/-! ## Numbers -/

/-- `isspace` in the C locale. -/
def isSpace (b : Byte) : Bool :=
  b == 32 || (9 ≤ b.toNat && b.toNat ≤ 13)

/-- The value of a digit or letter. -/
def digitValue (b : Byte) : Option ℕ :=
  if 48 ≤ b.toNat ∧ b.toNat ≤ 57 then some (b.toNat - 48)
  else if 65 ≤ b.toNat ∧ b.toNat ≤ 90 then some (b.toNat - 55)
  else if 97 ≤ b.toNat ∧ b.toNat ≤ 122 then some (b.toNat - 87)
  else none

/-- The leading digits of a string. -/
def digitsOf (base : ℕ) : List Byte → List ℕ
  | [] => []
  | b :: bs =>
    match digitValue b with
    | none => []
    | some d => if d < base then d :: digitsOf base bs else []

/-- The value of digits, most significant first. -/
def ofDigits (base : ℕ) (ds : List ℕ) : ℕ :=
  ds.foldl (fun acc d => acc * base + d) 0

/-- An optional sign. -/
def splitSign : List Byte → Bool × List Byte
  | [] => (false, [])
  | b :: bs =>
    if b = ch '-' then (true, bs) else if b = ch '+' then (false, bs) else (false, b :: bs)

/-- `0x` in front of a hexadecimal digit. -/
def hexPrefix : List Byte → Option (List Byte)
  -- the prefix counts only in front of a digit
  | z :: x :: d :: rest =>
    if z = ch '0' ∧ (x = ch 'x' ∨ x = ch 'X') ∧ (digitsOf 16 [d]).length = 1 then some (d :: rest)
    else none
  | _ => none

/-- The base that base 0 stands for, and where the digits start. -/
def detectBase (base : ℕ) (s : List Byte) : ℕ × List Byte :=
  if base = 0 then
    match hexPrefix s with
    | some ds => (16, ds)
    | none => if s.head? = some (ch '0') then (8, s) else (10, s)
  else if base = 16 then (16, (hexPrefix s).getD s)
  else (base, s)

/-- Sign and magnitude of the number at the start of a string; zero if there is none. -/
def scanNumber (base : ℕ) (s : List Byte) : Bool × ℕ :=
  let signed := splitSign (s.dropWhile isSpace)
  let based := detectBase base signed.2
  (signed.1, ofDigits based.1 (digitsOf based.1 based.2))

/-- `strtoul(s, NULL, base)`. -/
def strtoul (base : ℕ) (s : List Byte) : BitVec 32 :=
  let n := scanNumber base s
  if 2 ^ 32 ≤ n.2 then BitVec.allOnes 32
  else if n.1 then -BitVec.ofNat 32 n.2
  else BitVec.ofNat 32 n.2

/-- `strtol(s, NULL, base)`. -/
def strtol (base : ℕ) (s : List Byte) : BitVec 32 :=
  let n := scanNumber base s
  let value : ℤ := if n.1 then -n.2 else n.2
  BitVec.ofInt 32 (max (-2 ^ 31) (min value (2 ^ 31 - 1)))

/-- `atoi(s)`. -/
def atoi (s : List Byte) : BitVec 32 :=
  strtol 10 s

/-! ## Where a number ends -/

/-- A byte no number goes on with, whatever the base: neither a hexadecimal digit nor an `x`. -/
def endsNumber (b : Byte) : Bool :=
  (digitValue b).all (16 ≤ ·) && b != ch 'x' && b != ch 'X'

theorem le_of_endsNumber {b : Byte} (hb : endsNumber b = true) {d : ℕ}
    (hd : digitValue b = some d) : 16 ≤ d := by
  simp only [endsNumber, hd, Option.all_some, Bool.and_eq_true, decide_eq_true_eq] at hb
  exact hb.1.1

theorem endsNumber_of_isSpace {b : Byte} (h : isSpace b = true) : endsNumber b = true := by
  revert b
  decide

section NumberEnd

variable {b : Byte} (hb : endsNumber b = true)

include hb

/-- It ends the digits. -/
theorem digitsOf_append {base : ℕ} (hbase : base ≤ 16) (s rest : List Byte) :
    digitsOf base (s ++ b :: rest) = digitsOf base s := by
  induction s with
  | nil =>
    cases hd : digitValue b with
    | none => simp [digitsOf, hd]
    | some d =>
      have hle := Nat.le_trans hbase (le_of_endsNumber hb hd)
      simp [digitsOf, hd, Nat.not_lt.mpr hle]
  | cons a s ih => simp only [List.cons_append, digitsOf, ih]

/-- It is part of no prefix. -/
theorem hexPrefix_append (s rest : List Byte) :
    hexPrefix (s ++ b :: rest) = (hexPrefix s).map (· ++ b :: rest) := by
  have hz : b ≠ ch '0' := by rintro rfl; exact absurd hb (by decide)
  have hx : ¬ (b = ch 'x' ∨ b = ch 'X') := by
    rintro (rfl | rfl) <;> exact absurd hb (by decide)
  match s with
  | [] => cases rest with
    | nil => rfl
    | cons a rest => cases rest with
      | nil => rfl
      | cons a' rest => exact if_neg fun h => hz h.1
  | [z] => cases rest with
    | nil => rfl
    | cons a rest => exact if_neg fun h => hx h.2.1
  | [z, x] =>
    have hd : ¬ (digitsOf 16 [b]).length = 1 := by
      rw [← List.nil_append [b], digitsOf_append hb (Nat.le_refl 16)]
      exact Nat.zero_ne_one
    exact if_neg fun h => hd h.2.2
  | z :: x :: d :: s =>
    simp only [List.cons_append, hexPrefix]
    split_ifs <;> rfl

theorem detectBase_append (base : ℕ) (s rest : List Byte) :
    detectBase base (s ++ b :: rest) =
      ((detectBase base s).1, (detectBase base s).2 ++ b :: rest) := by
  have hz : b ≠ ch '0' := by rintro rfl; exact absurd hb (by decide)
  have hhead : (s ++ b :: rest).head? = some (ch '0') ↔ s.head? = some (ch '0') := by
    cases s with
    | nil => simpa using hz
    | cons a s => rfl
  unfold detectBase
  rw [hexPrefix_append hb]
  cases hexPrefix s with
  | none => simp only [Option.map_none, Option.getD_none, hhead]; split_ifs <;> rfl
  | some ds => simp only [Option.map_some, Option.getD_some]; split_ifs <;> rfl

omit hb in
theorem detectBase_le {base : ℕ} (hbase : base ≤ 16) (s : List Byte) :
    (detectBase base s).1 ≤ 16 := by
  unfold detectBase
  by_cases hzero : base = 0
  · rw [if_pos hzero]
    cases hexPrefix s with
    | some ds => exact Nat.le_refl 16
    | none =>
      dsimp only
      split_ifs <;> dsimp only <;> decide
  · rw [if_neg hzero]
    split_ifs
    · exact Nat.le_refl 16
    · exact hbase

/-- **A number ends before such a byte.** -/
theorem scanNumber_append {base : ℕ} (hbase : base ≤ 16) {s : List Byte}
    (hs : ∃ a ∈ s, isSpace a = false) (rest : List Byte) :
    scanNumber base (s ++ b :: rest) = scanNumber base s := by
  -- something is left behind the white space
  have hne : s.dropWhile isSpace ≠ [] := by
    obtain ⟨a, ha, hspace⟩ := hs
    intro hnil
    rw [List.dropWhile_eq_nil_iff.mp hnil a ha] at hspace
    cases hspace
  have hdrop : (s ++ b :: rest).dropWhile isSpace = s.dropWhile isSpace ++ b :: rest := by
    rw [List.dropWhile_append, if_neg (by simpa using hne)]
  unfold scanNumber
  rw [hdrop]
  cases hleft : s.dropWhile isSpace with
  | nil => exact absurd hleft hne
  | cons a left =>
    have hsign : splitSign (a :: left ++ b :: rest) =
        ((splitSign (a :: left)).1, (splitSign (a :: left)).2 ++ b :: rest) := by
      simp only [List.cons_append, splitSign]
      split_ifs <;> rfl
    simp only [hsign, detectBase_append hb, digitsOf_append hb (detectBase_le hbase _)]

end NumberEnd

/-- Neither does a number see white space at the ends of a string. -/
theorem scanNumber_append_space {base : ℕ} (hbase : base ≤ 16) (s : List Byte)
    {blanks : List Byte} (hblanks : ∀ b ∈ blanks, isSpace b = true) :
    scanNumber base (s ++ blanks) = scanNumber base s := by
  by_cases hs : ∃ a ∈ s, isSpace a = false
  · cases blanks with
    | nil => rw [List.append_nil]
    | cons b blanks =>
      exact scanNumber_append (endsNumber_of_isSpace (hblanks b List.mem_cons_self)) hbase hs blanks
  · -- there is only white space
    have hall : ∀ a ∈ s, isSpace a = true := by simpa using hs
    have hboth : ∀ a ∈ s ++ blanks, isSpace a = true :=
      fun a ha => (List.mem_append.mp ha).elim (hall a) (hblanks a)
    unfold scanNumber
    rw [List.dropWhile_eq_nil_iff.mpr hall, List.dropWhile_eq_nil_iff.mpr hboth]

theorem scanNumber_dropWhile (base : ℕ) {p : Byte → Bool} (hp : ∀ b, p b = true → isSpace b = true)
    (s : List Byte) : scanNumber base (s.dropWhile p) = scanNumber base s := by
  induction s with
  | nil => rfl
  | cons a s ih =>
    rw [List.dropWhile_cons]
    split_ifs with ha
    · rw [ih]
      unfold scanNumber
      rw [List.dropWhile_cons_of_pos (hp a ha)]
    · rfl

/-! ## Reading digits back -/

theorem toNat_ch {c : Char} (hc : c.toNat < 256) : (ch c).toNat = c.toNat :=
  Nat.mod_eq_of_lt hc

theorem digitValue_of_isDigit {c : Char} (hc : c.isDigit = true) :
    digitValue (ch c) = some (c.toNat - 48) := by
  have hrange : 48 ≤ c.toNat ∧ c.toNat ≤ 57 := Char.isDigit_iff_toNat.mp hc
  unfold digitValue
  rw [toNat_ch (by omega), if_pos hrange]

/-- A string of decimal digits is read to its end. -/
theorem digitsOf_decimal {l : List Char} (h : ∀ c ∈ l, c.isDigit = true) :
    digitsOf 10 (ascii l) = l.map fun c => c.toNat - 48 := by
  induction l with
  | nil => rfl
  | cons c l ih =>
    have hc := h c List.mem_cons_self
    have hrange : 48 ≤ c.toNat ∧ c.toNat ≤ 57 := Char.isDigit_iff_toNat.mp hc
    show digitsOf 10 (ch c :: ascii l) = _
    unfold digitsOf
    rw [digitValue_of_isDigit hc]
    dsimp only
    rw [if_pos (by omega), ih fun d hd => h d (List.mem_cons_of_mem c hd)]
    rfl

theorem ofDigits_decimal (l : List Char) :
    ofDigits 10 (l.map fun c => c.toNat - 48) = Nat.ofDigitChars 10 l 0 := by
  unfold ofDigits
  rw [List.foldl_map, Nat.ofDigitChars_eq_foldl]
  congr 1
  funext acc c
  rw [Nat.mul_comm]
  rfl

/-- A digit is neither white space nor a sign. -/
theorem scanNumber_decimal {l : List Char} (hne : l ≠ []) (h : ∀ c ∈ l, c.isDigit = true) :
    scanNumber 10 (ascii l) = (false, Nat.ofDigitChars 10 l 0) := by
  cases l with
  | nil => exact absurd rfl hne
  | cons c l =>
    have hrange : 48 ≤ c.toNat ∧ c.toNat ≤ 57 := Char.isDigit_iff_toNat.mp (h c List.mem_cons_self)
    have hcode : (ch c).toNat = c.toNat := toNat_ch (by omega)
    -- the first digit is no white space and no sign
    have hspace : isSpace (ch c) = false := by
      unfold isSpace
      rw [Bool.or_eq_false_iff]
      constructor
      · rw [beq_eq_false_iff_ne]
        intro h32
        rw [h32] at hcode
        have : (32 : Byte).toNat = 32 := rfl
        omega
      · rw [hcode, Bool.and_eq_false_iff]
        right
        exact decide_eq_false (by omega)
    have hminus : ch c ≠ ch '-' := by
      rw [Ne, ch_inj (by omega) (by decide)]
      rintro rfl
      exact absurd hrange (by decide)
    have hplus : ch c ≠ ch '+' := by
      rw [Ne, ch_inj (by omega) (by decide)]
      rintro rfl
      exact absurd hrange (by decide)
    -- so the digits start at once
    have hsigned : splitSign ((ascii (c :: l)).dropWhile isSpace) = (false, ascii (c :: l)) := by
      show splitSign ((ch c :: ascii l).dropWhile isSpace) = _
      rw [List.dropWhile_cons_of_neg (by simp [hspace])]
      simp only [splitSign, hminus, hplus, if_false]
      rfl
    unfold scanNumber
    rw [hsigned]
    have hbase : detectBase 10 (ascii (c :: l)) = (10, ascii (c :: l)) := rfl
    simp only [hbase, digitsOf_decimal h, ofDigits_decimal]

/-- **The decimal digits of a number are read back** as long as it fits a `long`. -/
theorem atoi_toDigits {n : ℕ} (hn : n < 2 ^ 31) :
    atoi (ascii (Nat.toDigits 10 n)) = BitVec.ofNat 32 n := by
  unfold atoi strtol
  rw [scanNumber_decimal Nat.toDigits_ne_nil fun c hc =>
    Nat.isDigit_of_mem_toDigits (by decide) (by decide) hc]
  simp only [Nat.ofDigitChars_ten_toDigits, Bool.false_eq_true, if_false]
  -- no clamping below 2 ^ 31
  rw [min_eq_left (by omega), max_eq_right (by omega)]
  exact BitVec.ofInt_natCast 32 n

/-- **Two hexadecimal digits behind `0x` are read back.** -/
theorem strtoul_hex {a b : Char} {va vb : ℕ} (ha : digitValue (ch a) = some va)
    (hva : va < 16) (hb : digitValue (ch b) = some vb) (hvb : vb < 16) :
    strtoul 0 (ascii ['0', 'x', a, b]) = BitVec.ofNat 32 (va * 16 + vb) := by
  have hda : digitsOf 16 [ch a] = [va] := by
    simp [digitsOf, ha, hva]
  have hdigits : digitsOf 16 [ch a, ch b] = [va, vb] := by
    simp [digitsOf, ha, hva, hb, hvb]
  -- base 0 sees the prefix because a hexadecimal digit follows it
  have hprefix : hexPrefix (ascii ['0', 'x', a, b]) = some [ch a, ch b] := by
    show (if ch '0' = ch '0' ∧ (ch 'x' = ch 'x' ∨ ch 'x' = ch 'X') ∧
      (digitsOf 16 [ch a]).length = 1 then some [ch a, ch b] else none) = _
    rw [if_pos ⟨rfl, Or.inl rfl, by rw [hda]; rfl⟩]
  have hscan : scanNumber 0 (ascii ['0', 'x', a, b]) = (false, va * 16 + vb) := by
    have hsigned : splitSign ((ascii ['0', 'x', a, b]).dropWhile isSpace) =
        (false, ascii ['0', 'x', a, b]) := rfl
    unfold scanNumber
    rw [hsigned]
    simp only [detectBase, hprefix, if_true, hdigits, ofDigits, List.foldl_cons, List.foldl_nil,
      Nat.zero_mul, Nat.zero_add]
  unfold strtoul
  rw [hscan]
  simp only [Bool.false_eq_true, if_false]
  rw [if_neg (by omega)]

end Rf215Sdr.Lib
