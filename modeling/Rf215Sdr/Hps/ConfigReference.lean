import Rf215Sdr.Hps.Config
import Rf215Sdr.Lib.LastWins

/-!
# The Configuration File as a List of Settings

A configuration is a function from eleven keys to values, and a file is read line by line: a
line sets at most one key, and of several lines for one key the last wins. `config_load` reads
pieces of at most 127 bytes instead, and each piece is taken for a line.

## Main results

- `loadLine_get`: what a piece sets.
- `configLoad_get`: what `config_load` sets, line by line.
- `pieceSettings_of_uncut`: lines whose pieces set what the line sets.
- `lineBased_of_uncut`: a file of such lines sets what its lines set.
-/

namespace Rf215Sdr.Hps

open Rf215Sdr.Lib

/-! ## Keys and values -/

/-- The names `config_load` knows. -/
inductive Key where
  | chunkBytes
  | iqifc1
  | cs
  | ccf0l
  | ccf0h
  | cnl
  | cnm
  | rxbwc
  | rxdfe
  | r09Agcc
  | rf09Agcs
  deriving DecidableEq, Repr

namespace Key

def all : List Key :=
  [chunkBytes, iqifc1, cs, ccf0l, ccf0h, cnl, cnm, rxbwc, rxdfe, r09Agcc, rf09Agcs]

/-- How a key is written. -/
def name : Key → List Char
  | chunkBytes => "chunk_bytes".toList
  | iqifc1 => "IQIFC1".toList
  | cs => "CS".toList
  | ccf0l => "CCF0L".toList
  | ccf0h => "CCF0H".toList
  | cnl => "CNL".toList
  | cnm => "CNM".toList
  | rxbwc => "RXBWC".toList
  | rxdfe => "RXDFE".toList
  | r09Agcc => "R09_AGCC".toList
  | rf09Agcs => "RF09_AGCS".toList

/-- The key of a name. -/
def ofName (name : List Byte) : Option Key :=
  all.find? fun k => name = ascii k.name

/-- The size of its value: registers have eight bits. -/
def width : Key → ℕ
  | chunkBytes => 32
  | _ => 8

/-- The value that a text stands for. -/
def read : (k : Key) → List Byte → BitVec k.width
  | chunkBytes, valstr => atoi valstr
  | iqifc1, valstr | cs, valstr | ccf0l, valstr | ccf0h, valstr | cnl, valstr | cnm, valstr
  | rxbwc, valstr | rxdfe, valstr | r09Agcc, valstr | rf09Agcs, valstr =>
    (strtoul 0 valstr).setWidth 8

end Key

/-- The value of a key. -/
def Config.get (cfg : Config) : (k : Key) → BitVec k.width
  | .chunkBytes => cfg.configChunkBytes
  | .iqifc1 => cfg.cfgIQIFC1
  | .cs => cfg.cfgCS
  | .ccf0l => cfg.cfgCCF0L
  | .ccf0h => cfg.cfgCCF0H
  | .cnl => cfg.cfgCNL
  | .cnm => cfg.cfgCNM
  | .rxbwc => cfg.cfgRXBWC
  | .rxdfe => cfg.cfgRXDFE
  | .r09Agcc => cfg.cfgR09AGCC
  | .rf09Agcs => cfg.cfgRF09AGCS

/-- The configuration with the given values. -/
def Config.ofValues (f : (k : Key) → BitVec k.width) : Config where
  configChunkBytes := f .chunkBytes
  cfgIQIFC1 := f .iqifc1
  cfgCS := f .cs
  cfgCCF0L := f .ccf0l
  cfgCCF0H := f .ccf0h
  cfgCNL := f .cnl
  cfgCNM := f .cnm
  cfgRXBWC := f .rxbwc
  cfgRXDFE := f .rxdfe
  cfgR09AGCC := f .r09Agcc
  cfgRF09AGCS := f .rf09Agcs

@[simp] theorem Config.get_ofValues (f : (k : Key) → BitVec k.width) :
    (Config.ofValues f).get = f := by
  funext k
  cases k <;> rfl

@[simp] theorem Config.ofValues_get (cfg : Config) : Config.ofValues cfg.get = cfg := rfl

theorem Config.get_injective : Function.Injective Config.get := by
  intro cfg cfg' h
  rw [← cfg.ofValues_get, h, cfg'.ofValues_get]

/-! ## The reference -/

/-- Blanks, tabs and carriage returns. -/
def isLineBlank (b : Byte) : Bool :=
  b == ch ' ' || b == ch '\t' || b == ch '\r'

/-- The key a line sets and its value, if it sets one. -/
def setting (line : List Byte) : Option (Σ k : Key, BitVec k.width) :=
  let line := trimBy isLineBlank line
  if line = [] ∨ line.head? = some (ch '#') then none
  else
    match splitAtFirst (ch '=') line with
    | none => none
    | some (key, valstr) =>
      (Key.ofName (trimBy isLineBlank key)).map fun k => ⟨k, k.read (trimBy isLineBlank valstr)⟩

/-- The lines of a file. -/
def lines (content : List Byte) : List (List Byte) :=
  content.splitOn (ch '\n')

/-- The configuration that the lines of a file set, the last one for each key. -/
def reference (content : List Byte) : Config :=
  Config.ofValues (assignAll Config.default.get ((lines content).filterMap setting))

/-! ## What a piece sets -/

theorem ofName_eq_some {key : List Byte} {k : Key} (h : Key.ofName key = some k) :
    key = ascii k.name := by
  simpa using List.find?_some h

/-- A known name is assigned its value. -/
theorem assign_name (cfg : Config) (k : Key) (valstr : List Byte) :
    cfg.assign (ascii k.name) valstr =
      Config.ofValues (Function.update cfg.get k (k.read valstr)) := by
  cases k <;> rfl

/-- Any other name is ignored. -/
theorem assign_of_ofName_eq_none (cfg : Config) {key : List Byte} (h : Key.ofName key = none)
    (valstr : List Byte) : cfg.assign key valstr = cfg := by
  have hne : ∀ k ∈ Key.all, key ≠ ascii k.name := by
    intro k hk heq
    exact List.find?_eq_none.mp h k hk (decide_eq_true heq)
  -- every comparison of the chain fails
  simp only [Key.all, List.forall_mem_cons] at hne
  obtain ⟨h0, h1, h2, h3, h4, h5, h6, h7, h8, h9, h10, -⟩ := hne
  refine (if_neg h0).trans <| (if_neg h1).trans <| (if_neg h2).trans <| (if_neg h3).trans <|
    (if_neg h4).trans <| (if_neg h5).trans <| (if_neg h6).trans <| (if_neg h7).trans <|
    (if_neg h8).trans <| (if_neg h9).trans <| if_neg h10

/-- `trim` takes off newlines too, where there are any. -/
theorem trim_eq {s : List Byte} (h : ch '\n' ∉ s) : trim s = trimBy isLineBlank s := by
  apply trimBy_congr
  intro b hb
  have hne : (b == ch '\n') = false := by simpa using fun heq : b = ch '\n' => h (heq ▸ hb)
  simp [isBlank, isLineBlank, hne]

/-- **What a piece sets**: it is taken for a line. -/
theorem loadLine_get (cfg : Config) {piece : List Byte} (hzero : (0 : Byte) ∉ piece)
    (hnewline : ch '\n' ∉ piece) :
    (cfg.loadLine piece).get = assignAll cfg.get (setting piece).toList := by
  unfold Config.loadLine setting
  rw [cstring_eq hzero, trim_eq hnewline]
  dsimp only
  by_cases hskip : trimBy isLineBlank piece = [] ∨
      (trimBy isLineBlank piece).head? = some (ch '#')
  · rw [if_pos hskip, if_pos hskip.symm]
    rfl
  · rw [if_neg hskip, if_neg (fun h => hskip h.symm)]
    cases hsplit : splitAtFirst (ch '=') (trimBy isLineBlank piece) with
    | none => rfl
    | some p =>
      obtain ⟨key, valstr⟩ := p
      -- key and value are parts of the piece, so they have no newline either
      obtain ⟨hkey, hval⟩ := subset_of_splitAtFirst hsplit
      have hpart : ∀ {part : List Byte}, part ⊆ trimBy isLineBlank piece → ch '\n' ∉ part :=
        fun hsub hmem => hnewline (trimBy_subset _ _ (hsub hmem))
      dsimp only
      rw [trim_eq (hpart hkey), trim_eq (hpart hval)]
      cases hname : Key.ofName (trimBy isLineBlank key) with
      | none =>
        rw [assign_of_ofName_eq_none cfg hname]
        rfl
      | some k =>
        rw [ofName_eq_some hname, assign_name, Config.get_ofValues]
        rfl

/-! ## Whole files -/

theorem foldl_loadLine_get {ps : List (List Byte)}
    (h : ∀ p ∈ ps, (0 : Byte) ∉ p ∧ ch '\n' ∉ p) (cfg : Config) :
    (ps.foldl Config.loadLine cfg).get = assignAll cfg.get (ps.filterMap setting) := by
  induction ps generalizing cfg with
  | nil => rfl
  | cons p ps ih =>
    rw [List.forall_mem_cons] at h
    rw [List.foldl_cons, ih h.2, loadLine_get cfg h.1.1 h.1.2, ← assignAll_append]
    cases hp : setting p with
    | none => simp [hp]
    | some a => simp [hp]

/-- What a line sets when it is read in pieces. -/
def pieceSettings (line : List Byte) : List (Σ k : Key, BitVec k.width) :=
  (pieces lineSize line).filterMap setting

/-- **What `config_load` sets**, line by line. -/
theorem configLoad_get {content : List Byte} (hzero : (0 : Byte) ∉ content) :
    (configLoad (some content)).get =
      assignAll Config.default.get ((lines content).flatMap pieceSettings) := by
  have hlines : ∀ ls : List (List Byte), (∀ l ∈ ls, (0 : Byte) ∉ l ∧ ch '\n' ∉ l) →
      ∀ cfg : Config, (ls.foldl (fun b l => (pieces lineSize l).foldl Config.loadLine b) cfg).get =
        assignAll cfg.get (ls.flatMap pieceSettings) := by
    intro ls h
    induction ls with
    | nil => exact fun cfg => rfl
    | cons l ls ih =>
      intro cfg
      rw [List.forall_mem_cons] at h
      rw [List.foldl_cons, ih h.2, List.flatMap_cons, assignAll_append, foldl_loadLine_get]
      · rfl
      · -- a piece of the line has only bytes of the line
        intro p hp
        have hsub := subset_of_mem_pieces (by decide) hp
        exact ⟨fun hmem => h.1.1 (hsub hmem), fun hmem => h.1.2 (hsub hmem)⟩
  have hread : (pieces lineSize content).foldl Config.loadLine Config.default =
      (lines content).foldl (fun b l => (pieces lineSize l).foldl Config.loadLine b)
        Config.default := by
    apply foldl_pieces_lines
    · exact fun cfg => rfl
    · exact loadLine_newline
    · decide
  show ((pieces lineSize content).foldl Config.loadLine Config.default).get = _
  rw [hread, hlines]
  intro l hl
  obtain ⟨hnewline, hsub⟩ := of_mem_splitOn hl
  exact ⟨fun hmem => hzero (hsub hmem), hnewline⟩

theorem reference_get (content : List Byte) :
    (reference content).get =
      assignAll Config.default.get ((lines content).flatMap fun l => (setting l).toList) := by
  rw [← List.filterMap_eq_flatMap_toList]
  exact Config.get_ofValues _

/-- **In the reference the last line for a key wins.** -/
theorem reference_get_last (content : List Byte) (k : Key) :
    (reference content).get k =
      (lastOf k ((lines content).filterMap setting)).getD (Config.default.get k) := by
  unfold reference
  rw [Config.get_ofValues, assignAll_apply]

/-! ## Keys and numbers in a line -/

/-- The key whose name stands in front of the first `=` of a line, if the line is no comment. -/
def keyOf (line : List Byte) : Option Key :=
  let line := trimBy isLineBlank line
  if line = [] ∨ line.head? = some (ch '#') then none
  else (splitAtFirst (ch '=') line).bind fun p => Key.ofName (trimBy isLineBlank p.1)

/-- In the line `key=number…` the number ends within the first `n` bytes: only white space
follows it, or first of all a byte no number goes on with. -/
def NumberWithin (n : ℕ) (line : List Byte) : Prop :=
  ∃ key number behind : List Byte, line = key ++ ch '=' :: (number ++ behind) ∧ ch '=' ∉ key ∧
    key.length + (number.length + 1) ≤ n ∧
      ((∀ b ∈ behind, isSpace b = true) ∨
        (∃ a ∈ number, isSpace a = false) ∧ ∃ b rest, behind = b :: rest ∧ endsNumber b = true)

/-- A line without a known key sets nothing. -/
theorem setting_of_keyOf {line : List Byte} (h : keyOf line = none) : setting line = none := by
  unfold keyOf at h
  unfold setting
  dsimp only at h ⊢
  split_ifs at h ⊢ with hskip
  · rfl
  · cases hsplit : splitAtFirst (ch '=') (trimBy isLineBlank line) with
    | none => rfl
    | some p =>
      rw [hsplit, Option.bind_some] at h
      simp only [h, Option.map_none]

theorem isSpace_of_isLineBlank (b : Byte) (h : isLineBlank b = true) : isSpace b = true := by
  revert b
  decide

/-- A key reads the number at the front of its value. -/
theorem read_congr (k : Key) {s t : List Byte}
    (h : ∀ base ≤ 16, scanNumber base s = scanNumber base t) : k.read s = k.read t := by
  have hatoi : atoi s = atoi t := by simp only [atoi, strtol, h 10 (by decide)]
  have hstrtoul : strtoul 0 s = strtoul 0 t := by simp only [strtoul, h 0 (Nat.zero_le 16)]
  cases k with
  | chunkBytes => exact hatoi
  | _ => exact congrArg (BitVec.setWidth 8) hstrtoul

/-- Blanks around it make no difference. -/
theorem read_trim (k : Key) (valstr : List Byte) :
    k.read (trimBy isLineBlank (valstr.rdropWhile isLineBlank)) = k.read valstr := by
  -- blanks taken off at the end, then at both ends
  have hend : ∀ base ≤ 16, ∀ s : List Byte,
      scanNumber base (s.rdropWhile isLineBlank) = scanNumber base s := by
    intro base hbase s
    have hblanks : ∀ b ∈ s.rtakeWhile isLineBlank, isSpace b = true :=
      fun b hb => isSpace_of_isLineBlank b (List.mem_rtakeWhile_imp hb)
    rw [← scanNumber_append_space hbase (s.rdropWhile isLineBlank) hblanks,
      List.rdropWhile_append_rtakeWhile]
  apply read_congr
  intro base hbase
  show scanNumber base (((valstr.rdropWhile isLineBlank).dropWhile isLineBlank).rdropWhile
    isLineBlank) = _
  rw [hend base hbase, scanNumber_dropWhile base isSpace_of_isLineBlank, hend base hbase]

/-- **What a line with a `=` sets**, before anything is trimmed. -/
theorem setting_append_eq {key : List Byte} (hkey : ch '=' ∉ key) (valstr : List Byte) :
    setting (key ++ ch '=' :: valstr) =
      if (key.dropWhile isLineBlank).head? = some (ch '#') then none
      else (Key.ofName (trimBy isLineBlank key)).map fun k => ⟨k, k.read valstr⟩ := by
  have htrim : trimBy isLineBlank (key ++ ch '=' :: valstr) =
      key.dropWhile isLineBlank ++ ch '=' :: valstr.rdropWhile isLineBlank :=
    trimBy_append_cons (by decide) key valstr
  have hfront : ch '=' ∉ key.dropWhile isLineBlank :=
    fun hmem => hkey ((List.dropWhile_suffix _).subset hmem)
  -- the line is a comment if what stands in front of the `=` begins one
  have hcomment : (key.dropWhile isLineBlank ++ ch '=' :: valstr.rdropWhile isLineBlank = [] ∨
      (key.dropWhile isLineBlank ++ ch '=' :: valstr.rdropWhile isLineBlank).head? =
        some (ch '#')) ↔ (key.dropWhile isLineBlank).head? = some (ch '#') := by
    have hne : ch '=' ≠ ch '#' := by decide
    cases key.dropWhile isLineBlank with
    | nil => simp [hne]
    | cons a key => simp
  unfold setting
  rw [htrim]
  dsimp only
  rw [splitAtFirst_append hfront]
  simp only [hcomment, trimBy_dropWhile, read_trim]

/-- A number reads the same without what comes behind its end, or with a part of it. -/
theorem scanNumber_take_behind {base : ℕ} (hbase : base ≤ 16) {number behind : List Byte}
    (h : (∀ b ∈ behind, isSpace b = true) ∨
      (∃ a ∈ number, isSpace a = false) ∧ ∃ b rest, behind = b :: rest ∧ endsNumber b = true)
    (m : ℕ) : scanNumber base (number ++ behind.take m) = scanNumber base (number ++ behind) := by
  rcases h with hspace | ⟨hnumber, b, rest, rfl, hb⟩
  · rw [scanNumber_append_space hbase number hspace,
      scanNumber_append_space hbase number fun b hb => hspace b (List.mem_of_mem_take hb)]
  · rw [scanNumber_append hb hbase hnumber]
    cases m with
    | zero => rw [List.take_zero, List.append_nil]
    | succ m => rw [List.take_succ_cons, scanNumber_append hb hbase hnumber]

/-- **A line cut behind its number** sets what it sets. -/
theorem setting_take_of_numberWithin {n : ℕ} {line : List Byte} (h : NumberWithin n line) :
    setting (line.take n) = setting line := by
  obtain ⟨key, number, behind, rfl, hkey, hn, hends⟩ := h
  obtain ⟨m, rfl⟩ := Nat.exists_eq_add_of_le hn
  have htake : (key ++ ch '=' :: (number ++ behind)).take (key.length + (number.length + 1) + m) =
      key ++ ch '=' :: (number ++ behind.take m) := by
    rw [Nat.add_assoc, List.take_length_add_append, Nat.add_right_comm, List.take_succ_cons,
      List.take_length_add_append]
  rw [htake, setting_append_eq hkey, setting_append_eq hkey]
  have hread : ∀ k : Key, k.read (number ++ behind.take m) = k.read (number ++ behind) :=
    fun k => read_congr k fun base hbase => scanNumber_take_behind hbase hends m
  simp only [hread]

/-! ## Lines that are cut -/

/-- No piece of the line is misread: it has at most 127 bytes; or no piece of it behind the first
has a known key, and either the line has no known key and its first 127 bytes neither, or its
number ends within these. -/
def Uncut (line : List Byte) : Prop :=
  line.length < lineSize ∨
    (∀ piece ∈ pieces lineSize (line.drop (lineSize - 1)), keyOf piece = none) ∧
      (keyOf line = none ∧ keyOf (line.take (lineSize - 1)) = none ∨
        NumberWithin (lineSize - 1) line)

/-- A line of at most 127 bytes is read at once. -/
theorem pieceSettings_of_length_lt {line : List Byte} (hnewline : ch '\n' ∉ line)
    (hlen : line.length < lineSize) : pieceSettings line = (setting line).toList := by
  unfold pieceSettings
  by_cases hnil : line = []
  · rw [hnil]
    rfl
  · rw [pieces_last hnewline hnil hlen]
    cases h : setting line with
    | none => simp [h]
    | some a => simp [h]

/-- **The pieces of an uncut line** set what the line sets. -/
theorem pieceSettings_of_uncut {line : List Byte} (hnewline : ch '\n' ∉ line) (h : Uncut line) :
    pieceSettings line = (setting line).toList := by
  rcases h with hshort | ⟨hrest, hfirst⟩
  · exact pieceSettings_of_length_lt hnewline hshort
  · by_cases hshort : line.length < lineSize
    · exact pieceSettings_of_length_lt hnewline hshort
    · have hfull : lineSize - 1 ≤ line.length :=
        Nat.le_trans (Nat.sub_le _ _) (Nat.le_of_not_lt hshort)
      -- the first piece sets what the line sets
      have hsame : setting (line.take (lineSize - 1)) = setting line := by
        rcases hfirst with ⟨hline, hpiece⟩ | hwithin
        · rw [setting_of_keyOf hline, setting_of_keyOf hpiece]
        · exact setting_take_of_numberWithin hwithin
      -- the others set nothing
      have hnone : (pieces lineSize (line.drop (lineSize - 1))).filterMap setting = [] := by
        rw [List.filterMap_eq_nil_iff]
        exact fun piece hpiece => setting_of_keyOf (hrest piece hpiece)
      unfold pieceSettings
      rw [pieces_long (by decide) hnewline hfull, List.filterMap_cons, hsame, hnone]
      cases setting line <;> rfl

/-- **When `config_load` is a line-based parser**: a file of uncut lines sets what its lines
set. -/
theorem lineBased_of_uncut {content : List Byte} (hzero : (0 : Byte) ∉ content)
    (h : ∀ l ∈ lines content, Uncut l) : configLoad (some content) = reference content := by
  apply Config.get_injective
  rw [configLoad_get hzero, reference_get]
  congr 1
  exact List.flatMap_congr fun l hl => pieceSettings_of_uncut (of_mem_splitOn hl).1 (h l hl)

/-- A line of 208 bytes whose number ends early, and a comment of 203 bytes. -/
theorem lineBased_of_uncut_long :
    let file := ascii ("CS=0x0A ".toList ++ List.replicate 200 '-' ++ "\n# ".toList ++
      List.replicate 201 '=')
    configLoad (some file) = reference file ∧ (configLoad (some file)).cfgCS = 0x0A := by
  refine ⟨lineBased_of_uncut (by decide +kernel) ?_, by decide +kernel⟩
  intro l hl
  have hlines : lines (ascii ("CS=0x0A ".toList ++ List.replicate 200 '-' ++ "\n# ".toList ++
      List.replicate 201 '=')) = [ascii ("CS=0x0A ".toList ++ List.replicate 200 '-'),
        ascii ("# ".toList ++ List.replicate 201 '=')] := by decide +kernel
  rw [hlines] at hl
  right
  rcases List.mem_pair.mp hl with rfl | rfl
  · exact ⟨by decide +kernel, Or.inr ⟨ascii "CS".toList, ascii "0x0A".toList,
      ch ' ' :: ascii (List.replicate 200 '-'), by decide +kernel, by decide, by decide,
      Or.inr ⟨⟨ch '0', by decide⟩, ch ' ', _, rfl, by decide⟩⟩⟩
  · exact ⟨by decide +kernel, Or.inl (by decide +kernel)⟩

/-- A comment that the second call of `fgets` reads from its 128th byte on. -/
def longComment : List Byte :=
  ascii ('#' :: List.replicate 126 '-' ++ "chunk_bytes=64".toList)

/-- That comment changes the size of the chunks. -/
theorem not_lineBased_longComment :
    (0 : Byte) ∉ longComment ∧ lines longComment = [longComment] ∧
      longComment.head? = some (ch '#') ∧
      (reference longComment).configChunkBytes = defaultChunkBytes ∧
      (configLoad (some longComment)).configChunkBytes = 64 ∧
      configLoad (some longComment) ≠ reference longComment := by
  have hreference : (reference longComment).configChunkBytes = defaultChunkBytes := by
    decide +kernel
  have hload : (configLoad (some longComment)).configChunkBytes = 64 := by decide +kernel
  refine ⟨by decide +kernel, by decide +kernel, rfl, hreference, hload, ?_⟩
  intro heq
  rw [heq, hreference] at hload
  exact absurd hload (by decide)

end Rf215Sdr.Hps
