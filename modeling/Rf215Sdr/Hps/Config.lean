import Rf215Sdr.Lib.CString
import Rf215Sdr.Lib.Text

/-!
# Loading the Configuration

`config.c`: `config_load` reads `config.txt` in pieces of at most 127 bytes and sets one of
eleven globals for each line of the form `key=value`.

## Main results

- `loadLine_assign`: what a line `key=value` does.
- `configLoad_joinLines`: a file of short lines is loaded line by line.
-/

namespace Rf215Sdr.Hps

open Rf215Sdr.Lib

/-- The globals of `config.c`. -/
structure Config where
  configChunkBytes : BitVec 32
  cfgIQIFC1 : BitVec 8
  cfgCS : BitVec 8
  cfgCCF0L : BitVec 8
  cfgCCF0H : BitVec 8
  cfgCNL : BitVec 8
  cfgCNM : BitVec 8
  cfgRXBWC : BitVec 8
  cfgRXDFE : BitVec 8
  cfgR09AGCC : BitVec 8
  cfgRF09AGCS : BitVec 8
  deriving DecidableEq, Repr

/-- `DEFAULT_CHUNK_BYTES`. -/
def defaultChunkBytes : BitVec 32 := 16384 / 2

/-- Their initial values. -/
def Config.default : Config where
  configChunkBytes := defaultChunkBytes
  cfgIQIFC1 := 0x42
  cfgCS := 0x08
  cfgCCF0L := 0xA0
  cfgCCF0H := 0x87
  cfgCNL := 0x00
  cfgCNM := 0x00
  cfgRXBWC := 0x18
  cfgRXDFE := 0x83
  cfgR09AGCC := 0x11
  cfgRF09AGCS := 0x60

/-- The characters `trim` removes. -/
def isBlank (b : Byte) : Bool :=
  b == ch ' ' || b == ch '\t' || b == ch '\n' || b == ch '\r'

/-- `trim`. -/
def trim (s : List Byte) : List Byte :=
  trimBy isBlank s

/-- The assignment made for a trimmed key and value. -/
def Config.assign (cfg : Config) (key valstr : List Byte) : Config :=
  if key = ascii "chunk_bytes".toList then { cfg with configChunkBytes := atoi valstr }
  else
    -- every other key takes a number in any base
    let val := strtoul 0 valstr
    if key = ascii "IQIFC1".toList then { cfg with cfgIQIFC1 := val.setWidth 8 }
    else if key = ascii "CS".toList then { cfg with cfgCS := val.setWidth 8 }
    else if key = ascii "CCF0L".toList then { cfg with cfgCCF0L := val.setWidth 8 }
    else if key = ascii "CCF0H".toList then { cfg with cfgCCF0H := val.setWidth 8 }
    else if key = ascii "CNL".toList then { cfg with cfgCNL := val.setWidth 8 }
    else if key = ascii "CNM".toList then { cfg with cfgCNM := val.setWidth 8 }
    else if key = ascii "RXBWC".toList then { cfg with cfgRXBWC := val.setWidth 8 }
    else if key = ascii "RXDFE".toList then { cfg with cfgRXDFE := val.setWidth 8 }
    else if key = ascii "R09_AGCC".toList then { cfg with cfgR09AGCC := val.setWidth 8 }
    else if key = ascii "RF09_AGCS".toList then { cfg with cfgRF09AGCS := val.setWidth 8 }
    else cfg

/-- What one piece read by `fgets` does to the globals. -/
def Config.loadLine (cfg : Config) (piece : List Byte) : Config :=
  let line := trim (cstring piece)
  if line.head? = some (ch '#') ∨ line = [] then cfg
  else
    -- a line without `=` is skipped
    match splitAtFirst (ch '=') line with
    | none => cfg
    | some (key, valstr) => cfg.assign (trim key) (trim valstr)

/-- `sizeof(line)`. -/
def lineSize : ℕ := 128

/-- `config_load` in a fresh process; `none` is a file that cannot be opened. -/
def configLoad (file : Option (List Byte)) : Config :=
  match file with
  | none => Config.default
  | some content => (pieces lineSize content).foldl Config.loadLine Config.default

/-! ## One line -/

/-- A newline at the end of a piece makes no difference. -/
theorem loadLine_newline (cfg : Config) (piece : List Byte) :
    cfg.loadLine (piece ++ [ch '\n']) = cfg.loadLine piece := by
  have htrim : trim (cstring (piece ++ [ch '\n'])) = trim (cstring piece) := by
    by_cases hzero : (0 : Byte) ∈ piece
    · -- the string ends before the newline
      have hcstring : cstring (piece ++ [ch '\n']) = cstring piece := by
        unfold cstring
        rw [List.takeWhile_append, if_neg]
        intro hall
        have hself : piece.takeWhile (· != 0) = piece :=
          (List.takeWhile_prefix _).eq_of_length hall
        simpa using List.takeWhile_eq_self_iff.mp hself 0 hzero
      rw [hcstring]
    · rw [cstring_eq hzero, cstring_eq (by simpa using ⟨hzero, by decide⟩)]
      apply trimBy_append_right
      intro b hb
      rw [List.mem_singleton.mp hb]
      rfl
  unfold Config.loadLine
  rw [htrim]

/-- A comment changes nothing. -/
theorem loadLine_comment (cfg : Config) {text : List Char} (h : Printable ('#' :: text)) :
    cfg.loadLine (ascii ('#' :: text)) = cfg := by
  have hhead : (trim (ascii ('#' :: text))).head? = some (ch '#') := head?_trimBy rfl _
  unfold Config.loadLine
  rw [cstring_eq h.zero_notMem]
  dsimp only
  rw [if_pos (Or.inl hhead)]

theorem isBlank_ch {c : Char} (h : 33 ≤ c.toNat ∧ c.toNat < 127) : isBlank (ch c) = false := by
  have hne : ∀ d : Char, d.toNat ≤ 32 → (ch c == ch d) = false := by
    intro d hd
    rw [beq_eq_false_iff_ne, Ne, ch_inj (by omega) (by omega)]
    rintro rfl
    omega
  unfold isBlank
  rw [hne ' ' (by decide), hne '\t' (by decide), hne '\n' (by decide), hne '\r' (by decide)]
  rfl

/-- A text without blanks at its ends is not trimmed. -/
theorem trim_ascii {text : List Char} (hhead : ∀ c ∈ text.head?, isBlank (ch c) = false)
    (hlast : ∀ c ∈ text.getLast?, isBlank (ch c) = false) : trim (ascii text) = ascii text := by
  apply trimBy_eq_self
  · intro b hb
    rw [ascii, List.head?_map] at hb
    obtain ⟨c, hc, rfl⟩ := Option.map_eq_some_iff.mp hb
    exact hhead c hc
  · intro b hb
    rw [ascii, List.getLast?_map] at hb
    obtain ⟨c, hc, rfl⟩ := Option.map_eq_some_iff.mp hb
    exact hlast c hc

/-- **A line `key=value`** makes the assignment for its trimmed key. -/
theorem loadLine_assign (cfg : Config) {k : Char} {key val : List Char}
    (hkey : Printable (k :: key)) (hblank : isBlank (ch k) = false) (hcomment : k ≠ '#')
    (heq : '=' ∉ k :: key) (hval : Visible val) :
    cfg.loadLine (ascii (k :: key ++ '=' :: val)) =
      cfg.assign (trim (ascii (k :: key))) (ascii val) := by
  have hline : Printable (k :: key ++ '=' :: val) := by
    apply hkey.append
    exact Printable.append (s := ['=']) (by decide) hval.printable
  -- neither end of the line is blank, nor is either end of the value
  have hvalhead : ∀ c ∈ val.head?, isBlank (ch c) = false :=
    fun c hc => isBlank_ch (hval.2 c (List.mem_of_mem_head? hc))
  have hvallast : ∀ c ∈ val.getLast?, isBlank (ch c) = false :=
    fun c hc => isBlank_ch (hval.2 c (List.mem_of_getLast? hc))
  have hend : (k :: key ++ '=' :: val).getLast? = val.getLast? := by
    obtain ⟨v, hv⟩ := Option.ne_none_iff_exists'.mp (mt List.getLast?_eq_none_iff.mp hval.1)
    rw [List.getLast?_append, List.getLast?_cons_of_ne_nil hval.1, hv]
    rfl
  have htrimline : trim (ascii (k :: key ++ '=' :: val)) = ascii (k :: key ++ '=' :: val) := by
    apply trim_ascii
    · intro c hc
      obtain rfl : k = c := by simpa using hc
      exact hblank
    · rw [hend]
      exact hvallast
  have htrimval : trim (ascii val) = ascii val := trim_ascii hvalhead hvallast
  -- the first `=` is the one behind the key
  have hsplit : splitAtFirst (ch '=') (ascii (k :: key ++ '=' :: val)) =
      some (ascii (k :: key), ascii val) := by
    rw [ascii_append]
    apply splitAtFirst_append
    rw [ch_mem_ascii hkey (by decide)]
    exact heq
  -- the line is no comment and not empty
  have hskip : ¬ ((ascii (k :: key ++ '=' :: val)).head? = some (ch '#') ∨
      ascii (k :: key ++ '=' :: val) = []) := by
    rintro (hhash | hnil)
    · have hcode : ch k = ch '#' := by simpa [ascii] using hhash
      have hk := (hkey k List.mem_cons_self).2
      exact hcomment ((ch_inj (by omega) (by decide)).mp hcode)
    · exact List.cons_ne_nil _ _ hnil
  unfold Config.loadLine
  rw [cstring_eq hline.zero_notMem, htrimline]
  dsimp only
  rw [if_neg hskip, hsplit]
  dsimp only
  rw [htrimval]

/-! ## Whole files -/

/-- **A file of short lines is loaded line by line**, with or without a final newline. -/
theorem configLoad_joinLines {ls : List (List Char)} (hne : ls ≠ [])
    (h : ∀ l ∈ ls, l ≠ [] ∧ Printable l ∧ l.length + 2 ≤ lineSize) :
    configLoad (some (ascii (joinLines ls))) =
      ls.foldl (fun cfg l => cfg.loadLine (ascii l)) Config.default := by
  unfold configLoad
  dsimp only
  generalize Config.default = cfg
  induction ls generalizing cfg with
  | nil => exact absurd rfl hne
  | cons l ls ih =>
    obtain ⟨hl, hprint, hlen⟩ := h l List.mem_cons_self
    have hnl : ch '\n' ∉ ascii l := by
      rw [ch_mem_ascii hprint (by decide)]
      exact hprint.newline_notMem
    cases ls with
    | nil =>
      -- the last line has no newline to end it
      show (pieces lineSize (ascii l)).foldl _ cfg = _
      rw [pieces_last hnl (fun hnil => hl (List.map_eq_nil_iff.mp hnil))
        (by rw [length_ascii]; omega)]
      rfl
    | cons l' ls =>
      rw [joinLines_cons l (List.cons_ne_nil _ _), ascii_append]
      show (pieces lineSize (ascii l ++ ch '\n' :: ascii (joinLines (l' :: ls)))).foldl _ cfg = _
      rw [pieces_line hnl (by rw [length_ascii]; exact hlen), List.foldl_cons,
        loadLine_newline, ih (List.cons_ne_nil _ _)
          fun m hm => h m (List.mem_cons_of_mem l hm)]
      rfl

end Rf215Sdr.Hps
