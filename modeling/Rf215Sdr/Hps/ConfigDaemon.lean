import Mathlib.Data.Finset.Basic
import Rf215Sdr.Hps.Config
import Rf215Sdr.Lib.PyText

/-!
# The Configuration Daemon

`main` of `config_daemon.py`: what it makes of one datagram, the file it writes, and the
streaming program it stops and launches. Text files are UTF-8 with lines ended by `\n`.

## Main results

- `request_utf8Encode`: an encoded text is received as it was sent, without the white space at
  its ends.
- `configLoad_fileContent`: the comment the daemon writes first makes no difference to
  `config_load`.
-/

namespace Rf215Sdr.Hps

open Rf215Sdr.Lib

/-! ## Requests -/

/-- What a datagram asks for. -/
inductive Request where
  | stop
  | update (text : List Char)
  deriving DecidableEq

/-- `c.upper()`, as far as the letters of `STOP` can come out of it: the long s and two
ligatures do, next to the letters themselves. -/
def upperStop (c : Char) : List Char :=
  if c = Char.ofNat 0x17F then ['S']
  else if c = Char.ofNat 0xFB05 ∨ c = Char.ofNat 0xFB06 then ['S', 'T']
  else [c.toUpper]

/-- `text.upper() == 'STOP'`. -/
def isStop (text : List Char) : Bool :=
  text.flatMap upperStop == "STOP".toList

/-- The size given to `recvfrom`; what exceeds it is lost. -/
def recvSize : ℕ := 8192

/-- The request in a datagram; `none` when `decode` raises. -/
def request (payload : ByteArray) : Option Request :=
  -- `decode` stands outside of any `try`
  (utf8Decode (payload.extract 0 recvSize)).map fun decoded =>
    let text := strip decoded
    if isStop text then .stop else .update text

/-! ## The file and the child -/

/-- What `config.txt` holds after both writes and the flush on closing. -/
def fileContent (text : List Char) : List Byte :=
  bytesOf (utf8Encode ("# Update from config_daemon\n".toList ++ text))

/-- How writing `config.txt` ends. -/
inductive WriteResult where
  | done
  /-- `open` raises. -/
  | openFails
  /-- `open` has truncated the file, then a write or the flush on closing raises; `kept` bytes
  have reached the file. -/
  | writeFails (kept : ℕ)
  deriving DecidableEq, Repr

/-- The file after an attempt to write `content`. -/
def WriteResult.file (result : WriteResult) (old : Option (List Byte)) (content : List Byte) :
    Option (List Byte) :=
  match result with
  | .done => some content
  | .openFails => old
  | .writeFails kept => some (content.take kept)

/-- The daemon, its file and the processes it has launched, numbered in the order of their
launches. -/
structure Daemon where
  /-- The content of `config.txt`, if there is such a file. -/
  configFile : Option (List Byte)
  /-- `child_proc`. -/
  childProc : Option ℕ
  /-- The launched processes that have not exited. -/
  alive : Finset ℕ
  launches : ℕ
  deriving DecidableEq

namespace Daemon

/-- `terminate` and `wait` if `child_proc` is alive. -/
def stopChild (d : Daemon) : Daemon :=
  match d.childProc with
  | none => d
  | some pid => { d with alive := d.alive.erase pid }

/-- `restart_executable`; `launch` tells whether `Popen` succeeds. -/
def restartExecutable (d : Daemon) (launch : Bool) : Daemon :=
  let d' := d.stopChild
  if launch then
    { d' with
      childProc := some d'.launches
      alive := insert d'.launches d'.alive
      launches := d'.launches + 1 }
  else d'

/-- One round of the loop in `main`; `none` when an exception ends it. -/
def handle (d : Daemon) (payload : ByteArray) (write : WriteResult) (launch : Bool) :
    Option Daemon :=
  match request payload with
  | none => none
  | some .stop => some d.stopChild
  -- the executable is only restarted when the file was written
  | some (.update text) =>
    let d' := { d with configFile := write.file d.configFile (fileContent text) }
    match write with
    | .done => some (d'.restartExecutable launch)
    | _ => some d'

@[simp] theorem configFile_stopChild (d : Daemon) : d.stopChild.configFile = d.configFile := by
  unfold stopChild
  split <;> rfl

@[simp] theorem configFile_restartExecutable (d : Daemon) (launch : Bool) :
    (d.restartExecutable launch).configFile = d.configFile := by
  unfold restartExecutable
  split_ifs <;> exact configFile_stopChild d

/-- An update that is written leaves its content in the file. -/
theorem configFile_handle (d : Daemon) {payload : ByteArray} {text : List Char} (launch : Bool)
    (h : request payload = some (.update text)) :
    (d.handle payload .done launch).map configFile = some (some (fileContent text)) := by
  simp only [handle, h, Option.map_some, configFile_restartExecutable, WriteResult.file]

end Daemon

/-! ## From text to file -/

/-- **An encoded text is received as it was sent**, without the white space at its ends. -/
theorem request_utf8Encode {text : List Char} (h : (utf8Encode text).size ≤ recvSize) :
    request (utf8Encode text) =
      some (if isStop (strip text) then .stop else .update (strip text)) := by
  have hwhole : (utf8Encode text).extract 0 recvSize = utf8Encode text := by
    rw [← max_eq_left h]
    exact ByteArray.extract_zero_max_size
  unfold request
  rw [hwhole, utf8Decode_utf8Encode]
  rfl

/-- A text that starts with another letter asks for no stop. -/
theorem isStop_eq_false {c : Char} {text : List Char} (h : (upperStop c).head? ≠ some 'S')
    (hne : upperStop c ≠ []) : isStop (c :: text) = false := by
  unfold isStop
  rw [beq_eq_false_iff_ne, List.flatMap_cons]
  intro heq
  apply h
  -- the first letter decides
  rw [← List.head?_append_of_ne_nil _ hne, heq]
  rfl

/-- **The comment the daemon writes first makes no difference** to `config_load`. -/
theorem configLoad_fileContent (text : List Char) :
    configLoad (some (fileContent text)) = configLoad (some (bytesOf (utf8Encode text))) := by
  have hheader : bytesOf (utf8Encode "# Update from config_daemon\n".toList) =
      ascii "# Update from config_daemon".toList ++ [ch '\n'] :=
    bytesOf_utf8Encode (by decide)
  have hcomment : Config.default.loadLine (ascii "# Update from config_daemon".toList) =
      Config.default := loadLine_comment _ (by decide)
  unfold fileContent configLoad
  dsimp only
  rw [bytesOf_utf8Encode_append, hheader, List.append_assoc, List.singleton_append,
    pieces_line (by decide) (by decide), List.foldl_cons, loadLine_newline, hcomment]

end Rf215Sdr.Hps
