import Rf215Sdr.Host.UdpIqSource
import Rf215Sdr.Lib.Interleaving

/-!
# The Two Threads of the UDP Receiver

`_rx_loop` runs in a thread of its own and fills the queue of `udp_iq_vec_source_c`; the
scheduler calls `work()`, which drains it. The queue operations are atomic, everything between
them may be interleaved. The model steps from one queue operation to the next.

## Main results

- `Receiver.stepped_of_step`: everything an action can do, one case for each action.
-/

namespace Rf215Sdr.Host

open Rf215Sdr.Lib

/-! ## State -/

/-- The lines `_rx_loop` logs. -/
inductive RxLog where
  /-- `paquet ignoré (%d o)` -/
  | ignored (bytes : ℕ)
  /-- `%d paquet(s) manqué(s) (att %d, reçu %d)` -/
  | missed (count : ℤ) (expected received : ℕ)
  /-- `Débit RX : %d échantillons IQ/s` -/
  | rate (samples : ℕ)
  /-- `FIFO pleine → vecteur perdu` -/
  | fifoFull
  deriving DecidableEq

/-- Where `_rx_loop` is. -/
inductive RxPhase where
  /-- At the head of the loop. -/
  | waiting
  /-- A datagram was accepted; `put_nowait` comes next. -/
  | putting (seq : ℕ) (vec : List Sample)
  /-- The socket was closed. -/
  | ended

/-- Where `work` is. -/
inductive WorkPhase where
  /-- Between two calls. -/
  | idle
  /-- At the head of the loop over `outLen` output vectors, `produced` of them written. -/
  | looping (outLen produced : ℕ)
  /-- `get_nowait` returned `vec`, which is not written yet. -/
  | writing (outLen produced : ℕ) (vec : List Sample)

/-- An accepted datagram whose vector was offered to the queue. -/
structure Accepted where
  seq : ℕ
  vec : List Sample
  /-- `put_nowait` raised `queue.Full`. -/
  lost : Bool

/-- The block's fields, the locals of both threads, and what they have put out so far. -/
structure Receiver where
  seq : Option ℕ
  queue : List (List Sample)
  rx : RxPhase
  rateCount : ℕ
  work : WorkPhase
  log : List RxLog
  /-- The vectors written to the output buffers, over all calls of `work`. -/
  out : List (List Sample)
  /-- The values `work` returned. -/
  returned : List ℕ
  /-- The datagrams accepted so far, without the one in the hands of `_rx_loop`. -/
  history : List Accepted

/-- Right after `start`. -/
def Receiver.init : Receiver where
  seq := none
  queue := []
  rx := .waiting
  rateCount := 0
  work := .idle
  log := []
  out := []
  returned := []
  history := []

/-! ## Steps -/

/-- One atomic step of one of the threads. -/
inductive ReceiverAct where
  /-- `recvfrom` returns; `second` tells whether a second has passed since `rate_t0`. -/
  | recv (dgram : List Byte) (second : Bool)
  /-- `socket.timeout`. -/
  | timeout
  /-- `OSError`, or `_evt` is set. -/
  | close
  /-- `put_nowait`. -/
  | put
  /-- `work` is called with room for `outLen` vectors. -/
  | call (outLen : ℕ)
  /-- `get_nowait`. -/
  | get
  /-- `out[k][:] = vec`. -/
  | write
  /-- The loop of `work` is over. -/
  | ret

namespace Receiver

/-- `len(self._q) >= maxsize` for a queue with a bound. -/
def queueFull (b : UdpIqSource) (queue : List (List Sample)) : Bool :=
  decide (0 < b.queueLen) && decide (b.queueLen ≤ queue.length)

/-- The warning for a sequence number other than the expected one. -/
def gapWarning (s : Receiver) (n : ℕ) : List RxLog :=
  match s.seq with
  -- the first datagram sets the count, it is never a gap
  | none => []
  | some e => if n ≠ e then [.missed (n - e) e n] else []

/-- A datagram of the right length, up to `put_nowait`. -/
def accept (s : Receiver) (b : UdpIqSource) (n : ℕ) (vec : List Sample) (second : Bool) :
    Receiver :=
  let rateCount := s.rateCount + b.vecLen
  { s with
    seq := some ((n + 1) &&& 0xFFFFFFFFFFFFFFFF)
    rx := .putting n vec
    rateCount := if second then 0 else rateCount
    log := s.log ++ s.gapWarning n ++ if second then [.rate rateCount] else [] }

/-- One datagram, up to `put_nowait`. -/
def receive (s : Receiver) (b : UdpIqSource) (dgram : List Byte) (second : Bool) : Receiver :=
  let dat := recvfrom b.pktSize dgram
  if dat.length ≠ b.pktSize then { s with log := s.log ++ [.ignored dat.length] }
  else s.accept b (unpackSeq dat) (vectorOf b dat) second

/-- `put_nowait`, and the warning when the queue is full. -/
def putNowait (s : Receiver) (b : UdpIqSource) (n : ℕ) (vec : List Sample) : Receiver :=
  if queueFull b s.queue then
    { s with rx := .waiting, log := s.log ++ [.fifoFull], history := s.history ++ [⟨n, vec, true⟩] }
  else
    { s with
      rx := .waiting
      queue := s.queue ++ [vec]
      history := s.history ++ [⟨n, vec, false⟩] }

/-- `get_nowait` inside `work`; an empty queue ends the call. -/
def getNowait (s : Receiver) (outLen produced : ℕ) : Receiver :=
  match s.queue with
  | [] => { s with work := .idle, returned := s.returned ++ [produced] }
  | vec :: rest => { s with queue := rest, work := .writing outLen produced vec }

/-- What an action does, where it is possible. -/
def step (b : UdpIqSource) (s : Receiver) : ReceiverAct → Option Receiver
  | .recv dgram second =>
    match s.rx with
    | .waiting => some (s.receive b dgram second)
    | _ => none
  | .timeout =>
    match s.rx with
    | .waiting => some s
    | _ => none
  | .close =>
    match s.rx with
    | .waiting => some { s with rx := .ended }
    | _ => none
  | .put =>
    match s.rx with
    | .putting n vec => some (s.putNowait b n vec)
    | _ => none
  | .call outLen =>
    match s.work with
    | .idle => some { s with work := .looping outLen 0 }
    | _ => none
  | .get =>
    match s.work with
    | .looping outLen produced =>
      if produced < outLen then some (s.getNowait outLen produced) else none
    | _ => none
  | .write =>
    match s.work with
    | .writing outLen produced vec =>
      some { s with out := s.out ++ [vec], work := .looping outLen (produced + 1) }
    | _ => none
  | .ret =>
    match s.work with
    | .looping outLen produced =>
      if produced = outLen then
        some { s with work := .idle, returned := s.returned ++ [produced] }
      else none
    | _ => none

end Receiver

/-- Both threads and the network, interleaved. -/
def receiver (b : UdpIqSource) : System Receiver ReceiverAct where
  init := Receiver.init
  step := Receiver.step b

/-! ## What an action can do -/

/-- The effect of a step, one case for each action. -/
inductive Receiver.Stepped (b : UdpIqSource) (s : Receiver) : ReceiverAct → Receiver → Prop
  | ignored {dgram second} (hrx : s.rx = .waiting) (hdecode : decode b dgram = none) (bytes : ℕ) :
    Stepped b s (.recv dgram second) { s with log := s.log ++ [.ignored bytes] }
  | accepted {dgram second n vec} (hrx : s.rx = .waiting)
      (hdecode : decode b dgram = some (n, vec)) :
    Stepped b s (.recv dgram second) (s.accept b n vec second)
  | timeout (hrx : s.rx = .waiting) : Stepped b s .timeout s
  | close (hrx : s.rx = .waiting) : Stepped b s .close { s with rx := .ended }
  | put {n vec} (hrx : s.rx = .putting n vec) : Stepped b s .put (s.putNowait b n vec)
  | call {outLen} (hwork : s.work = .idle) :
    Stepped b s (.call outLen) { s with work := .looping outLen 0 }
  | get {outLen produced} (hwork : s.work = .looping outLen produced) (hlt : produced < outLen) :
    Stepped b s .get (s.getNowait outLen produced)
  | write {outLen produced vec} (hwork : s.work = .writing outLen produced vec) :
    Stepped b s .write { s with out := s.out ++ [vec], work := .looping outLen (produced + 1) }
  | ret {outLen} (hwork : s.work = .looping outLen outLen) :
    Stepped b s .ret { s with work := .idle, returned := s.returned ++ [outLen] }

theorem Receiver.stepped_of_step {b : UdpIqSource} {s t : Receiver} {a : ReceiverAct}
    (h : s.step b a = some t) : s.Stepped b a t := by
  cases a with
  | recv dgram second =>
    simp only [step] at h
    split at h
    · next hrx =>
      obtain rfl := Option.some.inj h
      -- the length decides, as in `decode`
      unfold receive
      dsimp only
      split_ifs with hlen
      · exact .ignored hrx (by simp [decode, hlen]) _
      · exact .accepted hrx (by simp [decode, hlen])
    · cases h
  | timeout =>
    simp only [step] at h
    split at h
    · next hrx =>
      obtain rfl := Option.some.inj h
      exact .timeout hrx
    · cases h
  | close =>
    simp only [step] at h
    split at h
    · next hrx =>
      obtain rfl := Option.some.inj h
      exact .close hrx
    · cases h
  | put =>
    simp only [step] at h
    split at h
    · next hrx =>
      obtain rfl := Option.some.inj h
      exact .put hrx
    · cases h
  | call outLen =>
    simp only [step] at h
    split at h
    · next hwork =>
      obtain rfl := Option.some.inj h
      exact .call hwork
    · cases h
  | get =>
    simp only [step] at h
    split at h
    · next hwork =>
      split_ifs at h with hlt
      obtain rfl := Option.some.inj h
      exact .get hwork hlt
    · cases h
  | write =>
    simp only [step] at h
    split at h
    · next hwork =>
      obtain rfl := Option.some.inj h
      exact .write hwork
    · cases h
  | ret =>
    simp only [step] at h
    split at h
    · next hwork =>
      split_ifs at h with heq
      subst heq
      obtain rfl := Option.some.inj h
      exact .ret hwork
    · cases h

end Rf215Sdr.Host
