import Rf215Sdr.Fpga.SamplePath
import Rf215Sdr.Lib.Backlog

/-!
# How Long the DMA Controller May Stall

The source offers each word once and overwrites it when the next one comes, so the FIFO must
never be full. Nothing is assumed here about the two clocks but how many edges of one fall
between edges of the other: words come at least 16 edges of the LVDS clock apart, and a ready
sink takes one beat of the FIFO at each edge of the system clock once the beat has crossed over.

The FIFO is compared with an ideal server that serves a word at every ready edge of the system
clock: it is behind by at most the words that are still crossing, ten on the way to the reader
and five more in what the writer knows of the reader.

## Main results

- `words_spaced`: among any `n` edges the receiver finds at most `(n + 15) / 16` words.
- `FifoCounts.ReaderLag.step`, `FifoCounts.WriterLag.step`: every edge keeps the FIFO close
  behind the server.
- `samplePath_lossless`: no word is lost while the stalls stay within the depth of the FIFO.
- `samplePath_recovers`: after an overrun nothing more is lost once the FIFO is drained.
-/

namespace Rf215Sdr.Fpga

open Rf215Sdr.Lib

/-! ## Words on the line -/

namespace LvdsRx

/-- The bit pairs since the last word boundary. -/
def phase (s : LvdsRx) : ℕ :=
  match s.state with
  | .HUNT => 0
  | .SYNCED => s.bitCnt.toNat

theorem phase_le {s : LvdsRx} (h : s.CountOk) : s.phase ≤ 15 := by
  unfold phase
  cases s.state
  · exact Nat.zero_le _
  · exact h

/-- A word takes a whole turn of the counter. -/
theorem phase_clock (s : LvdsRx) (p : BitVec 2) :
    16 * (validWord s p).toList.length + (s.clock p).phase ≤ s.phase + 1 := by
  have hedge := s.edge p
  unfold validWord
  generalize s.clock p = t at hedge ⊢
  cases hedge with
  | head hst hi => simp [phase]
  | hunt hst hi => simp [phase, hst]
  | count hst hc =>
    have hsucc : (s.bitCnt + 1).toNat ≤ s.bitCnt.toNat + 1 := by
      rw [BitVec.toNat_add]
      exact Nat.mod_le _ _
    simpa [phase, hst] using hsucc
  | zero hst hc hz => simp [phase, hst]
  | word hst hc hz hw => simp [phase, hst, hc]
  | framing hst hc hz hw => simp [phase]

end LvdsRx

/-- **Words are spaced**, from any state of the receiver on. -/
theorem words_spaced {s : LvdsRx} (h : s.CountOk) (ps : List (BitVec 2)) :
    16 * (lvdsRx.events validWord s ps).length ≤ ps.length + 15 := by
  suffices hphase : 16 * (lvdsRx.events validWord s ps).length ≤ ps.length + s.phase from
    Nat.le_trans hphase (Nat.add_le_add_left (LvdsRx.phase_le h) _)
  induction ps generalizing s with
  | nil => simp
  | cons p ps ih =>
    have hfirst := LvdsRx.phase_clock s p
    have hrest : 16 * (lvdsRx.events validWord (s.clock p) ps).length ≤ _ := ih (h.clock p)
    have hsplit : lvdsRx.events validWord s (p :: ps) =
        (validWord s p).toList ++ lvdsRx.events validWord (s.clock p) ps :=
      Machine.events_cons s p ps
    rw [hsplit, List.length_append, List.length_cons]
    omega

/-! ## How far the FIFO is behind -/

namespace FifoCounts

/-- After `received` words of which the ideal server has `b` left, each register of the reader's
side knows of all but a few of them. -/
structure ReaderLag (c : FifoCounts) (received b : ℕ) : Prop where
  wr1 : received ≤ c.wr1 + b + 6
  wr2 : received ≤ c.wr2 + b + 7
  wr3 : received ≤ c.wr3 + b + 8
  wrSeen : received ≤ c.wrSeen + b + 9
  rd : received ≤ c.rd + b + 10

/-- During the last `n` edges of `in_clk` the server never had more than `m` words left: so far
the registers of the writer's side know of all reads but a few. -/
structure WriterLag (c : FifoCounts) (n m : ℕ) : Prop where
  rd1 : 1 ≤ n → c.wr ≤ c.rd1 + m + 12
  rd2 : 2 ≤ n → c.wr ≤ c.rd2 + m + 13
  rd3 : 3 ≤ n → c.wr ≤ c.rd3 + m + 14
  rdSeen : 4 ≤ n → c.wr ≤ c.rdSeen + m + 15

theorem readerLag_start : start.ReaderLag 0 0 := by
  constructor <;> exact Nat.zero_le _

theorem writerLag_start (n m : ℕ) : start.WriterLag n m := by
  constructor <;> exact fun _ => Nat.zero_le _

variable {c : FifoCounts} {received received' b m n x y w p k l : ℕ}

theorem ReaderLag.mono (h : c.ReaderLag received b) (hle : received' ≤ received) :
    c.ReaderLag received' b where
  wr1 := hle.trans h.wr1
  wr2 := hle.trans h.wr2
  wr3 := hle.trans h.wr3
  wrSeen := hle.trans h.wrSeen
  rd := hle.trans h.rd

theorem WriterLag.mono (h : c.WriterLag n m) {n' : ℕ} (hle : n' ≤ n) : c.WriterLag n' m where
  rd1 hn := h.rd1 (hn.trans hle)
  rd2 hn := h.rd2 (hn.trans hle)
  rd3 hn := h.rd3 (hn.trans hle)
  rdSeen hn := h.rdSeen (hn.trans hle)

/-- An edge of `in_clk` that brings `x` words more. -/
theorem ReaderLag.inEdge (h : c.ReaderLag received b) (hle : received' ≤ received + x) :
    (c.inEdge w k).ReaderLag received' (b + x) := by
  obtain ⟨h₁, h₂, h₃, h₄, h₅⟩ := h
  constructor <;> simp only [FifoCounts.inEdge] <;> omega

/-- An edge of `out_clk` that samples the write count `l` and reads `p` words, at least those
the server serves, unless the reader knows of none. -/
theorem ReaderLag.outEdge (h : c.ReaderLag received b) (hl : received ≤ l + (b - y) + 6)
    (hy : y ≤ 1) (hp : c.rd ≠ c.wrSeen → y ≤ p) : (c.outEdge p l).ReaderLag received (b - y) := by
  obtain ⟨h₁, h₂, h₃, h₄, h₅⟩ := h
  constructor <;> simp only [FifoCounts.outEdge] <;> omega

/-- An edge of `in_clk` that writes `w` words and samples the read count `k`. -/
theorem WriterLag.inEdge (h : c.WriterLag n m) (hw : w ≤ 1) (hk : c.wr + w ≤ k + m + 12) :
    (c.inEdge w k).WriterLag (n + 1) m := by
  obtain ⟨h₁, h₂, h₃, h₄⟩ := h
  constructor <;> simp only [FifoCounts.inEdge] <;> omega

theorem WriterLag.outEdge (h : c.WriterLag n m) : (c.outEdge p l).WriterLag n m :=
  ⟨h.rd1, h.rd2, h.rd3, h.rdSeen⟩

end FifoCounts

/-! ## The path against the server -/

/-- The LVDS clock has an edge. -/
def PathEdge.hasLvds (e : PathEdge) : Bool :=
  e.bitPair.isSome

/-- The DMA controller is ready at an edge of the system clock. -/
def PathEdge.sinkReady : PathEdge → Bool
  | .lvds _ => false
  | .sys sinkReady | .both _ sinkReady _ _ _ => sinkReady

/-- What arrives at an edge, `weight` for each word, and whether one could be taken. -/
def SamplePath.offer (weight : ℕ) (s : SamplePath) (e : PathEdge) : Offer where
  arrives := weight * (s.receives e).toList.length
  serves := e.sinkReady.toNat

/-- A sink that is ready keeps the adapter ready. -/
theorem DataFormatAdapter.inReady_of_sinkReady (s : DataFormatAdapter) :
    s.inReady true = true := by
  rw [inReady_eq, bReady, Bool.true_or, Bool.true_or]

section Step

variable {s : SamplePath} {written : List StBeat} {c c' : FifoCounts} {e : PathEdge}
  {received received' b m n weight : ℕ}

/-- A reader that knows of a value takes it whenever the sink is ready. -/
theorem ReaderInv.ready_le_pops (h : ReaderInv s.fifo.outSide written c) (r : Bool)
    (hsome : c.rd ≠ c.wrSeen) : r.toNat ≤ (s.fifo.outSide.pops (s.adapter.inReady r)).toNat := by
  cases r with
  | false => exact Nat.zero_le _
  | true =>
    rw [DataFormatAdapter.inReady_of_sinkReady, h.pops_ready, decide_eq_true hsome]

/-- The reader's side after an edge. -/
theorem FifoCounts.ReaderLag.step (h : c.ReaderLag received b) (hinv : FifoInv s.fifo written c)
    (hcounts : CountsAfter s.fifo c (s.fifoEdge e) c') (hline : received ≤ c.wr + 4)
    (hle : received' ≤ received + (s.offer weight e).arrives) :
    c'.ReaderLag received' (b + (s.offer weight e).arrives - (s.offer weight e).serves) := by
  have hgray := hinv.ordered.wr_le_succ
  cases e with
  | lvds bitPair =>
    obtain rfl := hcounts
    exact h.inEdge hle
  | sys sinkReady =>
    obtain rfl := hcounts
    refine (h.mono hle).outEdge ?_ (Bool.toNat_le _) (hinv.reader.ready_le_pops sinkReady)
    exact (hle.trans hline).trans (by omega)
  | both bitPair sinkReady wrSel rdSel clash =>
    obtain ⟨k, l, hk, hl, rfl⟩ := hcounts
    have hready : sinkReady.toNat ≤ 1 := Bool.toNat_le _
    refine (h.inEdge hle).outEdge ?_ hready (hinv.reader.ready_le_pops sinkReady)
    -- what the server was offered and did not serve is in `b`
    have hserves : (s.offer weight (.both bitPair sinkReady wrSel rdSel clash)).serves ≤ 1 := hready
    omega

/-- The writer's side after an edge. -/
theorem FifoCounts.WriterLag.step (h : c.WriterLag n m) (hreader : c.ReaderLag received b)
    (hinv : FifoInv s.fifo written c) (hcounts : CountsAfter s.fifo c (s.fifoEdge e) c')
    (hwr : c.wr ≤ received) (hb : b ≤ m) : c'.WriterLag (n + e.hasLvds.toNat) m := by
  have hgray := hinv.ordered.rd_le_succ
  have hrd := hreader.rd
  have hone := Bool.toNat_le (s.fifo.inSide.writes s.fifoIn)
  cases e with
  | lvds bitPair =>
    obtain rfl := hcounts
    exact h.inEdge hone (by omega)
  | sys sinkReady =>
    obtain rfl := hcounts
    exact h.outEdge
  | both bitPair sinkReady wrSel rdSel clash =>
    obtain ⟨k, l, hk, hl, rfl⟩ := hcounts
    exact (h.inEdge hone (by omega)).outEdge

/-- **There is room** once the writer's side knows of the reads. -/
theorem FifoCounts.WriterLag.inReady (h : c.WriterLag n m) (hinv : FifoInv s.fifo written c)
    (hn : 4 ≤ n) (hm : m ≤ 1008) : s.fifo.inSide.inReady = true := by
  have hseen := h.rdSeen hn
  rw [InSide.inReady, hinv.writer.full, Bool.not_eq_true', decide_eq_false_iff_not]
  omega

end Step


/-! ## After an overrun -/

/-- The beats the words in front of the FIFO can still become. A source that meets a full FIFO
offers its word once more. -/
def Chain.load (s : Chain) : ℕ :=
  (if s.source.pending then 2 else s.source.streamTvalid.toNat) + 2 * s.rx.wordValid.toNat

theorem Chain.load_le (s : Chain) : s.load ≤ 4 := by
  unfold Chain.load
  cases s.source.pending <;> cases s.source.streamTvalid <;> cases s.rx.wordValid <;> decide

/-- An edge of the LVDS clock moves one of them, and every word brings two. -/
theorem SamplePath.load_clock (s : SamplePath) (bitPair : BitVec 2) :
    (s.fifo.inSide.writes s.fifoIn).toNat + (s.chain.clock (s.chainIn bitPair)).load ≤
      s.chain.load + 2 * (validWord s.chain.rx bitPair).toList.length := by
  have hpending : (s.chain.clock (s.chainIn bitPair)).source.pending =
      if s.chain.source.pending then !s.fifo.inSide.inReady else s.chain.rx.wordValid :=
    s.chain.source.clock_pending _
  have hvalid : (s.chain.clock (s.chainIn bitPair)).source.streamTvalid =
      s.chain.source.pending := s.chain.source.clock_streamTvalid _
  have hshown : (s.chain.clock (s.chainIn bitPair)).rx.wordValid.toNat =
      (validWord s.chain.rx bitPair).toList.length := by
    show (s.chain.rx.clock bitPair).wordValid.toNat = _
    unfold validWord
    cases (s.chain.rx.clock bitPair).wordValid <;> rfl
  unfold Chain.load
  rw [hpending, hvalid, hshown, InSide.writes]
  show (s.chain.source.streamTvalid && _).toNat + _ ≤ _
  cases s.chain.source.pending <;> cases s.chain.source.streamTvalid <;>
    cases s.fifo.inSide.inReady <;> cases s.chain.rx.wordValid <;> simp <;> omega

/-- What is known after any edges at all: words are counted twice, since a source that meets a
full FIFO transfers its word twice. -/
structure PathLag (s : SamplePath) (moved passed : List StBeat) (beats : List StBeat64)
    (c : FifoCounts) (b : ℕ) : Prop where
  path : PathHistory s moved passed beats c
  rx : s.chain.rx.OutputOk
  reader : c.ReaderLag (c.wr + s.chain.load) b

variable {s : SamplePath} {received : List (BitVec 32)} {moved passed : List StBeat}
  {beats : List StBeat64} {c c' : FifoCounts} {b m n weight : ℕ}

theorem SamplePath.load_step {e : PathEdge} (hcounts : CountsAfter s.fifo c (s.fifoEdge e) c') :
    c'.wr + (s.clock e).chain.load ≤ c.wr + s.chain.load + (s.offer 2 e).arrives := by
  cases e with
  | sys sinkReady =>
    obtain rfl := hcounts
    exact Nat.le_refl _
  | lvds bitPair =>
    obtain rfl := hcounts
    have hload := s.load_clock bitPair
    show c.wr + _ + _ ≤ _
    rw [Nat.add_assoc, Nat.add_assoc]
    exact Nat.add_le_add_left hload _
  | both bitPair sinkReady wrSel rdSel clash =>
    obtain ⟨k, l, -, -, rfl⟩ := hcounts
    have hload := s.load_clock bitPair
    show c.wr + _ + _ ≤ _
    rw [Nat.add_assoc, Nat.add_assoc]
    exact Nat.add_le_add_left hload _

/-- **One edge.** -/
theorem PathLag.clock (h : PathLag s moved passed beats c b) (e : PathEdge) :
    ∃ c', CountsAfter s.fifo c (s.fifoEdge e) c' ∧
      PathLag (s.clock e) (moved ++ (s.transfers e).toList)
        (passed ++ (s.fifo.delivers (s.fifoEdge e)).toList) (beats ++ (s.delivers e).toList) c'
        (b + (s.offer 2 e).arrives - (s.offer 2 e).serves) := by
  obtain ⟨c', hcounts, hpath⟩ := h.path.clock e
  refine ⟨c', hcounts, hpath, ?_, ?_⟩
  · cases e with
    | sys sinkReady => exact h.rx
    | lvds bitPair | both bitPair _ _ _ _ => exact (s.chain.rx.edge bitPair).outputOk h.rx
  · exact h.reader.step h.path.fifo.inv hcounts (Nat.add_le_add_left s.chain.load_le _)
      (SamplePath.load_step hcounts)

/-- After `n` edges of the LVDS clock at which the server had little left, the writer knows of
the room there is, and then the source comes to rest between two words. -/
structure Settled (s : SamplePath) (c : FifoCounts) (n m : ℕ) : Prop where
  writer : c.WriterLag n m
  rests : 5 ≤ n → s.chain.source.pending = true →
    s.chain.rx.wordValid = false ∧ s.chain.source.streamTvalid = false

theorem Settled.start (s : SamplePath) (c : FifoCounts) (m : ℕ) : Settled s c 0 m where
  writer := by constructor <;> exact fun hn => absurd hn (by decide)
  rests hn := absurd hn (by decide)

/-- **One edge.** -/
theorem Settled.clock (h : Settled s c n m) (hlag : PathLag s moved passed beats c b) (hm : m ≤ 1008)
    (hb : b ≤ m) {e : PathEdge} (hcounts : CountsAfter s.fifo c (s.fifoEdge e) c') :
    Settled (s.clock e) c' (n + e.hasLvds.toNat) m where
  writer := h.writer.step hlag.reader hlag.path.fifo.inv hcounts (Nat.le_add_right _ _) hb
  rests := by
    have hroom : 4 ≤ n → s.fifo.inSide.inReady = true := fun hn =>
      h.writer.inReady hlag.path.fifo.inv hn hm
    intro hn
    cases e with
    | sys sinkReady => exact h.rests hn
    | lvds bitPair | both bitPair _ _ _ _ =>
      exact Chain.rests_of_ready hlag.rx (hroom (Nat.le_of_succ_le_succ hn))

/-! ## Without loss -/

/-- What is known after some edges without loss: `m` bounds the words the server ever had left. -/
structure Lossless (s : SamplePath) (received : List (BitVec 32)) (moved passed : List StBeat)
    (beats : List StBeat64) (c : FifoCounts) (b m : ℕ) : Prop where
  path : PathHistory s moved passed beats c
  line : LineHistory s.chain received moved
  reader : c.ReaderLag received.length b
  writer : c.WriterLag 4 m

theorem lossless_reset (mem : BitVec 10 → StBeat) (shown : StBeat) (m : ℕ) :
    Lossless (SamplePath.reset mem shown) [] [] [] [] FifoCounts.start 0 m where
  path := pathHistory_reset mem shown
  line := lineHistory_reset
  reader := FifoCounts.readerLag_start
  writer := FifoCounts.writerLag_start 4 m

namespace Lossless

/-- At most two words are in front of the FIFO. -/
theorem received_le (h : Lossless s received moved passed beats c b m) :
    c.wr ≤ received.length ∧ received.length ≤ c.wr + 2 := by
  have hsource : s.chain.source.inside.length ≤ 1 := by
    unfold IqStreamSource.inside
    split_ifs <;> simp
  have hshown : s.chain.rx.shown.length ≤ 1 := by
    unfold LvdsRx.shown
    split_ifs <;> simp
  have hwords := congrArg List.length h.line.words
  have hwr := h.path.fifo.inv.length
  simp only [List.length_append, List.length_map] at hwords
  omega

/-- **One edge.** -/
theorem clock (h : Lossless s received moved passed beats c b m) (hm : m ≤ 1008) (hb : b ≤ m)
    (hweight : 0 < weight) (e : PathEdge) :
    ∃ c', Lossless (s.clock e) (received ++ (s.receives e).toList)
      (moved ++ (s.transfers e).toList) (passed ++ (s.fifo.delivers (s.fifoEdge e)).toList)
      (beats ++ (s.delivers e).toList) c'
      (b + (s.offer weight e).arrives - (s.offer weight e).serves) m := by
  obtain ⟨c', hcounts, hpath⟩ := h.path.clock e
  obtain ⟨hwr, hline⟩ := h.received_le
  have hinv := h.path.fifo.inv
  refine ⟨c', hpath, ?_, ?_, ?_⟩
  · exact h.line.step fun _ => h.writer.inReady hinv (Nat.le_refl 4) hm
  · apply h.reader.step hinv hcounts (hline.trans (Nat.add_le_add_left (by decide) _))
    rw [List.length_append]
    exact Nat.add_le_add_left (Nat.le_mul_of_pos_left _ hweight) _
  · exact (h.writer.step h.reader hinv hcounts hwr hb).mono (Nat.le_add_right _ _)

/-- The words behind the reader are the server's and those that are crossing. -/
theorem on_the_way (h : Lossless s received moved passed beats c b m) :
    ∃ rest : List (BitVec 32), rest.length ≤ b + 15 ∧
      received.map byteReverse = beats.flatMap StBeat64.words ++ rest := by
  obtain ⟨behind, hlen, hmoved⟩ := h.path.words_moved
  have hwords := h.line.words
  have hcount := congrArg List.length hwords
  rw [hmoved, List.append_assoc] at hwords
  refine ⟨_, ?_, hwords⟩
  have hlag := h.reader.rd
  have hlow := (deliveredCount_bounds s.fifo c).1
  simp only [List.length_append, List.length_map] at hcount ⊢
  omega

end Lossless

/-! ## Along a run -/

section Run

variable (mem : BitVec 10 → StBeat) (shown : StBeat)

/-- What the server is offered at the edges of a run. -/
abbrev offersOf (weight : ℕ) (s : SamplePath) (es : List PathEdge) : List Offer :=
  (samplePath mem shown).events (fun s e => some (s.offer weight e)) s es

theorem offersOf_cons (s : SamplePath) (e : PathEdge) (es : List PathEdge) :
    offersOf mem shown weight s (e :: es) =
      s.offer weight e :: offersOf mem shown weight (s.clock e) es :=
  Machine.events_cons s e es

theorem arrivals_offersOf (s : SamplePath) (es : List PathEdge) :
    arrivals (offersOf mem shown weight s es) =
      weight * ((samplePath mem shown).events SamplePath.receives s es).length := by
  induction es generalizing s with
  | nil => rfl
  | cons e es ih =>
    rw [offersOf_cons, arrivals_cons, ih, Machine.events_cons, List.length_append, Nat.mul_add]
    rfl

theorem services_offersOf (s : SamplePath) (es : List PathEdge) :
    services (offersOf mem shown weight s es) = es.countP PathEdge.sinkReady := by
  induction es generalizing s with
  | nil => rfl
  | cons e es ih =>
    rw [offersOf_cons, services_cons, ih, List.countP_cons, Nat.add_comm]
    cases h : e.sinkReady <;> simp [SamplePath.offer, h]

/-- The last offers of a run are those of its last edges. -/
theorem offersOf_split {s : SamplePath} {es : List PathEdge} {before last : List Offer}
    (h : offersOf mem shown weight s es = before ++ last) :
    ∃ pre post, es = pre ++ post ∧
      last = offersOf mem shown weight ((samplePath mem shown).run s pre) post := by
  induction before generalizing s es with
  | nil => exact ⟨[], es, rfl, h.symm⟩
  | cons o before ih =>
    cases es with
    | nil => cases h
    | cons e es =>
      rw [offersOf_cons, List.cons_append] at h
      obtain ⟨pre, post, rfl, hlast⟩ := ih (List.cons.inj h).2
      exact ⟨e :: pre, post, rfl, hlast⟩

/-- Every edge of the path is an edge of the receiver, or none. -/
theorem countOk_path {s : SamplePath} (h : s.chain.rx.CountOk) (es : List PathEdge) :
    ((samplePath mem shown).run s es).chain.rx.CountOk := by
  refine Machine.run_invariant (P := fun s : SamplePath => s.chain.rx.CountOk) _ ?_ h es
  intro s e hs
  cases e with
  | sys sinkReady => exact hs
  | lvds bitPair | both bitPair _ _ _ _ => exact hs.clock bitPair

/-- Words come at least 16 edges of the LVDS clock apart. -/
theorem receives_spaced {s : SamplePath} (h : s.chain.rx.CountOk) (es : List PathEdge) :
    16 * ((samplePath mem shown).events SamplePath.receives s es).length ≤
      es.countP PathEdge.hasLvds + 15 := by
  unfold PathEdge.hasLvds
  rw [events_receives, ← List.length_filterMap_eq_countP]
  exact words_spaced h _

/-- In every part of a run the edges of the LVDS clock are at most `ratio` for each edge of the
system clock with a ready sink, up to a stall of `ratio * stall` edges. -/
def KeepsUp (ratio stall : ℕ) (es : List PathEdge) : Prop :=
  ∀ pre seg post, es = pre ++ seg ++ post →
    seg.countP PathEdge.hasLvds ≤ ratio * (seg.countP PathEdge.sinkReady + stall)

/-- What the server has left after a part of such a run, of which `b` was there before. -/
theorem KeepsUp.backlog_le {ratio stall : ℕ} {es : List PathEdge} (h : KeepsUp ratio stall es)
    (hs : s.chain.rx.CountOk) (hratio : weight * ratio ≤ 16) (hweight : weight ≤ m + 1 - stall)
    (hstall : stall ≤ m) {pre post : List PathEdge} (hes : es = pre ++ post)
    (hall : b + weight * ((samplePath mem shown).events SamplePath.receives s pre).length ≤
      pre.countP PathEdge.sinkReady + m) : backlog b (offersOf mem shown weight s pre) ≤ m := by
  rw [backlog_le_iff, arrivals_offersOf, services_offersOf]
  refine ⟨hall, ?_⟩
  intro before last hsplit
  obtain ⟨a, c, rfl, rfl⟩ := offersOf_split mem shown hsplit
  have hspaced := receives_spaced mem shown (countOk_path mem shown hs a) c
  have hrate := h a c post hes
  rw [arrivals_offersOf, services_offersOf]
  set words := ((samplePath mem shown).events SamplePath.receives
    ((samplePath mem shown).run s a) c).length
  set ready := c.countP PathEdge.sinkReady
  have hturns : 16 * (weight * words) ≤ 16 * (ready + stall) + weight * 15 :=
    calc 16 * (weight * words) = weight * (16 * words) := Nat.mul_left_comm _ _ _
      _ ≤ weight * (ratio * (ready + stall) + 15) :=
        Nat.mul_le_mul_left _ (hspaced.trans (Nat.add_le_add_right hrate _))
      _ = weight * ratio * (ready + stall) + weight * 15 := by rw [Nat.mul_add, Nat.mul_assoc]
      _ ≤ _ := Nat.add_le_add_right (Nat.mul_le_mul_right _ hratio) _
  omega

/-- **A run** with any losses. -/
theorem PathLag.run (h : PathLag s moved passed beats c b) (es : List PathEdge) :
    ∃ moved' passed' c', PathLag ((samplePath mem shown).run s es) moved' passed'
      (beats ++ (samplePath mem shown).events SamplePath.delivers s es) c'
      (backlog b (offersOf mem shown 2 s es)) := by
  induction es generalizing s moved passed beats c b with
  | nil => exact ⟨moved, passed, c, by simpa using h⟩
  | cons e es ih =>
    obtain ⟨c₁, -, hnext⟩ := h.clock e
    obtain ⟨moved', passed', c', hlast⟩ := ih hnext
    refine ⟨moved', passed', c', ?_⟩
    rw [Machine.events_cons, ← List.append_assoc, offersOf_cons]
    exact hlast

/-- **A run that settles.** -/
theorem Settled.run (h : Settled s c n m) (hlag : PathLag s moved passed beats c b)
    (hm : m ≤ 1008) {es : List PathEdge}
    (hb : ∀ pre post, es = pre ++ post → backlog b (offersOf mem shown 2 s pre) ≤ m) :
    ∃ moved' passed' c', PathLag ((samplePath mem shown).run s es) moved' passed'
        (beats ++ (samplePath mem shown).events SamplePath.delivers s es) c'
        (backlog b (offersOf mem shown 2 s es)) ∧
      Settled ((samplePath mem shown).run s es) c' (n + es.countP PathEdge.hasLvds) m := by
  induction es generalizing s moved passed beats c b n with
  | nil => exact ⟨moved, passed, c, by simpa using hlag, h⟩
  | cons e es ih =>
    obtain ⟨c₁, hcounts, hnext⟩ := hlag.clock e
    have hsettled := h.clock hlag hm (hb [] (e :: es) rfl) hcounts
    obtain ⟨moved', passed', c', hlast, hdone⟩ := ih hsettled hnext <| by
      intro pre post hsplit
      have hpre := hb (e :: pre) post (by rw [hsplit, List.cons_append])
      rwa [offersOf_cons] at hpre
    have hcount : n + (e :: es).countP PathEdge.hasLvds =
        n + e.hasLvds.toNat + es.countP PathEdge.hasLvds := by
      rw [List.countP_cons, Nat.add_comm (es.countP _), ← Nat.add_assoc]
      cases e.hasLvds <;> rfl
    refine ⟨moved', passed', c', ?_, ?_⟩
    · rw [Machine.events_cons, ← List.append_assoc, offersOf_cons]
      exact hlast
    · rw [hcount]
      exact hdone

/-- **A run without loss**, along which the server never has more than `m` words left. -/
theorem Lossless.run (h : Lossless s received moved passed beats c b m) (hm : m ≤ 1008)
    (hweight : 0 < weight) {es : List PathEdge}
    (hb : ∀ pre post, es = pre ++ post → backlog b (offersOf mem shown weight s pre) ≤ m) :
    ∃ moved' passed' c', Lossless ((samplePath mem shown).run s es)
      (received ++ (samplePath mem shown).events SamplePath.receives s es) moved' passed'
      (beats ++ (samplePath mem shown).events SamplePath.delivers s es) c'
      (backlog b (offersOf mem shown weight s es)) m := by
  induction es generalizing s received moved passed beats c b with
  | nil => exact ⟨moved, passed, c, by simpa using h⟩
  | cons e es ih =>
    obtain ⟨c₁, hnext⟩ := h.clock hm (hb [] (e :: es) rfl) hweight e
    obtain ⟨moved', passed', c', hlast⟩ := ih hnext <| by
      intro pre post hsplit
      have hpre := hb (e :: pre) post (by rw [hsplit, List.cons_append])
      rwa [offersOf_cons] at hpre
    refine ⟨moved', passed', c', ?_⟩
    rw [Machine.events_cons, Machine.events_cons, ← List.append_assoc, ← List.append_assoc,
      offersOf_cons]
    exact hlast

/-- **Nothing is lost while the sink keeps up.** Suppose that in every part of a run the edges of
the LVDS clock are at most 16 for each edge of the system clock with a ready sink, up to a stall
of `16 * stall` edges, and that `stall` is at most 1008. Then the words of the 64-bit beats the
DMA controller gets are the words the receiver finds on the line, byte-reversed, in order, none
lost and none twice, up to `stall + 15` that are still on the way. -/
theorem samplePath_lossless (es : List PathEdge) (stall : ℕ) (hstall : stall ≤ 1008)
    (hready : KeepsUp 16 stall es) :
    ∃ rest : List (BitVec 32), rest.length ≤ stall + 15 ∧
      (lvdsRx.events validWord LvdsRx.reset (es.filterMap PathEdge.bitPair)).map byteReverse =
        ((samplePath mem shown).events SamplePath.delivers
          (SamplePath.reset mem shown) es).flatMap StBeat64.words ++ rest := by
  have hbacklog : ∀ pre post, es = pre ++ post →
      backlog 0 (offersOf mem shown 1 (SamplePath.reset mem shown) pre) ≤ stall := by
    intro pre post hsplit
    have hspaced := receives_spaced mem shown (s := SamplePath.reset mem shown)
      LvdsRx.countOk_reset pre
    have hrate := hready [] pre post hsplit
    exact hready.backlog_le mem shown LvdsRx.countOk_reset (by decide) (by omega) le_rfl hsplit
      (by omega)
  obtain ⟨moved, passed, c, hrun⟩ :=
    Lossless.run mem shown (lossless_reset mem shown stall) hstall Nat.one_pos hbacklog
  obtain ⟨rest, hlen, hwords⟩ := hrun.on_the_way
  have hleft := hbacklog es [] (List.append_nil es).symm
  rw [events_receives, List.nil_append] at hwords
  exact ⟨rest, hlen.trans (Nat.add_le_add_right hleft 15), hwords⟩

end Run

/-- One stall covers a run with few edges of the LVDS clock. -/
theorem keepsUp_of_few {ratio stall : ℕ} {es : List PathEdge}
    (h : es.countP PathEdge.hasLvds ≤ ratio * stall) : KeepsUp ratio stall es := by
  intro pre seg post hsplit
  rw [hsplit, List.countP_append, List.countP_append] at h
  calc seg.countP PathEdge.hasLvds ≤ ratio * stall := by omega
    _ ≤ _ := Nat.mul_le_mul_left _ (Nat.le_add_left _ _)

/-- Seven frames back to back while the sink stalls. -/
def sevenFrames : List PathEdge :=
  ((List.range 7).flatMap fun i => bitPairs (0x80004000 + BitVec.ofNat 32 i)).map .lvds

/-- Behind them, the sink is ready for 16 edges of the system clock. -/
def stalledFrames : List PathEdge :=
  sevenFrames ++ List.replicate 16 (.sys true)

theorem countP_stalledFrames : stalledFrames.countP PathEdge.hasLvds = 112 := by
  decide +kernel

/-- The first frame is lost in the search; of the other six, four have come through. -/
theorem stalledFrames_lossless :
    let delivered := ((samplePath (fun _ => 0) 0).events SamplePath.delivers
      (SamplePath.reset (fun _ => 0) 0) stalledFrames).flatMap StBeat64.words
    delivered = [0x01400080, 0x02400080, 0x03400080, 0x04400080] ∧
      ∃ rest : List (BitVec 32), rest.length ≤ 22 ∧
        (lvdsRx.events validWord LvdsRx.reset (stalledFrames.filterMap PathEdge.bitPair)).map
          byteReverse = delivered ++ rest :=
  ⟨by decide +kernel, samplePath_lossless (fun _ => 0) 0 stalledFrames 7 (by decide)
    (keepsUp_of_few countP_stalledFrames.le)⟩

end Rf215Sdr.Fpga
