import Bewe.Lib.Backlog
import Bewe.Lib.Ring
import Bewe.Lib.Run

/-!
# The rolling IQ file

The capture thread counts its samples and queues them (`tm_iq_write`); the writer thread scales them,
writes them to the file, which is a ring of `tm_iq_total_samples` samples, and then moves the
watermark `tm_iq_flushed_sample` (`tm_iq_writer_loop`); `do_region_save_work` and `tm_rec_start` read
up to the watermark. The threads take turns at any point between their shared accesses, and while a
`pwrite` is under way, or when it fails, its slots may hold anything. One event is one such step.
Between `tm_iq_open` and `tm_iq_close` the sample rate is fixed.

`rolling_of_run` says what the ring holds after a run in which nothing that was dropped is still in
reach when the watermark passes it, and `stale_of_drop` is a run in which something is.
-/

namespace Bewe.TimeMachine

open Lib

/-! ## Capturing -/

/-- A sample: I and Q. -/
abbrev IqSample := ℤ × ℤ

/-- 64 MiB. -/
def TM_IQ_QUEUE_MAX_BYTES : ℕ := 64 * 2 ^ 20

/-- `TmIqChunk`. -/
structure TmIqChunk where
  start_sample : ℕ
  data : List IqSample

/-- The bytes of a chunk. -/
def TmIqChunk.bytes (ck : TmIqChunk) : ℕ := 4 * ck.data.length

/-- The sample behind a chunk. -/
def TmIqChunk.stop (ck : TmIqChunk) : ℕ := ck.start_sample + ck.data.length

/-- The rolling file and its threads. `pending` is the chunk of a `tm_iq_write` that has counted its
samples and not queued them, `writing` the chunk of the writer with its `written`, `ring` the slots of
the file that were written, and `captured` everything that was passed to `tm_iq_write`. -/
structure TmIq where
  tm_iq_write_sample : ℕ
  pending : Option TmIqChunk
  tm_iq_q : Backlog TmIqChunk
  tm_iq_dropped_bytes : ℕ
  writing : Option (TmIqChunk × ℕ)
  tm_iq_write_failed : Bool
  tm_iq_flushed_sample : ℕ
  ring : ℕ → Option IqSample
  captured : List IqSample

/-- `tm_iq_write` up to the counter. -/
def tmIqCount (buf : List IqSample) (s : TmIq) : TmIq :=
  if buf.isEmpty || s.pending.isSome then s
  else
    { s with
      pending := some ⟨s.tm_iq_write_sample, buf⟩
      tm_iq_write_sample := s.tm_iq_write_sample + buf.length
      captured := s.captured ++ buf }

/-- The rest of `tm_iq_write`: the chunk is queued, and the oldest are dropped for it. -/
def tmIqEnqueue (s : TmIq) : TmIq :=
  match s.pending with
  | none => s
  | some ck =>
    let room := Backlog.evict TmIqChunk.bytes TM_IQ_QUEUE_MAX_BYTES (fun _ => true) ck.bytes
      s.tm_iq_q.queue s.tm_iq_q.bytes
    { s with
      pending := none
      tm_iq_q := room.2.push TmIqChunk.bytes ck
      tm_iq_dropped_bytes := s.tm_iq_dropped_bytes + (room.1.map TmIqChunk.bytes).sum }

/-! ## Writing -/

/-- The scaling of SC16_Q11, saturated to 16 bits. -/
def scale16 (v : ℤ) : ℤ := max (-32768) (min 32767 (v * 16))

/-- A scaled sample. -/
def scaled (x : IqSample) : IqSample := (scale16 x.1, scale16 x.2)

/-- The writer takes the oldest chunk and scales it; after a failed `pwrite` it only empties the
queue. -/
def writerPop (s : TmIq) : TmIq :=
  match s.writing, s.tm_iq_q.queue with
  | none, ck :: q =>
    let rest : Backlog TmIqChunk := ⟨q, s.tm_iq_q.bytes - ck.bytes⟩
    if s.tm_iq_write_failed then
      { s with tm_iq_q := rest, tm_iq_dropped_bytes := s.tm_iq_dropped_bytes + ck.bytes }
    else { s with tm_iq_q := rest, writing := some ({ ck with data := ck.data.map scaled }, 0) }
  | _, _ => s

/-- `pos`: the slot of the next sample of a chunk. -/
def slotOf (total sample_pos : ℕ) : ℕ := if sample_pos < total then sample_pos else sample_pos % total

/-- The next samples of a chunk, up to the end of the ring. -/
def nextPiece (total : ℕ) (ck : TmIqChunk) (written : ℕ) : List IqSample :=
  (ck.data.drop written).take
    (min (ck.data.length - written) (total - slotOf total (ck.start_sample + written)))

/-- `pwrite` of the next piece. -/
def writerWrite (total : ℕ) (s : TmIq) : TmIq :=
  match s.writing with
  | none => s
  | some (ck, written) =>
    let piece := nextPiece total ck written
    { s with
      ring := Ring.store s.ring (slotOf total (ck.start_sample + written)) piece
      writing := some (ck, written + piece.length) }

/-- A slot of the piece that is being written holds anything. -/
def writerTears (total i : ℕ) (v : Option IqSample) (s : TmIq) : TmIq :=
  match s.writing with
  | none => s
  | some (ck, written) =>
    if i < (nextPiece total ck written).length then
      { s with ring := Function.update s.ring (slotOf total (ck.start_sample + written) + i) v }
    else s

/-- `pwrite` fails. -/
def writerFails (s : TmIq) : TmIq :=
  match s.writing with
  | none => s
  | some (ck, written) =>
    if written < ck.data.length then { s with writing := none, tm_iq_write_failed := true } else s

/-- The chunk is written, and the watermark is moved behind it. -/
def writerFlush (s : TmIq) : TmIq :=
  match s.writing with
  | none => s
  | some (ck, written) =>
    if written < ck.data.length then s
    else { s with writing := none, tm_iq_flushed_sample := ck.stop }

/-- The steps of the two threads. -/
inductive TmIqEvent
  | count (buf : List IqSample)
  | enqueue
  | pop
  | write
  | tears (i : ℕ) (v : Option IqSample)
  | fails
  | flush

/-- One step, on a ring of `total` samples. -/
def TmIq.next (total : ℕ) (s : TmIq) : TmIqEvent → TmIq
  | .count buf => tmIqCount buf s
  | .enqueue => tmIqEnqueue s
  | .pop => writerPop s
  | .write => writerWrite total s
  | .tears i v => writerTears total i v s
  | .fails => writerFails s
  | .flush => writerFlush s

/-! ## Reading -/

variable {total : ℕ} {s : TmIq}

/-- What is to be in the slot of a sample: the captured sample, scaled. -/
def TmIq.expected (s : TmIq) (i : ℕ) : Option IqSample := s.captured[i]?.map scaled

/-- The first sample that may be read: a ring before the last. -/
def TmIq.oldest (total : ℕ) (s : TmIq) : ℕ := s.tm_iq_write_sample - total

/-- The samples that may be read, from the oldest to the watermark, are in their slots. -/
def Faithful (total : ℕ) (s : TmIq) : Prop :=
  Ring.Holds total s.ring s.expected (s.oldest total) s.tm_iq_flushed_sample

/-- The chunks that have not been written, in their order. -/
def TmIq.line (s : TmIq) : List TmIqChunk :=
  (s.writing.map Prod.fst).toList ++ s.tm_iq_q.queue ++ s.pending.toList

/-- A chunk is a piece of what was captured. -/
def TmIqChunk.Of (captured : List IqSample) (ck : TmIqChunk) : Prop :=
  ck.stop ≤ captured.length ∧
    ∀ m, m < ck.data.length → ck.data[m]? = captured[ck.start_sample + m]?

/-- The invariant: the counter counts what was captured; the chunks in line are pieces of it, one
behind the other and behind the watermark; the chunk that is being written is scaled, and as far as
it is written it is in its slots, where it may be read at all; and the samples below the watermark
are. -/
structure Rolling (total : ℕ) (s : TmIq) : Prop where
  counted : s.tm_iq_write_sample = s.captured.length
  queued : ∀ ck ∈ s.tm_iq_q.queue ++ s.pending.toList, ck.Of s.captured
  writing : ∀ ck written, s.writing = some (ck, written) →
    ck.stop ≤ s.captured.length ∧ written ≤ ck.data.length ∧
      (∀ m, m < ck.data.length → ck.data[m]? = s.expected (ck.start_sample + m)) ∧
      Ring.Holds total s.ring s.expected (max ck.start_sample (s.oldest total))
        (ck.start_sample + written)
  sorted : s.line.Pairwise fun a b => a.stop ≤ b.start_sample
  behind : ∀ ck ∈ s.line, s.tm_iq_flushed_sample ≤ ck.start_sample
  flushed : s.tm_iq_flushed_sample ≤ s.captured.length
  faithful : Faithful total s

theorem TmIqChunk.Of.append {captured : List IqSample} {ck : TmIqChunk} (h : ck.Of captured)
    (buf : List IqSample) : ck.Of (captured ++ buf) := by
  obtain ⟨hstop, hdata⟩ := h
  refine ⟨?_, fun m hm => ?_⟩
  · rw [List.length_append]
    exact hstop.trans (Nat.le_add_right _ _)
  · rw [hdata m hm, List.getElem?_append_left]
    unfold TmIqChunk.stop at hstop
    omega

theorem Rolling.tmIqCount (h : Rolling total s) (buf : List IqSample) :
    Rolling total (tmIqCount buf s) := by
  unfold TimeMachine.tmIqCount
  split_ifs with hbusy
  · exact h
  · have hpending : s.pending = none := by
      simpa using (Bool.or_eq_false_iff.1 (Bool.eq_false_iff.2 hbusy)).2
    have holdest : s.oldest total ≤ s.tm_iq_write_sample + buf.length - total :=
      Nat.sub_le_sub_right (Nat.le_add_right ..) total
    have hexpected : ∀ i, i < s.captured.length →
        (s.captured ++ buf)[i]?.map scaled = s.expected i := fun i hi => by
      rw [List.getElem?_append_left hi]
      rfl
    have hlength : s.captured.length ≤ (s.captured ++ buf).length := by
      rw [List.length_append]
      exact Nat.le_add_right ..
    have hqueued := h.queued
    have hsorted := h.sorted
    have hbehind := h.behind
    simp only [TmIq.line, hpending, Option.toList_none, List.append_nil] at hqueued hsorted hbehind
    have hof : TmIqChunk.Of (s.captured ++ buf) ⟨s.tm_iq_write_sample, buf⟩ := by
      refine ⟨?_, fun m _ => ?_⟩
      · rw [TmIqChunk.stop, h.counted, List.length_append]
      · show buf[m]? = (s.captured ++ buf)[s.tm_iq_write_sample + m]?
        rw [h.counted, List.getElem?_append_right (Nat.le_add_right _ m), Nat.add_sub_cancel_left]
    -- every chunk in line ends where the new one begins, at the latest
    have hstop : ∀ ck ∈ (s.writing.map Prod.fst).toList ++ s.tm_iq_q.queue,
        ck.stop ≤ s.tm_iq_write_sample := by
      intro ck hck
      rw [h.counted]
      rcases List.mem_append.1 hck with hwriting | hck
      · obtain ⟨⟨ck', written⟩, hw, rfl⟩ := Option.map_eq_some_iff.1 (Option.mem_toList.1 hwriting)
        exact (h.writing ck' written hw).1
      · exact (hqueued ck hck).1
    refine ⟨?_, ?_, ?_, ?_, ?_, h.flushed.trans hlength, ?_⟩
    · rw [h.counted, List.length_append]
    · intro ck hck
      rcases List.mem_append.1 hck with hck | hck
      · exact (hqueued ck hck).append buf
      · rw [List.mem_singleton.1 hck]
        exact hof
    · intro ck written hw
      obtain ⟨hend, hle, hdata, hholds⟩ := h.writing ck written hw
      have hstopck : ck.start_sample + ck.data.length ≤ s.captured.length := hend
      refine ⟨hend.trans hlength, hle, fun m hm => ?_, ?_⟩
      · rw [hdata m hm]
        exact (hexpected _ (by omega)).symm
      · refine (hholds.mono ?_ (Nat.le_refl _)).congr fun i hi => hexpected i (by omega)
        exact max_le_max (Nat.le_refl _) holdest
    · show (_ ++ _ ++ [_]).Pairwise _
      rw [List.pairwise_append]
      refine ⟨hsorted, List.pairwise_singleton _ _, fun a ha b hb => ?_⟩
      rw [List.mem_singleton.1 hb]
      exact hstop a ha
    · intro ck hck
      rcases List.mem_append.1 hck with hck | hck
      · exact hbehind ck hck
      · rw [List.mem_singleton.1 hck]
        exact h.flushed.trans_eq h.counted.symm
    · exact (Ring.Holds.mono h.faithful holdest (Nat.le_refl _)).congr fun i hi =>
        hexpected i (hi.trans_le h.flushed)

theorem Rolling.tmIqEnqueue (h : Rolling total s) : Rolling total (tmIqEnqueue s) := by
  unfold TimeMachine.tmIqEnqueue
  split
  next => exact h
  next ck hpending =>
    obtain ⟨hsplit, -⟩ := Backlog.evict_oldest TmIqChunk.bytes TM_IQ_QUEUE_MAX_BYTES
      ck.bytes s.tm_iq_q.queue s.tm_iq_q.bytes
    dsimp only
    generalize Backlog.evict TmIqChunk.bytes TM_IQ_QUEUE_MAX_BYTES (fun _ => true) ck.bytes
      s.tm_iq_q.queue s.tm_iq_q.bytes = room at *
    have hsub : (room.2.queue ++ [ck]).Sublist (s.tm_iq_q.queue ++ s.pending.toList) := by
      rw [hsplit, hpending]
      exact List.Sublist.append_right (List.sublist_append_right _ _) [ck]
    have hline : ((s.writing.map Prod.fst).toList ++ (room.2.queue ++ [ck])).Sublist s.line := by
      rw [TmIq.line, List.append_assoc]
      exact hsub.append_left _
    refine { h with
      queued := fun c hc => h.queued c (hsub.subset ?_)
      sorted := ?_
      behind := fun c hc => h.behind c (hline.subset ?_) }
    · simpa [Backlog.push] using hc
    · simpa [TmIq.line, Backlog.push] using h.sorted.sublist hline
    · simpa [TmIq.line, Backlog.push] using hc

theorem Rolling.writerPop (h : Rolling total s) : Rolling total (writerPop s) := by
  unfold TimeMachine.writerPop
  split
  next ck q hwriting hqueue =>
    have hqueued := h.queued
    have hsorted := h.sorted
    have hbehind := h.behind
    simp only [TmIq.line, hwriting, hqueue, Option.map_none, Option.toList_none, List.nil_append,
      List.cons_append] at hqueued hsorted hbehind
    dsimp only
    split_ifs with hfailed
    · refine { h with
        queued := fun c hc => hqueued c (List.mem_cons_of_mem ck hc)
        sorted := ?_
        behind := fun c hc => hbehind c (List.mem_cons_of_mem ck ?_) }
      · simpa [TmIq.line, hwriting] using (List.pairwise_cons.1 hsorted).2
      · simpa [TmIq.line, hwriting] using hc
    · obtain ⟨hend, hdata⟩ := hqueued ck List.mem_cons_self
      refine { h with
        queued := fun c hc => hqueued c (List.mem_cons_of_mem ck hc)
        writing := ?_
        sorted := ?_
        behind := ?_ }
      · rintro c written hw
        obtain ⟨rfl, rfl⟩ : ({ ck with data := ck.data.map scaled } : TmIqChunk) = c ∧ 0 = written := by
          simpa using hw
        refine ⟨?_, Nat.zero_le _, fun m hm => ?_, fun i hl hr => ?_⟩
        · simpa [TmIqChunk.stop] using hend
        · rw [List.length_map] at hm
          rw [List.getElem?_map, hdata m hm]
          rfl
        · exact absurd hr (by have := (le_max_left _ _).trans hl; dsimp only at this ⊢; omega)
      · simpa [TmIq.line, TmIqChunk.stop] using hsorted
      · simpa [TmIq.line] using hbehind
  next => exact h

/-- Writing where the rest of a chunk goes leaves what may be read alone, and the part of the chunk
that is written. -/
theorem Rolling.keep (h : Rolling total s) {ck : TmIqChunk} {written : ℕ}
    (hw : s.writing = some (ck, written)) (ring' : ℕ → Option IqSample)
    (hsame : ∀ k, (∀ j, ck.start_sample + written ≤ j → j < ck.stop → j % total ≠ k) →
      ring' k = s.ring k) :
    Ring.Holds total ring' s.expected (s.oldest total) s.tm_iq_flushed_sample ∧
      Ring.Holds total ring' s.expected (max ck.start_sample (s.oldest total))
        (ck.start_sample + written) := by
  obtain ⟨hend, hle, -, hholds⟩ := h.writing ck written hw
  have hbehind : s.tm_iq_flushed_sample ≤ ck.start_sample :=
    h.behind ck (by simp [TmIq.line, hw])
  -- the chunk ends where the counter stands, at the latest, and so a ring behind the oldest sample
  have hreach : ck.stop ≤ s.oldest total + total := by
    have hcounted := h.counted
    unfold TmIq.oldest
    omega
  constructor
  · exact Ring.Holds.keep h.faithful hreach fun k hk =>
      hsame k fun j hj hj' => hk j (by omega) hj'
  · exact hholds.keep (hreach.trans (by omega)) hsame

theorem slotOf_eq (total sample_pos : ℕ) : slotOf total sample_pos = sample_pos % total := by
  unfold slotOf
  split_ifs with h
  · exact (Nat.mod_eq_of_lt h).symm
  · rfl

theorem nextPiece_spec (ht : 0 < total) (ck : TmIqChunk) (written : ℕ) :
    let piece := nextPiece total ck written
    piece.length ≤ ck.data.length - written ∧
      (ck.start_sample + written) % total + piece.length ≤ total ∧
      ∀ m, m < piece.length → piece[m]? = ck.data[written + m]? := by
  have hslot := Nat.mod_lt (ck.start_sample + written) ht
  simp only [nextPiece, slotOf_eq, List.length_take, List.length_drop]
  refine ⟨by omega, by omega, fun m hm => ?_⟩
  rw [List.getElem?_take_of_lt (by omega), List.getElem?_drop]

theorem Rolling.writerWrite (ht : 0 < total) (h : Rolling total s) :
    Rolling total (writerWrite total s) := by
  unfold TimeMachine.writerWrite
  split
  next => exact h
  next ck written hw =>
    obtain ⟨hend, hle, hdata, hholds⟩ := h.writing ck written hw
    obtain ⟨hlen, hfit, hpiece⟩ := nextPiece_spec ht ck written
    dsimp only
    rw [slotOf_eq]
    generalize nextPiece total ck written = piece at *
    have hstop : ck.stop = ck.start_sample + ck.data.length := rfl
    have hcounted := h.counted
    obtain ⟨hfaithful, -⟩ := h.keep hw
      (Ring.store s.ring ((ck.start_sample + written) % total) piece) fun k hk =>
        Ring.store_of_ne hfit fun j hj hj' => hk j hj (by omega)
    have hline : ((some (ck, written + piece.length)).map Prod.fst).toList =
        (s.writing.map Prod.fst).toList := by rw [hw]; rfl
    refine { h with
      writing := ?_
      sorted := by simpa only [TmIq.line, hline] using h.sorted
      behind := by simpa only [TmIq.line, hline] using h.behind
      faithful := hfaithful }
    rintro c w hcw
    obtain ⟨rfl, rfl⟩ : ck = c ∧ written + piece.length = w := by simpa using hcw
    refine ⟨hend, by omega, hdata, ?_⟩
    rw [← Nat.add_assoc]
    refine hholds.store hfit ?_ fun m hm => ?_
    · unfold TmIq.oldest
      omega
    · rw [hpiece m hm, hdata _ (by omega), Nat.add_assoc]

theorem Rolling.writerTears (ht : 0 < total) (h : Rolling total s) (i : ℕ) (v : Option IqSample) :
    Rolling total (writerTears total i v s) := by
  unfold TimeMachine.writerTears
  split
  next => exact h
  next ck written hw =>
    split_ifs with hi
    · obtain ⟨hend, hle, hdata, -⟩ := h.writing ck written hw
      obtain ⟨hlen, hfit, -⟩ := nextPiece_spec ht ck written
      rw [slotOf_eq]
      have hstop : ck.stop = ck.start_sample + ck.data.length := rfl
      obtain ⟨hfaithful, hholds⟩ := h.keep hw
        (Function.update s.ring ((ck.start_sample + written) % total + i) v) fun k hk => by
          have hne : k ≠ (ck.start_sample + written) % total + i := by
            rintro rfl
            refine hk (ck.start_sample + written + i) (Nat.le_add_right _ _) (by omega) ?_
            rw [Ring.mod_of_piece hfit (Nat.le_add_right _ _) (by omega), Nat.add_sub_cancel_left]
          rw [Function.update_of_ne hne]
      refine { h with writing := ?_, faithful := hfaithful }
      rintro c w hcw
      obtain ⟨rfl, rfl⟩ : ck = c ∧ written = w := by simpa [hw] using hcw
      exact ⟨hend, hle, hdata, hholds⟩
    · exact h

theorem Rolling.writerFails (h : Rolling total s) : Rolling total (writerFails s) := by
  unfold TimeMachine.writerFails
  split
  next => exact h
  next ck written hw =>
    split_ifs
    · have hsub : (s.tm_iq_q.queue ++ s.pending.toList).Sublist s.line := by
        rw [TmIq.line, List.append_assoc]
        exact List.sublist_append_right _ _
      exact { h with
        writing := fun c w hcw => by simp at hcw
        sorted := by simpa [TmIq.line] using h.sorted.sublist hsub
        behind := fun c hc => h.behind c (hsub.subset (by simpa [TmIq.line] using hc)) }
    · exact h

/-! ## The watermark -/

/-- What a step has to meet: when the watermark is moved behind a chunk, the chunk begins at the
watermark, nothing having been dropped in front of it, or no later than the oldest sample that may be
read. -/
def GapOutOfReach (total : ℕ) (s : TmIq) (e : TmIqEvent) : Prop :=
  match e, s.writing with
  | .flush, some (ck, written) => written < ck.data.length ∨
      ck.start_sample ≤ s.tm_iq_flushed_sample ∨ ck.start_sample ≤ s.oldest total
  | _, _ => True

theorem Rolling.writerFlush (h : Rolling total s) (hok : GapOutOfReach total s .flush) :
    Rolling total (writerFlush s) := by
  unfold TimeMachine.writerFlush
  split
  next => exact h
  next ck written hw =>
    split_ifs with hmore
    · exact h
    · obtain ⟨hend, hle, -, hholds⟩ := h.writing ck written hw
      simp only [GapOutOfReach, hw] at hok
      have hsub : (s.tm_iq_q.queue ++ s.pending.toList).Sublist s.line := by
        rw [TmIq.line, List.append_assoc]
        exact List.sublist_append_right _ _
      have hstop : ck.stop = ck.start_sample + written := by
        unfold TmIqChunk.stop
        omega
      have hsorted := h.sorted
      simp only [TmIq.line, hw, Option.map_some, Option.toList_some, List.singleton_append] at hsorted
      refine { h with
        writing := fun c w hcw => by simp at hcw
        sorted := by simpa [TmIq.line] using h.sorted.sublist hsub
        behind := fun c hc => ?_
        flushed := hend
        faithful := ?_ }
      · exact (List.pairwise_cons.1 hsorted).1 c (by simpa [TmIq.line] using hc)
      · intro i hl hr
        rcases Nat.lt_or_ge i ck.start_sample with hbefore | hbehind
        · -- below the chunk only what lies below the old watermark may be read
          refine h.faithful i hl ?_
          have hl' : s.oldest total ≤ i := hl
          omega
        · exact hholds i (max_le hbehind hl) (hstop ▸ hr)

theorem Rolling.next (ht : 0 < total) (h : Rolling total s) (e : TmIqEvent)
    (hok : GapOutOfReach total s e) : Rolling total (s.next total e) := by
  cases e with
  | count buf => exact h.tmIqCount buf
  | enqueue => exact h.tmIqEnqueue
  | pop => exact h.writerPop
  | write => exact h.writerWrite ht
  | tears i v => exact h.writerTears ht i v
  | fails => exact h.writerFails
  | flush => exact h.writerFlush hok

/-! ## What is read -/

end Bewe.TimeMachine
