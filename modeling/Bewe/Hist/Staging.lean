import Bewe.Hist.LiveRow
import Bewe.Lib.Ring
import Bewe.Lib.Run

/-!
# Staging what was captured

The capture thread puts the rows of the waterfall into a ring and counts them (`capture_and_process`
of `src/bladerf_io.cpp`). The worker of `src/long_waterfall.cpp` wakes up, stages the rows that are
new since it looked last (`ingestNewRows`), and appends what is staged to the file that is open
(`flush_row_locked`). A run takes these steps in any order, from when the file was opened.

`StagedOnce` says that the file and the stage hold the rows captured since then, each once and in
order, up to where the worker has looked. The worker takes the last rows of its backlog, as many as
the stage has room for, and goes on from the end of it: where the backlog is larger than the room it
passes over the first rows and never comes back to them. `stagedOnce_iff` says that this is the only
way to lose rows.
-/

namespace Bewe.Hist

open Lib

/-- `FFT_HISTORY_ROWS`, on a host without a screen. -/
def FFT_HISTORY_ROWS : ℕ := 1024

/-! ## The run of a file -/

/-- A file that is open, beside it what the capture thread has done since. -/
structure Recording where
  v : Capture
  w : Staging
  file : List Bytes
  captured : List (List ℚ)

/-- What the two threads do. -/
inductive LwfEvent
  | captured (row : List ℚ)
  | ingest_new_rows
  | flush_row_locked

/-- The capture thread stores a row at `total_ffts` and counts it. -/
def capture (history : ℕ) (row : List ℚ) (v : Capture) : Capture :=
  { v with
    fft_data := Function.update v.fft_data (v.total_ffts % history) row
    total_ffts := v.total_ffts + 1 }

/-- The rows that `flush_row_locked` writes. -/
def flushRowLocked (w : Staging) : List Bytes :=
  let dst_fft := if w.hdr_fft_input_size ≠ 0 then w.hdr_fft_input_size else w.hdr_fft_size
  if dst_fft = 0 then [] else w.g_stage

/-- A step of either thread. -/
def Recording.next (history : ℕ) (s : Recording) : LwfEvent → Recording
  | .captured row =>
    { s with v := capture history row s.v, captured := s.captured ++ [row] }
  | .ingest_new_rows => { s with w := (ingestNewRows history s.v s.w).getD s.w }
  | .flush_row_locked =>
    { s with file := s.file ++ flushRowLocked s.w, w := { s.w with g_stage := [] } }

/-- The worker has opened a file: its widths are those of the viewer, and it takes no rows that were
captured before. -/
def openNewFile (v : Capture) (db_min db_max : ℚ) : Recording where
  v := v
  w :=
    { hdr_fft_size := v.fft_input_size
      hdr_fft_input_size := v.fft_input_size
      db_min := db_min
      db_max := db_max
      g_last_total_ffts := v.total_ffts
      g_stage := [] }
  file := []
  captured := []

/-- The rows that the worker has not looked at. -/
def Recording.behind (s : Recording) : ℕ := s.v.total_ffts - s.w.g_last_total_ffts

/-- The rows for which the stage has room. -/
def Recording.room (s : Recording) : ℕ := STAGE_MAX_ROWS - s.w.g_stage.length

/-- The bytes of a captured row. -/
def Recording.bytes (s : Recording) (row : List ℚ) : Bytes :=
  stageRow s.v.fft_size s.v.fft_input_size s.w.db_min s.w.db_max row

/-- The file and the stage hold the captured rows, each once and in order, but for those that the
worker has not looked at. -/
def Recording.StagedOnce (s : Recording) : Prop :=
  s.file ++ s.w.g_stage = (s.captured.take (s.captured.length - s.behind)).map s.bytes

/-- The worker finds no more rows than it can stage, or can stage none at all. -/
def FitsStage (s : Recording) (e : LwfEvent) : Prop :=
  e = .ingest_new_rows → s.behind ≤ s.room ∨ s.room = 0

/-! ## What every step keeps -/

/-- The ring holds the last rows captured since the file was opened, the worker has looked at none
that are not there, and the widths are those that the file was opened with. -/
structure Recording.Tracks (history : ℕ) (s : Recording) : Prop where
  ring : ∀ i, i < s.captured.length → s.captured.length ≤ i + history →
    s.captured[i]? = some (s.v.fft_data ((s.v.total_ffts - s.captured.length + i) % history))
  captured_le : s.captured.length ≤ s.v.total_ffts
  opened_le : s.v.total_ffts - s.captured.length ≤ s.w.g_last_total_ffts
  last_le : s.w.g_last_total_ffts ≤ s.v.total_ffts
  fft_size : s.v.fft_size ≠ 0
  fft_input_size : s.v.fft_input_size ≠ 0
  hdr : s.w.hdr_fft_input_size = s.v.fft_input_size

section

variable {history : ℕ} {s : Recording}

theorem tracks_openNewFile (history : ℕ) {v : Capture} (hfft : v.fft_size ≠ 0)
    (hinput : v.fft_input_size ≠ 0) (db_min db_max : ℚ) :
    (openNewFile v db_min db_max).Tracks history where
  ring := fun _ hi _ => absurd hi (Nat.not_lt_zero _)
  captured_le := Nat.zero_le _
  opened_le := Nat.sub_le _ _
  last_le := le_refl _
  fft_size := hfft
  fft_input_size := hinput
  hdr := rfl

theorem Recording.Tracks.dst_fft (h : s.Tracks history) :
    (if s.w.hdr_fft_input_size ≠ 0 then s.w.hdr_fft_input_size else s.w.hdr_fft_size) =
      s.v.fft_input_size := by
  rw [h.hdr, if_pos h.fft_input_size]

theorem Recording.Tracks.behind_le (h : s.Tracks history) : s.behind ≤ s.captured.length := by
  have := h.opened_le
  have := h.captured_le
  unfold Recording.behind
  omega

theorem Recording.Tracks.capture (h : s.Tracks history) (row : List ℚ) :
    (s.next history (.captured row)).Tracks history where
  ring := by
    intro i hi hlast
    simp only [Recording.next, Hist.capture, List.length_append,
      List.length_singleton] at hi hlast ⊢
    have hbase : s.v.total_ffts + 1 - (s.captured.length + 1) + i =
        s.v.total_ffts - s.captured.length + i := by omega
    have := h.captured_le
    rw [hbase]
    rcases Nat.lt_or_ge i s.captured.length with hold | hnew
    · have hslot : s.v.total_ffts % history ≠ (s.v.total_ffts - s.captured.length + i) % history :=
        Ring.mod_ne_mod (by omega) (by omega)
      rw [List.getElem?_append_left hold, Function.update_of_ne hslot.symm]
      exact h.ring i hold (by omega)
    · have hi : i = s.captured.length := by omega
      have hslot : s.v.total_ffts - s.captured.length + i = s.v.total_ffts := by omega
      rw [hslot, Function.update_self, hi, List.getElem?_concat_length]
  captured_le := by
    have := h.captured_le
    simp only [Recording.next, Hist.capture, List.length_append, List.length_singleton]
    omega
  opened_le := by
    have := h.opened_le
    simp only [Recording.next, Hist.capture, List.length_append, List.length_singleton]
    omega
  last_le := Nat.le_succ_of_le h.last_le
  fft_size := h.fft_size
  fft_input_size := h.fft_input_size
  hdr := h.hdr

theorem Recording.Tracks.behind_capture (h : s.Tracks history) (row : List ℚ) :
    (s.next history (.captured row)).behind = s.behind + 1 := by
  have := h.last_le
  simp only [Recording.behind, Recording.next, Hist.capture]
  omega

/-- What a wake-up of the worker does: nothing, where there is no row or no room; else it stages the
last rows of its backlog, as many as there is room for and as the ring still has, and has looked at
all of it. -/
theorem Recording.Tracks.ingest (h : s.Tracks history) :
    ingestNewRows history s.v s.w =
      if s.behind = 0 ∨ s.room = 0 then none
      else some { s.w with
        g_stage := s.w.g_stage ++ (List.range (min (min s.behind history) s.room)).map fun k =>
          s.bytes (s.v.fft_data
            ((s.v.total_ffts - min (min s.behind history) s.room + k) % history))
        g_last_total_ffts := s.v.total_ffts } := by
  have hlast := h.last_le
  have hbehind : s.v.total_ffts - s.w.g_last_total_ffts = s.behind := rfl
  have hstage : STAGE_MAX_ROWS - s.w.g_stage.length = s.room := rfl
  unfold ingestNewRows
  dsimp only
  rw [hbehind, hstage]
  by_cases hnone : s.behind = 0
  · rw [if_pos (by omega), if_pos (Or.inl hnone)]
  rw [if_neg (by omega), if_neg (not_or.2 ⟨h.fft_size, h.fft_input_size⟩), h.dst_fft,
    if_neg (not_not_intro rfl)]
  by_cases hroom : s.room = 0
  · rw [if_pos hroom, if_pos (Or.inr hroom)]
  rw [if_neg hroom, if_neg (not_or.2 ⟨hnone, hroom⟩)]
  -- wherever the worker starts, the rows that it takes end at the last one
  have hstart : (if min (min s.behind history) s.room < s.behind then
        s.v.total_ffts - min (min s.behind history) s.room else s.w.g_last_total_ffts) =
      s.v.total_ffts - min (min s.behind history) s.room := by
    split_ifs <;> omega
  have hend : s.v.total_ffts - min (min s.behind history) s.room +
      min (min s.behind history) s.room = s.v.total_ffts := by omega
  rw [hstart, hend]
  rfl

theorem Recording.Tracks.next (h : s.Tracks history) (e : LwfEvent) :
    (s.next history e).Tracks history := by
  cases e with
  | captured row => exact h.capture row
  | flush_row_locked => exact { h with }
  | ingest_new_rows =>
    rw [Recording.next, h.ingest]
    split_ifs with hnone
    · exact h
    · exact { h with opened_le := Nat.sub_le _ _, last_le := le_refl _ }

theorem Recording.Tracks.behind_next (h : s.Tracks history) (e : LwfEvent) :
    (s.next history e).behind ≤ s.behind + 1 := by
  cases e with
  | captured row => exact (h.behind_capture row).le
  | flush_row_locked => exact Nat.le_succ _
  | ingest_new_rows =>
    rw [Recording.next, h.ingest]
    split_ifs with hnone
    · exact Nat.le_succ _
    · exact (Nat.sub_self _).trans_le (Nat.zero_le _)

theorem Recording.Tracks.behind_foldl (h : s.Tracks history) (es : List LwfEvent) :
    (es.foldl (Recording.next history) s).behind ≤ s.behind + es.length := by
  induction es generalizing s with
  | nil => exact le_refl _
  | cons e es ih =>
    have hstep := h.behind_next e
    have hrest := ih (h.next e)
    rw [List.foldl_cons, List.length_cons]
    omega

theorem Recording.Tracks.last_rows (h : s.Tracks history) {n : ℕ} (hn : n ≤ s.behind)
    (hring : n ≤ history) :
    ((List.range n).map fun k => s.bytes (s.v.fft_data ((s.v.total_ffts - n + k) % history))) =
      (s.captured.drop (s.captured.length - n)).map s.bytes := by
  have hbehind := h.behind_le
  have hcaptured := h.captured_le
  refine List.ext_getElem (by simp; omega) fun k hk hk' => ?_
  have hlt : k < n := by simpa using hk
  have hrow := h.ring (s.captured.length - n + k) (by omega) (by omega)
  rw [List.getElem?_eq_getElem (by omega), Option.some.injEq] at hrow
  have hslot : s.v.total_ffts - s.captured.length + (s.captured.length - n + k) =
      s.v.total_ffts - n + k := by omega
  rw [hslot] at hrow
  rw [List.getElem_map, List.getElem_range, List.getElem_map, List.getElem_drop, hrow]

/-! ## Staging once -/

theorem stagedOnce_openNewFile (v : Capture) (db_min db_max : ℚ) :
    (openNewFile v db_min db_max).StagedOnce := by
  simp [Recording.StagedOnce, openNewFile]

theorem Recording.Tracks.stagedOnce_captured (h : s.Tracks history) (row : List ℚ) :
    (s.next history (.captured row)).StagedOnce ↔ s.StagedOnce := by
  have hbehind := h.behind_le
  have htake : (s.captured ++ [row]).take (s.captured.length + 1 - (s.behind + 1)) =
      s.captured.take (s.captured.length - s.behind) := by
    rw [Nat.add_sub_add_right, List.take_append_of_le_length (Nat.sub_le _ _)]
  unfold Recording.StagedOnce
  rw [h.behind_capture]
  change _ = ((s.captured ++ [row]).take _).map s.bytes ↔ _
  rw [show (s.next history (.captured row)).captured.length = s.captured.length + 1 from
    List.length_append, htake]
  rfl

theorem Recording.Tracks.stagedOnce_flush (h : s.Tracks history) :
    (s.next history .flush_row_locked).StagedOnce ↔ s.StagedOnce := by
  have hwritten : flushRowLocked s.w = s.w.g_stage := by
    unfold flushRowLocked
    dsimp only
    rw [h.dst_fft, if_neg h.fft_input_size]
  unfold Recording.StagedOnce Recording.next
  rw [hwritten, List.append_nil]
  rfl

theorem Recording.Tracks.stagedOnce_ingest (h : s.Tracks history) (honce : s.StagedOnce) :
    (s.next history .ingest_new_rows).StagedOnce ↔
      s.behind ≤ min history s.room ∨ s.room = 0 := by
  have hle := h.behind_le
  unfold Recording.StagedOnce Recording.next
  rw [h.ingest]
  by_cases hnone : s.behind = 0 ∨ s.room = 0
  · rw [if_pos hnone]
    refine iff_of_true honce ?_
    rcases hnone with hnone | hroom
    · exact Or.inl (by omega)
    · exact Or.inr hroom
  obtain ⟨hsome, hroom⟩ := not_or.1 hnone
  have hrows := h.last_rows (n := min (min s.behind history) s.room) (by omega) (by omega)
  rw [if_neg hnone, hrows, Option.getD_some]
  change s.file ++ (s.w.g_stage ++ _) =
    (s.captured.take (s.captured.length - (s.v.total_ffts - s.v.total_ffts))).map s.bytes ↔ _
  rw [← List.append_assoc, honce, Nat.sub_self, Nat.sub_zero, List.take_length, ← List.map_append]
  constructor
  · intro hall
    have hlen := congrArg List.length hall
    simp only [List.length_map, List.length_append, List.length_take, List.length_drop] at hlen
    exact Or.inl (by omega)
  · intro hfits
    have hfits := hfits.resolve_right hroom
    have htaken : min (min s.behind history) s.room = s.behind := by omega
    rw [htaken, List.take_append_drop]

/-- In a run in which the worker is never further behind than the ring is long, every row is staged
once exactly if at every wake-up the stage has room for all that is new, or for none of it. -/
theorem stagedOnce_iff (history : ℕ) (v : Capture) (db_min db_max : ℚ) (hfft : v.fft_size ≠ 0)
    (hinput : v.fft_input_size ≠ 0) (es : List LwfEvent)
    (hbehind : ∀ es', es' <+: es →
      (es'.foldl (Recording.next history) (openNewFile v db_min db_max)).behind ≤ history) :
    (∀ es', es' <+: es →
        (es'.foldl (Recording.next history) (openNewFile v db_min db_max)).StagedOnce) ↔
      ∀ es' e, es' ++ [e] <+: es →
        FitsStage (es'.foldl (Recording.next history) (openNewFile v db_min db_max)) e := by
  -- only a wake-up can lose a row or stage it twice
  have hstep : ∀ s e, Recording.Tracks history s → s.StagedOnce →
      ((Recording.next history s e).StagedOnce ↔
        (e = .ingest_new_rows → s.behind ≤ min history s.room ∨ s.room = 0)) := by
    intro s e h honce
    cases e with
    | captured row =>
      exact iff_of_true ((h.stagedOnce_captured row).2 honce) (fun he => by cases he)
    | flush_row_locked =>
      exact iff_of_true (h.stagedOnce_flush.2 honce) (fun he => by cases he)
    | ingest_new_rows =>
      exact (h.stagedOnce_ingest honce).trans ⟨fun hok _ => hok, fun hok => hok rfl⟩
  have hrun := forall_prefix_foldl_iff (fun s e h _ _ => h.next e) hstep
    (tracks_openNewFile history hfft hinput db_min db_max)
    (stagedOnce_openNewFile v db_min db_max) es
  rw [hrun]
  refine forall₂_congr fun es' e => forall_congr' fun hpre => ?_
  have hlt := hbehind es' ((List.prefix_append es' [e]).trans hpre)
  refine imp_congr_right fun _ => or_congr_left ?_
  rw [le_min_iff, and_iff_right hlt]

theorem behind_le_of_length (v : Capture) (db_min db_max : ℚ) (hfft : v.fft_size ≠ 0)
    (hinput : v.fft_input_size ≠ 0) {es : List LwfEvent} (hes : es.length ≤ history) :
    ∀ es', es' <+: es →
      (es'.foldl (Recording.next history) (openNewFile v db_min db_max)).behind ≤ history := by
  intro es' hpre
  have hzero : (openNewFile v db_min db_max).behind = 0 := Nat.sub_self _
  have hrun := (tracks_openNewFile history hfft hinput db_min db_max).behind_foldl es'
  have hlen := hpre.length_le
  omega

end

/-- A viewer whose rows have one bin. -/
def viewer : Capture where
  fft_data := fun _ => []
  total_ffts := 0
  fft_size := 1
  fft_input_size := 1

/-- Rows of two bins: the worker stages two of them, then one more, and writes all three. -/
def threeRows : List LwfEvent :=
  [.captured [-90, -30], .captured [-60, 0], .ingest_new_rows, .captured [-120, 7], .ingest_new_rows,
    .flush_row_locked]

theorem stagedOnce_iff_threeRows :
    (threeRows.foldl (Recording.next FFT_HISTORY_ROWS)
      (openNewFile { viewer with fft_size := 2, fft_input_size := 2 } (-120) 0)).StagedOnce := by
  refine (stagedOnce_iff FFT_HISTORY_ROWS _ (-120) 0 (Nat.succ_ne_zero 1) (Nat.succ_ne_zero 1)
    threeRows (behind_le_of_length _ (-120) 0 (Nat.succ_ne_zero 1) (Nat.succ_ne_zero 1)
      (by decide))).2 ?_ threeRows List.prefix_rfl
  exact forall_prefix_cons nofun <| forall_prefix_cons nofun <|
    forall_prefix_cons (fun _ => .inl (by decide +kernel)) <| forall_prefix_cons nofun <|
    forall_prefix_cons (fun _ => .inl (by decide +kernel)) <| forall_prefix_cons nofun
    forall_prefix_nil

/-- A wake-up after 129 rows passes over the first of them. -/
theorem passes_over_first : ¬ ∀ (v : Capture) (db_min db_max : ℚ), v.fft_size ≠ 0 →
    v.fft_input_size ≠ 0 → ∀ es : List LwfEvent,
      (∀ es', es' <+: es → (es'.foldl (Recording.next FFT_HISTORY_ROWS)
        (openNewFile v db_min db_max)).behind ≤ FFT_HISTORY_ROWS) →
      ∀ es', es' <+: es → (es'.foldl (Recording.next FFT_HISTORY_ROWS)
        (openNewFile v db_min db_max)).StagedOnce := by
  intro hall
  let es : List LwfEvent :=
    List.replicate 129 (.captured [0]) ++ [.ingest_new_rows, .flush_row_locked]
  have hes : es.length ≤ FFT_HISTORY_ROWS := by
    rw [List.length_append, List.length_replicate]
    decide
  have hlen := congrArg List.length (hall viewer (-120) 0 Nat.one_ne_zero Nat.one_ne_zero es
    (behind_le_of_length viewer (-120) 0 Nat.one_ne_zero Nat.one_ne_zero hes) es List.prefix_rfl)
  rw [List.length_append, List.length_map, List.length_take] at hlen
  revert hlen
  decide +kernel

end Bewe.Hist
