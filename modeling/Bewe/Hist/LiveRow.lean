import Bewe.Hist.Format
import Bewe.Lib.MaxBy

/-!
# A row on the host and at Central

A row of power values is recorded twice. The host folds the bins of its zero-padded spectrum to the
width of a file by their maximum and then quantises (`ingest_new_rows` of `src/long_waterfall.cpp`).
What it sends is every bin quantised (`broadcast_fft` of `src/net_server.cpp`), which Central folds
(`archive_hist_on_fft` of `central/central_mission_archive.cpp`). Power values are exact rationals
here, and the 6-bit packing of frames is off.

`foldRow_quantRow` says that both write the same bytes: quantising keeps the order, and the groups
of bins are the same.
-/

namespace Bewe.Hist

open Lib

/-- The byte of a power value: scaled so that the range becomes 0 to 255, clamped, and cut off. -/
def quantByte (dmin dmax v : ℚ) : UInt8 :=
  let range := if 0 < dmax - dmin then dmax - dmin else 1
  let q := (v - dmin) * (255 / range)
  let q := if q < 0 then 0 else q
  let q := if 255 < q then 255 else q
  UInt8.ofNat ⌊q⌋₊

/-! ## The host's file -/

/-- What `ingest_new_rows` reads of the viewer: the ring of rows, how many there were, and the
widths. -/
structure Capture where
  fft_data : ℕ → List ℚ
  total_ffts : ℕ
  fft_size : ℕ
  fft_input_size : ℕ

/-- The file that is open: of its header the widths and the range, the rows it has seen, and the
rows that are staged. -/
structure Staging where
  hdr_fft_size : ℕ
  hdr_fft_input_size : ℕ
  db_min : ℚ
  db_max : ℚ
  g_last_total_ffts : ℕ
  g_stage : List Bytes

/-- `STAGE_MAX_ROWS`. -/
def STAGE_MAX_ROWS : ℕ := 128

/-- The bytes of a row: the largest value of each group, quantised. -/
def stageRow (src_fft dst_fft : ℕ) (dmin dmax : ℚ) (rowp : List ℚ) : Bytes :=
  let pad := max (src_fft / dst_fft) 1
  (List.range dst_fft).map fun o => quantByte dmin dmax (maxOf id (slice (o * pad) pad rowp))

/-- `ingest_new_rows`, with a ring of `history` rows; none where it returns false. -/
def ingestNewRows (history : ℕ) (v : Capture) (w : Staging) : Option Staging :=
  let dst_fft := v.fft_input_size
  let room := STAGE_MAX_ROWS - w.g_stage.length
  if v.total_ffts ≤ w.g_last_total_ffts then none
  else if v.fft_size = 0 ∨ dst_fft = 0 then none
  else if dst_fft ≠ (if w.hdr_fft_input_size ≠ 0 then w.hdr_fft_input_size else w.hdr_fft_size) then
    none
  else if room = 0 then none
  else
    let new_rows := min (min (v.total_ffts - w.g_last_total_ffts) history) room
    let start_abs := if new_rows < v.total_ffts - w.g_last_total_ffts then v.total_ffts - new_rows
      else w.g_last_total_ffts
    some { w with
      g_stage := w.g_stage ++ (List.range new_rows).map fun k =>
        stageRow v.fft_size dst_fft w.db_min w.db_max (v.fft_data ((start_abs + k) % history))
      g_last_total_ffts := start_abs + new_rows }

/-! ## Central's file -/

/-- The bytes that `broadcast_fft` makes of a row. -/
def quantRow (pmin pmax : ℚ) (data : List ℚ) : Bytes := data.map (quantByte pmin pmax)

/-- What `archive_hist_on_fft` writes of a row of `fft_size` bytes to a file of a width; none if it
writes nothing. -/
def foldRow (st_fft_size fft_size : ℕ) (row : Bytes) : Option Bytes :=
  if st_fft_size = 0 then none
  else if st_fft_size = fft_size then some row
  else if fft_size % st_fft_size ≠ 0 then none
  else
    let pad := fft_size / st_fft_size
    some ((List.range st_fft_size).map fun o => maxOf UInt8.toNat (slice (o * pad) pad row))

/-! ## Both are the same -/

theorem quantByte_toNat (dmin dmax v : ℚ) : (quantByte dmin dmax v).toNat =
    ⌊min (max ((v - dmin) * (255 / if 0 < dmax - dmin then dmax - dmin else 1)) 0) 255⌋₊ := by
  unfold quantByte
  dsimp only
  generalize (v - dmin) * (255 / if 0 < dmax - dmin then dmax - dmin else 1) = q
  have hclamp : (if 255 < (if q < 0 then 0 else q) then 255 else if q < 0 then 0 else q) =
      min (max q 0) 255 := by
    rw [max_def, min_def]
    split_ifs <;> linarith
  have h255 : ⌊min (max q 0) 255⌋₊ < 256 := by
    rw [Nat.floor_lt (le_min (le_max_right _ _) (by norm_num))]
    exact lt_of_le_of_lt (min_le_right _ _) (by norm_num)
  rw [hclamp, UInt8.toNat_ofNat', Nat.mod_eq_of_lt h255]

theorem quantByte_mono (dmin dmax : ℚ) {v v' : ℚ} (h : v ≤ v') :
    (quantByte dmin dmax v).toNat ≤ (quantByte dmin dmax v').toNat := by
  have hrange : (0 : ℚ) ≤ 255 / if 0 < dmax - dmin then dmax - dmin else 1 := by
    split_ifs with hpos
    · positivity
    · norm_num
  have hscaled := mul_le_mul_of_nonneg_right (sub_le_sub_right h dmin) hrange
  rw [quantByte_toNat, quantByte_toNat]
  exact Nat.floor_le_floor (min_le_min_right 255 (max_le_max_right 0 hscaled))

theorem quantByte_maxOf (dmin dmax : ℚ) {group : List ℚ} (hgroup : group ≠ []) :
    quantByte dmin dmax (maxOf id group) =
      maxOf UInt8.toNat (group.map (quantByte dmin dmax)) :=
  map_maxOf (f := quantByte dmin dmax) (fun _ _ => UInt8.toNat_inj.mp)
    (fun _ _ h => quantByte_mono dmin dmax h) hgroup

theorem map_maxOf_range {α κ : Type*} [Inhabited α] [LinearOrder κ] (key : α → κ) (l : List α) :
    ((List.range l.length).map fun o => maxOf key (slice (o * 1) 1 l)) = l := by
  refine List.ext_getElem (by simp) fun o ho ho' => ?_
  have hone : slice (o * 1) 1 l = [l[o]] := by
    rw [slice, Nat.mul_one, List.drop_eq_getElem_cons ho']
    rfl
  rw [List.getElem_map, List.getElem_range, hone, maxOf_singleton]

/-- The row that Central writes is the row that the host writes. -/
theorem foldRow_quantRow {dst_fft : ℕ} {row : List ℚ} (dmin dmax : ℚ) (hrow : row ≠ [])
    (hdvd : dst_fft ∣ row.length) :
    foldRow dst_fft row.length (quantRow dmin dmax row) =
      some (stageRow row.length dst_fft dmin dmax row) := by
  have hlen := List.length_pos_iff.mpr hrow
  have hdst : 0 < dst_fft := Nat.pos_of_dvd_of_pos hdvd hlen
  have hpad : 0 < row.length / dst_fft := Nat.div_pos (Nat.le_of_dvd hlen hdvd) hdst
  have hmul : row.length / dst_fft * dst_fft = row.length := Nat.div_mul_cancel hdvd
  have hgroups : stageRow row.length dst_fft dmin dmax row = (List.range dst_fft).map fun o =>
      maxOf UInt8.toNat (slice (o * (row.length / dst_fft)) (row.length / dst_fft)
        (quantRow dmin dmax row)) := by
    rw [stageRow, max_eq_left hpad]
    refine List.map_congr_left fun o ho => ?_
    have hin : o * (row.length / dst_fft) < row.length := by
      calc o * (row.length / dst_fft)
          < dst_fft * (row.length / dst_fft) :=
            Nat.mul_lt_mul_of_pos_right (List.mem_range.mp ho) hpad
        _ = row.length := by rw [Nat.mul_comm, hmul]
    have hne : slice (o * (row.length / dst_fft)) (row.length / dst_fft) row ≠ [] := by
      refine List.ne_nil_of_length_pos ?_
      rw [slice, List.length_take, List.length_drop]
      omega
    rw [quantByte_maxOf dmin dmax hne, map_slice]
    rfl
  unfold foldRow
  rw [if_neg hdst.ne', hgroups]
  by_cases hsame : dst_fft = row.length
  · have hone : row.length / dst_fft = 1 := by rw [hsame, Nat.div_self hlen]
    have hq : dst_fft = (quantRow dmin dmax row).length := by
      rw [hsame, quantRow, List.length_map]
    rw [if_pos hsame, hone, hq, map_maxOf_range]
  · rw [if_neg hsame, if_neg (by rw [Nat.mod_eq_zero_of_dvd hdvd]; decide)]

/-- Four bins folded to two. -/
theorem foldRow_quantRow_four : foldRow 2 4 (quantRow (-120) 0 [-100, -40, -130, 7]) =
    some (stageRow 4 2 (-120) 0 [-100, -40, -130, 7]) :=
  foldRow_quantRow (-120) 0 (List.cons_ne_nil (-100) [-40, -130, 7]) (by decide)

end Bewe.Hist
