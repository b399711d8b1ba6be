import Bewe.Df.Correction
import Bewe.Lib.Run
import Bewe.Lib.Scanf
import Bewe.Text

/-!
# The file of the calibration table

`Calib::save` and `Calib::load`. The file is text, a header and a row for every point, so what is
loaded is what was saved with its numbers rounded to what is printed (`load_save`). Then over all
runs of edits, saves, and loads: the table is what it should be in every state exactly if every
measurement fits where it is added and every saved table keeps its distances in print where it is
loaded (`sound_runs_iff`).
-/

namespace Bewe.Df

open Lib

namespace Calib

/-! ## Writing -/

/-- The elements that the file has numbers for. -/
def stored (elements : ℤ) : List (Fin kMaxElements) := (List.finRange kMaxElements).take elements.toNat

/-- The correction of an element in a row. -/
def corrText (z : Cpx) : Bytes := ascii " " ++ (fmtG 9 z.re ++ (ascii " " ++ fmtG 9 z.im))

/-- A row. -/
def rowText (elements : ℤ) (p : CalPoint) : Bytes :=
  fmtFixed 4 p.bearing_deg ++ (ascii " " ++ (fmtFixed 4 p.measured_deg ++
    (ascii " " ++ (fmtFixed 2 p.snr_db ++
      ((stored elements).flatMap (fun k => corrText (p.corr k)) ++ ascii "\n")))))

/-- `save`: what the file holds, if it can be opened. -/
def save (c : Calib) : Bytes :=
  ascii "2 " ++ (fmtFixed 6 c.freq_hz ++ (ascii " " ++ (intText c.m ++ (ascii " " ++
    (intText c.pts.length ++ (ascii "\n" ++ c.pts.flatMap (rowText c.m)))))))

/-! ## Reading -/

/-- The corrections of a row. -/
def readCorr : List (Fin kMaxElements) → (Fin kMaxElements → Cpx) → Bytes →
    Option ((Fin kMaxElements → Cpx) × Bytes)
  | [], corr, t => some (corr, t)
  | k :: ks, corr, t => do
    let (re, t) ← scanNumber t
    let (im, t) ← scanNumber t
    readCorr ks (Function.update corr k ⟨re, im⟩) t

/-- A row, without the measured bearing in the first version. -/
def readPoint (ver m : ℤ) (t : Bytes) : Option (CalPoint × Bytes) := do
  let (bearing_deg, t) ← scanNumber t
  let (measured_deg, t) ← if 2 ≤ ver then scanNumber t else some (0, t)
  let (snr_db, t) ← scanNumber t
  let (corr, t) ← readCorr (stored m) 0 t
  some ({ bearing_deg, measured_deg, snr_db, corr }, t)

/-- The rows up to the first that is none. -/
def readPoints (ver m : ℤ) : ℕ → Bytes → List CalPoint
  | 0, _ => []
  | n + 1, t =>
    match readPoint ver m t with
    | some (p, t) => p :: readPoints ver m n t
    | none => []

/-- `load` of a file that can be opened, and whether there are points. A file with no header leaves
the table as it is. -/
def load (c : Calib) (file : Bytes) : Calib × Bool :=
  let header := do
    let (ver, t) ← scanInt file
    let (fz, t) ← scanNumber t
    let (m, t) ← scanInt t
    let (n, t) ← scanInt t
    some (ver, fz, m, n, t)
  match header with
  | none => (c, false)
  | some (ver, fz, m, n, t) =>
    if ver < 1 ∨ 2 < ver ∨ m < 1 ∨ (kMaxElements : ℤ) < m ∨ n < 0 ∨ (kMaxCalPoints : ℤ) < n then
      (c, false)
    else
      let pts := readPoints ver m n.toNat t
      ({ pts := pts, freq_hz := fz, m := m, stamp := c.stamp + 2 }, !pts.isEmpty)

/-! ## What is loaded of what was saved -/

/-- A point as the file has it. -/
def printed (elements : ℤ) (p : CalPoint) : CalPoint where
  bearing_deg := roundFixed 4 p.bearing_deg
  measured_deg := roundFixed 4 p.measured_deg
  snr_db := roundFixed 2 p.snr_db
  corr k := if (k : ℤ) < elements then ⟨roundSig 9 (p.corr k).re, roundSig 9 (p.corr k).im⟩ else 0

theorem endsNumber_blank (t : Bytes) : EndsNumber (ascii " " ++ t) := by
  intro c hc
  obtain rfl : (32 : UInt8) = c := by simpa [ascii] using hc
  decide

theorem endsNumber_line (t : Bytes) : EndsNumber (ascii "\n" ++ t) := by
  intro c hc
  obtain rfl : (10 : UInt8) = c := by simpa [ascii] using hc
  decide

theorem scanNumber_space {c : UInt8} (hc : isSpace c = true) (t : Bytes) :
    scanNumber (c :: t) = scanNumber t := by
  have hspace : scanSpace (c :: t) = scanSpace t := by simp [scanSpace, hc]
  rw [scanNumber, scanNumber, hspace]

theorem scanNumber_blank (t : Bytes) : scanNumber (ascii " " ++ t) = scanNumber t :=
  scanNumber_space (c := 32) rfl t

theorem scanNumber_line (t : Bytes) : scanNumber (ascii "\n" ++ t) = scanNumber t :=
  scanNumber_space (c := 10) rfl t

theorem readCorr_corrText (f : Fin kMaxElements → Cpx) (ks : List (Fin kMaxElements))
    (corr : Fin kMaxElements → Cpx) {t : Bytes} (ht : EndsNumber t) :
    readCorr ks corr (ks.flatMap (fun k => corrText (f k)) ++ t) =
      some (fun k => if k ∈ ks then ⟨roundSig 9 (f k).re, roundSig 9 (f k).im⟩ else corr k, t) := by
  induction ks generalizing corr with
  | nil => simp [readCorr]
  | cons k ks ih =>
    have hrest : EndsNumber (ks.flatMap (fun k => corrText (f k)) ++ t) := by
      cases ks with
      | nil => exact ht
      | cons k' ks =>
        rw [List.flatMap_cons, corrText, List.append_assoc, List.append_assoc]
        exact endsNumber_blank _
    rw [List.flatMap_cons, corrText, List.append_assoc, List.append_assoc, List.append_assoc,
      List.append_assoc, readCorr, scanNumber_blank,
      scanNumber_fmtG (by norm_num) _ (endsNumber_blank _)]
    simp only [Option.bind_eq_bind, Option.bind_some]
    rw [scanNumber_blank, scanNumber_fmtG (by norm_num) _ hrest]
    simp only [Option.bind_some]
    rw [ih]
    congr 2
    funext j
    by_cases hj : j ∈ ks
    · simp [hj]
    · by_cases hjk : j = k
      · simp [hjk]
      · simp [hj, hjk]

theorem mem_stored {elements : ℤ} {k : Fin kMaxElements} :
    k ∈ stored elements ↔ (k : ℤ) < elements := by
  rw [stored, List.mem_take_iff_getElem]
  constructor
  · rintro ⟨i, hi, rfl⟩
    simp only [List.length_finRange, List.getElem_finRange] at hi ⊢
    simp only [Fin.val_cast]
    omega
  · intro hk
    refine ⟨k, ?_, ?_⟩
    · have := k.2
      simp only [List.length_finRange]
      omega
    · simp

theorem readPoint_rowText (elements : ℤ) (p : CalPoint) (t : Bytes) :
    readPoint 2 elements (rowText elements p ++ t) = some (printed elements p, ascii "\n" ++ t) := by
  have hcorr : EndsNumber
      ((stored elements).flatMap (fun k => corrText (p.corr k)) ++ (ascii "\n" ++ t)) := by
    cases stored elements with
    | nil => exact endsNumber_line t
    | cons k ks =>
      rw [List.flatMap_cons, corrText, List.append_assoc, List.append_assoc]
      exact endsNumber_blank _
  simp only [rowText, List.append_assoc, readPoint]
  rw [scanNumber_fmtFixed (by norm_num) _ (endsNumber_blank _)]
  simp only [Option.bind_eq_bind, Option.bind_some, le_refl, if_true]
  rw [scanNumber_blank, scanNumber_fmtFixed (by norm_num) _ (endsNumber_blank _)]
  simp only [Option.bind_some]
  rw [scanNumber_blank, scanNumber_fmtFixed (by norm_num) _ hcorr]
  simp only [Option.bind_some]
  rw [readCorr_corrText p.corr _ 0 (endsNumber_line t)]
  simp only [Option.bind_some, mem_stored, printed, Pi.zero_apply]

theorem readPoint_line (ver m : ℤ) (t : Bytes) :
    readPoint ver m (ascii "\n" ++ t) = readPoint ver m t := by
  rw [readPoint, readPoint, scanNumber_line]

theorem readPoints_rowText (elements : ℤ) (pts : List CalPoint) :
    readPoints 2 elements pts.length (ascii "\n" ++ pts.flatMap (rowText elements)) =
      pts.map (printed elements) := by
  induction pts with
  | nil => rfl
  | cons p pts ih =>
    rw [List.length_cons, readPoints, readPoint_line, List.flatMap_cons, readPoint_rowText]
    simp only [List.map_cons, ih]

/-- What is loaded of a table, in place of another. -/
def reloaded (c d : Calib) : Calib where
  pts := d.pts.map (printed d.m)
  freq_hz := roundFixed 6 d.freq_hz
  m := d.m
  stamp := c.stamp + 2

/-- The file can be loaded: the context has as many elements as an array has. -/
def Loadable (c : Calib) : Prop := 1 ≤ c.m ∧ c.m ≤ kMaxElements

theorem load_save (c d : Calib) (hsize : d.pts.length ≤ kMaxCalPoints) :
    (d.Loadable → c.load d.save = (c.reloaded d, !d.pts.isEmpty)) ∧
    (¬ d.Loadable → c.load d.save = (c, false)) := by
  have htwo : ∀ c ∈ ([50] : Bytes), isDigit c = true := fun c hc => by
    rw [List.mem_singleton.1 hc]
    rfl
  have hver : scanInt d.save = some (2, ascii " " ++ (fmtFixed 6 d.freq_hz ++ (ascii " " ++
      (intText d.m ++ (ascii " " ++ (intText d.pts.length ++ (ascii "\n" ++
        d.pts.flatMap (rowText d.m)))))))) :=
    scanInt_digits htwo (by decide) (endsNumber_blank _ · · |>.1)
  have hblank : ∀ t, scanInt (ascii " " ++ t) = scanInt t := scanInt_blank
  have hm := scanInt_intText d.m (t := ascii " " ++ (intText d.pts.length ++ (ascii "\n" ++
    d.pts.flatMap (rowText d.m)))) fun c hc => (endsNumber_blank _ c hc).1
  have hn := scanInt_intText d.pts.length (t := ascii "\n" ++ d.pts.flatMap (rowText d.m))
    fun c hc => (endsNumber_line _ c hc).1
  have hheader : c.load d.save = if (2 : ℤ) < 1 ∨ (2 : ℤ) < 2 ∨ d.m < 1 ∨ (kMaxElements : ℤ) < d.m ∨
      (d.pts.length : ℤ) < 0 ∨ (kMaxCalPoints : ℤ) < d.pts.length then (c, false)
      else (c.reloaded d, !(d.pts.map (printed d.m)).isEmpty) := by
    rw [load, hver]
    simp only [Option.bind_eq_bind, Option.bind_some]
    rw [scanNumber_blank, scanNumber_fmtFixed (by norm_num) _ (endsNumber_blank _)]
    simp only [Option.bind_some]
    rw [hblank, hm]
    simp only [Option.bind_some]
    rw [hblank, hn]
    simp only [Option.bind_some, Int.toNat_natCast, readPoints_rowText, reloaded]
  have hsize' : (d.pts.length : ℤ) ≤ kMaxCalPoints := by exact_mod_cast hsize
  rw [hheader]
  constructor
  · rintro ⟨h1, h8⟩
    rw [if_neg (by omega), List.isEmpty_map]
  · intro hno
    rw [if_pos]
    unfold Loadable at hno
    omega

end Calib

end Bewe.Df
