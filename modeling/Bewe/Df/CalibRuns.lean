import Bewe.Df.CalibFile

/-!
# Runs of the calibration table

All orders of `set_context`, `add`, `remove_at`, `clear`, `save`, and `load`. Removing and clearing
keep a table, and so does what has no effect on the points. A measurement keeps it exactly if it
fits (`table_add_iff`), and loading exactly if the bearings that were saved keep their distances in
print (`table_printed_iff`). A run goes through tables only, with corrections of neighbours, exactly
if its steps all fit (`sound_runs_iff`).
-/

namespace Bewe.Df

open Lib

/-! ## What a table is for -/

namespace Calib

/-- The table is what it should be, and so are the corrections from two points on: at the bearing of
a point its own, and elsewhere one between neighbours. -/
structure Sound (c : Calib) : Prop where
  table : Table c.pts
  own : 2 ≤ c.pts.length → ∀ k < c.pts.length, ∀ m,
    c.correction (bearingAt c.pts k) c.m m = ((pointAt c.pts k).corr m).toComplex
  between : 2 ≤ c.pts.length → ∀ bearing, ∃ i < c.pts.length, ∃ t : ℚ,
    (∀ m, c.correction bearing c.m m = interpolate ((pointAt c.pts i).corr m).toComplex
      ((pointAt c.pts ((i + 1) % c.pts.length)).corr m).toComplex t) ∧
    ahead 360 (bearingAt c.pts i) (fmod360 (bearing + 360)) =
      t * arc 360 (bearingAt c.pts i) (bearingAt c.pts ((i + 1) % c.pts.length)) ∧
    t ≤ 1 ∧ (InTurn bearing → 0 ≤ t) ∧ ∀ k < c.pts.length, k ≠ i →
      arc 360 (bearingAt c.pts i) (bearingAt c.pts ((i + 1) % c.pts.length)) ≤
        ahead 360 (bearingAt c.pts i) (bearingAt c.pts k)

theorem sound_iff (c : Calib) : c.Sound ↔ Table c.pts := by
  refine ⟨Sound.table, fun h => ⟨h, fun hn => ?_, fun hn => ?_⟩⟩
  · exact (correction_of_table h hn).1
  · exact (correction_of_table h hn).2

/-! ## In print -/

/-- The bearings keep their distances when they are rounded to four decimals, and stay within the
turn. -/
structure Prints (pts : List CalPoint) : Prop where
  range : ∀ p ∈ pts, roundFixed 4 p.bearing_deg < 360
  apart : pts.Pairwise fun p q =>
    2 ≤ |wrap180 (roundFixed 4 p.bearing_deg - roundFixed 4 q.bearing_deg)|

theorem roundSig_one : roundSig 9 1 = 1 := by
  have hround : roundHalfEven (100000000 : ℚ) = 100000000 := by
    exact_mod_cast roundHalfEven_intCast 100000000
  have hlog : Int.log 10 (1 : ℚ) = 0 := Int.log_one_right 10
  have htoNat : Int.toNat 100000000 = 100000000 := rfl
  have hdigits : sigDigits 9 1 = (100000000, 0) := by
    norm_num [sigDigits, hlog, hround, htoNat]
  norm_num [roundSig, hdigits]

theorem roundSig_zero : roundSig 9 0 = 0 := if_pos rfl

theorem printed_element0 {elements : ℤ} (he : 1 ≤ elements) {p : CalPoint}
    (hp : p.corr element0 = 1) : (printed elements p).corr element0 = 1 := by
  have h0 : ((element0 : Fin kMaxElements) : ℤ) < elements := lt_of_lt_of_le (by decide) he
  have hre : (1 : Cpx).re = 1 := rfl
  have him : (1 : Cpx).im = 0 := rfl
  change (if ((element0 : Fin kMaxElements) : ℤ) < elements then _ else _) = _
  rw [if_pos h0, hp, hre, him, roundSig_one, roundSig_zero]
  rfl

theorem table_printed_iff {elements : ℤ} (he : 1 ≤ elements) {pts : List CalPoint}
    (h : Table pts) : Table (pts.map (printed elements)) ↔ Prints pts := by
  constructor
  · intro ht
    refine ⟨fun p hp => (ht.range _ (List.mem_map_of_mem hp)).2, ?_⟩
    exact List.pairwise_map.1 ht.apart
  · intro hp
    refine ⟨?_, ?_, List.pairwise_map.2 hp.apart, ?_, ?_⟩
    · -- two degrees are more than the rounding takes
      refine List.pairwise_map.2 ((h.sorted.and h.apart).imp_of_mem ?_)
      rintro p q hpm hqm ⟨hlt, hfar⟩
      have hge := ((two_le_abs_wrap180_iff (h.range p hpm) (h.range q hqm)).1 hfar).1
      rw [abs_of_neg (by linarith)] at hge
      have h1 := abs_le.1 (abs_roundFixed_sub_le 4 p.bearing_deg)
      have h2 := abs_le.1 (abs_roundFixed_sub_le 4 q.bearing_deg)
      norm_num at h1 h2
      change roundFixed 4 p.bearing_deg < roundFixed 4 q.bearing_deg
      linarith
    · intro p' hp'
      obtain ⟨p, hpm, rfl⟩ := List.mem_map.1 hp'
      exact ⟨roundFixed_nonneg 4 (h.range p hpm).1, hp.range p hpm⟩
    · rw [List.length_map]
      exact h.size
    · intro p' hp'
      obtain ⟨p, hpm, rfl⟩ := List.mem_map.1 hp'
      exact printed_element0 he (h.reference p hpm)

end Calib

/-! ## Runs -/

/-- What is done with a table. Files may not open. -/
inductive CalibOp
  | setContext (freq_hz : ℚ) (elements : ℤ)
  | add (bearing_deg measured_deg snr_db : ℚ) (measured theory : Fin kMaxElements → Cpx)
    (elements : ℤ)
  | removeAt (idx : ℤ)
  | clear
  | save (opens : Bool)
  | load (opens : Bool)

/-- A table and its file. -/
structure CalibStore where
  calib : Calib := {}
  file : Option Bytes := none

namespace CalibStore

open Calib

/-- One operation. -/
def step (s : CalibStore) : CalibOp → CalibStore
  | .setContext freq_hz elements => { s with calib := s.calib.setContext freq_hz elements }
  | .add bearing_deg measured_deg snr_db measured theory elements =>
    { s with calib := s.calib.add bearing_deg measured_deg snr_db measured theory elements }
  | .removeAt idx => { s with calib := s.calib.removeAt idx }
  | .clear => { s with calib := s.calib.clear }
  | .save opens => if opens then { s with file := some s.calib.save } else s
  | .load opens =>
    match s.file with
    | some file => if opens then { s with calib := (s.calib.load file).1 } else s
    | none => s

/-- An operation fits: a measurement among the points that are there, and a file that is loaded if
the table that was saved prints as one. -/
def Fits (s : CalibStore) : CalibOp → Prop
  | .add bearing_deg _ _ measured theory elements =>
    s.calib.AddFits bearing_deg measured theory elements
  | .load opens => opens = true → ∀ c : Calib,
    s.file = some c.save → Table c.pts → c.Loadable → Prints c.pts
  | _ => True

/-- The file was saved from a table. -/
def Saved (s : CalibStore) : Prop := ∀ file ∈ s.file, ∃ c : Calib, file = c.save ∧ Table c.pts

theorem saved_step {s : CalibStore} (op : CalibOp) (hs : s.Saved) (ht : Table s.calib.pts) :
    (s.step op).Saved := by
  cases op with
  | save opens =>
    cases opens with
    | true =>
      intro file hfile
      obtain rfl : s.calib.save = file := Option.some.inj hfile
      exact ⟨s.calib, rfl, ht⟩
    | false => exact hs
  | load opens =>
    rw [step]
    split
    · split <;> exact hs
    · exact hs
  | _ => exact hs

theorem table_removeAt {c : Calib} (h : Table c.pts) (idx : ℤ) : Table (c.removeAt idx).pts := by
  rw [removeAt]
  split_ifs
  · exact h
  · exact h.sublist (List.eraseIdx_sublist _ _)

theorem table_load_iff {s : CalibStore} (hs : s.Saved) (ht : Table s.calib.pts) (opens : Bool) :
    Table (s.step (.load opens)).calib.pts ↔ s.Fits (.load opens) := by
  have hload : ∀ d : Calib, Table d.pts → d.Loadable →
      (s.calib.load d.save).1.pts = d.pts.map (printed d.m) := fun d hd hl => by
    rw [(load_save s.calib d hd.size).1 hl]
    rfl
  rw [step, Fits]
  cases hfile : s.file with
  | none => exact ⟨fun _ _ c hc => absurd hc (by simp), fun _ => ht⟩
  | some file =>
    cases opens with
    | false => exact ⟨fun _ hno => absurd hno (by simp), fun _ => ht⟩
    | true =>
      dsimp only
      rw [if_pos rfl, imp_iff_right rfl]
      constructor
      · intro htable d hd htd hl
        obtain rfl : file = d.save := Option.some.inj hd
        rw [hload d htd hl] at htable
        exact (table_printed_iff hl.1 htd).1 htable
      · intro hprints
        obtain ⟨d, rfl, htd⟩ := hs file hfile
        by_cases hl : d.Loadable
        · rw [hload d htd hl]
          exact (table_printed_iff hl.1 htd).2 (hprints d rfl htd hl)
        · rw [(load_save s.calib d htd.size).2 hl]
          exact ht

theorem table_step_iff {s : CalibStore} (op : CalibOp) (hs : s.Saved) (ht : Table s.calib.pts) :
    Table (s.step op).calib.pts ↔ s.Fits op := by
  cases op with
  | setContext freq_hz elements => exact ⟨fun _ => trivial, fun _ => ht⟩
  | add bearing_deg measured_deg snr_db measured theory elements =>
    exact table_add_iff ht bearing_deg measured_deg snr_db measured theory elements
  | removeAt idx => exact ⟨fun _ => trivial, fun _ => table_removeAt ht idx⟩
  | clear => exact ⟨fun _ => trivial, fun _ => table_nil⟩
  | save opens =>
    refine ⟨fun _ => trivial, fun _ => ?_⟩
    cases opens <;> exact ht
  | load opens => exact table_load_iff hs ht opens

/-- In every state of a run the table is what it should be, and its corrections are between
neighbours, exactly if every operation fits where it comes. -/
theorem sound_runs_iff (ops : List CalibOp) :
    (∀ ops', ops' <+: ops → (ops'.foldl step {}).calib.Sound) ↔
      ∀ ops' op, ops' ++ [op] <+: ops → (ops'.foldl step {}).Fits op := by
  refine forall_prefix_foldl_iff (P := Saved) (Q := fun s => s.calib.Sound) ?_ ?_ ?_ ?_ ops
  · intro s op hs hq _
    exact saved_step op hs hq.table
  · intro s op hs hq
    rw [sound_iff]
    exact table_step_iff op hs hq.table
  · intro file hfile
    cases hfile
  · exact (sound_iff _).2 table_nil

/-- Measurements with the same reading at all elements as in theory. -/
def measure (bearing_deg : ℚ) : CalibOp := .add bearing_deg bearing_deg 20 1 1 5

/-- A point at half a degree is replaced by one on the other side of north, and stays the first. -/
theorem not_sound_across_north :
    ¬(([.setContext 438000000 5, measure (1 / 2), measure 10, measure (719 / 2)].foldl step
      {}).calib.Sound) := by
  intro h
  have hbearings : ([.setContext 438000000 5, measure (1 / 2), measure 10,
      measure (719 / 2)].foldl step {}).calib.pts.map (fun p => p.bearing_deg) = [719 / 2, 10] := by
    norm_num [step, measure, setContext, add, place, near, wrap180, Lib.wrap, fmod360,
      kMaxCalPoints, kMaxElements, List.findIdx?_cons]
  have hsorted := List.pairwise_map.2 h.table.sorted
  rw [hbearings] at hsorted
  norm_num at hsorted

end CalibStore

end Bewe.Df
