import Bewe.Df.Calib
import Mathlib.Analysis.SpecialFunctions.Complex.Arg

/-!
# Corrections between measured points

`Calib::correction`: the points around a bearing, and the correction between them, amplitude in
proportion and phase along the shorter way. Numbers are real and `kTwoPi` is twice `π`. Where the
table is what it should be, the two points are neighbours on the circle with the bearing between
them, and at the bearing of a point the correction is its own (`correction_of_table`).
-/

namespace Bewe.Df

open Complex (I)

/-! ## Interpolation -/

/-- A rational complex number as a complex number. -/
noncomputable def Cpx.toComplex (z : Cpx) : ℂ := ⟨z.re, z.im⟩

/-- `std::polar`. -/
noncomputable def polar (r p : ℝ) : ℂ := r * Complex.exp (p * I)

/-- The loops that bring a difference of phases to half a turn at most. -/
noncomputable def shortest (dp : ℝ) : ℝ :=
  if Real.pi < dp then dp - 2 * Real.pi * ⌈(dp - Real.pi) / (2 * Real.pi)⌉
  else if dp < -Real.pi then dp + 2 * Real.pi * ⌈(-Real.pi - dp) / (2 * Real.pi)⌉
  else dp

/-- The correction at the part `t` of the way from one to the other. -/
noncomputable def interpolate (c0 c1 : ℂ) (t : ℝ) : ℂ :=
  polar (‖c0‖ + (‖c1‖ - ‖c0‖) * t) (c0.arg + shortest (c1.arg - c0.arg) * t)

theorem interpolate_zero (c0 c1 : ℂ) : interpolate c0 c1 0 = c0 := by
  rw [interpolate, mul_zero, mul_zero, add_zero, add_zero, polar]
  exact Complex.norm_mul_exp_arg_mul_I c0

theorem exists_shortest (dp : ℝ) : ∃ k : ℤ, shortest dp = dp + k * (2 * Real.pi) := by
  unfold shortest
  split_ifs
  · refine ⟨-⌈(dp - Real.pi) / (2 * Real.pi)⌉, ?_⟩
    push_cast
    ring
  · exact ⟨⌈(-Real.pi - dp) / (2 * Real.pi)⌉, by ring⟩
  · exact ⟨0, by simp⟩

theorem interpolate_one (c0 c1 : ℂ) : interpolate c0 c1 1 = c1 := by
  obtain ⟨k, hk⟩ := exists_shortest (c1.arg - c0.arg)
  have hphase : ((c0.arg + (c1.arg - c0.arg + k * (2 * Real.pi)) : ℝ) : ℂ) * I =
      c1.arg * I + k * (2 * Real.pi * I) := by
    push_cast
    ring
  rw [interpolate, mul_one, mul_one, hk, add_sub_cancel, polar, hphase, Complex.exp_add,
    Complex.exp_int_mul_two_pi_mul_I, mul_one]
  exact Complex.norm_mul_exp_arg_mul_I c1

/-! ## The points around a bearing -/

/-- `pts_[i]`. -/
def pointAt (pts : List CalPoint) (i : ℕ) : CalPoint := pts.getD i {}

/-- The bearing of `pts_[i]`. -/
def bearingAt (pts : List CalPoint) (i : ℕ) : ℚ := (pointAt pts i).bearing_deg

/-- The loop that looks for the two points around a bearing. -/
def bracket (pts : List CalPoint) (bearing : ℚ) : ℕ × ℕ :=
  let n := pts.length
  let reached := fun i => decide (Lib.ahead 360 (bearingAt pts i) bearing ≤
    Lib.arc 360 (bearingAt pts i) (bearingAt pts ((i + 1) % n)))
  match (List.range n).find? reached with
  | some i => (i, (i + 1) % n)
  | none => (n - 1, 0)

/-- The part of the way between the two points. -/
def part (pts : List CalPoint) (bearing : ℚ) : ℚ :=
  let i := bracket pts bearing
  let span := Lib.arc 360 (bearingAt pts i.1) (bearingAt pts i.2)
  if 1 / 10 ^ 9 < span then Lib.ahead 360 (bearingAt pts i.1) bearing / span else 0

/-- `correction`. -/
noncomputable def Calib.correction (c : Calib) (bearing_deg : ℚ) (elements : ℤ)
    (m : Fin kMaxElements) : ℂ :=
  if c.pts.length < 2 ∨ elements ≠ c.m then 1
  else
    let bearing := fmod360 (bearing_deg + 360)
    let i := bracket c.pts bearing
    interpolate ((pointAt c.pts i.1).corr m).toComplex ((pointAt c.pts i.2).corr m).toComplex
      (part c.pts bearing)

section

variable {pts : List CalPoint}

theorem pointAt_of_lt {i : ℕ} (hi : i < pts.length) : pointAt pts i = pts[i] := by
  rw [pointAt, List.getD_eq_getElem?_getD, List.getElem?_eq_getElem hi]
  rfl

theorem Table.ordered (h : Table pts) : Lib.Ordered 360 pts.length (bearingAt pts) where
  lt i j hij hj := by
    rw [bearingAt, bearingAt, pointAt_of_lt hj, pointAt_of_lt (hij.trans hj)]
    exact List.pairwise_iff_getElem.1 h.sorted i j (hij.trans hj) hj hij
  nonneg i hi := by
    rw [bearingAt, pointAt_of_lt hi]
    exact (h.range _ (List.getElem_mem hi)).1
  lt_turn i hi := by
    rw [bearingAt, pointAt_of_lt hi]
    exact (h.range _ (List.getElem_mem hi)).2

theorem Table.far (h : Table pts) {i j : ℕ} (hi : i < pts.length) (hj : j < pts.length)
    (hij : i ≠ j) : 2 ≤ |bearingAt pts i - bearingAt pts j| ∧
      |bearingAt pts i - bearingAt pts j| ≤ 358 := by
  rw [bearingAt, bearingAt, pointAt_of_lt hi, pointAt_of_lt hj]
  have hri := h.range _ (List.getElem_mem hi)
  have hrj := h.range _ (List.getElem_mem hj)
  rcases lt_or_gt_of_ne hij with hlt | hgt
  · exact (two_le_abs_wrap180_iff hri hrj).1
      (List.pairwise_iff_getElem.1 h.apart i j hi hj hlt)
  · rw [abs_sub_comm]
    exact (two_le_abs_wrap180_iff hrj hri).1
      (List.pairwise_iff_getElem.1 h.apart j i hj hi hgt)

theorem Table.two_le_arc (h : Table pts) (hn : 2 ≤ pts.length) {i : ℕ} (hi : i < pts.length) :
    2 ≤ Lib.arc 360 (bearingAt pts i) (bearingAt pts ((i + 1) % pts.length)) := by
  have hne : i ≠ (i + 1) % pts.length := by
    rcases (show i + 1 < pts.length ∨ i + 1 = pts.length by omega) with hlt | heq
    · rw [Nat.mod_eq_of_lt hlt]
      omega
    · rw [heq, Nat.mod_self]
      omega
  obtain ⟨hge, hle⟩ := h.far hi (Nat.mod_lt _ (by omega)) hne
  unfold Lib.arc
  split_ifs with hneg
  · rw [abs_of_nonneg (by linarith)] at hle
    linarith
  · rw [abs_of_neg (by linarith)] at hge
    linarith

/-- The two points that are found are neighbours, and the bearing lies on the arc between them. -/
theorem bracket_spec (h : Table pts) (hn : 0 < pts.length) {bearing : ℚ} (hb : bearing < 360) :
    (bracket pts bearing).1 < pts.length ∧
      (bracket pts bearing).2 = ((bracket pts bearing).1 + 1) % pts.length ∧
      Lib.ahead 360 (bearingAt pts (bracket pts bearing).1) bearing ≤
        Lib.arc 360 (bearingAt pts (bracket pts bearing).1)
          (bearingAt pts (bracket pts bearing).2) := by
  obtain ⟨i, hi, hle⟩ := Lib.exists_arc h.ordered hn hb
  set reached := fun i => decide (Lib.ahead 360 (bearingAt pts i) bearing ≤
    Lib.arc 360 (bearingAt pts i) (bearingAt pts ((i + 1) % pts.length))) with hreached
  have hdef : bracket pts bearing = match (List.range pts.length).find? reached with
      | some i => (i, (i + 1) % pts.length)
      | none => (pts.length - 1, 0) := rfl
  cases hfind : (List.range pts.length).find? reached with
  | none =>
    have hno := List.find?_eq_none.1 hfind i (List.mem_range.2 hi)
    exact absurd (decide_eq_true hle) hno
  | some j =>
    have hj := List.mem_range.1 (List.mem_of_find?_eq_some hfind)
    have hle : reached j = true := List.find?_some hfind
    rw [hfind] at hdef
    rw [hdef]
    exact ⟨hj, rfl, of_decide_eq_true hle⟩

theorem bracket_stored (h : Table pts) (hn : 2 ≤ pts.length) {k : ℕ} (hk : k < pts.length) :
    ((bracket pts (bearingAt pts k)).1 = k ∧ part pts (bearingAt pts k) = 0) ∨
      ((bracket pts (bearingAt pts k)).2 = k ∧ part pts (bearingAt pts k) = 1) := by
  have hord := h.ordered
  obtain ⟨hi, hnext, hle⟩ := bracket_spec h (by omega) (hord.lt_turn k hk)
  have htwo := h.two_le_arc hn hi
  rw [← hnext] at htwo
  have hpart : part pts (bearingAt pts k) =
      Lib.ahead 360 (bearingAt pts (bracket pts (bearingAt pts k)).1) (bearingAt pts k) /
        Lib.arc 360 (bearingAt pts (bracket pts (bearingAt pts k)).1)
          (bearingAt pts (bracket pts (bearingAt pts k)).2) := by
    rw [part]
    exact if_pos (lt_of_lt_of_le (by norm_num) htwo)
  rw [hpart]
  generalize (bracket pts (bearingAt pts k)).2 = i1 at hnext hle htwo ⊢
  generalize (bracket pts (bearingAt pts k)).1 = i0 at hi hnext hle htwo ⊢
  by_cases hik : k = i0
  · left
    rw [hik, Lib.ahead, sub_self, if_neg (lt_irrefl _), zero_div]
    exact ⟨rfl, rfl⟩
  · -- the point ends the arc that reaches it
    right
    have hend := Lib.not_inside_arc hord hi hk hik
    rw [← hnext] at hend
    have heq := le_antisymm hle hend
    have hi1 : i1 < pts.length := hnext ▸ Nat.mod_lt _ (by omega)
    refine ⟨?_, by rw [heq, div_self (by linarith)]⟩
    by_contra hne
    obtain ⟨hge, hle'⟩ := h.far hk hi1 (Ne.symm hne)
    unfold Lib.ahead Lib.arc at heq
    split_ifs at heq
    all_goals
      rcases abs_cases (bearingAt pts k - bearingAt pts i1) with ⟨habs, -⟩ | ⟨habs, -⟩ <;>
        rw [habs] at hge hle' <;> linarith

end

/-- In a table of two points at least the correction at the bearing of a point is its own, and at
any bearing it is one between two neighbours, none of the others being on the arc from one to the
other: between them at the place of a bearing of the first turn. -/
theorem correction_of_table {c : Calib} (h : Table c.pts) (hn : 2 ≤ c.pts.length) :
    (∀ k < c.pts.length, ∀ m,
      c.correction (bearingAt c.pts k) c.m m = ((pointAt c.pts k).corr m).toComplex) ∧
    ∀ bearing, ∃ i < c.pts.length, ∃ t : ℚ,
      (∀ m, c.correction bearing c.m m = interpolate ((pointAt c.pts i).corr m).toComplex
        ((pointAt c.pts ((i + 1) % c.pts.length)).corr m).toComplex t) ∧
      Lib.ahead 360 (bearingAt c.pts i) (fmod360 (bearing + 360)) =
        t * Lib.arc 360 (bearingAt c.pts i) (bearingAt c.pts ((i + 1) % c.pts.length)) ∧
      t ≤ 1 ∧ (InTurn bearing → 0 ≤ t) ∧ ∀ k < c.pts.length, k ≠ i →
        Lib.arc 360 (bearingAt c.pts i) (bearingAt c.pts ((i + 1) % c.pts.length)) ≤
          Lib.ahead 360 (bearingAt c.pts i) (bearingAt c.pts k) := by
  have hord := h.ordered
  have hcorr : ∀ bearing m, c.correction bearing c.m m =
      interpolate ((pointAt c.pts (bracket c.pts (fmod360 (bearing + 360))).1).corr m).toComplex
        ((pointAt c.pts (bracket c.pts (fmod360 (bearing + 360))).2).corr m).toComplex
        (part c.pts (fmod360 (bearing + 360))) := fun bearing m => by
    rw [Calib.correction, if_neg (by simp; omega)]
  constructor
  · intro k hk m
    rw [hcorr, fmod360_add (hord.nonneg k hk) (hord.lt_turn k hk)]
    rcases bracket_stored h hn hk with ⟨hi, ht⟩ | ⟨hi, ht⟩
    · rw [hi, ht, Rat.cast_zero, interpolate_zero]
    · rw [hi, ht, Rat.cast_one, interpolate_one]
  · intro bearing
    obtain ⟨hi, hnext, hle⟩ := bracket_spec h (by omega) (fmod360_lt (bearing + 360))
    have htwo := h.two_le_arc hn hi
    rw [← hnext] at htwo
    have hpart : part c.pts (fmod360 (bearing + 360)) =
        Lib.ahead 360 (bearingAt c.pts (bracket c.pts (fmod360 (bearing + 360))).1)
            (fmod360 (bearing + 360)) /
          Lib.arc 360 (bearingAt c.pts (bracket c.pts (fmod360 (bearing + 360))).1)
            (bearingAt c.pts (bracket c.pts (fmod360 (bearing + 360))).2) :=
      if_pos (lt_of_lt_of_le (by norm_num) htwo)
    refine ⟨_, hi, part c.pts (fmod360 (bearing + 360)), fun m => ?_, ?_, ?_, fun hb => ?_,
      fun k hk hki => Lib.not_inside_arc hord hi hk hki⟩
    · rw [hcorr, hnext]
    · rw [hpart, ← hnext, div_mul_cancel₀ _ (by linarith)]
    · rw [hpart, div_le_one (by linarith)]
      exact hle
    · -- from a point on, a bearing of the first turn is ahead
      obtain ⟨h0, hlt⟩ := (inTurn_iff bearing).1 hb
      have ha := hord.lt_turn _ hi
      rw [hpart]
      refine div_nonneg ?_ (by linarith)
      rw [Lib.ahead]
      split_ifs <;> linarith

end Bewe.Df
