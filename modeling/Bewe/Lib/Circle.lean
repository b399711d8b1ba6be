import Mathlib.Algebra.Order.Floor.Ring
import Mathlib.Algebra.Order.Field.Basic
import Mathlib.Tactic.Linarith
import Mathlib.Tactic.Ring
import Mathlib.Tactic.FieldSimp

/-!
# Points on a circle

Angles as numbers of a field, a turn being `p`. A difference is wrapped to the half turns around zero
(`wrap`), and for two angles of one turn its absolute value is their distance on the circle
(`le_abs_wrap_iff`). Angles in order cut the circle into arcs from each to the next, the last arc
leading back to the first. An angle lies on the first arc that is long enough to reach it
(`exists_arc`), and no other of the angles lies inside that arc (`not_inside_arc`).
-/

namespace Lib

local instance two_atLeastTwo : Nat.AtLeastTwo 2 := ⟨le_rfl⟩

variable {K : Type*} [Field K] [LinearOrder K] [IsStrictOrderedRing K]

/-! ## Differences -/

section

variable [FloorRing K]

/-- A difference, less the turns that bring it to the half turns around zero. -/
def wrap (p d : K) : K := d - p * ⌈(d - p / 2) / p⌉

theorem wrap_add_mul {p : K} (hp : 0 < p) (d : K) (k : ℤ) : wrap p (d + p * k) = wrap p d := by
  have hdiv : (d + p * k - p / 2) / p = (d - p / 2) / p + k := by
    field_simp
    ring
  rw [wrap, wrap, hdiv, Int.ceil_add_intCast]
  push_cast
  ring

theorem wrap_of_mem {p d : K} (hp : 0 < p) (hlo : -(p / 2) < d) (hhi : d ≤ p / 2) :
    wrap p d = d := by
  have hceil : ⌈(d - p / 2) / p⌉ = 0 := by
    rw [Int.ceil_eq_zero_iff]
    constructor
    · rw [lt_div_iff₀ hp]
      linarith
    · exact div_nonpos_of_nonpos_of_nonneg (by linarith) hp.le
  rw [wrap, hceil, Int.cast_zero, mul_zero, sub_zero]

/-- Two angles of one turn are as far apart as the shorter way around. -/
theorem le_abs_wrap_iff {p a b δ : K} (hp : 0 < p) (ha : 0 ≤ a) (ha' : a < p) (hb : 0 ≤ b)
    (hb' : b < p) : δ ≤ |wrap p (a - b)| ↔ δ ≤ |a - b| ∧ |a - b| ≤ p - δ := by
  rcases le_or_gt (a - b) (-(p / 2)) with hlo | hlo
  · have hw : wrap p (a - b) = a - b + p := by
      rw [← wrap_add_mul hp (a - b) 1, Int.cast_one, mul_one]
      exact wrap_of_mem hp (by linarith) (by linarith)
    rw [hw, abs_of_pos (by linarith : 0 < a - b + p), abs_of_nonpos (by linarith : a - b ≤ 0)]
    constructor
    · intro h
      exact ⟨by linarith, by linarith⟩
    · rintro ⟨-, h⟩
      linarith
  · rcases le_or_gt (a - b) (p / 2) with hhi | hhi
    · rw [wrap_of_mem hp hlo hhi]
      refine ⟨fun h => ⟨h, ?_⟩, fun h => h.1⟩
      have habs : |a - b| ≤ p / 2 := abs_le.2 ⟨hlo.le, hhi⟩
      linarith
    · have hw : wrap p (a - b) = a - b - p := by
        rw [← wrap_add_mul hp (a - b) (-1), Int.cast_neg, Int.cast_one, mul_neg, mul_one,
          ← sub_eq_add_neg]
        exact wrap_of_mem hp (by linarith) (by linarith)
      rw [hw, abs_of_neg (by linarith : a - b - p < 0), abs_of_pos (by linarith : 0 < a - b)]
      constructor
      · intro h
        exact ⟨by linarith, by linarith⟩
      · rintro ⟨-, h⟩
        linarith

end

/-! ## Arcs -/

/-- The way from one angle to another, less than a turn. -/
def ahead (p a b : K) : K := if b - a < 0 then b - a + p else b - a

/-- The length of the arc from one angle to the next, a whole turn if they are the same. -/
def arc (p a b : K) : K := if b - a ≤ 0 then b - a + p else b - a

section

variable {p : K} {n : ℕ} {x : ℕ → K} {y : K}

/-- Angles of one turn, in order. -/
structure Ordered (p : K) (n : ℕ) (x : ℕ → K) : Prop where
  lt : ∀ i j, i < j → j < n → x i < x j
  nonneg : ∀ i < n, 0 ≤ x i
  lt_turn : ∀ i < n, x i < p

omit [IsStrictOrderedRing K] in
theorem Ordered.le (h : Ordered p n x) {i j : ℕ} (hij : i ≤ j) (hj : j < n) : x i ≤ x j := by
  rcases hij.lt_or_eq with hlt | rfl
  · exact (h.lt i j hlt hj).le
  · exact le_rfl

/-- An angle lies on the arc that begins at the last angle before it, or else on the last one. -/
theorem exists_arc (h : Ordered p n x) (hn : 0 < n) (hy : y < p) :
    ∃ i < n, ahead p (x i) y ≤ arc p (x i) (x ((i + 1) % n)) := by
  by_cases hfirst : y < x 0
  · -- before the first angle: the last arc leads there
    refine ⟨n - 1, by omega, ?_⟩
    have hlast := h.le (show 0 ≤ n - 1 by omega) (by omega)
    rw [show (n - 1 + 1) % n = 0 by rw [Nat.sub_add_cancel hn, Nat.mod_self]]
    rw [ahead, arc, if_pos (by linarith), if_pos (by linarith)]
    linarith
  · have hex : ∃ i, i < n ∧ x i ≤ y ∧ ∀ j, i < j → j < n → y < x j := by
      by_contra hno
      push Not at hno
      have hall : ∀ i, i < n → x i ≤ y := fun i => by
        induction i with
        | zero => exact fun _ => not_lt.1 hfirst
        | succ i ih =>
          intro hi
          obtain ⟨j, hij, hj, hle⟩ := hno i (by omega) (ih (by omega))
          exact (h.le hij hj).trans hle
      obtain ⟨j, hj, hjn, -⟩ := hno (n - 1) (by omega) (hall _ (by omega))
      omega
    obtain ⟨i, hi, hle, hnext⟩ := hex
    refine ⟨i, hi, ?_⟩
    rw [ahead, if_neg (by linarith)]
    by_cases hend : i + 1 < n
    · have hlt := hnext (i + 1) (by omega) hend
      rw [Nat.mod_eq_of_lt hend, arc, if_neg (by linarith)]
      linarith
    · have hmod : (i + 1) % n = 0 := by rw [show i + 1 = n by omega, Nat.mod_self]
      have h0 := h.le (Nat.zero_le i) hi
      have hpos := h.nonneg 0 hn
      rw [hmod, arc, if_pos (by linarith)]
      linarith

/-- No angle lies inside of the arc from an angle to the next. -/
theorem not_inside_arc (h : Ordered p n x) {i k : ℕ} (hi : i < n) (hk : k < n) (hki : k ≠ i) :
    arc p (x i) (x ((i + 1) % n)) ≤ ahead p (x i) (x k) := by
  have hmod : i + 1 < n ∨ (i + 1) % n = 0 ∧ i = n - 1 := by
    rcases (show i + 1 < n ∨ i + 1 = n by omega) with hlt | heq
    · exact Or.inl hlt
    · exact Or.inr ⟨by rw [heq, Nat.mod_self], by omega⟩
  have hin := h.lt_turn i hi
  rcases hmod with hlt | ⟨hzero, hlast⟩
  · rw [Nat.mod_eq_of_lt hlt, arc, if_neg (by have := h.lt i (i + 1) (by omega) hlt; linarith)]
    rcases lt_or_gt_of_ne hki with hbefore | hafter
    · have h1 := h.lt k i hbefore hi
      have h2 := h.nonneg k hk
      have h3 := h.lt_turn (i + 1) hlt
      rw [ahead, if_pos (by linarith)]
      linarith
    · have h1 := h.le (show i + 1 ≤ k by omega) hk
      have h2 := h.lt i (i + 1) (by omega) hlt
      rw [ahead, if_neg (by linarith)]
      linarith
  · have h0 := h.le (Nat.zero_le i) hi
    have h1 := h.lt k i (by omega) hi
    have h2 := h.le (Nat.zero_le k) hk
    rw [hzero, arc, if_pos (by linarith), ahead, if_pos (by linarith)]
    linarith

end

end Lib
