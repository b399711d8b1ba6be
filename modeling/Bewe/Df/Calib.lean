import Bewe.Df.Config
import Bewe.Lib.Circle
import Mathlib.Algebra.QuadraticAlgebra.Basic
import Mathlib.Algebra.Order.Round

/-!
# The calibration table

`df::Calib` without its file: measured points by bearing, each with a complex correction for every
element. Numbers are rational, so nothing is rounded, and a complex number has rational parts. A
point near an earlier one replaces it where that one stands, so the order and the distances hold in
exactly the runs in which what is replaced has no other point near the new one and does not lie
across north (`table_add_iff`).
-/

namespace Bewe.Df

/-! ## Numbers -/

/-- `std::complex<double>`, exactly. -/
abbrev Cpx := QuadraticAlgebra ℚ (-1) 0

instance sq_ne_neg_one : Fact (∀ r : ℚ, r ^ 2 ≠ -1 + 0 * r) := ⟨fun r h => by nlinarith [sq_nonneg r]⟩

/-- `std::abs(z) > t`, for a bound that is not negative. -/
def absGt (z : Cpx) (t : ℚ) : Bool := t ^ 2 < z.re ^ 2 + z.im ^ 2

/-- `std::fmod(x, 360.0)`: the remainder of a division towards zero. -/
def fmod360 (x : ℚ) : ℚ := x - 360 * if 0 ≤ x then ⌊x / 360⌋ else ⌈x / 360⌉

/-- `wrap180`: turns are added until the difference is above `-180` and taken away until it is `180`
at most. -/
def wrap180 (d : ℚ) : ℚ := Lib.wrap 360 d

/-! ## The table -/

/-- Element 0, the reference of the phases. -/
def element0 : Fin kMaxElements := ⟨0, by decide⟩

/-- `kMaxCalPoints`. -/
def kMaxCalPoints : ℕ := 36

/-- `CalPoint`. -/
structure CalPoint where
  bearing_deg : ℚ := 0
  measured_deg : ℚ := 0
  snr_db : ℚ := 0
  corr : Fin kMaxElements → Cpx := 0

/-- `Calib`: the points in use, the context, and the stamp. -/
structure Calib where
  pts : List CalPoint := []
  freq_hz : ℚ := 0
  m : ℤ := 0
  stamp : UInt32 := 0

namespace Calib

/-- `set_context`. -/
def setContext (c : Calib) (freq_hz : ℚ) (elements : ℤ) : Calib :=
  { c with freq_hz := freq_hz, m := elements, stamp := c.stamp + 1 }

/-- `clear`. -/
def clear (c : Calib) : Calib := { pts := [], freq_hz := 0, m := 0, stamp := c.stamp + 1 }

/-- `remove_at`. -/
def removeAt (c : Calib) (idx : ℤ) : Calib :=
  if idx < 0 ∨ (c.pts.length : ℤ) ≤ idx then c
  else { c with pts := c.pts.eraseIdx idx.toNat, stamp := c.stamp + 1 }

/-- The correction of an element before the phases are fixed: measured by theory. -/
def rawCorr (measured theory : Fin kMaxElements → Cpx) (m : Fin kMaxElements) : Cpx :=
  if absGt (theory m) (1 / 10 ^ 12) then measured m / theory m else 1

/-- The corrections of a new point. -/
def newCorr (measured theory : Fin kMaxElements → Cpx) (elements : ℤ) (m : Fin kMaxElements) : Cpx :=
  if (m : ℤ) < elements then
    if absGt (rawCorr measured theory element0) (1 / 10 ^ 12) then
      rawCorr measured theory m * (1 / rawCorr measured theory element0)
    else rawCorr measured theory m
  else 0

/-- A point is near a bearing: nearer than two degrees. -/
def near (bearing : ℚ) (q : CalPoint) : Bool := |wrap180 (q.bearing_deg - bearing)| < 2

/-- A new point among the others: in place of the first that is near, or by its bearing if there is
room. -/
def place (p : CalPoint) (pts : List CalPoint) : Option (List CalPoint) :=
  match pts.findIdx? (near p.bearing_deg) with
  | some i => some (pts.set i p)
  | none =>
    if kMaxCalPoints ≤ pts.length then none
    else
      let before := fun q : CalPoint => decide (q.bearing_deg ≤ p.bearing_deg)
      some (pts.takeWhile before ++ p :: pts.dropWhile before)

/-- `add`. -/
def add (c : Calib) (bearing_deg measured_deg snr_db : ℚ) (measured theory : Fin kMaxElements → Cpx)
    (elements : ℤ) : Calib :=
  if elements < 1 ∨ (kMaxElements : ℤ) < elements then c
  else
    let p : CalPoint := {
      bearing_deg := fmod360 (bearing_deg + 360)
      measured_deg := measured_deg
      snr_db := snr_db
      corr := newCorr measured theory elements }
    match place p c.pts with
    | some pts => { c with pts := pts, stamp := c.stamp + 1 }
    | none => c

/-- `same_context`. -/
def sameContext (c : Calib) (freq_hz : ℚ) (elements : ℤ) : Bool :=
  if c.m ≠ elements ∨ c.freq_hz ≤ 0 ∨ freq_hz ≤ 0 then false
  else |freq_hz - c.freq_hz| / c.freq_hz < 5 / 100

/-- `usable_at`. -/
def usableAt (c : Calib) (freq_hz : ℚ) (elements : ℤ) : Bool :=
  decide (2 ≤ c.pts.length) && c.sameContext freq_hz elements

end Calib

/-! ## Bearings -/

theorem fmod360_of_nonneg {x : ℚ} (h : 0 ≤ x) : 0 ≤ fmod360 x ∧ fmod360 x < 360 := by
  have hle := Int.floor_le (x / 360)
  have hlt := Int.lt_floor_add_one (x / 360)
  rw [le_div_iff₀ (by norm_num)] at hle
  rw [div_lt_iff₀ (by norm_num)] at hlt
  rw [fmod360, if_pos h]
  constructor <;> linarith

theorem fmod360_add {x : ℚ} (h : 0 ≤ x) (h' : x < 360) : fmod360 (x + 360) = x := by
  have hfloor : ⌊(x + 360) / 360⌋ = 1 := by
    rw [Int.floor_eq_iff]
    push_cast
    constructor
    · rw [le_div_iff₀ (by norm_num)]
      linarith
    · rw [div_lt_iff₀ (by norm_num)]
      linarith
  rw [fmod360, if_pos (by linarith), hfloor]
  push_cast
  ring

theorem fmod360_of_neg {x : ℚ} (h : x < 0) : fmod360 x ≤ 0 := by
  have hle := Int.le_ceil (x / 360)
  rw [div_le_iff₀ (by norm_num)] at hle
  rw [fmod360, if_neg (not_le.2 h)]
  linarith

theorem fmod360_lt (x : ℚ) : fmod360 x < 360 := by
  rcases le_or_gt 0 x with h | h
  · exact (fmod360_of_nonneg h).2
  · exact (fmod360_of_neg h).trans_lt (by norm_num)

/-- A bearing that the remainder takes into the first turn: one from `-360` on, or whole turns. -/
def InTurn (bearing : ℚ) : Prop := -360 ≤ bearing ∨ ∃ k : ℤ, bearing = 360 * k

theorem inTurn_iff (bearing : ℚ) :
    InTurn bearing ↔ 0 ≤ fmod360 (bearing + 360) ∧ fmod360 (bearing + 360) < 360 := by
  constructor
  · rintro (h | ⟨k, rfl⟩)
    · exact fmod360_of_nonneg (by linarith)
    · have hdiv : (360 * (k : ℚ) + 360) / 360 = ((k + 1 : ℤ) : ℚ) := by
        push_cast
        ring
      have hzero : fmod360 (360 * (k : ℚ) + 360) = 0 := by
        rw [fmod360, hdiv, Int.floor_intCast, Int.ceil_intCast, ite_self]
        push_cast
        ring
      rw [hzero]
      norm_num
  · rintro ⟨h, -⟩
    by_cases hneg : bearing + 360 < 0
    · -- a negative remainder is zero only where the division leaves none
      have hzero : fmod360 (bearing + 360) = 0 := le_antisymm (fmod360_of_neg hneg) h
      rw [fmod360, if_neg (not_le.2 hneg)] at hzero
      refine Or.inr ⟨⌈(bearing + 360) / 360⌉ - 1, ?_⟩
      push_cast
      linarith
    · exact Or.inl (by linarith)

/-! ## The representation -/

/-- What a table is: in order of the bearings, all of one turn, two degrees apart at least, with
the reference element corrected by nothing. -/
structure Table (pts : List CalPoint) : Prop where
  sorted : pts.Pairwise fun p q => p.bearing_deg < q.bearing_deg
  range : ∀ p ∈ pts, 0 ≤ p.bearing_deg ∧ p.bearing_deg < 360
  apart : pts.Pairwise fun p q => 2 ≤ |wrap180 (p.bearing_deg - q.bearing_deg)|
  size : pts.length ≤ kMaxCalPoints
  reference : ∀ p ∈ pts, p.corr element0 = 1

theorem two_le_abs_wrap180_iff {a b : ℚ} (ha : 0 ≤ a ∧ a < 360) (hb : 0 ≤ b ∧ b < 360) :
    2 ≤ |wrap180 (a - b)| ↔ 2 ≤ |a - b| ∧ |a - b| ≤ 358 := by
  rw [wrap180, Lib.le_abs_wrap_iff (by norm_num) ha.1 ha.2 hb.1 hb.2]
  norm_num

theorem two_le_abs_wrap180_comm {a b : ℚ} (ha : 0 ≤ a ∧ a < 360) (hb : 0 ≤ b ∧ b < 360) :
    2 ≤ |wrap180 (a - b)| ↔ 2 ≤ |wrap180 (b - a)| := by
  rw [two_le_abs_wrap180_iff ha hb, two_le_abs_wrap180_iff hb ha, abs_sub_comm]

theorem table_nil : Table [] :=
  ⟨List.Pairwise.nil, by simp, List.Pairwise.nil, by decide, by simp⟩

theorem Table.sublist {pts pts' : List CalPoint} (h : Table pts) (hs : pts'.Sublist pts) :
    Table pts' where
  sorted := h.sorted.sublist hs
  range p hp := h.range p (hs.subset hp)
  apart := h.apart.sublist hs
  size := hs.length_le.trans h.size
  reference p hp := h.reference p (hs.subset hp)

theorem table_insert_iff {l₁ l₂ : List CalPoint} {p : CalPoint} (h : Table (l₁ ++ l₂)) :
    Table (l₁ ++ p :: l₂) ↔
      (0 ≤ p.bearing_deg ∧ p.bearing_deg < 360) ∧ p.corr element0 = 1 ∧
        (∀ r ∈ l₁, r.bearing_deg < p.bearing_deg) ∧ (∀ r ∈ l₂, p.bearing_deg < r.bearing_deg) ∧
          (∀ r ∈ l₁ ++ l₂, 2 ≤ |wrap180 (r.bearing_deg - p.bearing_deg)|) ∧
            (l₁ ++ l₂).length < kMaxCalPoints := by
  have hmem : p ∈ l₁ ++ p :: l₂ := by simp
  have hlen : (l₁ ++ p :: l₂).length = (l₁ ++ l₂).length + 1 := by
    simp only [List.length_append, List.length_cons]
    omega
  constructor
  · intro ht
    have hrange := ht.range p hmem
    obtain ⟨-, hcons, hbefore⟩ := List.pairwise_append.1 ht.sorted
    obtain ⟨-, hcons', hbefore'⟩ := List.pairwise_append.1 ht.apart
    refine ⟨hrange, ht.reference p hmem, fun r hr => hbefore r hr p List.mem_cons_self,
      (List.pairwise_cons.1 hcons).1, fun r hr => ?_, ?_⟩
    · rcases List.mem_append.1 hr with hr' | hr'
      · exact hbefore' r hr' p List.mem_cons_self
      · exact (two_le_abs_wrap180_comm hrange (h.range r hr)).1
          ((List.pairwise_cons.1 hcons').1 r hr')
    · have := ht.size
      omega
  · rintro ⟨hrange, href, hlt₁, hlt₂, hfar, hsize⟩
    obtain ⟨hs₁, hs₂, hs⟩ := List.pairwise_append.1 h.sorted
    obtain ⟨ha₁, ha₂, ha⟩ := List.pairwise_append.1 h.apart
    have hall : ∀ {P : CalPoint → Prop}, P p → (∀ r ∈ l₁ ++ l₂, P r) → ∀ r ∈ l₁ ++ p :: l₂, P r := by
      intro P hp hP r hr
      rcases List.mem_append.1 hr with hr | hr
      · exact hP r (List.mem_append_left _ hr)
      · rcases List.mem_cons.1 hr with rfl | hr
        · exact hp
        · exact hP r (List.mem_append_right _ hr)
    refine ⟨List.pairwise_append.2 ⟨hs₁, List.pairwise_cons.2 ⟨hlt₂, hs₂⟩, fun r hr s hs' => ?_⟩,
      hall hrange h.range,
      List.pairwise_append.2 ⟨ha₁, List.pairwise_cons.2 ⟨fun r hr => ?_, ha₂⟩, fun r hr s hs' => ?_⟩,
      by omega, hall href h.reference⟩
    · rcases List.mem_cons.1 hs' with rfl | hs'
      · exact hlt₁ r hr
      · exact hs r hr s hs'
    · have hr' : r ∈ l₁ ++ l₂ := List.mem_append_right _ hr
      exact (two_le_abs_wrap180_comm (h.range r hr') hrange).1 (hfar r hr')
    · rcases List.mem_cons.1 hs' with rfl | hs'
      · exact hfar r (List.mem_append_left _ hr)
      · exact ha r hr s hs'

/-! ## Adding a point -/

namespace Calib

theorem near_eq_false_iff {β : ℚ} {q : CalPoint} :
    near β q = false ↔ 2 ≤ |wrap180 (q.bearing_deg - β)| := by
  rw [near, decide_eq_false_iff_not, not_lt]

theorem place_of_far {p : CalPoint} {pts : List CalPoint}
    (hfar : ∀ q ∈ pts, near p.bearing_deg q = false) (hroom : pts.length < kMaxCalPoints) :
    place p pts = some (pts.takeWhile (fun q => decide (q.bearing_deg ≤ p.bearing_deg)) ++
      p :: pts.dropWhile (fun q => decide (q.bearing_deg ≤ p.bearing_deg))) := by
  have hnone : pts.findIdx? (near p.bearing_deg) = none :=
    List.findIdx?_eq_none_iff.2 hfar
  rw [place, hnone]
  exact if_neg (not_le.2 hroom)

theorem place_of_full {p : CalPoint} {pts : List CalPoint}
    (hfar : ∀ q ∈ pts, near p.bearing_deg q = false) (hfull : kMaxCalPoints ≤ pts.length) :
    place p pts = none := by
  have hnone : pts.findIdx? (near p.bearing_deg) = none :=
    List.findIdx?_eq_none_iff.2 hfar
  rw [place, hnone]
  exact if_pos hfull

theorem exists_place_of_near {p : CalPoint} {pts : List CalPoint}
    (hnear : ∃ q ∈ pts, near p.bearing_deg q = true) :
    ∃ l₁ q l₂, pts = l₁ ++ q :: l₂ ∧ near p.bearing_deg q = true ∧
      place p pts = some (l₁ ++ p :: l₂) := by
  cases hfind : pts.findIdx? (near p.bearing_deg) with
  | none =>
    obtain ⟨q, hq, hnq⟩ := hnear
    rw [List.findIdx?_eq_none_iff.1 hfind q hq] at hnq
    cases hnq
  | some i =>
    obtain ⟨hi, hq, -⟩ := List.findIdx?_eq_some_iff_getElem.1 hfind
    refine ⟨pts.take i, pts[i], pts.drop (i + 1), ?_, hq, ?_⟩
    · rw [List.getElem_cons_drop, List.take_append_drop]
    · rw [place, hfind]
      exact congrArg some (List.set_eq_take_append_cons_drop.trans (if_pos hi))

/-- The points that are near a new one: only one, and not across north unless it is alone. -/
def NearFits (pts : List CalPoint) (β : ℚ) : Prop :=
  ∀ q ∈ pts, near β q = true →
    (∀ r ∈ pts, near β r = true → r = q) ∧ (|q.bearing_deg - β| < 2 ∨ pts = [q])

theorem table_place_far_iff {p : CalPoint} {pts : List CalPoint} (h : Table pts)
    (hfar : ∀ q ∈ pts, near p.bearing_deg q = false) (hroom : pts.length < kMaxCalPoints) :
    Table (pts.takeWhile (fun q => decide (q.bearing_deg ≤ p.bearing_deg)) ++
        p :: pts.dropWhile (fun q => decide (q.bearing_deg ≤ p.bearing_deg))) ↔
      (0 ≤ p.bearing_deg ∧ p.bearing_deg < 360) ∧ p.corr element0 = 1 := by
  have hsplit : pts.takeWhile (fun q => decide (q.bearing_deg ≤ p.bearing_deg)) ++
      pts.dropWhile (fun q => decide (q.bearing_deg ≤ p.bearing_deg)) = pts :=
    List.takeWhile_append_dropWhile
  have hne : ∀ q ∈ pts, q.bearing_deg ≠ p.bearing_deg := by
    intro q hq heq
    have h2 := near_eq_false_iff.1 (hfar q hq)
    rw [heq, sub_self, wrap180, Lib.wrap_of_mem (by norm_num) (by norm_num) (by norm_num)] at h2
    norm_num at h2
  rw [table_insert_iff (hsplit.symm ▸ h)]
  constructor
  · exact fun ht => ⟨ht.1, ht.2.1⟩
  · rintro ⟨hrange, href⟩
    refine ⟨hrange, href, fun r hr => ?_, fun r hr => ?_, fun r hr => ?_, ?_⟩
    · have hle : r.bearing_deg ≤ p.bearing_deg := of_decide_eq_true
        (List.all_eq_true.1 List.all_takeWhile r hr)
      exact lt_of_le_of_ne hle (hne r (List.takeWhile_subset _ hr))
    · -- the points from the first that is beyond the new one on
      have hbeyond : ∀ {l : List CalPoint}, (l.Pairwise fun p q => p.bearing_deg < q.bearing_deg) →
          ∀ r ∈ l.dropWhile (fun q => decide (q.bearing_deg ≤ p.bearing_deg)),
            p.bearing_deg < r.bearing_deg := by
        intro l hl r hr
        cases hd : l.dropWhile (fun q => decide (q.bearing_deg ≤ p.bearing_deg)) with
        | nil =>
          rw [hd] at hr
          cases hr
        | cons s t =>
          have hs : p.bearing_deg < s.bearing_deg := by
            have hneg := List.head_dropWhile_not
              (fun q : CalPoint => decide (q.bearing_deg ≤ p.bearing_deg))
              (show l.dropWhile _ ≠ [] by rw [hd]; exact List.cons_ne_nil s t)
            simp only [hd, List.head_cons, decide_eq_false_iff_not, not_le] at hneg
            exact hneg
          rw [hd] at hr
          rcases List.mem_cons.1 hr with rfl | hr
          · exact hs
          · have hsorted := hl.sublist (List.dropWhile_sublist
              (fun q : CalPoint => decide (q.bearing_deg ≤ p.bearing_deg)))
            rw [hd] at hsorted
            exact hs.trans ((List.pairwise_cons.1 hsorted).1 r hr)
      exact hbeyond h.sorted r hr
    · rw [hsplit] at hr
      exact near_eq_false_iff.1 (hfar r hr)
    · rw [hsplit]
      exact hroom

/-- A point that is put in place of a near one leaves a table, if it belongs there, no other point
is near, and the two do not lie across north. -/
theorem table_replace_iff {p q : CalPoint} {l₁ l₂ : List CalPoint} (h : Table (l₁ ++ q :: l₂))
    (hnear : near p.bearing_deg q = true) :
    Table (l₁ ++ p :: l₂) ↔
      ((0 ≤ p.bearing_deg ∧ p.bearing_deg < 360) ∧ p.corr element0 = 1) ∧
        (∀ r ∈ l₁ ++ l₂, near p.bearing_deg r = false) ∧
          (|q.bearing_deg - p.bearing_deg| < 2 ∨ l₁ ++ l₂ = []) := by
  have hrest : Table (l₁ ++ l₂) := h.sublist
    (List.Sublist.append_left (List.sublist_cons_self q l₂) l₁)
  obtain ⟨hq, -, hq₁, hq₂, hqfar, hqsize⟩ := (table_insert_iff hrest).1 h
  rw [table_insert_iff hrest]
  have hfar : ∀ r ∈ l₁ ++ l₂, ∀ {x : ℚ}, 0 ≤ x ∧ x < 360 →
      2 ≤ |wrap180 (r.bearing_deg - x)| → 2 ≤ |r.bearing_deg - x| ∧ |r.bearing_deg - x| ≤ 358 :=
    fun r hr x hx hrx => (two_le_abs_wrap180_iff (hrest.range r hr) hx).1 hrx
  constructor
  · rintro ⟨hp, href, hlt₁, hlt₂, hpfar, -⟩
    refine ⟨⟨hp, href⟩, fun r hr => near_eq_false_iff.2 (hpfar r hr), ?_⟩
    by_contra hno
    obtain ⟨hwide, hne⟩ := not_or.1 hno
    obtain ⟨r, hr⟩ := List.exists_mem_of_ne_nil _ hne
    -- the two lie on either side of north
    have hacross : 358 < |q.bearing_deg - p.bearing_deg| := by
      by_contra hle
      have hfalse := near_eq_false_iff.2
        ((two_le_abs_wrap180_iff hq hp).2 ⟨not_lt.1 hwide, not_lt.1 hle⟩)
      rw [hnear] at hfalse
      cases hfalse
    have hr0 := hrest.range r hr
    obtain ⟨hge, hle⟩ := hfar r hr hp (hpfar r hr)
    rcases List.mem_append.1 hr with hr₁ | hr₂
    · have h1 := hlt₁ r hr₁
      have h2 := hq₁ r hr₁
      rw [abs_of_neg (by linarith)] at hge hle
      rcases le_total p.bearing_deg q.bearing_deg with hpq | hpq
      · rw [abs_of_nonneg (by linarith)] at hacross
        linarith
      · rw [abs_of_nonpos (by linarith)] at hacross
        linarith
    · have h1 := hlt₂ r hr₂
      have h2 := hq₂ r hr₂
      rw [abs_of_pos (by linarith)] at hge hle
      rcases le_total p.bearing_deg q.bearing_deg with hpq | hpq
      · rw [abs_of_nonneg (by linarith)] at hacross
        linarith
      · rw [abs_of_nonpos (by linarith)] at hacross
        linarith
  · rintro ⟨⟨hp, href⟩, hpfar, hclose⟩
    have hpfar' : ∀ r ∈ l₁ ++ l₂, 2 ≤ |wrap180 (r.bearing_deg - p.bearing_deg)| :=
      fun r hr => near_eq_false_iff.1 (hpfar r hr)
    have hclose' : ∀ r ∈ l₁ ++ l₂, |q.bearing_deg - p.bearing_deg| < 2 := fun r hr => by
      rcases hclose with h | h
      · exact h
      · rw [h] at hr
        cases hr
    refine ⟨hp, href, fun r hr => ?_, fun r hr => ?_, hpfar', hqsize⟩
    · have hr' := List.mem_append_left l₂ hr
      have hge := (hfar r hr' hp (hpfar' r hr')).1
      have hlt := hq₁ r hr
      have hqp := (abs_lt.1 (hclose' r hr')).2
      by_contra hno
      rw [abs_of_nonneg (by linarith)] at hge
      linarith
    · have hr' := List.mem_append_right l₁ hr
      have hge := (hfar r hr' hp (hpfar' r hr')).1
      have hlt := hq₂ r hr
      have hqp := (abs_lt.1 (hclose' r hr')).1
      by_contra hno
      rw [abs_of_nonpos (by linarith)] at hge
      linarith

theorem nearFits_iff {q : CalPoint} {l₁ l₂ : List CalPoint} {β : ℚ} (h : Table (l₁ ++ q :: l₂))
    (hnear : near β q = true) :
    NearFits (l₁ ++ q :: l₂) β ↔
      (∀ r ∈ l₁ ++ l₂, near β r = false) ∧ (|q.bearing_deg - β| < 2 ∨ l₁ ++ l₂ = []) := by
  have hmem : ∀ {r}, r ∈ l₁ ++ q :: l₂ ↔ r = q ∨ r ∈ l₁ ++ l₂ := fun {r} => by
    simp only [List.mem_append, List.mem_cons]
    exact or_left_comm
  have hne : ∀ r ∈ l₁ ++ l₂, r ≠ q := by
    obtain ⟨-, hcons, hbefore⟩ := List.pairwise_append.1 h.sorted
    intro r hr heq
    rcases List.mem_append.1 hr with hr | hr
    · exact (hbefore r hr q List.mem_cons_self).ne (congrArg _ heq)
    · exact ((List.pairwise_cons.1 hcons).1 r hr).ne (congrArg _ heq.symm)
  have halone : l₁ ++ q :: l₂ = [q] ↔ l₁ ++ l₂ = [] := by
    constructor
    · intro heq
      have hlen := congrArg List.length heq
      simp only [List.length_append, List.length_cons, List.length_nil] at hlen
      exact List.length_eq_zero_iff.1 (by rw [List.length_append]; omega)
    · intro heq
      obtain ⟨rfl, rfl⟩ := List.append_eq_nil_iff.1 heq
      rfl
  constructor
  · intro hfits
    obtain ⟨honly, hclose⟩ := hfits q (hmem.2 (Or.inl rfl)) hnear
    refine ⟨fun r hr => ?_, hclose.imp_right halone.1⟩
    by_contra hr'
    exact hne r hr (honly r (hmem.2 (Or.inr hr)) (by simpa using hr'))
  · rintro ⟨hfar, hclose⟩ s hs hsnear
    have honly : ∀ r ∈ l₁ ++ q :: l₂, near β r = true → r = q := by
      intro r hr hrnear
      rcases hmem.1 hr with rfl | hr
      · rfl
      · rw [hfar r hr] at hrnear
        cases hrnear
    obtain rfl := honly s hs hsnear
    exact ⟨honly, hclose.imp_right halone.2⟩

/-! ## The edits -/

/-- The reference element of a measurement can be normalised. -/
def Referenced (measured theory : Fin kMaxElements → Cpx) : Prop :=
  absGt (rawCorr measured theory element0) (1 / 10 ^ 12) = true

theorem absGt_one : absGt 1 (1 / 10 ^ 12) = true := by
  have hre : (1 : Cpx).re = 1 := rfl
  have him : (1 : Cpx).im = 0 := rfl
  rw [absGt, hre, him]
  norm_num

theorem newCorr_element0_iff {measured theory : Fin kMaxElements → Cpx} {elements : ℤ}
    (he : 1 ≤ elements) : newCorr measured theory elements element0 = 1 ↔ Referenced measured theory := by
  have h0 : ((element0 : Fin kMaxElements) : ℤ) < elements := lt_of_lt_of_le (by decide) he
  rw [newCorr, if_pos h0, Referenced]
  split_ifs with hbig
  · have hne : rawCorr measured theory element0 ≠ 0 := by
      intro hz
      rw [hz] at hbig
      norm_num [absGt] at hbig
    exact ⟨fun _ => hbig, fun _ => mul_one_div_cancel hne⟩
  · refine ⟨fun hone => ?_, fun h => absurd h hbig⟩
    rw [hone] at hbig
    exact absurd absGt_one hbig

/-- A measurement that leaves a table: it is not stored, or its bearing is one of the first turn, its
reference can be normalised, and it fits among the points that are near. -/
def AddFits (c : Calib) (bearing_deg : ℚ) (measured theory : Fin kMaxElements → Cpx)
    (elements : ℤ) : Prop :=
  let β := fmod360 (bearing_deg + 360)
  1 ≤ elements → elements ≤ kMaxElements →
    c.pts.length < kMaxCalPoints ∨ (∃ q ∈ c.pts, near β q = true) →
      InTurn bearing_deg ∧ Referenced measured theory ∧ NearFits c.pts β

theorem table_add_iff {c : Calib} (h : Table c.pts) (bearing_deg measured_deg snr_db : ℚ)
    (measured theory : Fin kMaxElements → Cpx) (elements : ℤ) :
    Table (c.add bearing_deg measured_deg snr_db measured theory elements).pts ↔
      c.AddFits bearing_deg measured theory elements := by
  have href := fun he : 1 ≤ elements => @newCorr_element0_iff measured theory elements he
  unfold add AddFits
  by_cases he : elements < 1 ∨ (kMaxElements : ℤ) < elements
  · rw [if_pos he]
    exact ⟨fun _ h1 h8 => by omega, fun _ => h⟩
  rw [if_neg he]
  have h1 : 1 ≤ elements := by omega
  have h8 : elements ≤ kMaxElements := by omega
  simp only [h1, h8, forall_const]
  set p : CalPoint := {
    bearing_deg := fmod360 (bearing_deg + 360)
    measured_deg := measured_deg
    snr_db := snr_db
    corr := newCorr measured theory elements } with hp
  have hinTurn : InTurn bearing_deg ↔ 0 ≤ p.bearing_deg ∧ p.bearing_deg < 360 :=
    inTurn_iff bearing_deg
  rw [show fmod360 (bearing_deg + 360) = p.bearing_deg from rfl]
  by_cases hnear : ∃ q ∈ c.pts, near p.bearing_deg q = true
  · -- a near point is replaced
    obtain ⟨l₁, q, l₂, hpts, hq, hplace⟩ := exists_place_of_near hnear
    rw [imp_iff_right (Or.inr hnear), hplace, hinTurn]
    rw [hpts] at h ⊢
    rw [table_replace_iff h hq, nearFits_iff h hq, ← href h1, and_assoc]
  · have hfar : ∀ q ∈ c.pts, near p.bearing_deg q = false := fun q hq => by
      by_contra hno
      exact hnear ⟨q, hq, by simpa using hno⟩
    have hfits : NearFits c.pts p.bearing_deg := fun q hq hqn => absurd ⟨q, hq, hqn⟩ hnear
    by_cases hroom : c.pts.length < kMaxCalPoints
    · rw [imp_iff_right (Or.inl hroom), place_of_far hfar hroom, hinTurn]
      rw [table_place_far_iff h hfar hroom, ← href h1]
      exact ⟨fun ht => ⟨ht.1, ht.2, hfits⟩, fun ht => ⟨ht.1, ht.2.1⟩⟩
    · rw [place_of_full hfar (not_lt.1 hroom)]
      exact ⟨fun _ hor => absurd hor (not_or.2 ⟨hroom, hnear⟩), fun _ => h⟩

end Calib

end Bewe.Df
