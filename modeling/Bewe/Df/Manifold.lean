import Bewe.Df.CalibFile
import Bewe.Df.Correction

/-!
# The steering table

`df::Manifold`: the steering vectors of all bearings for one frequency and one geometry, with the
measured correction if the calibration is usable there. The table is kept while the arguments stay
near those that it was made for and the stamp of the calibration is the same. Numbers are rational and
real, and nothing is rounded; what only `ambiguity_ratio` and the sidelobes need is left out.

Beside the loop of the engine, which asks for a table and measures with it, stands a count of the edits
of the calibration. As long as equal stamps mean equal counts, and no request is armed whose geometry is
refused while a table is there, every measurement has the table that it asked for
(`Aiming.asAsked_of_fits`).
-/

namespace Bewe.Df

noncomputable section

/-! ## The table -/

/-- `kAngleBins`. -/
def kAngleBins : ℕ := 360

/-- `kC`. -/
def kC : ℚ := 299792458

/-- `steer`, for a frequency that is positive. -/
def steer (freq_hz : ℚ) (x y : Fin kMaxElements → ℚ) (bearing_deg : ℚ) (m : Fin kMaxElements) : ℂ :=
  let k := 2 * Real.pi * freq_hz / kC
  let β := bearing_deg * (Real.pi / 180)
  let ph := k * (x m * Real.sin β + y m * Real.cos β)
  ⟨Real.cos ph, Real.sin ph⟩

/-- `Manifold`: the columns by bearing, and what they were made for. -/
structure Manifold where
  sv_ : ℕ → Fin kMaxElements → ℂ := 0
  freq_hz_ : ℚ := 0
  gx_ : Fin kMaxElements → ℚ := 0
  gy_ : Fin kMaxElements → ℚ := 0
  m_ : ℕ := 0
  cal_stamp_ : UInt32 := 0

/-- `span`. -/
def reach (g : ArrayGeom ℚ) : ℚ :=
  ∑ m : Fin kMaxElements, if (m : ℕ) < g.n then |g.x m| + |g.y m| else 0

/-- The arguments that `ensure` does not take. -/
def refuses (freq_hz : ℚ) (g : ArrayGeom ℚ) : Bool :=
  decide (g.n < 1 ∨ kMaxElements < g.n ∨ freq_hz ≤ 0 ∨ reach g ≤ 1 / 10 ^ 9)

/-- `want_stamp`. -/
def wantStamp (freq_hz : ℚ) (g : ArrayGeom ℚ) (cal : Option Calib) : UInt32 :=
  match cal with
  | some c => if c.usableAt freq_hz g.n then c.stamp else 0
  | none => 0

/-- What the columns are multiplied by. -/
def factor (freq_hz : ℚ) (g : ArrayGeom ℚ) (cal : Option Calib) (bin : ℕ) (m : Fin kMaxElements) : ℂ :=
  match cal with
  | some c => if c.usableAt freq_hz g.n then c.correction bin g.n m else 1
  | none => 1

namespace Manifold

/-- `valid`. -/
def valid (t : Manifold) : Bool := decide (0 < t.m_ ∧ 0 < t.freq_hz_)

/-- The table was made for as many elements, each in its place. -/
structure SameGeometry (t : Manifold) (g : ArrayGeom ℚ) : Prop where
  m_eq : t.m_ = g.n
  x_near : ∀ m : Fin kMaxElements, (m : ℕ) < g.n → |g.x m - t.gx_ m| ≤ 1 / 10 ^ 9
  y_near : ∀ m : Fin kMaxElements, (m : ℕ) < g.n → |g.y m - t.gy_ m| ≤ 1 / 10 ^ 9

/-- `same`. -/
def same (t : Manifold) (freq_hz : ℚ) (g : ArrayGeom ℚ) (want_stamp : UInt32) : Bool :=
  decide (t.m_ = g.n ∧ |freq_hz - t.freq_hz_| < 1 ∧ t.cal_stamp_ = want_stamp ∧
    ∀ m : Fin kMaxElements, (m : ℕ) < g.n →
      |g.x m - t.gx_ m| ≤ 1 / 10 ^ 9 ∧ |g.y m - t.gy_ m| ≤ 1 / 10 ^ 9)

/-- `ensure`. -/
def ensure (t : Manifold) (freq_hz : ℚ) (g : ArrayGeom ℚ) (cal : Option Calib) : Manifold :=
  if refuses freq_hz g then t
  else if t.same freq_hz g (wantStamp freq_hz g cal) then t
  else
    let gx := fun m : Fin kMaxElements => if (m : ℕ) < g.n then g.x m else t.gx_ m
    let gy := fun m : Fin kMaxElements => if (m : ℕ) < g.n then g.y m else t.gy_ m
    { sv_ := fun bin m => steer freq_hz gx gy bin m * factor freq_hz g cal bin m
      freq_hz_ := freq_hz
      gx_ := gx
      gy_ := gy
      m_ := g.n
      cal_stamp_ := wantStamp freq_hz g cal }

variable {t : Manifold} {freq_hz : ℚ} {g : ArrayGeom ℚ} {cal : Option Calib}

theorem same_spec {want_stamp : UInt32} (h : t.same freq_hz g want_stamp = true) :
    t.SameGeometry g ∧ |freq_hz - t.freq_hz_| < 1 ∧ t.cal_stamp_ = want_stamp := by
  obtain ⟨hm, hfreq, hstamp, hnear⟩ := of_decide_eq_true h
  exact ⟨⟨hm, fun m hm => (hnear m hm).1, fun m hm => (hnear m hm).2⟩, hfreq, hstamp⟩

theorem ensure_of_refuses (h : refuses freq_hz g = true) : t.ensure freq_hz g cal = t := if_pos h

theorem ensure_of_same (h : t.same freq_hz g (wantStamp freq_hz g cal) = true) :
    t.ensure freq_hz g cal = t := by
  rw [ensure]
  split_ifs
  · rfl
  · rfl

/-- What a table is once it has been made anew. -/
structure Made (t : Manifold) (freq_hz : ℚ) (g : ArrayGeom ℚ) (cal : Option Calib) : Prop where
  freq_eq : t.freq_hz_ = freq_hz
  m_eq : t.m_ = g.n
  x_eq : ∀ m : Fin kMaxElements, (m : ℕ) < g.n → t.gx_ m = g.x m
  y_eq : ∀ m : Fin kMaxElements, (m : ℕ) < g.n → t.gy_ m = g.y m
  stamp_eq : t.cal_stamp_ = wantStamp freq_hz g cal
  column : ∀ (bin : ℕ) (m : Fin kMaxElements), (m : ℕ) < g.n →
    t.sv_ bin m = steer freq_hz t.gx_ t.gy_ bin m * factor freq_hz g cal bin m

theorem made_of_not_same (hr : refuses freq_hz g = false)
    (hs : t.same freq_hz g (wantStamp freq_hz g cal) = false) :
    (t.ensure freq_hz g cal).Made freq_hz g cal := by
  rw [ensure, hr, hs]
  exact ⟨rfl, rfl, fun m hm => if_pos hm, fun m hm => if_pos hm, rfl, fun _ _ _ => rfl⟩

theorem Made.sameGeometry (h : t.Made freq_hz g cal) : t.SameGeometry g := by
  refine ⟨h.m_eq, fun m hm => ?_, fun m hm => ?_⟩
  · rw [h.x_eq m hm, sub_self, abs_zero]
    norm_num
  · rw [h.y_eq m hm, sub_self, abs_zero]
    norm_num

/-- The table has, in all columns, what a fresh table has for a frequency and coordinates near the
arguments, multiplied by the calibration exactly if it is usable. -/
structure Right (t : Manifold) (freq_hz : ℚ) (g : ArrayGeom ℚ) (cal : Calib) : Prop where
  m_eq : t.m_ = g.n
  column : ∃ (f : ℚ) (x y : Fin kMaxElements → ℚ), |freq_hz - f| < 1 ∧
    (∀ m : Fin kMaxElements, (m : ℕ) < g.n →
      |g.x m - x m| ≤ 1 / 10 ^ 9 ∧ |g.y m - y m| ≤ 1 / 10 ^ 9) ∧
    ∀ bin < kAngleBins, ∀ m : Fin kMaxElements, (m : ℕ) < g.n →
      t.sv_ bin m = (({} : Manifold).ensure f { n := g.n, x := x, y := y } none).sv_ bin m *
        (if cal.usableAt freq_hz g.n then cal.correction bin g.n m else 1)

theorem steer_congr {x x' y y' : Fin kMaxElements → ℚ} {m : Fin kMaxElements} (hx : x m = x' m)
    (hy : y m = y' m) (f bearing_deg : ℚ) :
    steer f x y bearing_deg m = steer f x' y' bearing_deg m := by
  rw [steer, steer, hx, hy]

theorem fresh_column (hr : refuses freq_hz g = false) (bin : ℕ) {m : Fin kMaxElements}
    (hm : (m : ℕ) < g.n) :
    (({} : Manifold).ensure freq_hz g none).sv_ bin m = steer freq_hz g.x g.y bin m := by
  have hne : ({} : Manifold).same freq_hz g (wantStamp freq_hz g none) = false := by
    refine decide_eq_false fun h => ?_
    have h0 : 0 = g.n := h.1
    omega
  have hmade := made_of_not_same hr hne
  rw [hmade.column bin m hm, steer_congr (hmade.x_eq m hm) (hmade.y_eq m hm)]
  exact mul_one _

theorem Made.right {c : Calib} (h : t.Made freq_hz g (some c)) (hr : refuses freq_hz g = false) :
    t.Right freq_hz g c := by
  refine ⟨h.m_eq, freq_hz, g.x, g.y, ?_, fun m hm => ?_, fun bin _ m hm => ?_⟩
  · rw [sub_self, abs_zero]
    exact one_pos
  · rw [sub_self, sub_self, abs_zero]
    exact ⟨by norm_num, by norm_num⟩
  · rw [fresh_column hr bin hm, h.column bin m hm, steer_congr (h.x_eq m hm) (h.y_eq m hm)]
    rfl

theorem Made.accepted (h : t.Made freq_hz g cal) (hr : refuses freq_hz g = false) :
    refuses t.freq_hz_ { n := t.m_, x := t.gx_, y := t.gy_ } = false := by
  have hreach : reach { n := t.m_, x := t.gx_, y := t.gy_ } = reach g := by
    rw [reach, reach]
    refine Finset.sum_congr rfl fun m _ => ?_
    dsimp only
    rw [h.m_eq]
    split_ifs with hm
    · rw [h.x_eq m hm, h.y_eq m hm]
    · rfl
  rw [refuses] at hr ⊢
  rwa [hreach, h.freq_eq, h.m_eq]

end Manifold

/-! ## Edits of the calibration -/

/-- What is done with the calibration. A file that is loaded may be anything. -/
inductive CalibEdit
  | setContext (freq_hz : ℚ) (elements : ℤ)
  | add (bearing_deg measured_deg snr_db : ℚ) (measured theory : Fin kMaxElements → Cpx)
    (elements : ℤ)
  | removeAt (idx : ℤ)
  | clear
  | load (file : Bytes)

/-- One edit. -/
def Calib.edit (c : Calib) : CalibEdit → Calib
  | .setContext freq_hz elements => c.setContext freq_hz elements
  | .add bearing_deg measured_deg snr_db measured theory elements =>
    c.add bearing_deg measured_deg snr_db measured theory elements
  | .removeAt idx => c.removeAt idx
  | .clear => c.clear
  | .load file => (c.load file).1

theorem Calib.edit_cases (c : Calib) (e : CalibEdit) :
    c.edit e = c ∨ (c.edit e).stamp = c.stamp + 1 ∨ (c.edit e).stamp = c.stamp + 2 := by
  cases e with
  | setContext freq_hz elements => exact Or.inr (Or.inl rfl)
  | add bearing_deg measured_deg snr_db measured theory elements =>
    rw [Calib.edit, Calib.add]
    split_ifs
    · exact Or.inl rfl
    · dsimp only
      split
      · exact Or.inr (Or.inl rfl)
      · exact Or.inl rfl
  | removeAt idx =>
    rw [Calib.edit, Calib.removeAt]
    split_ifs
    · exact Or.inl rfl
    · exact Or.inr (Or.inl rfl)
  | clear => exact Or.inr (Or.inl rfl)
  | load file =>
    rw [Calib.edit, Calib.load]
    dsimp only
    split
    · exact Or.inl rfl
    · split_ifs
      · exact Or.inl rfl
      · exact Or.inr (Or.inr rfl)

/-- How often an edit counts the stamp up. -/
def Calib.counted (c : Calib) (e : CalibEdit) : ℕ := ((c.edit e).stamp - c.stamp).toNat

theorem Calib.edit_of_counted {c : Calib} {e : CalibEdit} (h : c.counted e = 0) : c.edit e = c := by
  rcases c.edit_cases e with hsame | hone | htwo
  · exact hsame
  · rw [counted, hone, UInt32.add_comm, UInt32.add_sub_cancel] at h
    cases h
  · rw [counted, htwo, UInt32.add_comm, UInt32.add_sub_cancel] at h
    cases h

/-! ## Asking and measuring -/

/-- What the engine thread measures with: the table, the calibration, and the geometry of the request
that is armed. Beside them stand the count of the edits, and the count at which the calibration was
when it went into the table, if it did. -/
structure Aiming where
  manifold : Manifold := {}
  cal : Calib := {}
  cur : Option (ArrayGeom ℚ) := none
  edits : ℕ := 0
  applied : Option ℕ := none

/-- What happens: the calibration is edited, a request gets as far as its table, an armed request is
measured with the table, or it ends in another way. -/
inductive AimEvent
  | edit (e : CalibEdit)
  | pickUp (center_hz : ℚ) (g : ArrayGeom ℚ)
  | solve
  | fail

namespace Aiming

/-- The count of the calibration that a table for the arguments has, if it is usable. -/
def current (s : Aiming) (center_hz : ℚ) (g : ArrayGeom ℚ) : Option ℕ :=
  if s.cal.usableAt center_hz g.n then some s.edits else none

/-- One event. -/
def step (s : Aiming) : AimEvent → Aiming
  | .edit e => { s with cal := s.cal.edit e, edits := s.edits + s.cal.counted e }
  | .pickUp center_hz g =>
    if s.cur.isSome || decide (center_hz ≤ 0) then s
    else
      let t := s.manifold.ensure center_hz g (some s.cal)
      let kept := refuses center_hz g ||
        s.manifold.same center_hz g (wantStamp center_hz g (some s.cal))
      { s with
        manifold := t
        applied := if kept then s.applied else s.current center_hz g
        cur := if t.valid then some g else none }
  | .solve => { s with cur := none }
  | .fail => { s with cur := none }

/-- What is asked of an event: a table that is made or kept is right, and a measurement has the table of
the geometry that was asked for. -/
def AsAsked (s : Aiming) : AimEvent → Prop
  | .pickUp center_hz g => s.cur = none → 0 < center_hz → refuses center_hz g = false →
    (s.step (.pickUp center_hz g)).manifold.Right center_hz g s.cal
  | .solve => ∀ g ∈ s.cur, s.manifold.SameGeometry g
  | _ => True

/-- A request that gets as far as its table is not refused while there is a table, and where the table
is kept, equal stamps mean equal counts. -/
def Fits (s : Aiming) : AimEvent → Prop
  | .pickUp center_hz g => s.cur = none → 0 < center_hz →
    (refuses center_hz g = true → s.manifold.valid = false) ∧
    (refuses center_hz g = false →
      s.manifold.same center_hz g (wantStamp center_hz g (some s.cal)) = true →
      s.applied = s.current center_hz g)
  | _ => True

/-- What is true at all times. A table without the calibration has plain steering vectors, and one with
the calibration as it is has them multiplied. -/
structure Kept (s : Aiming) : Prop where
  plain : s.applied = none → ∀ (bin : ℕ) (m : Fin kMaxElements), (m : ℕ) < s.manifold.m_ →
    s.manifold.sv_ bin m = steer s.manifold.freq_hz_ s.manifold.gx_ s.manifold.gy_ bin m
  corrected : s.applied = some s.edits → ∀ (bin : ℕ) (m : Fin kMaxElements),
    (m : ℕ) < s.manifold.m_ → s.manifold.sv_ bin m =
      steer s.manifold.freq_hz_ s.manifold.gx_ s.manifold.gy_ bin m *
        s.cal.correction bin s.manifold.m_ m
  applied_le : ∀ k ∈ s.applied, k ≤ s.edits
  accepted : 0 < s.manifold.m_ → refuses s.manifold.freq_hz_
    { n := s.manifold.m_, x := s.manifold.gx_, y := s.manifold.gy_ } = false
  asked : ∀ g ∈ s.cur, s.manifold.SameGeometry g

variable {s : Aiming}

theorem kept_empty : ({} : Aiming).Kept where
  plain _ bin m hm := absurd hm (Nat.not_lt_zero _)
  corrected h := by cases h
  applied_le k hk := by cases hk
  accepted h := absurd h (Nat.lt_irrefl 0)
  asked g hg := by cases hg

theorem Kept.edit (h : s.Kept) (e : CalibEdit) : (s.step (.edit e)).Kept where
  plain := h.plain
  corrected happlied bin m hm := by
    rw [step] at happlied ⊢
    dsimp only at happlied hm ⊢
    have hcounted : s.cal.counted e = 0 := by
      have hle := h.applied_le _ happlied
      omega
    rw [hcounted, Nat.add_zero] at happlied
    rw [Calib.edit_of_counted hcounted]
    exact h.corrected happlied bin m hm
  applied_le k hk := (h.applied_le k hk).trans (Nat.le_add_right _ _)
  accepted := h.accepted
  asked := h.asked

theorem Kept.idle (h : s.Kept) : ({ s with cur := none } : Aiming).Kept where
  plain := h.plain
  corrected := h.corrected
  applied_le := h.applied_le
  accepted := h.accepted
  asked g hg := by cases hg

theorem Kept.right (h : s.Kept) {center_hz : ℚ} {g : ArrayGeom ℚ}
    (hr : refuses center_hz g = false)
    (hsame : s.manifold.same center_hz g (wantStamp center_hz g (some s.cal)) = true)
    (happlied : s.applied = s.current center_hz g) : s.manifold.Right center_hz g s.cal := by
  obtain ⟨hgeom, hfreq, -⟩ := Manifold.same_spec hsame
  have hn : 0 < g.n := by
    rw [refuses, decide_eq_false_iff_not] at hr
    omega
  have haccepted := h.accepted (hgeom.m_eq ▸ hn)
  rw [hgeom.m_eq] at haccepted
  refine ⟨hgeom.m_eq, s.manifold.freq_hz_, s.manifold.gx_, s.manifold.gy_, hfreq,
    fun m hm => ⟨hgeom.x_near m hm, hgeom.y_near m hm⟩, fun bin _ m hm => ?_⟩
  rw [Manifold.fresh_column haccepted bin hm]
  rw [current] at happlied
  split_ifs at happlied ⊢ with husable
  · rw [h.corrected happlied bin m (hgeom.m_eq.symm ▸ hm), hgeom.m_eq]
  · rw [h.plain happlied bin m (hgeom.m_eq.symm ▸ hm), mul_one]

theorem asked_of_valid {t : Manifold} {g : ArrayGeom ℚ} (hgeom : t.valid = true → t.SameGeometry g) :
    ∀ g' ∈ (if t.valid = true then some g else none), t.SameGeometry g' := by
  intro g' hg'
  split_ifs at hg' with hvalid
  · obtain rfl := Option.some.inj hg'
    exact hgeom hvalid
  · cases hg'

theorem step_pickUp_of_busy {center_hz : ℚ} (g : ArrayGeom ℚ)
    (h : ¬ (s.cur = none ∧ 0 < center_hz)) : s.step (.pickUp center_hz g) = s := by
  refine if_pos ?_
  rw [Bool.or_eq_true, decide_eq_true_eq, ← Option.ne_none_iff_isSome, ← not_lt]
  exact not_and_or.1 h

theorem step_pickUp {center_hz : ℚ} (g : ArrayGeom ℚ) (h : s.cur = none ∧ 0 < center_hz) :
    s.step (.pickUp center_hz g) =
      { s with
        manifold := s.manifold.ensure center_hz g (some s.cal)
        applied := if (refuses center_hz g ||
            s.manifold.same center_hz g (wantStamp center_hz g (some s.cal))) = true then s.applied
          else s.current center_hz g
        cur := if (s.manifold.ensure center_hz g (some s.cal)).valid = true then some g
          else none } := by
  refine if_neg ?_
  rw [Bool.or_eq_true, decide_eq_true_eq, ← Option.ne_none_iff_isSome, ← not_lt, ← not_and_or,
    not_not]
  exact h

theorem Kept.pickUp (h : s.Kept) {center_hz : ℚ} {g : ArrayGeom ℚ}
    (hfits : s.Fits (.pickUp center_hz g)) :
    (s.step (.pickUp center_hz g)).Kept ∧ s.AsAsked (.pickUp center_hz g) := by
  by_cases hidle : s.cur = none ∧ 0 < center_hz
  swap
  · rw [step_pickUp_of_busy g hidle]
    exact ⟨h, fun hnone hpos => absurd ⟨hnone, hpos⟩ hidle⟩
  obtain ⟨hrefused, hkept⟩ := hfits hidle.1 hidle.2
  rw [AsAsked, step_pickUp g hidle]
  cases hr : refuses center_hz g with
  | true =>
    -- the table stays as it is, and it is none
    rw [Manifold.ensure_of_refuses hr]
    refine ⟨⟨h.plain, h.corrected, h.applied_le, h.accepted, ?_⟩, fun _ _ hno => by cases hno⟩
    exact asked_of_valid fun hvalid => absurd hvalid (by rw [hrefused hr]; decide)
  | false =>
    cases hsame : s.manifold.same center_hz g (wantStamp center_hz g (some s.cal)) with
    | true =>
      rw [Manifold.ensure_of_same hsame]
      exact ⟨⟨h.plain, h.corrected, h.applied_le, h.accepted,
          asked_of_valid fun _ => (Manifold.same_spec hsame).1⟩,
        fun _ _ _ => h.right hr hsame (hkept hr hsame)⟩
    | false =>
      have hmade := Manifold.made_of_not_same hr hsame
      refine ⟨⟨?_, ?_, ?_, fun _ => hmade.accepted hr, asked_of_valid fun _ => hmade.sameGeometry⟩,
        fun _ _ _ => hmade.right hr⟩
      · intro happlied bin m hm
        change (if s.cal.usableAt center_hz g.n then some s.edits else none) = none at happlied
        split_ifs at happlied with husable
        rw [hmade.column bin m (hmade.m_eq ▸ hm), hmade.freq_eq, factor]
        dsimp only
        rw [if_neg husable, mul_one]
      · intro happlied bin m hm
        change (if s.cal.usableAt center_hz g.n then some s.edits else none) = some s.edits
          at happlied
        split_ifs at happlied with husable
        rw [hmade.column bin m (hmade.m_eq ▸ hm), hmade.freq_eq, hmade.m_eq, factor]
        dsimp only
        rw [if_pos husable]
      · intro k hk
        change k ∈ (if s.cal.usableAt center_hz g.n then some s.edits else none) at hk
        split_ifs at hk with husable
        · exact (Option.some.inj hk).ge
        · cases hk

theorem Kept.step (h : s.Kept) {e : AimEvent} (hfits : s.Fits e) : (s.step e).Kept ∧ s.AsAsked e := by
  cases e with
  | edit e => exact ⟨h.edit e, trivial⟩
  | pickUp center_hz g => exact h.pickUp hfits
  | solve => exact ⟨h.idle, h.asked⟩
  | fail => exact ⟨h.idle, trivial⟩

theorem kept_run {events : List AimEvent}
    (hfits : ∀ es e, es ++ [e] <+: events → (es.foldl Aiming.step {}).Fits e) :
    ∀ es, es <+: events → (es.foldl Aiming.step {}).Kept :=
  Lib.forall_prefix_foldl (Q := Kept) (fun _ _ hs he => (Kept.step hs he).1) kept_empty hfits

/-- In a run in which every event fits where it comes, every event does what is asked of it. -/
theorem asAsked_of_fits (events : List AimEvent)
    (hfits : ∀ es e, es ++ [e] <+: events → (es.foldl Aiming.step {}).Fits e) :
    ∀ es e, es ++ [e] <+: events → (es.foldl Aiming.step {}).AsAsked e := by
  intro es e hpre
  exact (Kept.step (kept_run hfits es ((List.prefix_append es [e]).trans hpre))
    (hfits es e hpre)).2

/-! ## A radius that is too small -/

/-- A line of five antennas. -/
def line : ArrayGeom ℚ := lineGeom 5 (1 / 8)

theorem refuses_line : refuses 438000000 line = false := by decide +kernel

theorem made_line : (({} : Manifold).ensure 438000000 line (some {})).Made 438000000 line (some {}) :=
  Manifold.made_of_not_same refuses_line (by decide +kernel)

/-- A request, and its measurement. -/
def measured : List AimEvent := [.pickUp 438000000 line, .solve]

/-- The array is calibrated at two bearings. -/
def calibrated : List AimEvent :=
  [.edit (.setContext 438000000 5), .edit (.add 0 0 30 (fun _ => ⟨1, 0⟩) (fun _ => ⟨1, 0⟩) 5),
    .edit (.add 90 90 30 (fun _ => ⟨1, 0⟩) (fun _ => ⟨1, 0⟩) 5)]

/-- A table is made with the calibration, and kept for a second measurement. -/
theorem asAsked_of_fits_measured :
    ((calibrated ++ measured).foldl Aiming.step {}).AsAsked (.pickUp 438000000 line) ∧
      ((calibrated ++ measured ++ measured.take 1).foldl Aiming.step {}).AsAsked .solve := by
  have hfits : ∀ es e, es ++ [e] <+: calibrated ++ measured ++ measured →
      (es.foldl Aiming.step {}).Fits e := by
    refine Lib.forall_prefix_cons trivial (Lib.forall_prefix_cons trivial
      (Lib.forall_prefix_cons trivial (Lib.forall_prefix_cons
      (fun _ _ => ⟨fun h => ?_, fun _ h => absurd h (by decide +kernel)⟩)
      (Lib.forall_prefix_cons trivial (Lib.forall_prefix_cons
      (fun _ _ => ⟨fun h => ?_, fun _ _ => by decide +kernel⟩)
      (Lib.forall_prefix_cons trivial Lib.forall_prefix_nil))))))
    · rw [refuses_line] at h
      cases h
    · rw [refuses_line] at h
      cases h
  have hall := asAsked_of_fits (calibrated ++ measured ++ measured) hfits
  exact ⟨hall (calibrated ++ measured) _ ⟨[.solve], rfl⟩,
    hall (calibrated ++ measured ++ measured.take 1) .solve (List.prefix_refl _)⟩

/-- A configuration with a radius that passes the check. -/
def tiny : Config ℚ := { Config.default exact with radius_m := 1 / 10 ^ 10 }.rebuildGeom exact

/-- The geometry of the new configuration is refused, and what is measured then has the table of the
old one. -/
theorem not_asAsked_of_tiny :
    tiny.validate exact = true ∧
      ¬ ∀ es e, es ++ [e] <+: measured ++ [.pickUp 438000000 (tiny.geom exact), .solve] →
        (es.foldl Aiming.step {}).AsAsked e := by
  refine ⟨by decide +kernel, fun hall => ?_⟩
  have hasked := hall (measured ++ [.pickUp 438000000 (tiny.geom exact)]) .solve
    (List.prefix_refl _)
  rw [List.foldl_append] at hasked
  have hmanifold : (measured.foldl Aiming.step {}).manifold =
      ({} : Manifold).ensure 438000000 line (some {}) := by
    rw [measured, List.foldl_cons, step_pickUp line ⟨rfl, by norm_num⟩]
    rfl
  have hvalid : (measured.foldl Aiming.step {}).manifold.valid = true := by
    rw [hmanifold, Manifold.valid, made_line.m_eq, made_line.freq_eq]
    decide +kernel
  rw [List.foldl_cons, List.foldl_nil, step_pickUp _ ⟨rfl, by norm_num⟩,
    Manifold.ensure_of_refuses (by decide +kernel), if_pos hvalid] at hasked
  have hnear := (hasked _ rfl).x_near element0 (by decide +kernel)
  dsimp only at hnear
  rw [hmanifold, made_line.x_eq element0 (by decide)] at hnear
  exact absurd hnear (by decide +kernel)

end Aiming

end

end Bewe.Df
