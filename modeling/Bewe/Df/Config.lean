import Mathlib.Tactic.Common
import Mathlib.Data.Rat.Floor

/-!
# The configuration of direction finding

`df::Config` with its check and the coordinates of the antenna elements. The arithmetic of doubles is
left open (`Doubles`): what is proved holds whatever it gives. Rationals do for it where nothing is
rounded.
-/

namespace Bewe.Df

scoped instance two_atLeastTwo : Nat.AtLeastTwo 2 := ⟨le_rfl⟩

/-- `kMaxElements`. -/
def kMaxElements : ℕ := 8

inductive Algo
  | bartlett
  | capon
  | music
  deriving DecidableEq, Repr

inductive Sense
  | cw
  | ccw
  deriving DecidableEq, Repr

inductive ArrayType
  | uca
  | ula
  | ulaPlus
  | custom
  deriving DecidableEq, Repr

/-- `ArrayGeom`: coordinates of `n` elements. -/
structure ArrayGeom (D : Type) where
  n : ℕ
  x : Fin kMaxElements → D
  y : Fin kMaxElements → D

/-- The arithmetic of doubles: literals and numbers that are converted, the operations, the
comparisons, the conversion to `float` and back, and `make_geom`, which places the elements of a
preset with sines and cosines. -/
structure Doubles (D : Type) where
  lit : ℚ → D
  add : D → D → D
  sub : D → D → D
  mul : D → D → D
  div : D → D → D
  abs : D → D
  le : D → D → Bool
  lt : D → D → Bool
  ceil : D → ℤ
  single : D → D
  make_geom : ArrayType → ℤ → D → Sense → ArrayGeom D

variable {D : Type}

/-- The elements of a line, in steps of the spacing about its middle. -/
def lineGeom (elements : ℤ) (spacing : ℚ) : ArrayGeom ℚ where
  n := elements.toNat
  x m := if (m : ℤ) < elements then spacing * m - spacing * (elements - 1) / 2 else 0
  y _ := 0

/-- Rationals for doubles: right where nothing is rounded, and with every preset a line. -/
def exact : Doubles ℚ where
  lit q := q
  add := (· + ·)
  sub := (· - ·)
  mul := (· * ·)
  div := (· / ·)
  abs q := max q (-q)
  le a b := decide (a ≤ b)
  lt a b := decide (a < b)
  ceil q := q.ceil
  single q := q
  make_geom _ elements spacing _ := lineGeom elements spacing

/-- `df::Config`, but for the host. -/
structure Config (D : Type) where
  data_port : ℕ
  ctrl_port : ℕ
  enable_control : Bool
  mrc_enable : Bool
  elements : ℤ
  array_type : ArrayType
  radius_m : D
  sense : Sense
  heading_deg : D
  elem_x : Fin kMaxElements → D
  elem_y : Fin kMaxElements → D
  algo : Algo
  signal_dim : ℤ
  avg_frames : ℤ
  max_frames : ℤ
  c_papr : D
  snr_threshold_db : D
  dc_guard_hz : D
  target_looks : ℤ
  fft_size : ℤ

/-- The defaults. -/
def Config.default (A : Doubles D) : Config D where
  data_port := 5000
  ctrl_port := 5001
  enable_control := true
  mrc_enable := false
  elements := 5
  array_type := .uca
  radius_m := A.lit 0.175
  sense := .cw
  heading_deg := A.lit 0
  elem_x _ := A.lit 0
  elem_y _ := A.lit 0
  algo := .music
  signal_dim := 1
  avg_frames := 3
  max_frames := 12
  c_papr := A.lit 30
  snr_threshold_db := A.lit 10
  dc_guard_hz := A.lit 2000
  target_looks := 2048
  fft_size := 8192

/-- `span`: the sum of the coordinates of the first elements, without their signs. -/
def span (A : Doubles D) (x y : Fin kMaxElements → D) (n : ℤ) : D :=
  (List.finRange kMaxElements).foldl
    (fun s (m : Fin kMaxElements) => if ((m : ℕ) : ℤ) < n then A.add s (A.add (A.abs (x m)) (A.abs (y m))) else s) (A.lit 0)

/-- `rebuild_geom`. -/
def Config.rebuildGeom (A : Doubles D) (c : Config D) : Config D :=
  if c.array_type = .custom then c
  else
    let g := A.make_geom c.array_type c.elements c.radius_m c.sense
    { c with
      elem_x := fun m => if (m : ℕ) < g.n then g.x m else A.lit 0
      elem_y := fun m => if (m : ℕ) < g.n then g.y m else A.lit 0 }

/-- `geom`. -/
def Config.geom (A : Doubles D) (c : Config D) : ArrayGeom D :=
  let n := min c.elements kMaxElements
  if A.le (span A c.elem_x c.elem_y n) (A.lit (1 / 10 ^ 9)) then
    A.make_geom (if c.array_type = ArrayType.custom then .uca else c.array_type) n c.radius_m c.sense
  else { n := n.toNat, x := c.elem_x, y := c.elem_y }

/-- What `validate` has against a configuration. -/
def Config.fault (A : Doubles D) (c : Config D) : Option String :=
  if c.elements < 3 ∨ 8 < c.elements then some "elements must be 3..8"
  else if A.le c.radius_m (A.lit 0) || A.lt (A.lit 5) c.radius_m then
    some "radius_m must be in (0, 5]"
  else if c.signal_dim < 1 ∨ c.elements ≤ c.signal_dim then
    some "signal_dim must be 1..elements-1"
  else if c.avg_frames < 1 ∨ 60 < c.avg_frames then some "avg_frames must be 1..60"
  else if c.max_frames < c.avg_frames then some "max_frames must be >= avg_frames"
  else if A.lt c.snr_threshold_db (A.lit (-20)) || A.lt (A.lit 60) c.snr_threshold_db then
    some "snr_threshold_db must be in [-20, 60]"
  else if A.lt c.c_papr (A.lit 1) || A.lt (A.lit 1000) c.c_papr then
    some "c_papr must be in [1, 1000]"
  else if c.target_looks < 64 then some "target_looks must be >= 64"
  else if c.fft_size < 256 ∨ c.fft_size.toNat &&& (c.fft_size.toNat - 1) ≠ 0 then
    some "fft_size must be a power of two >= 256"
  else if A.lt c.dc_guard_hz (A.lit 0) then some "dc_guard_hz must be >= 0"
  else if c.data_port = 0 ∨ c.ctrl_port = 0 then some "ports must be non-zero"
  else none

/-- `validate`. -/
def Config.validate (A : Doubles D) (c : Config D) : Bool := (c.fault A).isNone

private theorem of_ite_eq_none {p : Prop} [Decidable p] {m : String} {e : Option String}
    (h : (if p then some m else e) = none) : ¬p ∧ e = none := by
  split_ifs at h with hp
  exact ⟨hp, h⟩

/-- What `validate` checks. -/
structure Config.Checked (A : Doubles D) (c : Config D) : Prop where
  elements : ¬(c.elements < 3 ∨ 8 < c.elements)
  radius_m : ¬(A.le c.radius_m (A.lit 0) || A.lt (A.lit 5) c.radius_m) = true
  signal_dim : ¬(c.signal_dim < 1 ∨ c.elements ≤ c.signal_dim)
  avg_frames : ¬(c.avg_frames < 1 ∨ 60 < c.avg_frames)
  max_frames : ¬c.max_frames < c.avg_frames
  snr_threshold_db : ¬(A.lt c.snr_threshold_db (A.lit (-20)) ||
    A.lt (A.lit 60) c.snr_threshold_db) = true
  c_papr : ¬(A.lt c.c_papr (A.lit 1) || A.lt (A.lit 1000) c.c_papr) = true
  target_looks : ¬c.target_looks < 64
  fft_size : ¬(c.fft_size < 256 ∨ c.fft_size.toNat &&& (c.fft_size.toNat - 1) ≠ 0)
  dc_guard_hz : ¬A.lt c.dc_guard_hz (A.lit 0) = true
  ports : ¬(c.data_port = 0 ∨ c.ctrl_port = 0)

theorem Config.validate_iff {A : Doubles D} {c : Config D} :
    c.validate A = true ↔ c.Checked A := by
  rw [Config.validate, Option.isNone_iff_eq_none, Config.fault]
  constructor
  · intro h
    obtain ⟨helements, h⟩ := of_ite_eq_none h
    obtain ⟨hradius, h⟩ := of_ite_eq_none h
    obtain ⟨hdim, h⟩ := of_ite_eq_none h
    obtain ⟨havg, h⟩ := of_ite_eq_none h
    obtain ⟨hmax, h⟩ := of_ite_eq_none h
    obtain ⟨hsnr, h⟩ := of_ite_eq_none h
    obtain ⟨hpapr, h⟩ := of_ite_eq_none h
    obtain ⟨hlooks, h⟩ := of_ite_eq_none h
    obtain ⟨hfft, h⟩ := of_ite_eq_none h
    obtain ⟨hguard, h⟩ := of_ite_eq_none h
    obtain ⟨hports, -⟩ := of_ite_eq_none h
    exact ⟨helements, hradius, hdim, havg, hmax, hsnr, hpapr, hlooks, hfft, hguard, hports⟩
  · intro h
    rw [if_neg h.elements, if_neg h.radius_m, if_neg h.signal_dim, if_neg h.avg_frames,
      if_neg h.max_frames, if_neg h.snr_threshold_db, if_neg h.c_papr, if_neg h.target_looks,
      if_neg h.fft_size, if_neg h.dc_guard_hz, if_neg h.ports]

/-- The defaults pass their own check. -/
example : (Config.default exact).validate exact = true := by decide +kernel

/-! ## Another number of elements -/

/-- What the engine takes from a configuration when the DAQ delivers another number of channels: the
elements are as many, and a preset places them, the circle where they were placed by hand. -/
def Config.adjust (A : Doubles D) (c : Config D) (channels : ℤ) : Config D :=
  if channels = c.elements then c
  else
    { c with
      elements := channels
      array_type := if c.array_type = ArrayType.custom then .uca else c.array_type }.rebuildGeom A

@[simp]
theorem Config.rebuildGeom_elements (A : Doubles D) (c : Config D) :
    (c.rebuildGeom A).elements = c.elements := by
  unfold Config.rebuildGeom
  split_ifs <;> rfl

@[simp]
theorem Config.rebuildGeom_signal_dim (A : Doubles D) (c : Config D) :
    (c.rebuildGeom A).signal_dim = c.signal_dim := by
  unfold Config.rebuildGeom
  split_ifs <;> rfl

end Bewe.Df
