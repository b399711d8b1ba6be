import Bewe.Df.Calib
import Bewe.Df.Engine
import Bewe.Lib.UnitPath
import Mathlib

/-!
# Combining the channels

`df::Mrc`: the channels of the array are added with weights that follow the statistics of the frames,
and from one frame to the next the weights go along a ramp. Numbers are real and complex, so nothing is
rounded, and all are finite. `Mrc.observe` takes a frame into the statistics, decides whether the
channels are combined, solves for the weights, and builds the ramp; `Mrc.combine` adds up. The
statistics that are only displayed are left out.

What the weights are is unimportant for the ramp: they have norm 1 and begin with a real number that is
not negative (`Mrc.Sound.observe`).
-/

namespace Bewe.Df

noncomputable section

/-! ## Weights -/

/-- One weight for each element. -/
abbrev Weights := Fin kMaxElements → ℂ

/-- The weights of channel 0 alone. -/
def e0 : Weights := Pi.single element0 1

/-- The sum of the squared magnitudes of the first `m` weights. -/
def powerOf (w : Weights) (m : ℕ) : ℝ :=
  ∑ i : Fin kMaxElements, if (i : ℕ) < m then Complex.normSq (w i) else 0

/-- `normalize`: the first `m` weights are brought to norm 1, or back to channel 0 alone if there is
nothing of them. -/
def normalize (w : Weights) (m : ℕ) : Weights :=
  if 1 / 10 ^ 30 < powerOf w m then
    fun i => if (i : ℕ) < m then w i * ((1 / Real.sqrt (powerOf w m) : ℝ) : ℂ) else w i
  else fun i => if i = element0 then 1 else if (i : ℕ) < m then 0 else w i

/-! ## The state -/

/-- `kMrcBlocks`. -/
def kMrcBlocks : ℕ := 64

/-- `kMrcBlockLen`. -/
def kMrcBlockLen : ℕ := 128

/-- `kMrcSnapshots`. -/
def kMrcSnapshots : ℕ := kMrcBlocks * kMrcBlockLen

/-- `kMrcAlpha`: the `float` next to 0.15. -/
def kMrcAlpha : ℝ := 10066330 / 2 ^ 26

/-- `kMrcRampLen`. -/
def kMrcRampLen : ℕ := 65536

/-- `kMrcRampSeg`. -/
def kMrcRampSeg : ℕ := 256

/-- `kMrcGammaOn`. -/
def kMrcGammaOn : ℝ := 5 / 100

/-- `kMrcGammaOff`. -/
def kMrcGammaOff : ℝ := 2 / 100

/-- `kMrcDwell`. -/
def kMrcDwell : ℕ := 3

/-- `kMrcWarm`. -/
def kMrcWarm : ℕ := 8

/-- `Mrc`. -/
structure Mrc where
  enabled_ : Bool := false
  engaged_ : Bool := false
  m_ : ℕ := 0
  center_hz_ : UInt64 := 0
  fs_hz_ : UInt64 := 0
  prev_usable_ : Bool := false
  c_ : Fin kMaxElements → ℂ := 0
  p_ : Fin kMaxElements → ℝ := 0
  stats_init_ : Bool := false
  w_target_ : Weights := e0
  w_prev_ : Weights := e0
  ramp_ : ℕ → Weights := fun _ => 0
  ramp_valid_ : Bool := false
  warm_ : ℕ := kMrcWarm
  dwell_on_ : ℕ := 0
  dwell_off_ : ℕ := 0
  gamma_ : ℝ := 0
  ch0_weak_ : Bool := false

/-- `FrameView`, as far as it is combined: the samples of the channels one after the other. -/
structure FrameView where
  iq : Option (ℕ → ℂ)
  channels : UInt32
  samples_per_ch : UInt32
  center_hz : UInt64
  fs_hz : UInt64
  usable : Bool

/-- The channels that are combined. -/
def FrameView.elements (f : FrameView) : ℕ := (min (asInt f.channels) kMaxElements).toNat

/-- A sample of a channel. -/
def sampleOf (iq : ℕ → ℂ) (n k i : ℕ) : ℂ := iq (k * n + i)

namespace Mrc

/-- `reset`. The switch and the table of the ramp stay. -/
def reset (s : Mrc) : Mrc := { enabled_ := s.enabled_, ramp_ := s.ramp_ }

/-- `set_enabled`. -/
def setEnabled (s : Mrc) (on : Bool) : Mrc :=
  if on = s.enabled_ then s
  else if on = false then { s with enabled_ := on, engaged_ := false }
  else { s with enabled_ := on }

/-! ## Statistics -/

/-- A sample of a block, less the mean of the block. -/
def centred (iq : ℕ → ℂ) (n k b i : ℕ) : ℂ :=
  let off := b * (n / kMrcBlocks)
  sampleOf iq n k (off + i) -
    (∑ j ∈ Finset.range kMrcBlockLen, sampleOf iq n k (off + j)) / kMrcBlockLen

/-- `p_f`. -/
def powerIn (iq : ℕ → ℂ) (n k : ℕ) : ℝ :=
  ∑ b ∈ Finset.range kMrcBlocks, ∑ i ∈ Finset.range kMrcBlockLen,
    Complex.normSq (centred iq n k b i)

/-- `c_f`. -/
def crossIn (iq : ℕ → ℂ) (n k : ℕ) : ℂ :=
  if k = 0 then powerIn iq n 0
  else
    ∑ b ∈ Finset.range kMrcBlocks, ∑ i ∈ Finset.range kMrcBlockLen,
      centred iq n k b i * star (centred iq n 0 b i)

/-- The averages with a frame of `n` samples a channel. -/
def average (s : Mrc) (iq : ℕ → ℂ) (n : ℕ) : Mrc :=
  let c := fun k : Fin kMaxElements =>
    if (k : ℕ) < s.m_ then
      if s.stats_init_ then ((1 - kMrcAlpha : ℝ) : ℂ) * s.c_ k + (kMrcAlpha : ℂ) * crossIn iq n k
      else crossIn iq n k
    else s.c_ k
  let p := fun k : Fin kMaxElements =>
    if (k : ℕ) < s.m_ then
      if s.stats_init_ then (1 - kMrcAlpha) * s.p_ k + kMrcAlpha * powerIn iq n k
      else powerIn iq n k
    else s.p_ k
  { s with c_ := c, p_ := p, stats_init_ := true, warm_ := s.warm_ - 1 }

/-- The elements other than the first that the coherence is averaged over. -/
def coherent (s : Mrc) : Finset (Fin kMaxElements) :=
  Finset.univ.filter fun k => 0 < (k : ℕ) ∧ (k : ℕ) < s.m_ ∧ 1 / 10 ^ 30 < s.p_ element0 * s.p_ k

/-- `gamma`. -/
def coherence (s : Mrc) : ℝ :=
  if s.coherent.card = 0 then 0
  else (∑ k ∈ s.coherent, Complex.normSq (s.c_ k) / (s.p_ element0 * s.p_ k)) / s.coherent.card

/-- `pmed`. -/
def medianPower (s : Mrc) : ℝ :=
  ((((List.finRange kMaxElements).take s.m_).map s.p_).mergeSort fun a b => decide (a ≤ b)).getD
    (s.m_ / 2) 0

/-- Whether the channels are combined from now on. -/
def judge (s : Mrc) : Mrc :=
  let gamma := s.coherence
  let weak := decide (1 / 10 ^ 30 < s.medianPower) &&
    decide (s.p_ element0 < 5 / 100 * s.medianPower)
  let on := if kMrcGammaOn < gamma then s.dwell_on_ + 1 else 0
  let off :=
    if kMrcGammaOn < gamma then 0 else if gamma < kMrcGammaOff then s.dwell_off_ + 1 else 0
  let healthy := s.enabled_ && !weak && s.warm_ == 0
  let engaged := if healthy && decide (kMrcDwell ≤ on) then true else s.engaged_
  let engaged := if !healthy || decide (kMrcDwell ≤ off) then false else engaged
  { s with
    gamma_ := gamma
    ch0_weak_ := weak
    dwell_on_ := on
    dwell_off_ := off
    engaged_ := engaged }

/-! ## Weights and ramp -/

/-- The first guess of the noise: half of the least power. -/
def leastPower (s : Mrc) : ℝ :=
  (((List.finRange kMaxElements).take s.m_).foldl (fun a k => min a (s.p_ k)) (s.p_ element0)) / 2

/-- The elements with some noise left, where the noise is `s2`. -/
def noisy (s : Mrc) (s2 : ℝ) : Finset (Fin kMaxElements) :=
  Finset.univ.filter fun k =>
    (k : ℕ) < s.m_ ∧ 0 < s.p_ k - Complex.normSq (s.c_ k) / (s.p_ element0 - s2)

/-- The noise after at most `n` rounds of the estimate. -/
def refineNoise (s : Mrc) : ℕ → ℝ → ℝ
  | 0, s2 => s2
  | n + 1, s2 =>
    if s.p_ element0 - s2 ≤ 1 / 10 ^ 30 then s2
    else if (s.noisy s2).card = 0 then s2
    else
      refineNoise s n
        ((∑ k ∈ s.noisy s2, (s.p_ k - Complex.normSq (s.c_ k) / (s.p_ element0 - s2))) /
          (s.noisy s2).card)

/-- The noise of one element, or what stands for it. -/
def noiseOf (s : Mrc) (s2 : ℝ) (k : Fin kMaxElements) : ℝ :=
  let ps0 := s.p_ element0 - s2
  let sm := if 1 / 10 ^ 30 < ps0 then s.p_ k - Complex.normSq (s.c_ k) / ps0 else s.p_ k
  if sm < 1 / 10 ^ 30 then if 1 / 10 ^ 30 < s2 then s2 else s.p_ k else sm

/-- The weight of one element, before the weights are normalised. -/
def rawWeight (s : Mrc) (s2 : ℝ) (k : Fin kMaxElements) : ℂ :=
  if (k : ℕ) < s.m_ then
    if 1 / 10 ^ 30 < s.noiseOf s2 k then s.c_ k / (s.noiseOf s2 k : ℂ)
    else if k = element0 then 1 else 0
  else 0

/-- `solve_weights_`. -/
def solveWeights (s : Mrc) : Mrc :=
  if s.m_ < 2 then { s with w_target_ := Function.update s.w_target_ element0 1 }
  else
    let w := if s.engaged_ = false then e0 else s.rawWeight (s.refineNoise 8 s.leastPower)
    let w := normalize w s.m_
    { s with w_target_ := fun k => if (k : ℕ) < s.m_ then w k else 0 }

/-- The part of the way at which a segment of the ramp stands. -/
def rampPart (seg : ℕ) : ℝ := (seg + 1 / 2) / kMrcRampSeg

/-- A point of the straight way between two weights, on the channels that are there. -/
def lerp (s : Mrc) (seg : ℕ) : Weights := fun k =>
  if (k : ℕ) < s.m_ then
    ((1 - rampPart seg : ℝ) : ℂ) * s.w_prev_ k + (rampPart seg : ℂ) * s.w_target_ k
  else 0

/-- The weights of a segment. -/
def rampAt (s : Mrc) (seg : ℕ) : Weights := normalize (s.lerp seg) s.m_

/-- `build_ramp_`. -/
def buildRamp (s : Mrc) : Mrc := { s with ramp_ := s.rampAt, ramp_valid_ := true }

/-! ## Frames -/

/-- The state for the situation of a frame: statistics of another one are forgotten. -/
def enter (s : Mrc) (f : FrameView) : Mrc :=
  let changed := f.elements ≠ s.m_ ∨ f.center_hz ≠ s.center_hz_ ∨ f.fs_hz ≠ s.fs_hz_ ∨
    (f.usable = true ∧ s.prev_usable_ = false)
  let s :=
    if changed then
      { s.reset with m_ := f.elements, center_hz_ := f.center_hz, fs_hz_ := f.fs_hz }
    else s
  { s with prev_usable_ := f.usable }

/-- `observe`. -/
def observe (s : Mrc) (f : FrameView) : Mrc :=
  match f.iq with
  | none => { s with engaged_ := false }
  | some iq =>
    if f.channels < 2 then { s with engaged_ := false }
    else
      let s := s.enter f
      if f.usable = false then { s with engaged_ := false }
      else if f.samples_per_ch.toNat < kMrcSnapshots then { s with engaged_ := false }
      else (s.average iq f.samples_per_ch.toNat).judge.solveWeights.buildRamp

/-- The weights of a sample: those of its segment of the ramp, and those at its end from there on. -/
def weightAt (s : Mrc) (n i : ℕ) : Weights :=
  let seg_len := min kMrcRampLen n / kMrcRampSeg
  if i < kMrcRampSeg * seg_len then s.ramp_ (i / seg_len) else s.w_target_

/-- `combine`: the samples that it writes, and the state after it. -/
def combine (s : Mrc) (f : FrameView) (iq : ℕ → ℂ) : (ℕ → ℂ) × Mrc :=
  let n := f.samples_per_ch.toNat
  if f.elements < 2 ∨ s.ramp_valid_ = false then (iq, s)
  else
    (fun i => ∑ k : Fin kMaxElements,
        if (k : ℕ) < f.elements then star (s.weightAt n i k) * sampleOf iq n k i else 0,
      { s with w_prev_ := s.w_target_ })

end Mrc

end

end Bewe.Df
