import Bewe.Df.Mrc

/-!
# The weights of the combination

Weights as vectors of a Hermitian space. Whatever the statistics are, the weights that the ramp leads to
have norm 1 and begin with a real number that is not negative (`Mrc.Sound.observe`), and every segment
of the ramp lies on the normalised way between two such weights (`Mrc.vec_rampAt`).
-/

namespace Bewe.Df

noncomputable section

/-! ## Weights as vectors -/

/-- Norm 1, and a first weight that is real and not negative. -/
structure Anchored (w : Weights) : Prop where
  norm : ∑ k, Complex.normSq (w k) = 1
  re : 0 ≤ (w element0).re
  im : (w element0).im = 0

/-- No weights from the `m`-th on, the first weight apart. -/
def Within (m : ℕ) (w : Weights) : Prop := ∀ k, k ≠ element0 → m ≤ (k : ℕ) → w k = 0

/-- Weights as a vector of the Hermitian space. -/
def vec (w : Weights) : EuclideanSpace ℂ (Fin kMaxElements) := WithLp.toLp 2 w

theorem vec_injective : Function.Injective vec := WithLp.toLp_injective 2

theorem norm_vec_sq (w : Weights) : ‖vec w‖ ^ 2 = ∑ k, Complex.normSq (w k) := by
  rw [EuclideanSpace.norm_sq_eq]
  exact Finset.sum_congr rfl fun k _ => (Complex.normSq_eq_norm_sq _).symm

theorem Anchored.norm_vec {w : Weights} (h : Anchored w) : ‖vec w‖ = 1 := by
  have hsq := norm_vec_sq w
  rw [h.norm] at hsq
  exact (pow_eq_one_iff_of_nonneg (norm_nonneg _) two_ne_zero).1 hsq

theorem anchored_of_norm_vec {w : Weights} (h : ‖vec w‖ = 1) (hre : 0 ≤ (w element0).re)
    (him : (w element0).im = 0) : Anchored w :=
  ⟨by rw [← norm_vec_sq, h, one_pow], hre, him⟩

theorem anchored_e0 : Anchored e0 := by
  refine ⟨?_, by simp [e0], by simp [e0]⟩
  rw [Finset.sum_eq_single element0]
  · simp [e0]
  · intro k _ hk
    rw [e0, Pi.single_eq_of_ne hk, map_zero]
  · exact fun h => absurd (Finset.mem_univ _) h

theorem within_e0 (m : ℕ) : Within m e0 := fun _ hk _ => Pi.single_eq_of_ne hk 1

theorem Within.eq_zero {m : ℕ} {w : Weights} (h : Within m w) (hm : 1 ≤ m) {k : Fin kMaxElements}
    (hk : m ≤ (k : ℕ)) : w k = 0 := by
  refine h k (fun h0 => ?_) hk
  rw [h0] at hk
  exact absurd hm (not_le.2 (Nat.lt_succ_of_le hk))

theorem powerOf_eq {m : ℕ} {w : Weights} (h : Within m w) (hm : 1 ≤ m) :
    powerOf w m = ‖vec w‖ ^ 2 := by
  rw [norm_vec_sq, powerOf]
  refine Finset.sum_congr rfl fun k _ => ?_
  split_ifs with hk
  · rfl
  · rw [h.eq_zero hm (not_lt.1 hk), map_zero]

/-- Weights that are not too small are divided by their norm. -/
theorem vec_normalize {m : ℕ} {w : Weights} (h : Within m w) (hm : 1 ≤ m)
    (hbig : 1 / 10 ^ 30 < ‖vec w‖ ^ 2) : vec (normalize w m) = NormedSpace.normalize (vec w) := by
  have hsqrt : Real.sqrt (powerOf w m) = ‖vec w‖ := by
    rw [powerOf_eq h hm, Real.sqrt_sq (norm_nonneg _)]
  rw [normalize, if_pos (by rwa [powerOf_eq h hm]), hsqrt, NormedSpace.normalize]
  ext k
  change (if (k : ℕ) < m then w k * ((1 / ‖vec w‖ : ℝ) : ℂ) else w k) = ‖vec w‖⁻¹ • w k
  split_ifs with hk
  · rw [one_div, Complex.real_smul, mul_comm]
  · rw [h.eq_zero hm (not_lt.1 hk), smul_zero]

/-- Weights that are too small leave channel 0 alone. -/
theorem normalize_of_small {m : ℕ} {w : Weights} (h : Within m w) (hm : 1 ≤ m)
    (hsmall : ¬ 1 / 10 ^ 30 < powerOf w m) : normalize w m = e0 := by
  rw [normalize, if_neg hsmall]
  funext k
  by_cases h0 : k = element0
  · rw [if_pos h0, h0, e0, Pi.single_eq_same]
  · rw [if_neg h0, e0, Pi.single_eq_of_ne h0]
    split_ifs with hk
    · rfl
    · exact h.eq_zero hm (not_lt.1 hk)

theorem normalize_of_norm {m : ℕ} {w : Weights} (h : Within m w) (hm : 1 ≤ m)
    (hw : ‖vec w‖ = 1) : normalize w m = w := by
  apply vec_injective
  rw [vec_normalize h hm (by rw [hw]; norm_num), NormedSpace.normalize_eq_self_of_norm_eq_one hw]

theorem within_normalize {m : ℕ} {w : Weights} (h : Within m w) : Within m (normalize w m) := by
  intro k h0 hk
  rw [normalize]
  split_ifs
  · change (if (k : ℕ) < m then _ else w k) = 0
    rw [if_neg (not_lt.2 hk), h k h0 hk]
  · change (if k = element0 then (1 : ℂ) else if (k : ℕ) < m then 0 else w k) = 0
    rw [if_neg h0, if_neg (not_lt.2 hk), h k h0 hk]

/-- Normalised weights have norm 1, and keep a first weight that is real and not negative. -/
theorem anchored_normalize {m : ℕ} {w : Weights} (h : Within m w) (hm : 1 ≤ m)
    (hre : 0 ≤ (w element0).re) (him : (w element0).im = 0) : Anchored (normalize w m) := by
  by_cases hbig : 1 / 10 ^ 30 < powerOf w m
  · have hbig' : 1 / 10 ^ 30 < ‖vec w‖ ^ 2 := by rwa [← powerOf_eq h hm]
    have hne : vec w ≠ 0 := by
      intro h0
      rw [h0, norm_zero] at hbig'
      norm_num at hbig'
    have h0 : normalize w m element0 = w element0 * ((1 / Real.sqrt (powerOf w m) : ℝ) : ℂ) := by
      rw [normalize, if_pos hbig]
      exact if_pos hm
    refine anchored_of_norm_vec ?_ ?_ ?_
    · rw [vec_normalize h hm hbig']
      exact NormedSpace.norm_normalize hne
    · rw [h0, Complex.re_mul_ofReal]
      exact mul_nonneg hre (by positivity)
    · rw [h0, Complex.im_mul_ofReal, him, zero_mul]
  · rw [normalize_of_small h hm hbig]
    exact anchored_e0

/-! ## The state -/

/-- What is true of the state at all times: the weights have norm 1 and lie on the channels that are
there, and the average of channel 0 with itself is its power. -/
structure Mrc.Sound (s : Mrc) : Prop where
  prev : Anchored s.w_prev_
  target : Anchored s.w_target_
  withinPrev : Within s.m_ s.w_prev_
  withinTarget : Within s.m_ s.w_target_
  first : s.c_ element0 = (s.p_ element0 : ℂ)
  power : 0 ≤ s.p_ element0

namespace Mrc

variable {s : Mrc} {f : FrameView}

theorem sound_reset (s : Mrc) : s.reset.Sound where
  prev := anchored_e0
  target := anchored_e0
  withinPrev := within_e0 0
  withinTarget := within_e0 0
  first := Complex.ofReal_zero.symm
  power := le_rfl

theorem Sound.setEnabled (h : s.Sound) (on : Bool) : (s.setEnabled on).Sound := by
  rw [Mrc.setEnabled]
  split_ifs
  · exact h
  · exact ⟨h.prev, h.target, h.withinPrev, h.withinTarget, h.first, h.power⟩
  · exact ⟨h.prev, h.target, h.withinPrev, h.withinTarget, h.first, h.power⟩

theorem Sound.disengage (h : s.Sound) : Sound { s with engaged_ := false } :=
  ⟨h.prev, h.target, h.withinPrev, h.withinTarget, h.first, h.power⟩

theorem Sound.enter (h : s.Sound) (f : FrameView) : (s.enter f).Sound := by
  rw [Mrc.enter]
  split_ifs
  · exact ⟨anchored_e0, anchored_e0, within_e0 _, within_e0 _, (sound_reset s).first, le_rfl⟩
  · exact ⟨h.prev, h.target, h.withinPrev, h.withinTarget, h.first, h.power⟩

/-- After the check of the situation, the channels are those of the frame. -/
theorem enter_m (s : Mrc) (f : FrameView) : (s.enter f).m_ = f.elements := by
  rw [Mrc.enter]
  split_ifs with hchanged
  · rfl
  · exact (not_not.1 (not_or.1 hchanged).1).symm

theorem powerIn_nonneg (iq : ℕ → ℂ) (n k : ℕ) : 0 ≤ powerIn iq n k :=
  Finset.sum_nonneg fun _ _ => Finset.sum_nonneg fun _ _ => Complex.normSq_nonneg _

theorem kMrcAlpha_mem : 0 ≤ kMrcAlpha ∧ kMrcAlpha ≤ 1 := by
  rw [kMrcAlpha]
  constructor <;> norm_num

theorem Sound.average (h : s.Sound) (iq : ℕ → ℂ) (n : ℕ) : (s.average iq n).Sound := by
  have hcross : crossIn iq n (element0 : Fin kMaxElements) = (powerIn iq n 0 : ℂ) := if_pos rfl
  refine ⟨h.prev, h.target, h.withinPrev, h.withinTarget, ?_, ?_⟩
  · rw [Mrc.average]
    dsimp only
    split_ifs
    · rw [h.first, hcross]
      push_cast
      rfl
    · exact hcross
    · exact h.first
  · rw [Mrc.average]
    dsimp only
    split_ifs
    · exact add_nonneg (mul_nonneg (sub_nonneg.2 kMrcAlpha_mem.2) h.power)
        (mul_nonneg kMrcAlpha_mem.1 (powerIn_nonneg iq n _))
    · exact powerIn_nonneg iq n _
    · exact h.power

theorem Sound.judge (h : s.Sound) : s.judge.Sound :=
  ⟨h.prev, h.target, h.withinPrev, h.withinTarget, h.first, h.power⟩

/-- With one channel at most, the weights are those of channel 0. -/
theorem update_eq_e0 {m : ℕ} {w : Weights} (h : Within m w) (hm : m < 2) :
    Function.update w element0 1 = e0 := by
  funext k
  by_cases h0 : k = element0
  · rw [h0, Function.update_self, e0, Pi.single_eq_same]
  · have hk : (k : ℕ) ≠ 0 := fun hk => h0 (Fin.ext hk)
    rw [Function.update_of_ne h0, e0, Pi.single_eq_of_ne h0]
    exact h k h0 (by omega)

theorem within_rawWeight (s : Mrc) (s2 : ℝ) : Within s.m_ (s.rawWeight s2) :=
  fun _ _ hk => if_neg (not_lt.2 hk)

/-- The first weight is a power over a noise. -/
theorem rawWeight_element0 (h : s.Sound) (s2 : ℝ) :
    0 ≤ (s.rawWeight s2 element0).re ∧ (s.rawWeight s2 element0).im = 0 := by
  rw [rawWeight]
  split_ifs with hm hnoise
  · have hpos : 0 < s.noiseOf s2 element0 := lt_trans (by norm_num) hnoise
    rw [h.first, ← Complex.ofReal_div]
    exact ⟨div_nonneg h.power hpos.le, Complex.ofReal_im _⟩
  · exact ⟨zero_le_one, rfl⟩
  · exact ⟨le_rfl, rfl⟩
  · exact ⟨le_rfl, rfl⟩

theorem solveWeights_target (h : s.Sound) :
    s.solveWeights.w_target_ =
      if s.m_ < 2 ∨ s.engaged_ = false then e0
      else normalize (s.rawWeight (s.refineNoise 8 s.leastPower)) s.m_ := by
  by_cases hm : s.m_ < 2
  · rw [solveWeights, if_pos hm, if_pos (Or.inl hm)]
    exact update_eq_e0 h.withinTarget hm
  · have hcut : ∀ {w : Weights}, Within s.m_ w →
        (fun k : Fin kMaxElements => if (k : ℕ) < s.m_ then w k else 0) = w := by
      intro w hw
      funext k
      split_ifs with hk
      · rfl
      · exact (hw.eq_zero (by omega) (not_lt.1 hk)).symm
    rw [solveWeights, if_neg hm]
    by_cases he : s.engaged_ = false
    · rw [if_pos (Or.inr he)]
      simp only [he, if_true]
      rw [hcut (within_normalize (within_e0 _))]
      exact normalize_of_norm (within_e0 _) (by omega) anchored_e0.norm_vec
    · rw [if_neg (not_or.2 ⟨hm, he⟩)]
      simp only [he]
      exact hcut (within_normalize (within_rawWeight s _))

/-- Only the weights that the ramp leads to change. -/
theorem exists_solveWeights (s : Mrc) : ∃ w, s.solveWeights = { s with w_target_ := w } := by
  rw [Mrc.solveWeights]
  split_ifs
  · exact ⟨_, rfl⟩
  · exact ⟨_, rfl⟩
  · exact ⟨_, rfl⟩

theorem Sound.solveWeights (h : s.Sound) : s.solveWeights.Sound := by
  have htarget : Anchored s.solveWeights.w_target_ ∧ Within s.m_ s.solveWeights.w_target_ := by
    rw [solveWeights_target h]
    split_ifs with hsingle
    · exact ⟨anchored_e0, within_e0 _⟩
    · have hfirst := rawWeight_element0 h (s.refineNoise 8 s.leastPower)
      have hw := within_rawWeight s (s.refineNoise 8 s.leastPower)
      exact ⟨anchored_normalize hw (by omega) hfirst.1 hfirst.2, within_normalize hw⟩
  obtain ⟨w, hw⟩ := exists_solveWeights s
  rw [hw] at htarget ⊢
  exact ⟨h.prev, htarget.1, h.withinPrev, htarget.2, h.first, h.power⟩

theorem Sound.buildRamp (h : s.Sound) : s.buildRamp.Sound :=
  ⟨h.prev, h.target, h.withinPrev, h.withinTarget, h.first, h.power⟩

theorem Sound.observe (h : s.Sound) (f : FrameView) : (s.observe f).Sound := by
  rw [Mrc.observe]
  split
  · exact h.disengage
  · split_ifs
    · exact h.disengage
    · exact (h.enter f).disengage
    · exact (h.enter f).disengage
    · exact ((h.enter f).average _ _).judge.solveWeights.buildRamp

theorem Sound.combine (h : s.Sound) (f : FrameView) (iq : ℕ → ℂ) : (s.combine f iq).2.Sound := by
  rw [Mrc.combine]
  split_ifs
  · exact h
  · exact ⟨h.target, h.target, h.withinTarget, h.withinTarget, h.first, h.power⟩

/-! ## Engaged channels -/

/-- What a frame leaves with which the channels are engaged: it has samples enough, and its ramp leads
from the weights remembered before it to the new ones. -/
structure Engaged (s : Mrc) (f : FrameView) (t : Mrc) : Prop where
  samples : kMrcSnapshots ≤ f.samples_per_ch.toNat
  m_eq : t.m_ = f.elements
  prev_eq : t.w_prev_ = s.w_prev_
  ramp_eq : t.ramp_ = t.rampAt
  valid : t.ramp_valid_ = true

@[simp] theorem setEnabled_w_prev (s : Mrc) (on : Bool) : (s.setEnabled on).w_prev_ = s.w_prev_ := by
  rw [Mrc.setEnabled]
  split_ifs <;> rfl

/-- A frame of another situation has the warm-up before it. -/
theorem enter_cases (s : Mrc) (f : FrameView) :
    (s.enter f).w_prev_ = s.w_prev_ ∨ (s.enter f).warm_ = kMrcWarm := by
  rw [Mrc.enter]
  split_ifs
  · exact Or.inr rfl
  · exact Or.inl rfl

theorem judge_engaged_warm (h : s.judge.engaged_ = true) : s.warm_ = 0 := by
  by_contra hwarm
  have hne : (s.warm_ == 0) = false := by simpa using hwarm
  simp [Mrc.judge, hne] at h

theorem engaged_observe (h : (s.observe f).engaged_ = true) : Engaged s f (s.observe f) := by
  rw [Mrc.observe] at h ⊢
  split at h
  · cases h
  · split_ifs at h ⊢ with hch husable hsamples
    · rename_i iq _
      obtain ⟨w, hw⟩ := exists_solveWeights
        ((s.enter f).average iq f.samples_per_ch.toNat).judge
      dsimp only at h ⊢
      rw [hw] at h ⊢
      have hwarm : ((s.enter f).average iq f.samples_per_ch.toNat).warm_ = 0 :=
        judge_engaged_warm h
      have hprev : (s.enter f).w_prev_ = s.w_prev_ := by
        rcases enter_cases s f with hprev | hreset
        · exact hprev
        · -- one frame is not enough to warm up
          have hone : ((s.enter f).average iq f.samples_per_ch.toNat).warm_ =
            (s.enter f).warm_ - 1 := rfl
          rw [hone, hreset, kMrcWarm] at hwarm
          cases hwarm
      exact ⟨not_lt.1 hsamples, enter_m s f, hprev, rfl, rfl⟩

/-! ## Ramps -/

theorem rampPart_mem {seg : ℕ} (h : seg < kMrcRampSeg) :
    0 ≤ rampPart seg ∧ rampPart seg ≤ 1 := by
  have hle : (seg : ℝ) + 1 ≤ (256 : ℕ) := by exact_mod_cast h
  push_cast at hle
  rw [rampPart, kMrcRampSeg]
  push_cast
  constructor
  · positivity
  · rw [div_le_one (by norm_num)]
    linarith

/-- No segment of the ramp stands at the middle of the way. -/
theorem one_le_abs_rampPart (seg : ℕ) : 1 ≤ 256 * |1 - 2 * rampPart seg| := by
  have hpart : 256 * (1 - 2 * rampPart seg) = ((255 - 2 * seg : ℤ) : ℝ) := by
    rw [rampPart, kMrcRampSeg]
    push_cast
    ring
  have hodd : (1 : ℤ) ≤ |255 - 2 * (seg : ℤ)| := Int.one_le_abs (by omega)
  calc (1 : ℝ) ≤ |((255 - 2 * seg : ℤ) : ℝ)| := by exact_mod_cast hodd
    _ = 256 * |1 - 2 * rampPart seg| := by rw [← hpart, abs_mul, abs_of_pos (by norm_num)]

theorem within_lerp (s : Mrc) (seg : ℕ) : Within s.m_ (s.lerp seg) :=
  fun _ _ hk => if_neg (not_lt.2 hk)

theorem vec_lerp (h : s.Sound) (hm : 1 ≤ s.m_) (seg : ℕ) :
    vec (s.lerp seg) = Lib.onPath (rampPart seg) (vec s.w_prev_) (vec s.w_target_) := by
  ext k
  change s.lerp seg k = (1 - rampPart seg) • s.w_prev_ k + rampPart seg • s.w_target_ k
  rw [lerp, Complex.real_smul, Complex.real_smul]
  split_ifs with hk
  · rfl
  · rw [h.withinPrev.eq_zero hm (not_lt.1 hk), h.withinTarget.eq_zero hm (not_lt.1 hk), mul_zero,
      mul_zero, add_zero]

/-- Every segment of the ramp lies on the normalised way. -/
theorem vec_rampAt (h : s.Sound) (hm : 1 ≤ s.m_) {seg : ℕ} (hseg : seg < kMrcRampSeg) :
    vec (s.rampAt seg) =
      NormedSpace.normalize (Lib.onPath (rampPart seg) (vec s.w_prev_) (vec s.w_target_)) := by
  have hpart := rampPart_mem hseg
  have hnorm := Lib.abs_one_sub_le_norm_onPath h.prev.norm_vec h.target.norm_vec hpart.1 hpart.2
  have hmid := one_le_abs_rampPart seg
  rw [← vec_lerp h hm seg] at hnorm ⊢
  refine vec_normalize (within_lerp s seg) hm ?_
  have hle : (1 : ℝ) / 256 ≤ ‖vec (s.lerp seg)‖ := by linarith
  calc (1 : ℝ) / 10 ^ 30 < (1 / 256) ^ 2 := by norm_num
    _ ≤ ‖vec (s.lerp seg)‖ ^ 2 := by gcongr

theorem anchored_rampAt (h : s.Sound) (hm : 1 ≤ s.m_) {seg : ℕ} (hseg : seg < kMrcRampSeg) :
    Anchored (s.rampAt seg) := by
  have hpart := rampPart_mem hseg
  have hfirst : s.lerp seg element0 =
      ((1 - rampPart seg : ℝ) : ℂ) * s.w_prev_ element0 +
        (rampPart seg : ℂ) * s.w_target_ element0 := if_pos hm
  refine anchored_normalize (within_lerp s seg) hm ?_ ?_
  · rw [hfirst, Complex.add_re, Complex.re_ofReal_mul, Complex.re_ofReal_mul]
    exact add_nonneg (mul_nonneg (sub_nonneg.2 hpart.2) h.prev.re)
      (mul_nonneg hpart.1 h.target.re)
  · rw [hfirst, Complex.add_im, Complex.im_ofReal_mul, Complex.im_ofReal_mul, h.prev.im,
      h.target.im, mul_zero, mul_zero, add_zero]

/-- The segment that a sample of the ramp belongs to. -/
theorem seg_lt {n i : ℕ} (hi : i < kMrcRampSeg * (min kMrcRampLen n / kMrcRampSeg)) :
    i / (min kMrcRampLen n / kMrcRampSeg) < kMrcRampSeg := by
  rw [mul_comm] at hi
  exact Nat.div_lt_of_lt_mul hi

theorem anchored_weightAt (h : s.Sound) (hm : 1 ≤ s.m_) (hramp : s.ramp_ = s.rampAt) (n i : ℕ) :
    Anchored (s.weightAt n i) := by
  rw [weightAt]
  split_ifs with hi
  · rw [hramp]
    exact anchored_rampAt h hm (seg_lt hi)
  · exact h.target

/-- The first sample has the weights of the first segment. -/
theorem weightAt_zero {n : ℕ} (hn : kMrcSnapshots ≤ n) : s.weightAt n 0 = s.ramp_ 0 := by
  have hsnap : kMrcSnapshots = 8192 := rfl
  have hpos : 0 < kMrcRampSeg * (min kMrcRampLen n / kMrcRampSeg) := by
    rw [kMrcRampLen, kMrcRampSeg]
    omega
  rw [weightAt]
  rw [if_pos hpos, Nat.zero_div]

/-- After the ramp, and where it does not fill the frame, the weights are the new ones. -/
theorem weightAt_last {n i : ℕ} (hi : kMrcRampLen ≤ i) : s.weightAt n i = s.w_target_ := by
  have hle : kMrcRampSeg * (min kMrcRampLen n / kMrcRampSeg) ≤ i :=
    (Nat.mul_div_le _ _).trans ((min_le_left _ _).trans hi)
  rw [weightAt]
  rw [if_neg (not_lt.2 hle)]

end Mrc

end

end Bewe.Df
