import Bewe.Df.MrcWeights

/-!
# Ramps from frame to frame

The sink of the frames in `kraken_io.cpp` hands each frame to `Mrc.observe`, and combines the channels
while they are engaged; otherwise channel 0 passes through, as if combined with `e0`. A run is a list
of frames, each with the switch as it stands when the frame arrives.

Whether the first weights of a frame continue those at the end of the frame before depends on the
weights that its ramp begins at: `smooth_runs_iff` says that all frames of a run continue each other
exactly if each begins at the weights that the previous frame ended with. A frame that passes through
after a combined one does not.
-/

namespace Bewe.Df

noncomputable section

/-! ## The sink -/

/-- Whether the channels of a frame are added up. -/
def Mrc.combines (s : Mrc) (f : FrameView) : Bool :=
  s.engaged_ && decide (2 ≤ f.elements) && s.ramp_valid_

/-- The sink of the frames, up to the samples that are written: those, and the state. -/
def sink (s : Mrc) (on : Bool) (f : FrameView) : Option (ℕ → ℂ) × Mrc :=
  match f.iq with
  | none => (none, s)
  | some iq =>
    if f.channels = 0 then (none, s)
    else
      let s := (s.setEnabled on).observe f
      if s.engaged_ then (some (s.combine f iq).1, (s.combine f iq).2)
      else (some (sampleOf iq f.samples_per_ch.toNat 0), s)

/-- The samples that the sink writes of a frame. -/
def FrameView.written (f : FrameView) : ℕ :=
  if f.iq.isSome && decide (f.channels ≠ 0) then f.samples_per_ch.toNat else 0

/-- The combination, and the weights that the last sample was made with. -/
structure Tap where
  mrc : Mrc := {}
  last : Weights := e0

namespace Tap

open Mrc (rampPart rampPart_mem)

/-- The combination once it has seen a frame. -/
def seen (s : Tap) (on : Bool) (f : FrameView) : Mrc := (s.mrc.setEnabled on).observe f

/-- The weights of a sample of a frame. -/
def weights (s : Tap) (on : Bool) (f : FrameView) (i : ℕ) : Weights :=
  if (s.seen on f).combines f then (s.seen on f).weightAt f.samples_per_ch.toNat i else e0

/-- The weights that a frame leads to. -/
def target (s : Tap) (on : Bool) (f : FrameView) : Weights :=
  if (s.seen on f).combines f then (s.seen on f).w_target_ else e0

/-- The weights that a frame begins at. -/
def start (s : Tap) (on : Bool) (f : FrameView) : Weights :=
  if (s.seen on f).combines f then s.mrc.w_prev_ else e0

/-- A frame comes. -/
def step (s : Tap) (e : Bool × FrameView) : Tap where
  mrc := (sink s.mrc e.1 e.2).2
  last := if 0 < e.2.written then s.weights e.1 e.2 (e.2.written - 1) else s.last

/-- The weights of a frame have norm 1 and a first one that is real and not negative, and the first of
them lie on the normalised way from the last weights before to the new ones, in the first segment. -/
structure Smooth (s : Tap) (on : Bool) (f : FrameView) : Prop where
  anchored : ∀ i < f.written, Anchored (s.weights on f i)
  path : 0 < f.written → vec (s.weights on f 0) =
    NormedSpace.normalize (Lib.onPath (rampPart 0) (vec s.last) (vec (s.target on f)))

/-- A frame begins at the weights that the one before ended with. -/
def Slides (s : Tap) (on : Bool) (f : FrameView) : Prop := 0 < f.written → s.start on f = s.last

/-- What is true at all times. -/
structure Sound (s : Tap) : Prop where
  mrc : s.mrc.Sound
  last : Anchored s.last

variable {s : Tap} {on : Bool} {f : FrameView}

theorem sound_seen (h : s.Sound) (on : Bool) (f : FrameView) : (s.seen on f).Sound :=
  (h.mrc.setEnabled on).observe f

theorem engaged_of_combines (hc : (s.seen on f).combines f = true) :
    (s.mrc.setEnabled on).Engaged f (s.seen on f) ∧ 1 ≤ (s.seen on f).m_ := by
  rw [Mrc.combines, Bool.and_eq_true, Bool.and_eq_true, decide_eq_true_eq] at hc
  have he : (s.mrc.setEnabled on).Engaged f (s.seen on f) := Mrc.engaged_observe hc.1.1
  refine ⟨he, ?_⟩
  rw [he.m_eq]
  omega

theorem anchored_weights (h : s.Sound) (on : Bool) (f : FrameView) (i : ℕ) :
    Anchored (s.weights on f i) := by
  rw [weights]
  split_ifs with hc
  · obtain ⟨he, hm⟩ := engaged_of_combines hc
    exact Mrc.anchored_weightAt (sound_seen h on f) hm he.ramp_eq _ _
  · exact anchored_e0

theorem Sound.step (h : s.Sound) (e : Bool × FrameView) : (s.step e).Sound where
  mrc := by
    have hseen := (h.mrc.setEnabled e.1).observe e.2
    rw [Tap.step, sink]
    split
    · exact h.mrc
    · dsimp only
      split_ifs
      · exact h.mrc
      · exact hseen.combine e.2 _
      · exact hseen
  last := by
    rw [Tap.step]
    dsimp only
    split_ifs
    · exact anchored_weights h e.1 e.2 _
    · exact h.last

theorem Sound.run (h : s.Sound) (es : List (Bool × FrameView)) : (es.foldl Tap.step s).Sound := by
  induction es generalizing s with
  | nil => exact h
  | cons e es ih => exact ih (h.step e)

theorem sound_empty : ({} : Tap).Sound := ⟨Mrc.sound_reset {}, anchored_e0⟩

theorem vec_weights_zero (h : s.Sound) (on : Bool) (f : FrameView) :
    vec (s.weights on f 0) =
      NormedSpace.normalize (Lib.onPath (rampPart 0) (vec (s.start on f)) (vec (s.target on f))) := by
  rw [weights, start, target]
  split_ifs with hc
  · obtain ⟨he, hm⟩ := engaged_of_combines hc
    have hprev : s.mrc.w_prev_ = (s.seen on f).w_prev_ := by
      rw [he.prev_eq, Mrc.setEnabled_w_prev]
    rw [Mrc.weightAt_zero he.samples, he.ramp_eq, hprev]
    exact Mrc.vec_rampAt (sound_seen h on f) hm (by decide)
  · rw [Lib.onPath_self, NormedSpace.normalize_eq_self_of_norm_eq_one anchored_e0.norm_vec]

theorem anchored_start (h : s.Sound) (on : Bool) (f : FrameView) : Anchored (s.start on f) := by
  rw [start]
  split_ifs
  · exact h.mrc.prev
  · exact anchored_e0

theorem anchored_target (h : s.Sound) (on : Bool) (f : FrameView) : Anchored (s.target on f) := by
  rw [target]
  split_ifs
  · exact (sound_seen h on f).target
  · exact anchored_e0

/-- A frame is smooth exactly if it begins at the weights that the one before ended with. -/
theorem smooth_iff (h : s.Sound) (on : Bool) (f : FrameView) : s.Smooth on f ↔ s.Slides on f := by
  constructor
  · intro hsmooth hpos
    have hpath := hsmooth.path hpos
    rw [vec_weights_zero h on f] at hpath
    refine vec_injective (Lib.eq_of_normalize_onPath (anchored_start h on f).norm_vec
      h.last.norm_vec (anchored_target h on f).norm_vec (rampPart_mem (by decide)).1 ?_ hpath)
    norm_num [rampPart, kMrcRampSeg]
  · intro hslides
    refine ⟨fun i _ => anchored_weights h on f i, fun hpos => ?_⟩
    rw [vec_weights_zero h on f, hslides hpos]

/-- The channels of a frame are combined. -/
def combined (s : Tap) (e : Bool × FrameView) : Bool := (s.seen e.1 e.2).combines e.2

/-- A combined frame leaves its target to the next ramp. -/
theorem prev_step {e : Bool × FrameView} (hpos : 0 < e.2.written) (hc : s.combined e = true) :
    (s.step e).mrc.w_prev_ = s.target e.1 e.2 := by
  rw [combined] at hc
  rw [target, if_pos hc]
  rw [Mrc.combines, Bool.and_eq_true, Bool.and_eq_true, decide_eq_true_eq] at hc
  obtain ⟨⟨hengaged, helements⟩, hramp⟩ := hc
  rw [FrameView.written] at hpos
  cases hiq : e.2.iq with
  | none => simp [hiq] at hpos
  | some iq =>
    by_cases hch : e.2.channels = 0
    · simp [hch] at hpos
    · simp only [step, sink, hiq, if_neg hch]
      rw [seen] at hengaged hramp ⊢
      rw [if_pos hengaged, Mrc.combine, if_neg (by rw [hramp]; simp; omega)]

/-- A frame that comes behind another one slides if no passed-through frame comes behind a combined
one that ended away from `e0`, no combined one behind a passed-through one with other weights in
memory, and none behind a combined one that ended short of its target. -/
theorem slides_step_iff {e f : Bool × FrameView} (hpos : 0 < e.2.written) (hf : 0 < f.2.written) :
    (s.step e).Slides f.1 f.2 ↔
      (s.combined e = true → (s.step e).combined f = false →
        s.weights e.1 e.2 (e.2.written - 1) = e0) ∧
      (s.combined e = false → (s.step e).combined f = true → (s.step e).mrc.w_prev_ = e0) ∧
      (s.combined e = true → (s.step e).combined f = true →
        s.weights e.1 e.2 (e.2.written - 1) = s.target e.1 e.2) := by
  have hlast : (s.step e).last = s.weights e.1 e.2 (e.2.written - 1) := if_pos hpos
  have hpass : s.combined e = false → s.weights e.1 e.2 (e.2.written - 1) = e0 := fun hc => by
    rw [weights, if_neg]
    rw [combined] at hc
    rw [hc]
    exact Bool.false_ne_true
  rw [Slides, forall_prop_of_true hf, hlast, start]
  change (if (s.step e).combined f = true then _ else _) = _ ↔ _
  cases hc : s.combined e <;> cases hf' : (s.step e).combined f
  · simp [hpass hc]
  · simp [hpass hc]
  · simp [eq_comm]
  · simp [prev_step hpos hc, eq_comm]

/-- The frames of a run are all smooth exactly if each begins at the weights that the one before ended
with. -/
theorem smooth_runs_iff (es : List (Bool × FrameView)) :
    (∀ es' e, es' ++ [e] <+: es → (es'.foldl step {}).Smooth e.1 e.2) ↔
      ∀ es' e, es' ++ [e] <+: es → (es'.foldl step {}).Slides e.1 e.2 := by
  constructor
  · intro hall es' e hpre
    exact (smooth_iff (sound_empty.run es') e.1 e.2).1 (hall es' e hpre)
  · intro hall es' e hpre
    exact (smooth_iff (sound_empty.run es') e.1 e.2).2 (hall es' e hpre)

end Tap

/-! ## A switch that is turned off -/

/-- A tone at half of the sampling rate. -/
def tone (j : ℕ) : ℂ := if j % 2 = 0 then 1 else -1

/-- A frame of two channels with the same tone. -/
def toneFrame : FrameView where
  iq := some tone
  channels := 2
  samples_per_ch := 131072
  center_hz := 433000000
  fs_hz := 2400000
  usable := true

theorem sum_tone (m off : ℕ) (hoff : off % 2 = 0) :
    ∑ j ∈ Finset.range (2 * m), tone (off + j) = 0 := by
  induction m with
  | zero => rfl
  | succ m ih =>
    rw [Nat.mul_succ, Finset.sum_range_succ, Finset.sum_range_succ, ih, tone, tone,
      if_pos (by omega), if_neg (by omega)]
    ring

theorem normSq_tone (j : ℕ) : Complex.normSq (tone j) = 1 := by
  rw [tone]
  split_ifs
  · exact map_one _
  · rw [Complex.normSq_neg, map_one]

theorem centred_tone (k b i : ℕ) :
    Mrc.centred tone 131072 k b i = tone (k * 131072 + (b * 2048 + i)) := by
  have hmean : ∑ j ∈ Finset.range kMrcBlockLen, sampleOf tone 131072 k (b * 2048 + j) = 0 := by
    rw [← sum_tone 64 (k * 131072 + b * 2048) (by omega)]
    refine Finset.sum_congr rfl fun j _ => ?_
    rw [sampleOf, Nat.add_assoc]
  rw [Mrc.centred, show 131072 / kMrcBlocks = 2048 from rfl, hmean, zero_div, sub_zero, sampleOf]

theorem powerIn_tone (k : ℕ) : Mrc.powerIn tone 131072 k = 8192 := by
  have hone : ∀ b ∈ Finset.range kMrcBlocks, ∀ i ∈ Finset.range kMrcBlockLen,
      Complex.normSq (Mrc.centred tone 131072 k b i) = 1 := fun b _ i _ => by
    rw [centred_tone, normSq_tone]
  rw [Mrc.powerIn, Finset.sum_congr rfl fun b hb => Finset.sum_congr rfl (hone b hb)]
  norm_num [kMrcBlocks, kMrcBlockLen]

theorem crossIn_tone (k : ℕ) : Mrc.crossIn tone 131072 k = 8192 := by
  have hone : ∀ b ∈ Finset.range kMrcBlocks, ∀ i ∈ Finset.range kMrcBlockLen,
      Mrc.centred tone 131072 k b i * star (Mrc.centred tone 131072 0 b i) = 1 := fun b _ i _ => by
    have heq : tone (k * 131072 + (b * 2048 + i)) = tone (0 * 131072 + (b * 2048 + i)) := by
      rw [tone, tone, show (k * 131072 + (b * 2048 + i)) % 2 = (0 * 131072 + (b * 2048 + i)) % 2 by
        omega]
    rw [centred_tone, centred_tone, heq]
    exact (Complex.mul_conj _).trans (by rw [normSq_tone, Complex.ofReal_one])
  rw [Mrc.crossIn]
  split_ifs
  · rw [powerIn_tone]
    norm_num
  · rw [Finset.sum_congr rfl fun b hb => Finset.sum_congr rfl (hone b hb)]
    norm_num [kMrcBlocks, kMrcBlockLen]

namespace Mrc

/-- The statistics of the tone. -/
structure Toned (s : Mrc) : Prop where
  m_eq : s.m_ = 2
  cross : ∀ k : Fin kMaxElements, (k : ℕ) < 2 → s.c_ k = 8192
  power : ∀ k : Fin kMaxElements, (k : ℕ) < 2 → s.p_ k = 8192

variable {s : Mrc} {j : ℕ}

theorem Toned.coherence (h : s.Toned) : s.coherence = 1 := by
  have hset : s.coherent = {⟨1, by decide⟩} := by
    ext k
    rw [coherent, Finset.mem_filter, Finset.mem_singleton, Fin.ext_iff, h.m_eq]
    constructor
    · rintro ⟨-, h0, h2, -⟩
      exact le_antisymm (Nat.le_of_lt_succ h2) h0
    · intro hk
      have hk1 : (k : ℕ) = 1 := hk
      have hk2 : (k : ℕ) < 2 := by omega
      rw [h.power k hk2, h.power element0 (by decide)]
      exact ⟨Finset.mem_univ _, by omega, hk2, by norm_num⟩
  rw [Mrc.coherence, hset, Finset.card_singleton, if_neg one_ne_zero, Finset.sum_singleton,
    h.cross _ (by decide), h.power _ (by decide), h.power _ (by decide)]
  norm_num [Complex.normSq_apply]

theorem Toned.powers (h : s.Toned) :
    ((List.finRange kMaxElements).take s.m_).map s.p_ = [8192, 8192] := by
  rw [h.m_eq, show (List.finRange kMaxElements).take 2 = [⟨0, by decide⟩, ⟨1, by decide⟩] from rfl]
  simp only [List.map_cons, List.map_nil]
  rw [h.power _ (by decide), h.power _ (by decide)]

theorem Toned.medianPower (h : s.Toned) : s.medianPower = 8192 := by
  rw [Mrc.medianPower, h.powers, List.mergeSort_of_pairwise (by simp), h.m_eq]
  rfl

theorem Toned.rawWeight (h : s.Toned) {k : Fin kMaxElements} (hk : (k : ℕ) < 2) :
    s.rawWeight (s.refineNoise 8 s.leastPower) k = 2 := by
  have hleast : s.leastPower = 4096 := by
    have hfold : ((List.finRange kMaxElements).take s.m_).foldl (fun a k => min a (s.p_ k))
        (s.p_ element0) = (((List.finRange kMaxElements).take s.m_).map s.p_).foldl min
          (s.p_ element0) := List.foldl_map.symm
    rw [leastPower, hfold, h.powers, h.power element0 (by decide)]
    norm_num
  have hnoisy : s.noisy 4096 = ∅ := by
    refine Finset.filter_eq_empty_iff.2 fun k _ hk => ?_
    rw [h.m_eq] at hk
    have hpos := hk.2
    rw [h.cross k hk.1, h.power k hk.1, h.power element0 (by decide)] at hpos
    norm_num [Complex.normSq_apply] at hpos
  have hnoise : s.noiseOf 4096 k = 4096 := by
    rw [noiseOf, h.cross k hk, h.power k hk, h.power element0 (by decide)]
    norm_num [Complex.normSq_apply]
  rw [hleast, refineNoise, hnoisy, h.power element0 (by decide), Finset.card_empty]
  norm_num
  rw [Mrc.rawWeight, h.m_eq, if_pos hk, hnoise, if_pos (by norm_num), h.cross k hk]
  norm_num

/-- A state in the middle of frames of the tone, of which `j` have come. -/
structure Ready (s : Mrc) (j : ℕ) : Prop where
  enabled : s.enabled_ = true
  m_eq : s.m_ = 2
  center : s.center_hz_ = 433000000
  rate : s.fs_hz_ = 2400000
  usable : s.prev_usable_ = true
  toned : s.stats_init_ = true → s.Toned
  warm : s.warm_ = kMrcWarm - j
  dwell : s.dwell_on_ = j

theorem Ready.remember (h : s.Ready j) (w : Weights) : Ready { s with w_prev_ := w } j :=
  ⟨h.enabled, h.m_eq, h.center, h.rate, h.usable,
    fun hi => ⟨(h.toned hi).m_eq, (h.toned hi).cross, (h.toned hi).power⟩, h.warm, h.dwell⟩

theorem ready_enter_empty : ((({} : Mrc).setEnabled true).enter toneFrame).Ready 0 := by
  have hset : ({} : Mrc).setEnabled true = { enabled_ := true } := rfl
  rw [hset, Mrc.enter, if_pos (Or.inl (by decide))]
  exact ⟨rfl, rfl, rfl, rfl, rfl, Bool.noConfusion, rfl, rfl⟩

theorem Ready.enter (h : s.Ready j) : ((s.setEnabled true).enter toneFrame).Ready j := by
  have hset : s.setEnabled true = s := if_pos h.enabled.symm
  have hsame : ¬ (toneFrame.elements ≠ s.m_ ∨ toneFrame.center_hz ≠ s.center_hz_ ∨
      toneFrame.fs_hz ≠ s.fs_hz_ ∨ (toneFrame.usable = true ∧ s.prev_usable_ = false)) := by
    rw [h.m_eq, h.center, h.rate, h.usable]
    decide
  rw [hset, Mrc.enter, if_neg hsame]
  exact ⟨h.enabled, h.m_eq, h.center, h.rate, rfl, fun hi => ⟨h.m_eq, (h.toned hi).cross,
    (h.toned hi).power⟩, h.warm, h.dwell⟩

theorem Ready.average (h : s.Ready j) : (s.average tone 131072).Toned where
  m_eq := h.m_eq
  cross k hk := by
    rw [Mrc.average]
    dsimp only
    rw [if_pos (h.m_eq.symm ▸ hk), crossIn_tone]
    split_ifs with hi
    · rw [(h.toned hi).cross k hk]
      push_cast
      ring
    · rfl
  power k hk := by
    rw [Mrc.average]
    dsimp only
    rw [if_pos (h.m_eq.symm ▸ hk), powerIn_tone]
    split_ifs with hi
    · rw [(h.toned hi).power k hk]
      ring
    · rfl

theorem Toned.judge (h : s.Toned) (he : s.enabled_ = true) (hw : s.warm_ = kMrcWarm - (j + 1))
    (hd : s.dwell_on_ = j) :
    s.judge.dwell_on_ = j + 1 ∧ (s.judge.engaged_ = true ↔ kMrcWarm ≤ j + 1) := by
  have hon : kMrcGammaOn < s.coherence := by
    rw [h.coherence, kMrcGammaOn]
    norm_num
  have hweak : ¬ s.p_ element0 < 5 / 100 * s.medianPower := by
    rw [h.medianPower, h.power element0 (by decide)]
    norm_num
  have hdwell : s.judge.dwell_on_ = j + 1 := by
    rw [Mrc.judge]
    dsimp only
    rw [if_pos hon, hd]
  have hengaged : s.judge.engaged_ =
      if s.warm_ = 0 then if kMrcDwell ≤ j + 1 then true else s.engaged_ else false := by
    by_cases hw0 : s.warm_ = 0 <;> simp [Mrc.judge, hon, hweak, he, hd, kMrcDwell, hw0]
  refine ⟨hdwell, ?_⟩
  rw [hengaged, hw, kMrcDwell, kMrcWarm]
  by_cases hj : 8 ≤ j + 1
  · rw [if_pos (by omega), if_pos (by omega)]
    exact iff_of_true rfl hj
  · rw [if_neg (by omega)]
    exact iff_of_false Bool.false_ne_true hj

/-- The state that a frame of the tone leaves, for the state that it is entered in. -/
theorem Ready.observe (h : s.Ready j) :
    Ready ((s.average tone 131072).judge.solveWeights.buildRamp) (j + 1) := by
  have htoned := h.average
  have hwarm : (s.average tone 131072).warm_ = kMrcWarm - (j + 1) := by
    rw [← Nat.sub_sub, ← h.warm]
    rfl
  have hdwell := (htoned.judge h.enabled hwarm h.dwell).1
  obtain ⟨w, hw⟩ := exists_solveWeights (s.average tone 131072).judge
  rw [hw]
  exact ⟨h.enabled, h.m_eq, h.center, h.rate, h.usable,
    fun _ => ⟨htoned.m_eq, htoned.cross, htoned.power⟩, hwarm, hdwell⟩

/-- Once the warm-up is over, the channels are engaged, with a weight for the second one. -/
theorem Ready.engaged (h : s.Ready j) (hs : s.Sound) (hj : kMrcWarm ≤ j + 1) :
    ((s.average tone 131072).judge.solveWeights.buildRamp).engaged_ = true ∧
      ((s.average tone 131072).judge.solveWeights.buildRamp).w_target_ ⟨1, by decide⟩ ≠ 0 := by
  have hwarm : (s.average tone 131072).warm_ = kMrcWarm - (j + 1) := by
    rw [← Nat.sub_sub, ← h.warm]
    rfl
  have hengaged := (h.average.judge h.enabled hwarm h.dwell).2.2 hj
  have hsound : (s.average tone 131072).judge.Sound := (hs.average _ _).judge
  have htoned : (s.average tone 131072).judge.Toned :=
    ⟨h.average.m_eq, h.average.cross, h.average.power⟩
  generalize (s.average tone 131072).judge = t at *
  have htarget : t.solveWeights.buildRamp.w_target_ =
      normalize (t.rawWeight (t.refineNoise 8 t.leastPower)) 2 := by
    rw [← htoned.m_eq]
    refine (solveWeights_target hsound).trans (if_neg (not_or.2 ⟨?_, ?_⟩))
    · rw [htoned.m_eq]
      decide
    · rw [hengaged]
      decide
  obtain ⟨w, hw⟩ := exists_solveWeights t
  refine ⟨?_, ?_⟩
  · rw [hw]
    exact hengaged
  · have hpower : 1 / 10 ^ 30 < powerOf (t.rawWeight (t.refineNoise 8 t.leastPower)) 2 := by
      have hle := Finset.single_le_sum (s := Finset.univ) (f := fun i : Fin kMaxElements =>
          if (i : ℕ) < 2 then
            Complex.normSq (t.rawWeight (t.refineNoise 8 t.leastPower) i) else 0)
        (fun i _ => by split_ifs <;> [exact Complex.normSq_nonneg _; exact le_rfl])
        (Finset.mem_univ element0)
      rw [if_pos (by decide), htoned.rawWeight (by decide)] at hle
      refine lt_of_lt_of_le ?_ hle
      norm_num [Complex.normSq_apply]
    rw [htarget, normalize, if_pos hpower]
    dsimp only
    rw [if_pos (by decide), htoned.rawWeight (by decide)]
    have hsqrt : Real.sqrt (powerOf (t.rawWeight (t.refineNoise 8 t.leastPower)) 2) ≠ 0 :=
      (Real.sqrt_pos.2 (lt_trans (by norm_num) hpower)).ne'
    exact mul_ne_zero two_ne_zero (Complex.ofReal_ne_zero.2 (one_div_ne_zero hsqrt))

end Mrc

namespace Tap

/-- The state after frames of the tone, with the switch on. -/
def toned (j : ℕ) : Tap := (List.replicate j (true, toneFrame)).foldl step {}

theorem toned_succ (j : ℕ) : toned (j + 1) = (toned j).step (true, toneFrame) := by
  rw [toned, List.replicate_succ', List.foldl_append, List.foldl_cons, List.foldl_nil, toned]

theorem sound_toned (j : ℕ) : (toned j).Sound := sound_empty.run _

theorem seen_toneFrame (s : Tap) (on : Bool) :
    s.seen on toneFrame = ((((s.mrc.setEnabled on).enter toneFrame).average tone
      131072).judge.solveWeights.buildRamp) := rfl

theorem exists_step_mrc (s : Tap) (on : Bool) :
    ∃ w, (s.step (on, toneFrame)).mrc = { s.seen on toneFrame with w_prev_ := w } := by
  have hsink : (s.step (on, toneFrame)).mrc =
      (if (s.seen on toneFrame).engaged_ = true then
        (some ((s.seen on toneFrame).combine toneFrame tone).1,
          ((s.seen on toneFrame).combine toneFrame tone).2)
      else (some (sampleOf tone 131072 0), s.seen on toneFrame)).2 := rfl
  rw [hsink]
  split_ifs
  · rw [Mrc.combine]
    split_ifs <;> exact ⟨_, rfl⟩
  · exact ⟨_, rfl⟩

theorem ready_toned (j : ℕ) : (toned (j + 1)).mrc.Ready (j + 1) := by
  induction j with
  | zero =>
    obtain ⟨w, hw⟩ := exists_step_mrc {} true
    have hready := Mrc.ready_enter_empty.observe
    rw [toned_succ, show toned 0 = {} from rfl, hw]
    exact hready.remember w
  | succ j ih =>
    obtain ⟨w, hw⟩ := exists_step_mrc (toned (j + 1)) true
    have hready := ih.enter.observe
    rw [toned_succ, hw]
    exact hready.remember w

theorem engaged_seen_off (s : Tap) : (s.seen false toneFrame).engaged_ = false := by
  have hset : (s.mrc.setEnabled false).enabled_ = false := by
    rw [Mrc.setEnabled]
    split_ifs with hsame
    · exact hsame.symm
    · rfl
    · rfl
  have henter : ((s.mrc.setEnabled false).enter toneFrame).enabled_ = false := by
    rw [Mrc.enter]
    split_ifs
    · exact hset
    · exact hset
  have haverage : (((s.mrc.setEnabled false).enter toneFrame).average tone 131072).enabled_ =
      false := henter
  rw [seen_toneFrame]
  generalize ((s.mrc.setEnabled false).enter toneFrame).average tone 131072 = t at haverage ⊢
  obtain ⟨w, hw⟩ := Mrc.exists_solveWeights t.judge
  have hjudge : t.judge.engaged_ = false := by
    simp [Mrc.judge, haverage]
  rw [hw]
  exact hjudge

theorem last_toned : (toned 8).last ≠ e0 := by
  have hready := ready_toned 6
  obtain ⟨hengaged, hne⟩ := hready.enter.engaged
    ((sound_toned 7).mrc.setEnabled true |>.enter toneFrame) (by decide)
  rw [← seen_toneFrame] at hengaged hne
  have hcombines : ((toned 7).seen true toneFrame).combines toneFrame = true := by
    rw [Mrc.combines, hengaged]
    rfl
  have hwritten : toneFrame.written = 131072 := rfl
  have hlast : (toned 8).last = ((toned 7).seen true toneFrame).w_target_ := by
    rw [toned_succ, step]
    dsimp only
    rw [hwritten, if_pos (by decide), weights, if_pos hcombines]
    exact Mrc.weightAt_last (by decide)
  intro heq
  rw [hlast] at heq
  rw [heq] at hne
  exact hne (Pi.single_eq_of_ne (by decide) 1)

/-- The switch is turned off: the frame passes through at once. -/
theorem not_smooth_of_off :
    ¬ ∀ es' e, es' ++ [e] <+: List.replicate 8 (true, toneFrame) ++ [(false, toneFrame)] →
      (es'.foldl step {}).Smooth e.1 e.2 := by
  intro hall
  have hslides := (smooth_iff (sound_toned 8) false toneFrame).1
    (hall (List.replicate 8 (true, toneFrame)) (false, toneFrame) (List.prefix_refl _))
  have hstart := hslides (by decide)
  rw [start, Mrc.combines, engaged_seen_off] at hstart
  exact last_toned hstart.symm

end Tap

end

end Bewe.Df
