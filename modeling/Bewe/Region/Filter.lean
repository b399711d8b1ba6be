import Bewe.Lib.DelayLine
import Mathlib.Algebra.Field.Basic
import Mathlib.Algebra.Module.Prod
import Mathlib.Algebra.Module.Rat
import Mathlib.Tactic.Abel

/-!
# The filter of a saved region

`FFTViewer::do_region_save_work` of `src/region_save.cpp` reads the samples of a region in chunks,
mixes them down, and where it decimates passes them through a filter whose coefficients
`make_kaiser_lpf` made. What the filter needs of the past is in `fir_state`, a ring with a slot less
than there are coefficients. Arithmetic is exact, in a field that stands for `float` and `double`;
of the output the values before the conversion to 16 bits are kept.

The sample that is filtered is put into the ring first. The loop over the other coefficients starts
at it and goes back a slot for each, so that for the last one it has gone around and finds this
sample again, in place of the one that many samples earlier, which was in the slot.
`regionSave_eq_iff` says that the output is the convolution exactly if this makes no difference.
-/

namespace Bewe.Region

open Lib Lib.DelayLine

/-! ## Mixing down -/

/-- The constants of a mix-down: the sines and cosines of the C library, π, and the turn of the
phase from one sample to the next. -/
structure Tuning (K : Type*) where
  sincos : K → K × K
  M_PI : K
  phase_inc : K

/-- The phase, the rotator that follows it, and the samples since the rotator was set anew. -/
structure Rotator (K : Type*) where
  phase : K
  cur_c : K
  cur_s : K
  renorm_cnt : ℕ

section

variable {K : Type*} [Field K] [LinearOrder K]

/-- The rotator before the first sample. -/
def Tuning.start (T : Tuning K) : Rotator K where
  phase := 0
  cur_c := (T.sincos 0).2
  cur_s := (T.sincos 0).1
  renorm_cnt := 0

/-- The mixed sample of a sample of the file. -/
def mixSample (s : Rotator K) (iq : ℤ × ℤ) : K × K :=
  let si : K := iq.1 / 32768
  let sq : K := iq.2 / 32768
  (si * s.cur_c - sq * s.cur_s, si * s.cur_s + sq * s.cur_c)

/-- The rotator after a sample. -/
def Tuning.rotate (T : Tuning K) (s : Rotator K) : Rotator K :=
  let (rot_s, rot_c) := T.sincos T.phase_inc
  let phase := s.phase + T.phase_inc
  let phase := if T.M_PI < phase then phase - 2 * T.M_PI else phase
  let phase := if phase < -T.M_PI then phase + 2 * T.M_PI else phase
  if 4096 ≤ s.renorm_cnt + 1 then
    let (sin, cos) := T.sincos phase
    { phase := phase, cur_c := cos, cur_s := sin, renorm_cnt := 0 }
  else
    { phase := phase
      cur_c := s.cur_c * rot_c - s.cur_s * rot_s
      cur_s := s.cur_c * rot_s + s.cur_s * rot_c
      renorm_cnt := s.renorm_cnt + 1 }

/-- The mixed samples of a stream. -/
def Tuning.mixed (T : Tuning K) : Rotator K → List (ℤ × ℤ) → List (K × K)
  | _, [] => []
  | s, iq :: iqs => mixSample s iq :: T.mixed (T.rotate s) iqs

/-! ## Filtering -/

/-- What is kept from one sample to the next. -/
structure RegionState (K : Type*) where
  rotator : Rotator K
  fir_state : List (K × K)
  fir_dly_pos : ℕ
  decim_cnt : ℕ

/-- The sum of the filter, with the sample `m` and the ring it has been put into. -/
def firSum (fir_taps : List K) (fir_state : List (K × K)) (fir_dly_pos : ℕ) (m : K × K) : K × K :=
  let dly_sz := fir_taps.length - 1
  (sumBack fir_state dly_sz (fir_taps.drop 1) (fir_taps.getD 0 0 • m)
    (back dly_sz fir_dly_pos)).1

/-- The body of the loop over the samples of a chunk: the state, and the output of the chunk. -/
def filterSample (T : Tuning K) (fir_taps : List K) (decim : ℕ)
    (r : RegionState K × List (K × K)) (iq : ℤ × ℤ) : RegionState K × List (K × K) :=
  let (s, out_buf) := r
  let m := mixSample s.rotator iq
  let s := { s with rotator := T.rotate s.rotator }
  if decim ≤ 1 then (s, out_buf ++ [m])
  else
    let fir_state := s.fir_state.set s.fir_dly_pos m
    let fir_dly_pos := ahead (fir_taps.length - 1) s.fir_dly_pos
    let decim_cnt := s.decim_cnt + 1
    if decim ≤ decim_cnt then
      ({ s with fir_state := fir_state, fir_dly_pos := fir_dly_pos, decim_cnt := 0 },
        out_buf ++ [firSum fir_taps fir_state fir_dly_pos m])
    else
      ({ s with fir_state := fir_state, fir_dly_pos := fir_dly_pos, decim_cnt := decim_cnt },
        out_buf)

/-- The loop over the chunks: the state, and the file. -/
def filterChunk (T : Tuning K) (fir_taps : List K) (decim : ℕ)
    (r : RegionState K × List (K × K)) (in_buf : List (ℤ × ℤ)) :
    RegionState K × List (K × K) :=
  let (s, out_buf) := in_buf.foldl (filterSample T fir_taps decim) (r.1, [])
  (s, r.2 ++ out_buf)

/-- The state before the first sample. -/
def Tuning.initial (T : Tuning K) (fir_taps : List K) : RegionState K where
  rotator := T.start
  fir_state := List.replicate (fir_taps.length - 1) 0
  fir_dly_pos := 0
  decim_cnt := 0

/-- The samples that are saved of a region that is read in chunks. -/
def regionSave (T : Tuning K) (fir_taps : List K) (decim : ℕ) (chunks : List (List (ℤ × ℤ))) :
    List (K × K) :=
  (chunks.foldl (filterChunk T fir_taps decim) (T.initial fir_taps, [])).2

end

/-! ## What the loop computes -/

section

variable {K : Type*} [Field K]

/-- The sum that the loop collects for sample `n` of a stream: the convolution, but with this sample
in place of the one for the last coefficient. -/
def collected (fir_taps : List K) (x : List (K × K)) (n : ℕ) : K × K :=
  convolution fir_taps x n + fir_taps.getD (fir_taps.length - 1) 0 •
    (delayed x n 0 - delayed x n (fir_taps.length - 1))

theorem delayed_last (xs : List (K × K)) (m : K × K) :
    delayed (xs ++ [m]) xs.length 0 = m := by
  rw [delayed, if_pos (Nat.zero_le _), Nat.sub_zero, List.getD_append_right _ _ _ _ (le_refl _),
    Nat.sub_self]
  rfl

theorem slot_back {l : DelayLine (K × K)} {xs : List (K × K)} {m : K × K}
    (hl : l.Holds (List.replicate l.slots.length 0 ++ (xs ++ [m]))) {t : ℕ}
    (ht : t + 1 < l.slots.length) :
    l.slots.getD ((back l.slots.length)^[t + 1] (back l.slots.length l.pos)) 0 =
      delayed (xs ++ [m]) xs.length (t + 1) := by
  have hread := hl.read_back ht
  rw [Function.iterate_succ_apply] at hread
  rw [List.getD_eq_getElem?_getD, hread, ← List.getD_eq_getElem?_getD, ← delayed_eq _ ht.le]
  congr 1
  simp only [List.length_append, List.length_replicate, List.length_singleton]
  omega

theorem slot_around {l : DelayLine (K × K)} {xs : List (K × K)} {m : K × K}
    (hl : l.Holds (List.replicate l.slots.length 0 ++ (xs ++ [m]))) (hpos : 0 < l.slots.length) :
    l.slots.getD ((back l.slots.length)^[l.slots.length] (back l.slots.length l.pos)) 0 = m := by
  have hread := hl.read_around hpos (by simp)
  rw [Function.iterate_succ_apply] at hread
  rw [List.getD_eq_getElem?_getD, hread, ← List.append_assoc, List.length_append,
    List.length_singleton, Nat.add_sub_cancel, List.getElem?_concat_length]
  rfl

theorem firSum_eq {fir_taps : List K} {l : DelayLine (K × K)} {xs : List (K × K)} {m : K × K}
    (hsize : l.slots.length = fir_taps.length - 1)
    (hl : 0 < l.slots.length → l.Holds (List.replicate l.slots.length 0 ++ (xs ++ [m]))) :
    firSum fir_taps l.slots l.pos m = collected fir_taps (xs ++ [m]) xs.length := by
  unfold firSum collected convolution
  dsimp only
  rw [← hsize, sumBack_eq]
  cases fir_taps with
  | nil => simp [delayed_last]
  | cons c h =>
    simp only [List.length_cons, Nat.add_sub_cancel] at hsize
    rw [List.length_cons, Finset.sum_range_succ', List.drop_one, List.tail_cons, ← hsize]
    simp only [List.getD_cons_succ, List.getD_cons_zero, delayed_last]
    cases hT : l.slots.length with
    | zero => simp [delayed_last]
    | succ k =>
      have hholds := hl (by omega)
      -- all of the ring but the slot that has been written over
      have hback : ∀ t ∈ Finset.range k,
          h.getD t 0 • l.slots.getD ((back (k + 1))^[t + 1] (back (k + 1) l.pos)) 0 =
            h.getD t 0 • delayed (xs ++ [m]) xs.length (t + 1) := by
        intro t ht
        have hlt := Finset.mem_range.1 ht
        have hslot := slot_back hholds (t := t) (by omega)
        rw [hT] at hslot
        rw [hslot]
      have haround := slot_around hholds (by omega)
      rw [hT] at haround
      rw [Finset.sum_range_succ, Finset.sum_range_succ, Finset.sum_congr rfl hback, haround,
        List.getD_cons_succ, smul_sub]
      abel

theorem collected_eq_iff (fir_taps : List K) (x : List (K × K)) (n : ℕ) :
    collected fir_taps x n = convolution fir_taps x n ↔
      fir_taps.getD (fir_taps.length - 1) 0 = 0 ∨
        delayed x n 0 = delayed x n (fir_taps.length - 1) := by
  rw [collected, add_eq_left]
  by_cases hlast : fir_taps.getD (fir_taps.length - 1) 0 = 0
  · rw [hlast, zero_smul]
    exact iff_of_true rfl (Or.inl rfl)
  · rw [or_iff_right hlast, (IsUnit.mk0 _ hlast).smul_eq_zero, sub_eq_zero]

theorem collected_append (fir_taps : List K) {x : List (K × K)} {n : ℕ} (hn : n < x.length)
    (y : List (K × K)) : collected fir_taps (x ++ y) n = collected fir_taps x n := by
  unfold collected
  rw [convolution_append _ hn, delayed_append hn, delayed_append hn]

/-- The sums of every sample that is not decimated. -/
def outputs (fir_taps : List K) (decim : ℕ) (x : List (K × K)) : List (K × K) :=
  (List.range (x.length / decim)).map fun k => collected fir_taps x ((k + 1) * decim - 1)

theorem outputs_concat (fir_taps : List K) {decim : ℕ} (hdecim : 0 < decim) (x : List (K × K))
    (m : K × K) : outputs fir_taps decim (x ++ [m]) = outputs fir_taps decim x ++
      if decim ≤ x.length % decim + 1 then [collected fir_taps (x ++ [m]) x.length] else [] := by
  have hmod := Nat.mod_lt x.length hdecim
  have hdiv := Nat.div_add_mod x.length decim
  have hkeep : (List.range (x.length / decim)).map
        (fun k => collected fir_taps (x ++ [m]) ((k + 1) * decim - 1)) =
      outputs fir_taps decim x := by
    refine List.map_congr_left fun k hk => collected_append _ ?_ _
    have hle : (k + 1) * decim ≤ x.length / decim * decim :=
      Nat.mul_le_mul_right _ (List.mem_range.1 hk)
    have hpos : 0 < (k + 1) * decim := Nat.mul_pos (Nat.succ_pos _) hdecim
    have hfloor := Nat.div_mul_le_self x.length decim
    omega
  unfold outputs at hkeep ⊢
  rw [List.length_append, List.length_singleton]
  split_ifs with hlast
  · have hnext : (x.length + 1) / decim = x.length / decim + 1 := by
      refine Nat.div_eq_of_lt_le ?_ ?_
      · rw [Nat.add_mul, Nat.one_mul, Nat.mul_comm]
        omega
      · rw [Nat.add_mul, Nat.add_mul, Nat.one_mul, Nat.mul_comm]
        omega
    have hn : (x.length / decim + 1) * decim - 1 = x.length := by
      rw [Nat.add_mul, Nat.one_mul, Nat.mul_comm]
      omega
    rw [hnext, List.range_succ, List.map_append, List.map_singleton, hkeep, hn]
  · have hsame : (x.length + 1) / decim = x.length / decim := by
      refine Nat.div_eq_of_lt_le ?_ ?_
      · rw [Nat.mul_comm]
        omega
      · rw [Nat.add_mul, Nat.one_mul, Nat.mul_comm]
        omega
    rw [hsame, hkeep, List.append_nil]

/-- The state after the samples of a stream have been mixed and filtered. -/
structure Filtered (fir_taps : List K) (decim : ℕ) (s : RegionState K) (x : List (K × K)) :
    Prop where
  size : s.fir_state.length = fir_taps.length - 1
  line : 0 < s.fir_state.length → Holds ⟨s.fir_state, s.fir_dly_pos⟩
    (List.replicate s.fir_state.length 0 ++ x)
  decim_cnt : s.decim_cnt = x.length % decim

variable (T : Tuning K) {fir_taps : List K} {decim : ℕ}

theorem filtered_initial (fir_taps : List K) (decim : ℕ) :
    Filtered fir_taps decim (T.initial fir_taps) [] where
  size := List.length_replicate
  line := by
    intro _
    rw [List.append_nil]
    unfold Tuning.initial
    rw [List.length_replicate]
    exact holds_replicate _ 0
  decim_cnt := (Nat.zero_mod _).symm

variable [LinearOrder K]

theorem Filtered.filterSample {s : RegionState K} {x : List (K × K)}
    (h : Filtered fir_taps decim s x) (hdecim : 1 < decim) (out_buf : List (K × K))
    (iq : ℤ × ℤ) :
    let r := filterSample T fir_taps decim (s, out_buf) iq
    let x' := x ++ [mixSample s.rotator iq]
    Filtered fir_taps decim r.1 x' ∧ r.1.rotator = T.rotate s.rotator ∧
      r.2 = out_buf ++ if decim ≤ x.length % decim + 1 then [collected fir_taps x' x.length]
        else [] := by
  set m := mixSample s.rotator iq with hm
  let l : DelayLine (K × K) := (⟨s.fir_state, s.fir_dly_pos⟩ : DelayLine (K × K)).push m
  have hlen : l.slots.length = s.fir_state.length := List.length_set
  have hline : 0 < l.slots.length → l.Holds (List.replicate l.slots.length 0 ++ (x ++ [m])) := by
    intro hpos
    rw [hlen] at hpos ⊢
    rw [← List.append_assoc]
    exact (h.line hpos).push hpos m
  have hsize : l.slots.length = fir_taps.length - 1 := hlen.trans h.size
  have hpos : DelayLine.ahead (fir_taps.length - 1) s.fir_dly_pos = l.pos := by
    rw [← h.size]
    rfl
  have hcnt : (x ++ [m]).length % decim = DelayLine.ahead decim (x.length % decim) := by
    rw [ahead_mod (by omega), List.length_append, List.length_singleton]
  dsimp only
  unfold Region.filterSample
  dsimp only
  rw [if_neg (by omega), h.decim_cnt, hpos, ← hm]
  unfold DelayLine.ahead at hcnt
  split_ifs with hlast
  · rw [if_pos hlast] at hcnt
    refine ⟨⟨hsize, hline, hcnt.symm⟩, rfl, ?_⟩
    rw [← firSum_eq hsize hline]
    rfl
  · rw [if_neg hlast] at hcnt
    exact ⟨⟨hsize, hline, hcnt.symm⟩, rfl, (List.append_nil _).symm⟩

theorem Filtered.foldl {s : RegionState K} {x : List (K × K)} (h : Filtered fir_taps decim s x)
    (hdecim : 1 < decim) {file out_buf : List (K × K)}
    (hout : file ++ out_buf = outputs fir_taps decim x) (in_buf : List (ℤ × ℤ)) :
    let r := in_buf.foldl (Region.filterSample T fir_taps decim) (s, out_buf)
    let x' := x ++ T.mixed s.rotator in_buf
    Filtered fir_taps decim r.1 x' ∧
      r.1.rotator = in_buf.foldl (fun s _ => T.rotate s) s.rotator ∧
      file ++ r.2 = outputs fir_taps decim x' := by
  induction in_buf generalizing s x out_buf with
  | nil =>
    dsimp only [List.foldl_nil, Tuning.mixed]
    rw [List.append_nil]
    exact ⟨h, rfl, hout⟩
  | cons iq in_buf ih =>
    obtain ⟨hnext, hrot, hbuf⟩ := h.filterSample T hdecim out_buf iq
    have hfile : file ++ (Region.filterSample T fir_taps decim (s, out_buf) iq).2 =
        outputs fir_taps decim (x ++ [mixSample s.rotator iq]) := by
      rw [hbuf, outputs_concat _ (by omega), ← hout, List.append_assoc]
    have hrest := ih hnext hfile
    rw [hrot, List.append_assoc] at hrest
    exact hrest

theorem mixed_append (s : Rotator K) (iqs iqs' : List (ℤ × ℤ)) :
    T.mixed s (iqs ++ iqs') =
      T.mixed s iqs ++ T.mixed (iqs.foldl (fun s _ => T.rotate s) s) iqs' := by
  induction iqs generalizing s with
  | nil => rfl
  | cons iq iqs ih => exact congrArg (List.cons _) (ih _)

theorem Filtered.chunks {s : RegionState K} {x : List (K × K)} (h : Filtered fir_taps decim s x)
    (hdecim : 1 < decim) {file : List (K × K)} (hfile : file = outputs fir_taps decim x)
    (chunks : List (List (ℤ × ℤ))) :
    (chunks.foldl (filterChunk T fir_taps decim) (s, file)).2 =
      outputs fir_taps decim (x ++ T.mixed s.rotator chunks.flatten) := by
  induction chunks generalizing s x file with
  | nil =>
    rw [List.flatten_nil, Tuning.mixed, List.append_nil]
    exact hfile
  | cons in_buf chunks ih =>
    obtain ⟨hnext, hrot, hout⟩ := h.foldl T hdecim ((List.append_nil _).trans hfile) in_buf
    rw [List.foldl_cons, List.flatten_cons, mixed_append, ← List.append_assoc, ← hrot]
    exact ih hnext hout

/-- What is saved of a region: for any chunks, the sums that the loop collects over the mixed
stream. -/
theorem regionSave_eq (fir_taps : List K) (hdecim : 1 < decim) (chunks : List (List (ℤ × ℤ))) :
    regionSave T fir_taps decim chunks =
      outputs fir_taps decim (T.mixed T.start chunks.flatten) :=
  (filtered_initial T fir_taps decim).chunks T hdecim (by simp [outputs]) chunks

/-- What is saved is the convolution of the coefficients with the mixed stream exactly if the last
coefficient is zero or every sample that is put out is the same as the one that is as many samples
before it as there are slots. -/
theorem regionSave_eq_iff (fir_taps : List K) (hdecim : 1 < decim)
    (chunks : List (List (ℤ × ℤ))) :
    let x := T.mixed T.start chunks.flatten
    regionSave T fir_taps decim chunks =
        (List.range (x.length / decim)).map (fun k =>
          convolution fir_taps x ((k + 1) * decim - 1)) ↔
      fir_taps.getD (fir_taps.length - 1) 0 = 0 ∨ ∀ k < x.length / decim,
        delayed x ((k + 1) * decim - 1) 0 =
          delayed x ((k + 1) * decim - 1) (fir_taps.length - 1) := by
  dsimp only
  rw [regionSave_eq T fir_taps hdecim, outputs, List.map_inj_left]
  simp only [List.mem_range, collected_eq_iff]
  constructor
  · intro hall
    refine or_iff_not_imp_left.2 fun hlast k hk => (hall k hk).resolve_left hlast
  · rintro (hlast | hall) k hk
    · exact Or.inl hlast
    · exact Or.inr (hall k hk)

/-- A tuning that turns nothing, over the rationals. -/
def unturned : Tuning ℚ where
  sincos := fun _ => (0, 1)
  M_PI := 355 / 113
  phase_inc := 0

/-- Three coefficients, and a stream in two chunks. -/
theorem regionSave_eq_iff_unturned :
    let x := unturned.mixed unturned.start [[((1 : ℤ), (2 : ℤ))], [(3, 4), (5, 6), (7, 8)]].flatten
    regionSave unturned [1, 2, 1] 2 [[(1, 2)], [(3, 4), (5, 6), (7, 8)]] =
        (List.range (x.length / 2)).map (fun k =>
          convolution [1, 2, 1] x ((k + 1) * 2 - 1)) ↔
      ([1, 2, 1] : List ℚ).getD (([1, 2, 1] : List ℚ).length - 1) 0 = 0 ∨ ∀ k < x.length / 2,
        delayed x ((k + 1) * 2 - 1) 0 =
          delayed x ((k + 1) * 2 - 1) (([1, 2, 1] : List ℚ).length - 1) :=
  regionSave_eq_iff unturned [1, 2, 1] (by decide) _

/-- The last of three coefficients weighs the sample itself. -/
theorem last_tap_misplaced : ¬ ∀ (T : Tuning ℚ) (fir_taps : List ℚ) (decim : ℕ), 1 < decim →
    ∀ chunks : List (List (ℤ × ℤ)),
      regionSave T fir_taps decim chunks =
        (List.range ((T.mixed T.start chunks.flatten).length / decim)).map fun k =>
          convolution fir_taps (T.mixed T.start chunks.flatten) ((k + 1) * decim - 1) := by
  intro hall
  have hrun := hall unturned [0, 0, 1] 2 (by decide) [[(0, 0), (32768, 0)]]
  revert hrun
  decide +kernel

end

end Bewe.Region
