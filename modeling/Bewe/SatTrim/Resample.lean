import Bewe.Lib.DelayLine

/-!
# Cutting a recording down

The loop of `SatTrim::trim` that mixes every sample once, keeps the last of them in a ring, weighs the
ring with the taps at every `decim`-th, and hands the output to `fwrite` in buffers. The arithmetic of
the samples is left open (`Arith`): what is shown holds of every rounding. The buffers together are all
samples of the output in their order (`flatten_buffers`).
-/

namespace Bewe.SatTrim

open Lib Lib.DelayLine

/-- The operations of the loop on `float` and on the complex rotator of `double`. -/
structure Arith (F D : Type) where
  zero : F
  /-- `(float)x` -/
  ofInt16 : Int16 → F
  /-- The product of two `std::complex<float>`. -/
  mul : F × F → F × F → F × F
  /-- `acc += h * v` -/
  addMul : F → F → F → F
  /-- `(int16_t)max(-32767.f, min(32767.f, v))` -/
  clamp : F → Int16
  /-- The rotator before the first sample. -/
  one : D
  /-- `rot *= step` -/
  turn : D → D → D
  /-- `rot /= abs(rot)` -/
  norm : D → D
  /-- The rotator as a `std::complex<float>`. -/
  toFloat : D → F × F

/-- What the loop is set to: the taps, the decimation, and the step of the rotator. -/
structure Setup (F D : Type) where
  taps : List F
  decim : ℕ
  step : D

/-- What the loop keeps, and the buffers that it has handed to `fwrite`. -/
structure Resampler (F D : Type) where
  ring : DelayLine (F × F)
  phase : ℕ
  rot : D
  obuf : List Int16
  written : List (List Int16)

/-- `1u << 16` -/
def OBUF : ℕ := 65536

section

variable {F D : Type} (A : Arith F D) (u : Setup F D)

/-- Before the first sample. -/
def start : Resampler F D where
  ring := ⟨List.replicate u.taps.length (A.zero, A.zero), 0⟩
  phase := 0
  rot := A.one
  obuf := []
  written := []

/-- The rotator after sample `s`. -/
def nextRot (s : ℕ) (rot : D) : D :=
  let rot := A.turn rot u.step
  if s % 4096 = 0 then A.norm rot else rot

/-- A sample that is mixed. -/
def mix (rot : D) (x : Int16 × Int16) : F × F :=
  A.mul (A.ofInt16 x.1, A.ofInt16 x.2) (A.toFloat rot)

/-- A tap on one slot. -/
def weigh (acc : F × F) (h : F) (v : F × F) : F × F :=
  (A.addMul acc.1 h v.1, A.addMul acc.2 h v.2)

/-- The loop over the taps, from slot `k` on. -/
def weighRing (slots : List (F × F)) : F × F → ℕ → List F → F × F
  | acc, _, [] => acc
  | acc, k, h :: hs =>
    weighRing slots (weigh A acc h (slots.getD k (A.zero, A.zero))) (DelayLine.ahead slots.length k) hs

/-- A sample of the output. -/
def clampPair (a : F × F) : List Int16 := [A.clamp a.1, A.clamp a.2]

/-- A turn of the loop at sample `s`. -/
def sampleStep (s : ℕ) (x : Int16 × Int16) (r : Resampler F D) : Resampler F D :=
  let ring := r.ring.push (mix A r.rot x)
  let r := { r with ring, rot := nextRot A u s r.rot }
  if s + 1 < u.taps.length then r
  else if r.phase + 1 < u.decim then { r with phase := r.phase + 1 }
  else
    let a := weighRing A ring.slots (A.zero, A.zero) ring.pos u.taps
    let obuf := r.obuf ++ clampPair A a
    if OBUF ≤ obuf.length then { r with phase := 0, obuf := [], written := r.written ++ [obuf] }
    else { r with phase := 0, obuf }

/-- The loop from sample `s` on. -/
def resampleFrom : ℕ → List (Int16 × Int16) → Resampler F D → Resampler F D
  | _, [], r => r
  | s, x :: xs, r => resampleFrom (s + 1) xs (sampleStep A u s x r)

/-- The buffers that are handed to `fwrite`. -/
def buffers (x : List (Int16 × Int16)) : List (List Int16) :=
  let r := resampleFrom A u 0 x (start A u)
  if r.obuf = [] then r.written else r.written ++ [r.obuf]

/-! ## The output -/

/-- The samples from sample `s` on, mixed. -/
def mixedFrom : ℕ → D → List (Int16 × Int16) → List (F × F)
  | _, _, [] => []
  | s, rot, x :: xs => mix A rot x :: mixedFrom (s + 1) (nextRot A u s rot) xs

/-- All taps on as many samples. -/
def weighWindow (w : List (F × F)) : F × F :=
  (u.taps.zip w).foldl (fun acc hv => weigh A acc hv.1 hv.2) (A.zero, A.zero)

/-- Sample `k` of the output: the taps on the mixed samples that end with every `decim`-th from the
first place on at which there are enough.
-/
def outputSample (m : List (F × F)) (k : ℕ) : List Int16 :=
  clampPair A (weighWindow A u ((m.drop ((k + 1) * u.decim - 1)).take u.taps.length))

/-- The complete output. -/
def filtered (x : List (Int16 × Int16)) : List Int16 :=
  let m := mixedFrom A u 0 A.one x
  (List.range ((m.length + 1 - u.taps.length) / u.decim)).flatMap (outputSample A u m)

end

/-! ## The loop makes the output -/

section

variable {F D : Type} {A : Arith F D} {u : Setup F D}

theorem weighRing_eq {slots : List (F × F)} {w : List (F × F)} {hs : List F} {k : ℕ}
    (hw : hs.length = w.length)
    (hread : ∀ t, t < hs.length → slots[(DelayLine.ahead slots.length)^[t] k]? = w[t]?) (acc : F × F) :
    weighRing A slots acc k hs = (hs.zip w).foldl (fun acc hv => weigh A acc hv.1 hv.2) acc := by
  induction hs generalizing w k acc with
  | nil => rfl
  | cons h hs ih =>
    cases w with
    | nil => exact absurd hw (Nat.succ_ne_zero _)
    | cons v w =>
      have hfirst : slots[k]? = some v := hread 0 (Nat.succ_pos _)
      rw [weighRing, List.zip_cons_cons, List.foldl_cons, List.getD_eq_getElem?_getD, hfirst,
        Option.getD_some]
      refine ih (Nat.succ.inj hw) (fun t ht => ?_) _
      have hnext := hread (t + 1) (Nat.succ_lt_succ ht)
      rwa [Function.iterate_succ_apply, List.getElem?_cons_succ] at hnext

theorem weighRing_of_holds {ring : DelayLine (F × F)} {past : List (F × F)} (h : ring.Holds past)
    (hlen : ring.slots.length = u.taps.length) :
    weighRing A ring.slots (A.zero, A.zero) ring.pos u.taps =
      weighWindow A u (past.drop (past.length - u.taps.length)) := by
  have hfull := h.full
  refine weighRing_eq (by rw [List.length_drop]; omega) (fun t ht => ?_) _
  rw [List.getElem?_drop, ← hlen]
  exact h.read_ahead (by omega)

theorem mixedFrom_append (s : ℕ) (rot : D) (xs : List (Int16 × Int16)) (x : Int16 × Int16) :
    ∃ rot', mixedFrom A u s rot (xs ++ [x]) = mixedFrom A u s rot xs ++ [mix A rot' x] ∧
      ∀ r : Resampler F D, r.rot = rot → (resampleFrom A u s xs r).rot = rot' := by
  induction xs generalizing s rot with
  | nil => exact ⟨rot, rfl, fun r hr => hr⟩
  | cons y xs ih =>
    obtain ⟨rot', hmixed, hrot⟩ := ih (s + 1) (nextRot A u s rot)
    refine ⟨rot', by rw [List.cons_append, mixedFrom, hmixed, mixedFrom, List.cons_append],
      fun r hr => ?_⟩
    rw [resampleFrom]
    refine hrot _ ?_
    rw [← hr]
    unfold sampleStep
    dsimp only
    split_ifs <;> rfl

theorem resampleFrom_append (s : ℕ) (xs : List (Int16 × Int16)) (x : Int16 × Int16)
    (r : Resampler F D) : resampleFrom A u s (xs ++ [x]) r =
      sampleStep A u (s + xs.length) x (resampleFrom A u s xs r) := by
  induction xs generalizing s r with
  | nil => rfl
  | cons y xs ih =>
    rw [List.cons_append, resampleFrom, ih, resampleFrom, List.length_cons]
    congr 1
    omega

theorem length_mixedFrom (s : ℕ) (rot : D) (xs : List (Int16 × Int16)) :
    (mixedFrom A u s rot xs).length = xs.length := by
  induction xs generalizing s rot with
  | nil => rfl
  | cons x xs ih => rw [mixedFrom, List.length_cons, ih, List.length_cons]

theorem outputSample_append {m : List (F × F)} {k : ℕ}
    (h : (k + 1) * u.decim - 1 + u.taps.length ≤ m.length) (v : F × F) :
    outputSample A u (m ++ [v]) k = outputSample A u m k := by
  unfold outputSample
  rw [List.drop_append_of_le_length (by omega),
    List.take_append_of_le_length (by rw [List.length_drop]; omega)]

/-- What the loop has after some samples: the last of them in the ring, and their output in the
buffers.
-/
structure Holding (A : Arith F D) (u : Setup F D) (m : List (F × F)) (r : Resampler F D) : Prop where
  slots : r.ring.slots.length = u.taps.length
  ring : r.ring.Holds (List.replicate u.taps.length (A.zero, A.zero) ++ m)
  phase : r.phase = (m.length + 1 - u.taps.length) % u.decim
  output : r.written.flatten ++ r.obuf =
    (List.range ((m.length + 1 - u.taps.length) / u.decim)).flatMap (outputSample A u m)

theorem holding_start (htaps : 0 < u.taps.length) : Holding A u [] (start A u) where
  slots := List.length_replicate
  ring := by
    rw [List.append_nil]
    exact holds_replicate _ _
  phase := by
    rw [List.length_nil, show 0 + 1 - u.taps.length = 0 by omega, Nat.zero_mod]
    rfl
  output := by
    rw [List.length_nil, show 0 + 1 - u.taps.length = 0 by omega, Nat.zero_div]
    rfl

theorem flatMap_outputSample_append (hdecim : 0 < u.decim) (m : List (F × F)) (v : F × F) {n : ℕ}
    (hn : n ≤ (m.length + 1 - u.taps.length) / u.decim) :
    (List.range n).flatMap (outputSample A u (m ++ [v])) =
      (List.range n).flatMap (outputSample A u m) := by
  refine List.flatMap_congr fun k hk => outputSample_append ?_ v
  have hk := List.mem_range.1 hk
  have hmul : (k + 1) * u.decim ≤ m.length + 1 - u.taps.length :=
    (Nat.mul_le_mul_right _ (by omega)).trans (Nat.div_mul_le_self _ _)
  have hpos : 0 < (k + 1) * u.decim := Nat.mul_pos (Nat.succ_pos k) hdecim
  omega

theorem succ_mod_div_of_lt {e d : ℕ} (h : e % d + 1 < d) :
    (e + 1) % d = e % d + 1 ∧ (e + 1) / d = e / d := by
  have hsplit := Nat.mod_add_div e d
  exact ((Nat.div_mod_unique (by omega)).2 ⟨by omega, h⟩).symm

theorem succ_mod_div_of_ge {e d : ℕ} (hd : 0 < d) (h : ¬e % d + 1 < d) :
    (e + 1) % d = 0 ∧ (e + 1) / d = e / d + 1 ∧ (e / d + 1) * d = e + 1 := by
  have hsplit := Nat.mod_add_div e d
  have hlt := Nat.mod_lt e hd
  have hmul : (e / d + 1) * d = e + 1 := by
    rw [Nat.add_mul, Nat.mul_comm (e / d)]
    omega
  have hunique := (Nat.div_mod_unique (a := e + 1) (c := 0) (d := e / d + 1) hd).2
    ⟨by rw [Nat.zero_add, Nat.mul_comm, hmul], hd⟩
  exact ⟨hunique.2, hunique.1, hmul⟩

theorem outputSample_due {m : List (F × F)} {ring : DelayLine (F × F)}
    (hring : ring.Holds (List.replicate u.taps.length (A.zero, A.zero) ++ m))
    (hslots : ring.slots.length = u.taps.length) (hfew : u.taps.length ≤ m.length) {k : ℕ}
    (hk : (k + 1) * u.decim = m.length - u.taps.length + 1) :
    clampPair A (weighRing A ring.slots (A.zero, A.zero) ring.pos u.taps) =
      outputSample A u m k := by
  have hlen : (List.replicate u.taps.length (A.zero, A.zero) ++ m).length - u.taps.length =
      (List.replicate u.taps.length (A.zero, A.zero)).length + (m.length - u.taps.length) := by
    rw [List.length_append, List.length_replicate]
    omega
  have hwhole : (m.drop (m.length - u.taps.length)).take u.taps.length =
      m.drop (m.length - u.taps.length) := by
    refine List.take_of_length_le ?_
    rw [List.length_drop]
    omega
  rw [weighRing_of_holds hring hslots, hlen, List.drop_append,
    List.drop_eq_nil_of_le (Nat.le_add_right _ _), List.nil_append, Nat.add_sub_cancel_left,
    outputSample, hk, Nat.add_sub_cancel, hwhole]

theorem Holding.step (hdecim : 0 < u.decim) (htaps : 0 < u.taps.length) {m : List (F × F)}
    {r : Resampler F D} (h : Holding A u m r) (x : Int16 × Int16) :
    Holding A u (m ++ [mix A r.rot x]) (sampleStep A u m.length x r) := by
  have hring := h.ring.push (by rw [h.slots]; exact htaps) (mix A r.rot x)
  rw [List.append_assoc] at hring
  have hslots : (r.ring.push (mix A r.rot x)).slots.length = u.taps.length := by
    rw [length_push, h.slots]
  have hlen : (m ++ [mix A r.rot x]).length = m.length + 1 := by
    rw [List.length_append, List.length_singleton]
  have hkeep := flatMap_outputSample_append (A := A) hdecim m (mix A r.rot x) le_rfl
  have hphase := h.phase
  have hout := h.output
  unfold sampleStep
  dsimp only
  split_ifs with hfew hskip hflush
  · -- there are not enough samples yet
    have hnone : m.length + 1 + 1 - u.taps.length = m.length + 1 - u.taps.length := by omega
    refine ⟨hslots, hring, ?_, ?_⟩
    · rw [hlen, hnone]
      exact hphase
    · rw [hlen, hnone, hkeep]
      exact hout
  · -- the sample is passed over
    have hnext : m.length + 1 + 1 - u.taps.length = m.length + 1 - u.taps.length + 1 := by omega
    rw [hphase] at hskip
    obtain ⟨hmod, hdiv⟩ := succ_mod_div_of_lt hskip
    refine ⟨hslots, hring, ?_, ?_⟩
    · rw [hlen, hnext, hmod]
      exact congrArg (· + 1) hphase
    · rw [hlen, hnext, hdiv, hkeep]
      exact hout
  all_goals
    -- a sample of the output is due; its buffer may be full with it
    have hnext : m.length + 1 + 1 - u.taps.length = m.length + 1 - u.taps.length + 1 := by omega
    rw [hphase] at hskip
    obtain ⟨hmod, hdiv, hmul⟩ := succ_mod_div_of_ge hdecim hskip
    have hdue := outputSample_due hring hslots (by rw [hlen]; omega) (by rw [hlen, hmul])
    refine ⟨hslots, hring, by rw [hlen, hnext, hmod], ?_⟩
    rw [hlen, hnext, hdiv, List.range_succ, List.flatMap_append, List.flatMap_singleton, hkeep, ← hout,
      ← hdue]
    simp

theorem holding_resample (hdecim : 0 < u.decim) (htaps : 0 < u.taps.length)
    (x : List (Int16 × Int16)) :
    Holding A u (mixedFrom A u 0 A.one x) (resampleFrom A u 0 x (start A u)) := by
  induction x using List.reverseRecOn with
  | nil => exact holding_start htaps
  | append_singleton xs x ih =>
    obtain ⟨rot', hmixed, hrot⟩ := mixedFrom_append (A := A) (u := u) 0 A.one xs x
    have hstep := ih.step hdecim htaps x
    rw [hrot (start A u) rfl, ← hmixed, length_mixedFrom] at hstep
    rw [resampleFrom_append, Nat.zero_add]
    exact hstep

theorem flatten_buffers (hdecim : 0 < u.decim) (htaps : 0 < u.taps.length)
    (x : List (Int16 × Int16)) : (buffers A u x).flatten = filtered A u x := by
  have hout := (holding_resample (A := A) hdecim htaps x).output
  unfold buffers filtered
  rw [← hout]
  dsimp only
  split_ifs with hempty
  · rw [hempty, List.append_nil]
  · rw [List.flatten_append, List.flatten_singleton]

end

end Bewe.SatTrim
