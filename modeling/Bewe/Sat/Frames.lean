import Bewe.Lib.Correlate
import Bewe.Lib.MaxBy
import Bewe.Text
import Mathlib.Data.List.GetD

/-!
# Frames of a satellite

`save`, `load` and `compare` of `sat_demod.cpp`. A frame is the bits that a satellite repeats, with a
confidence for each. Two frames are compared under the rotation and the polarity of the largest
circular correlation, here as an integer. That is where most bits agree (`agreements_le_compare`),
so a frame and a turned copy of it agree in every bit, whichever of several best rotations is found
(`shift_turned`). What is written to a file is read back (`load_save`).
-/

namespace Bewe.SatDemod

open Lib (sgn dot agree polar)

/-- `Frame`: the bits and their confidences. -/
structure Frame where
  bits : List Bool
  conf : List UInt8

/-- A confidence for each bit, from 0 to 9. -/
structure Frame.Valid (f : Frame) : Prop where
  length : f.conf.length = f.bits.length
  conf_le : ∀ c ∈ f.conf, c ≤ 9

/-! ## Comparing -/

/-- `((i - k) % n + n) % n`. -/
def wrapIndex (n i k : ℕ) : ℕ := ((((i : ℤ) - k).tmod n + n).tmod n).toNat

/-- `circ_corr`: `c[k] = sum a[i] b[i-k]`, without the division by the length. -/
def circCorr (a b : List ℤ) : List ℤ :=
  (List.range a.length).map fun k =>
    a.length * ∑ i ∈ Finset.range a.length, a.getD i 0 * b.getD (wrapIndex a.length i k) 0

/-- `best_shift`. -/
def bestShift (c : List ℤ) : ℕ × ℤ :=
  let k := Lib.maxBy (fun i => |c.getD i 0|) 0 (List.range' 1 (c.length - 1))
  (k, if 0 ≤ c.getD k 0 then 1 else -1)

/-- `Compare`. -/
structure Compare where
  ok : Bool := false
  shift : ℕ := 0
  polarity : ℤ := 1
  n_conf : ℕ := 0
  n_diff : ℕ := 0
  agree : ℚ := 0

/-- `bits[i]`. -/
def bitAt (a : Frame) (i : ℕ) : Bool := a.bits.getD i false

/-- The bit of `b` that is compared with bit `i` of `a`. -/
def partner (a b : Frame) (C : Compare) (i : ℕ) : Bool :=
  let bit := bitAt b (wrapIndex a.bits.length i C.shift)
  if 0 < C.polarity then bit else !bit

/-- Bit `i` of `a` and its partner are both confident. -/
def confident (a b : Frame) (C : Compare) (i : ℕ) : Bool :=
  5 ≤ a.conf.getD i 0 && 5 ≤ b.conf.getD (wrapIndex a.bits.length i C.shift) 0

/-- A turn of the loop that counts. -/
def compareBit (a b : Frame) (C : Compare) (i : ℕ) : Compare :=
  if !confident a b C i then C
  else
    let C' := { C with n_conf := C.n_conf + 1 }
    if partner a b C i ≠ bitAt a i then { C' with n_diff := C.n_diff + 1 } else C'

/-- `compare`. -/
def compare (a b : Frame) : Compare :=
  if a.bits = [] ∨ a.bits.length ≠ b.bits.length then {}
  else
    let best := bestShift (circCorr (a.bits.map sgn) (b.bits.map sgn))
    let C := (List.range a.bits.length).foldl (compareBit a b)
      { shift := best.1, polarity := best.2 }
    { C with
      ok := decide (0 < C.n_conf)
      agree := if 0 < C.n_conf then 1 - C.n_diff / C.n_conf else 0 }

/-! ## Rotations -/

theorem wrapIndex_eq {n : ℕ} (hn : 0 < n) (i k : ℕ) :
    (wrapIndex n i k : ℤ) = ((i : ℤ) - k) % n := by
  have hpos : (0 : ℤ) < n := by exact_mod_cast hn
  have hlow : -(n : ℤ) < ((i : ℤ) - k).tmod n := by
    have hlt := Int.tmod_lt_of_pos (-((i : ℤ) - k)) hpos
    rw [Int.neg_tmod] at hlt
    omega
  have hnonneg : 0 ≤ ((i : ℤ) - k).tmod n + n := by omega
  have hcong : (((i : ℤ) - k).tmod n + n) % n = ((i : ℤ) - k) % n := by
    rw [Int.add_emod_right, Int.tmod_def, Int.sub_mul_emod_self_left]
  rw [wrapIndex, Int.tmod_eq_emod_of_nonneg hnonneg, hcong,
    Int.toNat_of_nonneg (Int.emod_nonneg _ hpos.ne')]

theorem wrapIndex_lt {n : ℕ} (hn : 0 < n) (i k : ℕ) : wrapIndex n i k < n := by
  have h := wrapIndex_eq hn i k
  have hlt := Int.emod_lt_of_pos ((i : ℤ) - k) (show (0 : ℤ) < n by omega)
  omega

theorem wrapIndex_add_mod {n i : ℕ} (hi : i < n) (k : ℕ) : (wrapIndex n i k + k) % n = i := by
  have h := wrapIndex_eq (show 0 < n by omega) i k
  have hback : (((wrapIndex n i k : ℤ) + k) % n) = i := by
    rw [h, Int.emod_add_emod, sub_add_cancel, Int.emod_eq_of_lt (by omega) (by omega)]
  exact_mod_cast hback

theorem wrapIndex_mod {n : ℕ} (hn : 0 < n) (i k : ℕ) :
    wrapIndex n i (k % n) = wrapIndex n i k := by
  have h := wrapIndex_eq hn i k
  have h' := wrapIndex_eq hn i (k % n)
  rw [Int.natCast_emod, Int.sub_emod, Int.emod_emod_of_dvd _ dvd_rfl, ← Int.sub_emod] at h'
  omega

/-- The bits of `b` under a rotation, as `a` sees them. -/
def shifted (a b : Frame) (k i : ℕ) : Bool := bitAt b (wrapIndex a.bits.length i k)

/-- The number of bits of `a` that agree with `b` under a rotation and a polarity. -/
def agreements (a b : Frame) (k : ℕ) (inverted : Bool) : ℕ :=
  agree (Finset.range a.bits.length) (bitAt a) (polar inverted (shifted a b k))

/-- A frame rotated, bits and confidences together, and possibly complemented. -/
def Frame.turned (a : Frame) (r : ℕ) (inverted : Bool) : Frame where
  bits := (a.bits.rotate r).map (· ^^ inverted)
  conf := a.conf.rotate r

@[simp] theorem Frame.length_turned (a : Frame) (r : ℕ) (inverted : Bool) :
    (a.turned r inverted).bits.length = a.bits.length := by
  rw [turned, List.length_map, List.length_rotate]

theorem getD_rotate {α : Type*} {l : List α} {n j : ℕ} (hl : l.length = n) (hj : j < n) (r : ℕ)
    (d : α) : (l.rotate r).getD j d = l.getD ((j + r) % n) d := by
  rw [List.getD_eq_getElem?_getD, List.getD_eq_getElem?_getD, List.getElem?_rotate (by omega), hl]

theorem bitAt_turned (a : Frame) {j : ℕ} (hj : j < a.bits.length) (r : ℕ) (inverted : Bool) :
    bitAt (a.turned r inverted) j = (bitAt a ((j + r) % a.bits.length) ^^ inverted) := by
  have hlt : j < (a.bits.rotate r).length := by rwa [List.length_rotate]
  rw [bitAt, bitAt, ← getD_rotate rfl hj, Frame.turned, List.getD_eq_getElem?_getD,
    List.getD_eq_getElem?_getD, List.getElem?_map, List.getElem?_eq_getElem hlt]
  rfl

theorem polar_shifted_turned (a : Frame) {i : ℕ} (hi : i < a.bits.length) (r : ℕ)
    (inverted : Bool) : polar inverted (shifted a (a.turned r inverted) r) i = bitAt a i := by
  have hj := wrapIndex_lt (show 0 < a.bits.length by omega) i r
  have hbit := bitAt_turned a hj r inverted
  rw [wrapIndex_add_mod hi] at hbit
  show (bitAt (a.turned r inverted) (wrapIndex a.bits.length i r) ^^ inverted) = bitAt a i
  rw [hbit, Bool.xor_assoc, Bool.xor_self, Bool.xor_false]

theorem agreements_turned (a : Frame) (r : ℕ) (inverted : Bool) :
    agreements a (a.turned r inverted) r inverted = a.bits.length := by
  have hall := Lib.agree_eq_card_iff.2 fun i hi =>
    (polar_shifted_turned a (Finset.mem_range.1 hi) r inverted).symm
  rw [Finset.card_range] at hall
  exact hall

/-! ## The best rotation -/

theorem getD_map_sgn {l : List Bool} {i : ℕ} (hi : i < l.length) :
    (l.map sgn).getD i 0 = sgn (l.getD i false) := by
  rw [List.getD_eq_getElem?_getD, List.getD_eq_getElem?_getD, List.getElem?_map,
    List.getElem?_eq_getElem hi]
  rfl

theorem getD_circCorr {a b : Frame} (hlen : a.bits.length = b.bits.length) {k : ℕ}
    (hk : k < a.bits.length) :
    (circCorr (a.bits.map sgn) (b.bits.map sgn)).getD k 0 =
      a.bits.length * dot (Finset.range a.bits.length) (bitAt a) (shifted a b k) := by
  rw [circCorr, List.length_map, List.getD_eq_getElem?_getD, List.getElem?_map,
    List.getElem?_range hk]
  show (a.bits.length : ℤ) * _ = _
  congr 1
  refine Finset.sum_congr rfl fun i hi => ?_
  have hi' := Finset.mem_range.1 hi
  rw [getD_map_sgn hi', getD_map_sgn (by rw [← hlen]; exact wrapIndex_lt (by omega) i k)]
  rfl

theorem bestShift_spec {a b : Frame} (hne : a.bits ≠ []) (hlen : a.bits.length = b.bits.length) :
    let best := bestShift (circCorr (a.bits.map sgn) (b.bits.map sgn))
    let d := dot (Finset.range a.bits.length) (bitAt a)
    best.1 < a.bits.length ∧ (∀ k < a.bits.length, |d (shifted a b k)| ≤ |d (shifted a b best.1)|) ∧
      best.2 = if d (shifted a b best.1) < 0 then -1 else 1 := by
  intro best d
  have hpos : 0 < a.bits.length := List.length_pos_iff.2 hne
  have hposz : (0 : ℤ) < a.bits.length := by exact_mod_cast hpos
  have hc : (circCorr (a.bits.map sgn) (b.bits.map sgn)).length = a.bits.length := by
    rw [circCorr, List.length_map, List.length_range, List.length_map]
  have hmem : ∀ k, k ∈ 0 :: List.range' 1
      ((circCorr (a.bits.map sgn) (b.bits.map sgn)).length - 1) ↔ k < a.bits.length := fun k => by
    rw [hc, List.mem_cons, List.mem_range'_1]
    omega
  obtain ⟨hbest, hmax⟩ := Lib.maxBy_spec
    (fun i => |(circCorr (a.bits.map sgn) (b.bits.map sgn)).getD i 0|) 0
    (List.range' 1 ((circCorr (a.bits.map sgn) (b.bits.map sgn)).length - 1))
  have hlt : best.1 < a.bits.length := (hmem _).1 hbest
  refine ⟨hlt, fun k hk => ?_, ?_⟩
  · have hle : |(circCorr (a.bits.map sgn) (b.bits.map sgn)).getD k 0| ≤
        |(circCorr (a.bits.map sgn) (b.bits.map sgn)).getD best.1 0| := hmax k ((hmem k).2 hk)
    rw [getD_circCorr hlen hk, getD_circCorr hlen hlt, abs_mul, abs_mul] at hle
    exact le_of_mul_le_mul_left hle (abs_pos.2 hposz.ne')
  · show (if 0 ≤ (circCorr (a.bits.map sgn) (b.bits.map sgn)).getD best.1 0 then (1 : ℤ) else -1) = _
    rw [getD_circCorr hlen hlt]
    by_cases hneg : d (shifted a b best.1) < 0
    · rw [if_pos hneg, if_neg (not_le.2 (mul_neg_of_pos_of_neg hposz hneg))]
    · rw [if_neg hneg, if_pos (mul_nonneg hposz.le (not_lt.1 hneg))]

/-! ## The loop -/

/-- A place whose bit is confident in both frames and differs. -/
def differs (a b : Frame) (C : Compare) (i : ℕ) : Bool :=
  confident a b C i && decide (partner a b C i ≠ bitAt a i)

theorem compareBit_eq (a b : Frame) (C : Compare) (i : ℕ) :
    compareBit a b C i =
      { C with
        n_conf := C.n_conf + if confident a b C i then 1 else 0
        n_diff := C.n_diff + if differs a b C i then 1 else 0 } := by
  unfold compareBit differs
  cases confident a b C i with
  | false => rfl
  | true =>
    by_cases hbit : partner a b C i = bitAt a i
    · simp only [hbit, Bool.not_true, Bool.false_eq_true, if_false, ne_eq, not_true_eq_false,
        decide_false, Bool.and_false, if_true, Nat.add_zero]
    · simp only [hbit, Bool.not_true, Bool.false_eq_true, if_false, ne_eq, if_true,
        not_false_eq_true, decide_true, Bool.and_true]

theorem foldl_compareBit (a b : Frame) (C : Compare) (l : List ℕ) :
    l.foldl (compareBit a b) C =
      { C with
        n_conf := C.n_conf + l.countP (confident a b C)
        n_diff := C.n_diff + l.countP (differs a b C) } := by
  induction l generalizing C with
  | nil => rfl
  | cons i l ih =>
    rw [List.foldl_cons, ih, compareBit_eq, List.countP_cons, List.countP_cons]
    refine congrArg₂ (fun m n => { C with n_conf := m, n_diff := n }) ?_ ?_
    · rw [Nat.add_right_comm, Nat.add_assoc]
      rfl
    · rw [Nat.add_right_comm, Nat.add_assoc]
      rfl

theorem compare_spec {a b : Frame} (hne : a.bits ≠ []) (hlen : a.bits.length = b.bits.length) :
    let C := compare a b
    let d := dot (Finset.range a.bits.length) (bitAt a)
    C.shift < a.bits.length ∧ (∀ k < a.bits.length, |d (shifted a b k)| ≤ |d (shifted a b C.shift)|) ∧
      C.polarity = (if d (shifted a b C.shift) < 0 then -1 else 1) ∧
      C.n_conf = (List.range a.bits.length).countP (confident a b C) ∧
      C.n_diff = (List.range a.bits.length).countP (differs a b C) ∧
      (C.ok = true ↔ 0 < C.n_conf) ∧
      C.agree = if 0 < C.n_conf then 1 - (C.n_diff : ℚ) / C.n_conf else 0 := by
  intro C d
  obtain ⟨hlt, hmax, hpol⟩ := bestShift_spec hne hlen
  have hC : C = compare a b := rfl
  rw [compare, if_neg (by rw [not_or, not_not]; exact ⟨hne, hlen⟩)] at hC
  simp only [foldl_compareBit, Nat.zero_add] at hC
  rw [hC]
  exact ⟨hlt, hmax, hpol, rfl, rfl, decide_eq_true_iff, rfl⟩

theorem partner_eq {a b : Frame} (hne : a.bits ≠ []) (hlen : a.bits.length = b.bits.length)
    (i : ℕ) :
    partner a b (compare a b) i =
      polar (decide ((compare a b).polarity < 0)) (shifted a b (compare a b).shift) i := by
  obtain ⟨-, -, hpol, -⟩ := compare_spec hne hlen
  unfold partner polar shifted
  rw [hpol]
  split_ifs with hneg h
  · cases h
  · exact (Bool.xor_true _).symm
  · exact (Bool.xor_false _).symm
  · omega

theorem agreements_le_compare {a b : Frame} (hlen : a.bits.length = b.bits.length) (k : ℕ)
    (inverted : Bool) :
    agreements a b k inverted ≤
      agreements a b (compare a b).shift (decide ((compare a b).polarity < 0)) := by
  by_cases hne : a.bits = []
  · have hzero : agreements a b k inverted = 0 := by
      rw [agreements, hne]
      rfl
    omega
  obtain ⟨-, hmax, hpol, -⟩ := compare_spec hne hlen
  have hpos : 0 < a.bits.length := List.length_pos_iff.2 hne
  have hwhole : shifted a b (k % a.bits.length) = shifted a b k :=
    funext fun i => by rw [shifted, shifted, wrapIndex_mod hpos]
  have hsign : decide ((compare a b).polarity < 0) =
      decide (dot (Finset.range a.bits.length) (bitAt a) (shifted a b (compare a b).shift) < 0) := by
    rw [hpol]
    split_ifs with hneg
    · exact (decide_eq_true hneg).symm
    · exact (decide_eq_false hneg).symm
  rw [agreements, ← hwhole, hsign]
  exact Lib.agree_le_of_abs_le (hmax _ (Nat.mod_lt _ hpos)) inverted

/-! ## The same frame -/

theorem partner_turned {a : Frame} (hne : a.bits ≠ []) (r : ℕ) (inverted : Bool) {i : ℕ}
    (hi : i < a.bits.length) :
    partner a (a.turned r inverted) (compare a (a.turned r inverted)) i = bitAt a i := by
  have hlen : a.bits.length = (a.turned r inverted).bits.length :=
    (Frame.length_turned a r inverted).symm
  have hle := agreements_le_compare hlen r inverted
  rw [agreements_turned] at hle
  have hall := (Lib.agree_le (Finset.range a.bits.length) (bitAt a)
    (polar (decide ((compare a (a.turned r inverted)).polarity < 0))
      (shifted a (a.turned r inverted) (compare a (a.turned r inverted)).shift))).antisymm
    (by rw [Finset.card_range]; exact hle)
  rw [partner_eq hne hlen]
  exact (Lib.agree_eq_card_iff.1 hall i (Finset.mem_range.2 hi)).symm

/-- The frame is like no turned copy of itself but the whole turns. -/
def Frame.Asymmetric (a : Frame) : Prop :=
  ∀ r inverted, (a.turned r inverted).bits = a.bits → a.bits.length ∣ r ∧ inverted = false

theorem bits_eq_of_bitAt {a b : Frame} (hlen : a.bits.length = b.bits.length)
    (h : ∀ i < a.bits.length, bitAt a i = bitAt b i) : a.bits = b.bits := by
  refine List.ext_getElem hlen fun i hi hi' => ?_
  have hbit := h i hi
  rwa [bitAt, bitAt, List.getD_eq_getElem _ _ hi, List.getD_eq_getElem _ _ hi'] at hbit

theorem wrapIndex_add_mod_eq {n k : ℕ} (hk : k < n) (i r : ℕ) :
    (wrapIndex n i k + r) % n = (i + (r + (n - k))) % n := by
  have h := wrapIndex_eq (show 0 < n by omega) i k
  have hcast : ((i + (r + (n - k)) : ℕ) : ℤ) = (i - k + r) + n := by omega
  have hz : (((wrapIndex n i k + r) % n : ℕ) : ℤ) = ((i + (r + (n - k)) : ℕ) : ℤ) % n := by
    rw [hcast, Int.add_emod_right, Int.natCast_emod, Int.natCast_add, h, Int.emod_add_emod]
  exact_mod_cast hz

/-- A frame that is unlike its turned copies is found under the rotation and the polarity that the
copy was made with. -/
theorem shift_turned {a : Frame} (hne : a.bits ≠ []) (hsym : a.Asymmetric) (r : ℕ)
    (inverted : Bool) :
    (compare a (a.turned r inverted)).shift = r % a.bits.length ∧
      (compare a (a.turned r inverted)).polarity = if inverted then -1 else 1 := by
  have hlen : a.bits.length = (a.turned r inverted).bits.length :=
    (Frame.length_turned a r inverted).symm
  obtain ⟨hlt, -, hpol, -⟩ := compare_spec hne hlen
  have hall := fun i hi => partner_turned (i := i) hne r inverted hi
  simp only [partner_eq hne hlen] at hall
  generalize (compare a (a.turned r inverted)).shift = k at hlt hpol hall
  generalize (compare a (a.turned r inverted)).polarity = pol at hpol hall
  -- the two rotations, one after the other, turn the frame into itself
  obtain ⟨hdvd, hinv⟩ := hsym (r + (a.bits.length - k)) (inverted ^^ decide (pol < 0))
    (bits_eq_of_bitAt (Frame.length_turned _ _ _) fun i hi => by
      rw [Frame.length_turned] at hi
      have hbit := hall i hi
      rw [polar, shifted, bitAt_turned a (wrapIndex_lt (by omega) i k),
        wrapIndex_add_mod_eq hlt, Bool.xor_assoc] at hbit
      rw [bitAt_turned a hi, hbit])
  constructor
  · have hzero : r + (a.bits.length - k) ≡ 0 [MOD a.bits.length] := (Nat.modEq_zero_iff_dvd).2 hdvd
    have hsum : r + a.bits.length ≡ k [MOD a.bits.length] := by
      have h := hzero.add_right k
      rwa [Nat.add_assoc, Nat.sub_add_cancel hlt.le, Nat.zero_add] at h
    have hmod : r % a.bits.length = k % a.bits.length := by
      rw [← Nat.add_mod_right r]
      exact hsum
    rw [hmod, Nat.mod_eq_of_lt hlt]
  · have hcases : pol = -1 ∨ pol = 1 := by
      rw [hpol]
      split_ifs
      exacts [Or.inl rfl, Or.inr rfl]
    clear hpol hall
    rcases hcases with rfl | rfl <;> cases inverted <;> revert hinv <;> decide

theorem ok_turned {a : Frame} (hv : a.Valid) (hconf : ∃ c ∈ a.conf, 5 ≤ c) (hsym : a.Asymmetric)
    (r : ℕ) (inverted : Bool) : (compare a (a.turned r inverted)).ok = true := by
  obtain ⟨c, hc, h5⟩ := hconf
  obtain ⟨i, hi, rfl⟩ := List.getElem_of_mem hc
  have hi' : i < a.bits.length := hv.length ▸ hi
  have hne : a.bits ≠ [] := List.ne_nil_of_length_pos (by omega)
  obtain ⟨-, -, -, hcount, -, hok, -⟩ :=
    compare_spec hne (Frame.length_turned a r inverted).symm
  have hpartner : (a.turned r inverted).conf.getD (wrapIndex a.bits.length i (r % a.bits.length)) 0 =
      a.conf.getD i 0 := by
    rw [wrapIndex_mod (by omega), Frame.turned,
      getD_rotate hv.length (wrapIndex_lt (by omega) i r), wrapIndex_add_mod hi']
  rw [hok, hcount, List.countP_pos_iff]
  refine ⟨i, List.mem_range.2 hi', ?_⟩
  rw [confident, (shift_turned hne hsym r inverted).1, hpartner, List.getD_eq_getElem _ _ hi,
    Bool.and_self]
  exact decide_eq_true h5

/-! ## Files -/

/-- `\n`. -/
def newline : UInt8 := 10

/-- The text that `save` writes. -/
def frameText (header : Bytes) (f : Frame) : Bytes :=
  cStr header ++ newline :: (f.bits.map fun b => 48 + if b then 1 else 0) ++
    newline :: (f.conf.map (48 + ·) ++ [newline])

/-- `save`, with whether the file is opened. -/
def save (opens : Bool) (files : Bytes → Option Bytes) (path : Bytes) (f : Frame) (header : Bytes) :
    Bool × (Bytes → Option Bytes) :=
  if opens then (true, Function.update files path (some (frameText header f))) else (false, files)

/-- The loop over `fgetc`: a line, and what follows its line feed. -/
def readLine (s : Bytes) : Bytes × Bytes :=
  (s.takeWhile (· ≠ newline), (s.dropWhile (· ≠ newline)).drop 1)

/-- `load`: the frame and the header. -/
def load (files : Bytes → Option Bytes) (path : Bytes) : Option (Frame × Bytes) := do
  let s ← files path
  let line0 := readLine s
  let line1 := readLine line0.2
  let line2 := readLine line1.2
  if line1.1 = [] ∨ line1.1.length ≠ line2.1.length then none
  else some ({ bits := line1.1.map (· == 49), conf := line2.1.map (· - 48) }, line0.1)

theorem readLine_line {l : Bytes} (h : newline ∉ l) (t : Bytes) :
    readLine (l ++ newline :: t) = (l, t) := by
  have hall : ∀ c ∈ l, decide (c ≠ newline) = true := fun c hc =>
    decide_eq_true fun he => h (he ▸ hc)
  unfold readLine
  rw [List.takeWhile_append_of_pos hall, List.dropWhile_append_of_pos hall]
  simp

theorem load_save {f : Frame} (hv : f.Valid) (hne : f.bits ≠ []) {header : Bytes}
    (hheader : newline ∉ header) (files : Bytes → Option Bytes) (path : Bytes) :
    load (save true files path f header).2 path = some (f, cStr header) := by
  have hhead : newline ∉ cStr header := fun h => hheader ((List.takeWhile_sublist _).subset h)
  have hsub : ∀ c : UInt8, 48 + c - 48 = c := fun c => by rw [UInt8.add_comm, UInt8.add_sub_cancel]
  have hbits : newline ∉ f.bits.map fun b => (48 : UInt8) + if b then 1 else 0 := by
    intro h
    obtain ⟨b, -, hb⟩ := List.mem_map.1 h
    revert hb
    cases b <;> decide
  have hconf : newline ∉ f.conf.map (48 + ·) := by
    intro h
    obtain ⟨c, hc, hcn⟩ := List.mem_map.1 h
    have hle := hv.conf_le c hc
    have hval : c = newline - 48 := by rw [← hcn, hsub]
    rw [hval] at hle
    revert hle
    decide
  have hlen : (f.bits.map fun b => (48 : UInt8) + if b then 1 else 0).length =
      (f.conf.map ((48 : UInt8) + ·)).length := by
    rw [List.length_map, List.length_map, hv.length]
  have hback : (f.bits.map fun b => (48 : UInt8) + if b then 1 else 0).map (· == 49) = f.bits := by
    rw [List.map_map]
    refine (List.map_congr_left fun b _ => ?_).trans (List.map_id _)
    cases b <;> rfl
  have hback' : (f.conf.map ((48 : UInt8) + ·)).map (· - 48) = f.conf := by
    rw [List.map_map]
    exact (List.map_congr_left fun c _ => hsub c).trans (List.map_id _)
  have htext : (save true files path f header).2 path = some (frameText header f) :=
    Function.update_self _ _ _
  rw [load, htext, frameText]
  simp only [Option.bind_eq_bind, Option.bind_some, List.append_assoc, List.cons_append,
    readLine_line hhead, readLine_line hbits, readLine_line hconf]
  rw [if_neg]
  · rw [hback, hback']
  · rw [not_or, not_not]
    exact ⟨fun h => hne (List.map_eq_nil_iff.1 h), hlen⟩

/-- What a comparison of frames finds. A frame is recognised in its turned copies: every bit agrees
with its partner, so no confident bit differs, and the confident bits are met if the frame is unlike
its other copies. A frame is read back as it was saved. The bits of any two frames of one length
agree under the reported rotation and polarity as often as under any other. -/
theorem compare_frames :
    (∀ a : Frame, a.Valid → (∃ c ∈ a.conf, 5 ≤ c) →
      (∀ r inverted,
        (∀ i < a.bits.length,
          partner a (a.turned r inverted) (compare a (a.turned r inverted)) i = bitAt a i) ∧
        (compare a (a.turned r inverted)).n_diff = 0 ∧
        (a.Asymmetric → (compare a (a.turned r inverted)).ok = true ∧
          (compare a (a.turned r inverted)).agree = 1)) ∧
      ∀ files path header, newline ∉ header →
        load (save true files path a header).2 path = some (a, cStr header)) ∧
    ∀ a b : Frame, a.bits.length = b.bits.length → ∀ k inverted,
      agreements a b k inverted ≤
        agreements a b (compare a b).shift (decide ((compare a b).polarity < 0)) := by
  refine ⟨fun a hv hconf => ?_, fun a b hlen => agreements_le_compare hlen⟩
  have hne : a.bits ≠ [] := by
    obtain ⟨c, hc, -⟩ := hconf
    exact List.ne_nil_of_length_pos (hv.length ▸ List.length_pos_of_mem hc)
  refine ⟨fun r inverted => ?_, fun files path header hheader =>
    load_save hv hne hheader files path⟩
  have hall := fun i hi => partner_turned (i := i) hne r inverted hi
  obtain ⟨-, -, -, -, hdiff, hok, hagree⟩ :=
    compare_spec hne (Frame.length_turned a r inverted).symm
  have hzero : (compare a (a.turned r inverted)).n_diff = 0 := by
    rw [hdiff, List.countP_eq_zero]
    intro i hi
    rw [differs, hall i (List.mem_range.1 hi)]
    simp
  refine ⟨hall, hzero, fun hsym => ?_⟩
  have htrue := ok_turned hv hconf hsym r inverted
  rw [hagree, hzero, if_pos (hok.1 htrue)]
  exact ⟨htrue, by simp⟩

/-- A frame of three bits, of which two are confident. -/
def threeBits : Frame := ⟨[true, false, false], [9, 5, 0]⟩

/-- Its copies rotated by one, and complemented, are recognised, and it is read back. -/
theorem compare_frames_threeBits :
    ((compare threeBits (threeBits.turned 1 true)).ok = true ∧
      (compare threeBits (threeBits.turned 1 true)).agree = 1) ∧
      load (save true (fun _ => none) [] threeBits []).2 [] = some (threeBits, []) := by
  have hvalid : threeBits.Valid := ⟨rfl, by decide +kernel⟩
  have hsym : threeBits.Asymmetric := by
    intro r inverted h
    have hlt : r % 3 < 3 := Nat.mod_lt r (by decide)
    have hbits : (threeBits.bits.rotate (r % 3)).map (· ^^ inverted) = threeBits.bits :=
      (congrArg (List.map _) (List.rotate_mod threeBits.bits r)).trans h
    rw [show threeBits.bits.length = 3 from rfl, Nat.dvd_iff_mod_eq_zero]
    revert hbits
    generalize r % 3 = k at hlt
    interval_cases k <;> cases inverted <;> decide +kernel
  obtain ⟨hturned, hback⟩ := compare_frames.1 threeBits hvalid ⟨9, by decide⟩
  exact ⟨(hturned 1 true).2.2 hsym, hback (fun _ => none) [] [] (by decide)⟩
end Bewe.SatDemod
