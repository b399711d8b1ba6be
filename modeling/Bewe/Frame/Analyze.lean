import Bewe.Lib.Binary
import Bewe.Lib.LongestRun
import Mathlib.Data.List.Induction
import Mathlib.Data.List.TakeWhile

/-!
# The frames of an unknown signal

`src/frame_analyze.hpp` looks for the structure of a bit string without knowing its protocol: the
period at which it agrees most with itself, a preamble that repeats a short unit from the start, and
a sync word, the longest run of bits that are the same in all frames, after the preamble.
`analyze_not` says that the opposite polarity gives the same result but for the values of the
preamble and of the sync word, and `sync_sound` that a sync word is what it is reported for.

The agreement of two stretches is a `double`, here the rational that `roundBits 53` rounds to.
-/

namespace Bewe.Frame

open Lib

/-! ## The source -/

/-- `Result`. The period's confidence is a `float`. -/
structure Result where
  preamble_len : ℕ
  preamble_unit : ℕ
  preamble_pat : BitVec 32
  period : ℕ
  period_conf : ℚ
  sync_off : ℕ
  sync_len : ℕ
  sync_bits : BitVec 64
  payload_len : ℕ
  frames : ℕ
  deriving DecidableEq

/-- A result before anything is found. -/
def Result.empty : Result := ⟨0, 0, 0, 0, 0, 0, 0, 0, 0, 0⟩

/-- `MIN_FRAMES`. -/
def MIN_FRAMES : ℕ := 3

/-- `PERIOD_MATCH_MIN`. -/
def PERIOD_MATCH_MIN : ℚ := roundBits 53 (62 / 100)

/-- `SYNC_MIN`. -/
def SYNC_MIN : ℕ := 8

/-- `PRE_MIN_REPS`. -/
def PRE_MIN_REPS : ℕ := 4

/-- `PRE_UNIT_MAX`. -/
def PRE_UNIT_MAX : ℕ := 16

/-- `(int)b.size()`. -/
def intSize (b : List Bool) : ℤ := (b.length : ℤ).bmod (2 ^ 32)

/-- `bits = (bits << 1) | bit` over the bits. -/
def pack (w : ℕ) (bits : List Bool) : BitVec w :=
  bits.foldl (fun v bit => v <<< 1 ||| (BitVec.ofBool bit).setWidth w) 0

/-- `agree(b + i, b + j, n)`. -/
def agree (b : List Bool) (i j n : ℕ) : ℚ :=
  if n = 0 then 0
  else
    let same := (List.range n).countP fun k => b.getD (i + k) false == b.getD (j + k) false
    roundBits 53 (same / n)

/-- The loop of `find_period` over the lags: the first of those that agree most. -/
def bestLag (b : List Bool) (n max_p : ℕ) : ℕ × ℚ :=
  (List.range' 8 (max_p + 1 - 8)).foldl
    (fun best L =>
      let a := agree b 0 L (n - L)
      if best.2 < a then (L, a) else best)
    (0, 0)

/-- The loop of `find_period` that goes down to divisors, at `d = e + 2`. -/
def descend (b : List Bool) (n best : ℕ) (best_a : ℚ) (e : ℕ) : ℕ × ℚ :=
  if e + 2 ≤ best / 8 then
    let cand := best / (e + 2)
    let a := agree b 0 cand (n - cand)
    if best % (e + 2) = 0 ∧ roundBits 53 (best_a - roundBits 53 (2 / 100)) ≤ a then
      descend b n cand a 0
    else descend b n best best_a (e + 1)
  else (best, best_a)
termination_by (best, best / 8 - e)
decreasing_by
  · exact Prod.Lex.left _ _ (Nat.div_lt_self (by omega) (by omega))
  · exact Prod.Lex.right _ (by omega)

/-- `find_period`: the period, and the confidence. -/
def findPeriod (b : List Bool) : ℕ × ℚ :=
  if intSize b < 64 then (0, 0)
  else
    let n := (intSize b).toNat
    let max_p := n / MIN_FRAMES
    if max_p < 16 then (0, 0)
    else
      let lag := bestLag b n max_p
      if lag.1 = 0 ∨ lag.2 < PERIOD_MATCH_MIN then (0, 0)
      else
        let best := descend b n lag.1 lag.2 0
        let conf := roundBits 53 (roundBits 53 (best.2 - 1 / 2) / (1 / 2))
        (best.1, min (max conf 0) 1)

/-- One frame of the loop of `find_sync` that marks the bits that are the same in all frames. -/
def compareFrame (b : List Bool) (L : ℕ) (stable : List Bool) (f : ℕ) : List Bool :=
  (List.range L).map fun i =>
    if b.getD (f * L + i) false != b.getD i false then false else stable.getD i false

/-- The marks. -/
def stable (b : List Bool) (L nf : ℕ) : List Bool :=
  (List.range' 1 (nf - 1)).foldl (compareFrame b L) (List.replicate L true)

/-- The end of `find_sync`, after the loop that looks for the longest run: the offset, the length
and the bits. -/
def pickSync (b : List Bool) (r : LongestRun) : ℕ × ℕ × BitVec 64 :=
  if r.best_len < SYNC_MIN then (0, 0, 0)
  else
    let best_len := if 64 < r.best_len then 64 else r.best_len
    let off := (r.best_end - best_len + 1).toNat
    (off, best_len, pack 64 ((List.range best_len).map fun i => b.getD (off + i) false))

/-- `find_sync`. -/
def findSync (b : List Bool) (L skip : ℕ) : ℕ × ℕ × BitVec 64 :=
  let n := intSize b
  let nf := (n / L).toNat
  if nf < MIN_FRAMES ∨ L ≤ skip then (0, 0, 0)
  else pickSync b (LongestRun.scan (fun i => (stable b L nf).getD i false) skip L)

/-- The loop of `find_preamble` that counts the repetitions of a unit. -/
def countReps (b : List Bool) (n u : ℕ) (hu : 0 < u) (reps : ℕ) : ℕ :=
  if (reps + 1) * u ≤ n ∧ agree b 0 (reps * u) u = 1 then countReps b n u hu (reps + 1) else reps
termination_by n - reps
decreasing_by
  have hle : reps + 1 ≤ (reps + 1) * u := Nat.le_mul_of_pos_right _ hu
  omega

/-- What `find_preamble` finds. -/
structure Preamble where
  len : ℕ
  unit : ℕ
  pat : BitVec 32

/-- One unit length of `find_preamble`, which is `k + 1`. -/
def tryUnit (b : List Bool) (n : ℕ) (out : Preamble) (k : ℕ) : Preamble :=
  let u := k + 1
  let reps := countReps b n u k.succ_pos 1
  let varies := (List.range' 1 (u - 1)).any fun i => b.getD i false != b.getD 0 false
  if reps < PRE_MIN_REPS then out
  else if 1 < u ∧ !varies then out
  else if out.len < reps * u then
    ⟨reps * u, u, pack 32 ((List.range (min u 32)).map fun i => b.getD i false)⟩
  else out

/-- `find_preamble`. -/
def findPreamble (b : List Bool) : Preamble :=
  if intSize b < 16 then ⟨0, 0, 0⟩
  else
    let n := (intSize b).toNat
    let units := (List.range PRE_UNIT_MAX).takeWhile fun k => (k + 1) * PRE_MIN_REPS ≤ n
    let out := units.foldl (tryUnit b n) ⟨0, 0, 0⟩
    if out.unit = 1 then ⟨0, 0, 0⟩ else out

/-- The part of `analyze` before the sync word. -/
def Result.ofPeriod (pre : Preamble) (per : ℕ × ℚ) : Result :=
  { Result.empty with
    preamble_len := pre.len, preamble_unit := pre.unit, preamble_pat := pre.pat
    period := per.1, period_conf := roundBits 24 per.2 }

/-- The part of `analyze` for a period, over `n` bits. -/
def Result.addSync (r : Result) (n : ℤ) (sync : ℕ × ℕ × BitVec 64) : Result :=
  let used := r.preamble_len + sync.2.1
  { r with
    frames := (n / r.period).toNat
    sync_off := sync.1, sync_len := sync.2.1, sync_bits := sync.2.2
    payload_len := if used < r.period then r.period - used else 0 }

/-- `analyze`. -/
def analyze (bits : List Bool) : Result :=
  if bits.length < 64 then .empty
  else
    let r := Result.ofPeriod (findPreamble bits) (findPeriod bits)
    if r.period = 0 then r
    else
      let skip := min r.preamble_len (r.period - 1)
      r.addSync (intSize bits) (findSync bits r.period skip)

theorem descend_eq (b : List Bool) (n best : ℕ) (best_a : ℚ) (e : ℕ) :
    descend b n best best_a e =
      if e + 2 ≤ best / 8 then
        if best % (e + 2) = 0 ∧ roundBits 53 (best_a - roundBits 53 (2 / 100)) ≤
            agree b 0 (best / (e + 2)) (n - best / (e + 2)) then
          descend b n (best / (e + 2)) (agree b 0 (best / (e + 2)) (n - best / (e + 2))) 0
        else descend b n best best_a (e + 1)
      else (best, best_a) := by
  rw [descend]

theorem countReps_eq (b : List Bool) (n u : ℕ) (hu : 0 < u) (reps : ℕ) :
    countReps b n u hu reps =
      if (reps + 1) * u ≤ n ∧ agree b 0 (reps * u) u = 1 then countReps b n u hu (reps + 1)
      else reps := by
  rw [countReps]

/-! ## Packed bits -/

/-- The lowest bits. -/
def ones (w n : ℕ) : BitVec w := BitVec.ofNat w (2 ^ n - 1)

theorem getLsbD_ones {w n i : ℕ} (hi : i < w) : (ones w n).getLsbD i = decide (i < n) := by
  rw [ones, BitVec.getLsbD_ofNat, Nat.testBit_two_pow_sub_one, decide_eq_true hi, Bool.true_and]

theorem getLsbD_pack {w i : ℕ} (hi : i < w) (bits : List Bool) :
    (pack w bits).getLsbD i = bits.reverse.getD i false := by
  induction bits using List.reverseRecOn generalizing i with
  | nil => simp [pack]
  | append_singleton bits bit ih =>
    have hpack : pack w (bits ++ [bit]) = pack w bits <<< 1 ||| (BitVec.ofBool bit).setWidth w := by
      rw [pack, List.foldl_append]
      rfl
    rw [hpack, List.reverse_append, List.reverse_singleton, List.singleton_append,
      BitVec.getLsbD_or, BitVec.getLsbD_shiftLeft, BitVec.getLsbD_setWidth, BitVec.getLsbD_ofBool]
    rcases i with _ | i
    · simp [hi]
    · rw [List.getD_cons_succ, ← ih (by omega)]
      simp [hi]

theorem getLsbD_pack_map_range {w len i : ℕ} (hlen : len ≤ w) (hi : i < len) (g : ℕ → Bool) :
    (pack w ((List.range len).map g)).getLsbD (len - 1 - i) = g i := by
  have hget : ((List.range len).map g).reverse[len - 1 - i]? = some (g i) := by
    rw [List.getElem?_reverse (by rw [List.length_map, List.length_range]; omega), List.length_map,
      List.length_range, List.getElem?_map, List.getElem?_range (by omega), Option.map_some,
      show len - 1 - (len - 1 - i) = i by omega]
  rw [getLsbD_pack (by omega), List.getD_eq_getElem?_getD, hget]
  rfl

theorem pack_not {w : ℕ} (bits : List Bool) :
    pack w (bits.map not) = ~~~pack w bits &&& ones w bits.length := by
  refine BitVec.eq_of_getLsbD_eq fun i hi => ?_
  rw [getLsbD_pack hi, BitVec.getLsbD_and, BitVec.getLsbD_not, getLsbD_pack hi, getLsbD_ones hi,
    decide_eq_true hi, Bool.true_and, ← List.map_reverse]
  rcases Nat.lt_or_ge i bits.length with hlt | hge
  · rw [decide_eq_true hlt, Bool.and_true]
    simp [List.getD_eq_getElem?_getD, hlt]
  · rw [decide_eq_false (by omega), Bool.and_false]
    simp [List.getD_eq_getElem?_getD, hge]

/-! ## The other polarity -/

theorem toNat_intSize_le (b : List Bool) : (intSize b).toNat ≤ b.length := by
  unfold intSize Int.bmod
  dsimp only
  split_ifs <;> omega

theorem intSize_not (b : List Bool) : intSize (b.map not) = intSize b := by
  unfold intSize
  rw [List.length_map]

theorem getD_not {b : List Bool} {i : ℕ} (h : i < b.length) :
    (b.map not).getD i false = !b.getD i false := by
  simp [List.getD_eq_getElem?_getD, h]

theorem not_beq_not (x y : Bool) : ((!x) == !y) = (x == y) := by
  cases x <;> cases y <;> rfl

theorem agree_not {b : List Bool} {i j n : ℕ} (hi : i + n ≤ b.length) (hj : j + n ≤ b.length) :
    agree (b.map not) i j n = agree b i j n := by
  have hcount : (List.range n).countP (fun k =>
        (b.map not).getD (i + k) false == (b.map not).getD (j + k) false) =
      (List.range n).countP fun k => b.getD (i + k) false == b.getD (j + k) false := by
    refine List.countP_congr fun k hk => ?_
    have hlt := List.mem_range.1 hk
    rw [getD_not (by omega), getD_not (by omega), not_beq_not]
  rw [agree, agree, hcount]

theorem agree_lag_not {b : List Bool} {n : ℕ} (hn : n ≤ b.length) (L : ℕ) :
    agree (b.map not) 0 L (n - L) = agree b 0 L (n - L) := by
  rcases Nat.le_total n L with hle | hle
  · rw [Nat.sub_eq_zero_of_le hle]
    rfl
  · exact agree_not (by omega) (by omega)

theorem bestLag_not {b : List Bool} {n : ℕ} (hn : n ≤ b.length) (max_p : ℕ) :
    bestLag (b.map not) n max_p = bestLag b n max_p := by
  unfold bestLag
  simp only [agree_lag_not hn]

theorem descend_not {b : List Bool} {n : ℕ} (hn : n ≤ b.length) (best : ℕ) (best_a : ℚ) (e : ℕ) :
    descend (b.map not) n best best_a e = descend b n best best_a e := by
  induction best, best_a, e using descend.induct b n with
  | case1 best best_a e hle cand a hdown ih =>
    rw [descend_eq (b.map not), descend_eq b n best, if_pos hle, if_pos hle, agree_lag_not hn,
      if_pos hdown, if_pos hdown]
    exact ih
  | case2 best best_a e hle cand a hnot ih =>
    rw [descend_eq (b.map not), descend_eq b n best, if_pos hle, if_pos hle, agree_lag_not hn,
      if_neg hnot, if_neg hnot]
    exact ih
  | case3 best best_a e hgt =>
    rw [descend_eq (b.map not), descend_eq b, if_neg hgt, if_neg hgt]

theorem findPeriod_not (b : List Bool) : findPeriod (b.map not) = findPeriod b := by
  unfold findPeriod
  simp only [intSize_not, bestLag_not (toNat_intSize_le b), descend_not (toNat_intSize_le b)]

theorem stable_not {b : List Bool} {L nf : ℕ} (h : nf * L ≤ b.length) :
    stable (b.map not) L nf = stable b L nf := by
  refine List.foldl_ext _ _ _ fun st f hf => List.map_congr_left fun i hi => ?_
  obtain ⟨hf1, hf2⟩ := List.mem_range'_1.1 hf
  have hiL := List.mem_range.1 hi
  have hfL : f * L + L ≤ nf * L := by
    rw [← Nat.succ_mul]
    exact Nat.mul_le_mul_right L (by omega)
  have hne : ∀ x y : Bool, ((!x) != !y) = (x != y) := by decide
  rw [getD_not (by omega), getD_not (by omega), hne]

theorem countReps_not {b : List Bool} {n u : ℕ} (hn : n ≤ b.length) (hu : 0 < u) (reps : ℕ) :
    countReps (b.map not) n u hu reps = countReps b n u hu reps := by
  have hstep : ∀ reps, (reps + 1) * u ≤ n →
      agree (b.map not) 0 (reps * u) u = agree b 0 (reps * u) u := by
    intro reps hle
    rw [Nat.succ_mul] at hle
    exact agree_not (by omega) (by omega)
  induction reps using countReps.induct b n u hu with
  | case1 reps hmore ih =>
    rw [countReps_eq (b.map not), countReps_eq b n u hu reps, hstep reps hmore.1, if_pos hmore,
      if_pos hmore, ih]
  | case2 reps hstop =>
    have hstop' : ¬((reps + 1) * u ≤ n ∧ agree (b.map not) 0 (reps * u) u = 1) := by
      rintro ⟨hle, heq⟩
      exact hstop ⟨hle, (hstep reps hle).symm.trans heq⟩
    rw [countReps_eq (b.map not), countReps_eq b, if_neg hstop, if_neg hstop']

/-- The preamble of the other polarity. -/
def Preamble.complement (p : Preamble) : Preamble :=
  { p with pat := ~~~p.pat &&& ones 32 p.unit }

theorem tryUnit_not {b : List Bool} {n : ℕ} (hn : n ≤ b.length) (out : Preamble) {k : ℕ}
    (hk : k + 1 ≤ n) (h32 : k + 1 ≤ 32) :
    tryUnit (b.map not) n out.complement k = (tryUnit b n out k).complement := by
  have hvaries : ((List.range' 1 (k + 1 - 1)).any fun i =>
        (b.map not).getD i false != (b.map not).getD 0 false) =
      (List.range' 1 (k + 1 - 1)).any fun i => b.getD i false != b.getD 0 false := by
    have hne : ∀ x y : Bool, ((!x) != !y) = (x != y) := by decide
    rw [Bool.eq_iff_iff, List.any_eq_true, List.any_eq_true]
    refine exists_congr fun i => and_congr_right fun hi => ?_
    obtain ⟨-, hlt⟩ := List.mem_range'_1.1 hi
    rw [getD_not (by omega), getD_not (by omega), hne]
  have hpat : ((List.range (min (k + 1) 32)).map fun i => (b.map not).getD i false) =
      ((List.range (min (k + 1) 32)).map fun i => b.getD i false).map not := by
    rw [List.map_map]
    refine List.map_congr_left fun i hi => ?_
    have hlt := List.mem_range.1 hi
    exact getD_not (by omega)
  have hlen : out.complement.len = out.len := rfl
  unfold tryUnit
  dsimp only
  rw [countReps_not hn, hvaries, hpat, pack_not, hlen]
  split_ifs
  · rfl
  · rfl
  · simp [Preamble.complement, Nat.min_eq_left h32]
  · rfl

theorem foldl_tryUnit_not {b : List Bool} {n : ℕ} (hn : n ≤ b.length) (units : List ℕ)
    (hall : ∀ k ∈ units, k + 1 ≤ n ∧ k + 1 ≤ 32) (out : Preamble) :
    units.foldl (tryUnit (b.map not) n) out.complement =
      (units.foldl (tryUnit b n) out).complement := by
  induction units generalizing out with
  | nil => rfl
  | cons k units ih =>
    obtain ⟨hk, h32⟩ := hall k List.mem_cons_self
    rw [List.foldl_cons, List.foldl_cons, tryUnit_not hn out hk h32]
    exact ih (fun j hj => hall j (List.mem_cons_of_mem k hj)) _

theorem findPreamble_not (b : List Bool) :
    findPreamble (b.map not) = (findPreamble b).complement := by
  have hnone : (⟨0, 0, 0⟩ : Preamble).complement = ⟨0, 0, 0⟩ := by
    simp [Preamble.complement, ones]
  have hunits : ∀ k ∈ (List.range PRE_UNIT_MAX).takeWhile
      (fun k => (k + 1) * PRE_MIN_REPS ≤ (intSize b).toNat),
      k + 1 ≤ (intSize b).toNat ∧ k + 1 ≤ 32 := by
    intro k hk
    have hfits := List.mem_takeWhile_imp hk
    have hlt := List.mem_range.1 ((List.takeWhile_prefix _).subset hk)
    unfold PRE_MIN_REPS at hfits
    unfold PRE_UNIT_MAX at hlt
    rw [decide_eq_true_eq] at hfits
    omega
  have hout := foldl_tryUnit_not (toNat_intSize_le b) _ hunits ⟨0, 0, 0⟩
  rw [hnone] at hout
  unfold findPreamble
  dsimp only
  rw [intSize_not, hout]
  have hunit : ∀ p : Preamble, p.complement.unit = p.unit := fun _ => rfl
  rw [hunit]
  split_ifs
  · exact hnone.symm
  · exact hnone.symm
  · rfl

/-! ## The sync word -/

theorem compareFrame_iff (b : List Bool) {L i : ℕ} (hi : i < L) (st : List Bool) (f : ℕ) :
    (compareFrame b L st f).getD i false = true ↔
      b.getD (f * L + i) false = b.getD i false ∧ st.getD i false = true := by
  rw [compareFrame, List.getD_eq_getElem?_getD, List.getElem?_map, List.getElem?_range hi,
    Option.map_some, Option.getD_some]
  split_ifs with hne
  · exact ⟨fun h => absurd h (by decide), fun h => absurd h.1 (bne_iff_ne.1 hne)⟩
  · have heq : b.getD (f * L + i) false = b.getD i false := by
      by_contra h
      exact hne (bne_iff_ne.2 h)
    exact ⟨fun h => ⟨heq, h⟩, fun h => h.2⟩

theorem foldl_compareFrame_iff (b : List Bool) {L i : ℕ} (hi : i < L) (frames : List ℕ)
    (st : List Bool) :
    (frames.foldl (compareFrame b L) st).getD i false = true ↔
      (∀ f ∈ frames, b.getD (f * L + i) false = b.getD i false) ∧ st.getD i false = true := by
  induction frames generalizing st with
  | nil => simp
  | cons f frames ih =>
    rw [List.foldl_cons, ih, compareFrame_iff b hi, List.forall_mem_cons]
    tauto

theorem stable_iff (b : List Bool) {L nf i : ℕ} (hi : i < L) :
    (stable b L nf).getD i false = true ↔
      ∀ f < nf, b.getD (f * L + i) false = b.getD i false := by
  have hstart : (List.replicate L true).getD i false = true := by
    simp [List.getD_eq_getElem?_getD, hi]
  rw [stable, foldl_compareFrame_iff b hi, and_iff_left hstart]
  constructor
  · intro h f hf
    rcases Nat.eq_zero_or_pos f with rfl | hpos
    · rw [Nat.zero_mul, Nat.zero_add]
    · exact h f (List.mem_range'_1.2 ⟨hpos, by omega⟩)
  · intro h f hf
    obtain ⟨hpos, hlt⟩ := List.mem_range'_1.1 hf
    exact h f (by omega)

/-- What `find_sync` finds, if it finds anything. -/
structure Found (b : List Bool) (L skip nf off len : ℕ) (bits : BitVec 64) : Prop where
  after : skip ≤ off
  inside : off + len ≤ L
  long : SYNC_MIN ≤ len
  short : len ≤ 64
  bits_eq : bits = pack 64 ((List.range len).map fun i => b.getD (off + i) false)
  same : ∀ i < len, ∀ f < nf, b.getD (f * L + (off + i)) false = b.getD (off + i) false
  longest : ∀ a e, skip ≤ a → e ≤ L →
    (∀ i, a ≤ i → i < e → ∀ f < nf, b.getD (f * L + i) false = b.getD i false) →
    min (e - a) 64 ≤ len

theorem found_of_known {b : List Bool} {L skip nf : ℕ} {r : LongestRun}
    (h : LongestRun.Known (fun i => (stable b L nf).getD i false) skip L r)
    (hmin : SYNC_MIN ≤ r.best_len) {off len : ℕ} (hlen : len = min r.best_len 64)
    (hoff : (off : ℤ) = r.best_end - len + 1) :
    Found b L skip nf off len (pack 64 ((List.range len).map fun i => b.getD (off + i) false)) := by
  unfold SYNC_MIN at hmin
  obtain ⟨hlo, hhi⟩ := h.best_le (by omega)
  refine ⟨by omega, by omega, ?_, by omega, rfl, fun i hi f hf => ?_, fun a e ha he hall => ?_⟩
  · unfold SYNC_MIN
    omega
  · have hmark := h.best_holds (off + i) (by push_cast; omega) (by push_cast; omega)
    exact (stable_iff b (by omega)).1 hmark f hf
  · have hmost := h.best_most a e ha he fun j hj hlt =>
      (stable_iff b (by omega)).2 fun f hf => hall j hj hlt f hf
    omega

theorem pickSync_cases {b : List Bool} {L skip nf : ℕ} {r : LongestRun}
    (h : LongestRun.Known (fun i => (stable b L nf).getD i false) skip L r) :
    pickSync b r = (0, 0, 0) ∨
      ∃ off len bits, pickSync b r = (off, len, bits) ∧ Found b L skip nf off len bits := by
  unfold pickSync
  dsimp only
  split_ifs with hshort hcut
  · exact Or.inl rfl
  all_goals
    have hmin : SYNC_MIN ≤ r.best_len := not_lt.1 hshort
    have hle := h.best_le (by unfold SYNC_MIN at hmin; omega)
  · exact Or.inr ⟨_, _, _, rfl, found_of_known h hmin (by omega) (by omega)⟩
  · exact Or.inr ⟨_, _, _, rfl, found_of_known h hmin (by omega) (by omega)⟩

theorem findSync_cases (b : List Bool) {L skip : ℕ} (hskip : skip < L) :
    findSync b L skip = (0, 0, 0) ∨
      ∃ off len bits, findSync b L skip = (off, len, bits) ∧
        Found b L skip (intSize b / L).toNat off len bits := by
  unfold findSync
  dsimp only
  split_ifs with hfew
  · exact Or.inl rfl
  · exact pickSync_cases (LongestRun.known_scan _ hskip.le)

theorem frames_mul_le (b : List Bool) (L : ℕ) : (intSize b / L).toNat * L ≤ b.length := by
  have hsize := toNat_intSize_le b
  generalize intSize b = n at hsize ⊢
  rcases n with n | n
  · have hdiv : ((n : ℤ) / (L : ℤ)).toNat = n / L := by
      rw [← Int.natCast_div, Int.toNat_natCast]
    rw [Int.ofNat_eq_natCast, hdiv]
    exact (Nat.div_mul_le_self n L).trans hsize
  · rcases Nat.eq_zero_or_pos L with rfl | hL
    · simp
    · have hneg : Int.negSucc n / (L : ℤ) < 0 :=
        Int.ediv_neg_of_neg_of_pos (Int.negSucc_lt_zero n) (by omega)
      rw [Int.toNat_of_nonpos hneg.le, Nat.zero_mul]
      exact Nat.zero_le _

/-- The sync word of the other polarity. -/
def complementSync (r : ℕ × ℕ × BitVec 64) : ℕ × ℕ × BitVec 64 :=
  (r.1, r.2.1, ~~~r.2.2 &&& ones 64 r.2.1)

theorem complementSync_zero : complementSync (0, 0, 0) = (0, 0, 0) := by
  simp [complementSync, ones]

theorem pickSync_not {b : List Bool} {L skip : ℕ} (hL : L ≤ b.length) {p : ℕ → Bool}
    {r : LongestRun} (h : LongestRun.Known p skip L r) :
    pickSync (b.map not) r = complementSync (pickSync b r) := by
  have hpack : ∀ off len, off + len ≤ L →
      pack 64 ((List.range len).map fun i => (b.map not).getD (off + i) false) =
        ~~~pack 64 ((List.range len).map fun i => b.getD (off + i) false) &&& ones 64 len := by
    intro off len hle
    have hmap : ((List.range len).map fun i => (b.map not).getD (off + i) false) =
        ((List.range len).map fun i => b.getD (off + i) false).map not := by
      rw [List.map_map]
      refine List.map_congr_left fun i hi => ?_
      have hlt := List.mem_range.1 hi
      exact getD_not (by omega)
    rw [hmap, pack_not, List.length_map, List.length_range]
  unfold pickSync
  dsimp only
  split_ifs with hshort hcut
  · exact complementSync_zero.symm
  all_goals
    have hmin : SYNC_MIN ≤ r.best_len := not_lt.1 hshort
    have hle := h.best_le (by unfold SYNC_MIN at hmin; omega)
    rw [hpack _ _ (by omega), complementSync]

theorem findSync_not (b : List Bool) {L skip : ℕ} (hskip : skip < L) :
    findSync (b.map not) L skip = complementSync (findSync b L skip) := by
  have hframes := frames_mul_le b L
  unfold findSync
  dsimp only
  rw [intSize_not, stable_not hframes]
  split_ifs with hfew
  · exact complementSync_zero.symm
  · have hmany : 1 ≤ (intSize b / L).toNat := by
      unfold MIN_FRAMES at hfew
      omega
    have hL : L ≤ b.length := (Nat.le_mul_of_pos_left L hmany).trans hframes
    exact pickSync_not hL (LongestRun.known_scan _ hskip.le)

/-! ## The whole analysis -/

/-- The result for the other polarity: what is complemented is the values, on their lengths. -/
def Result.complement (r : Result) : Result :=
  { r with
    preamble_pat := ~~~r.preamble_pat &&& ones 32 r.preamble_unit
    sync_bits := ~~~r.sync_bits &&& ones 64 r.sync_len }

theorem complement_empty : Result.empty.complement = Result.empty := by
  simp [Result.complement, Result.empty, ones]

theorem complement_ofPeriod (pre : Preamble) (per : ℕ × ℚ) :
    (Result.ofPeriod pre per).complement = Result.ofPeriod pre.complement per := by
  have hsync := congrArg Result.sync_bits complement_empty
  unfold Result.complement Result.ofPeriod
  exact congrArg (fun bits => { Result.ofPeriod pre.complement per with sync_bits := bits }) hsync

theorem complement_addSync (r : Result) (n : ℤ) (sync : ℕ × ℕ × BitVec 64) :
    (r.addSync n sync).complement = r.complement.addSync n (complementSync sync) := rfl

theorem analyze_not (b : List Bool) : analyze (b.map not) = (analyze b).complement := by
  have hlen : (b.map not).length = b.length := List.length_map not
  have hpre : ∀ r : Result, r.complement.preamble_len = r.preamble_len := fun _ => rfl
  have hper : ∀ r : Result, r.complement.period = r.period := fun _ => rfl
  unfold analyze
  simp only [hlen, findPreamble_not, findPeriod_not, intSize_not, ← complement_ofPeriod]
  generalize Result.ofPeriod (findPreamble b) (findPeriod b) = r
  rw [hpre, hper]
  split_ifs with hshort hnone
  · exact complement_empty.symm
  · rfl
  · rw [complement_addSync, findSync_not b (by omega)]

/-- A bit of the frame is the same in all whole frames. -/
def FrameConstant (b : List Bool) (r : Result) (i : ℕ) : Prop :=
  ∀ f < r.frames, b[f * r.period + i]? = b[i]?

/-- What a sync word is reported for. -/
structure SyncSound (b : List Bool) (r : Result) : Prop where
  after : r.preamble_len ≤ r.sync_off
  inside : r.sync_off + r.sync_len ≤ r.period
  long : 8 ≤ r.sync_len
  frames_eq : b.length < 2 ^ 31 → r.frames = b.length / r.period
  carried : ∀ f < r.frames, ∀ i < r.sync_len, b[f * r.period + (r.sync_off + i)]? =
    some (r.sync_bits.getLsbD (r.sync_len - 1 - i))
  longest : ∀ a e, r.preamble_len ≤ a → e ≤ r.period →
    (∀ i, a ≤ i → i < e → FrameConstant b r i) → min (e - a) 64 ≤ r.sync_len

theorem intSize_of_lt {b : List Bool} (h : b.length < 2 ^ 31) : intSize b = b.length := by
  unfold intSize Int.bmod
  dsimp only
  split_ifs <;> omega

theorem getElem?_of_lt {b : List Bool} {i : ℕ} (h : i < b.length) :
    b[i]? = some (b.getD i false) := by
  rw [List.getD_eq_getElem?_getD, List.getElem?_eq_getElem h]
  rfl

theorem sound_of_found {b : List Bool} {r : Result} {n : ℤ} {off len : ℕ} {bits : BitVec 64}
    (hsize : b.length < 2 ^ 31 → n = b.length)
    (hframes : (n / r.period).toNat * r.period ≤ b.length)
    (hfound : Found b r.period (min r.preamble_len (r.period - 1)) (n / r.period).toNat off len
      bits) :
    SyncSound b (r.addSync n (off, len, bits)) := by
  obtain ⟨hafter, hinside, hlong, hshort, hbits, hsame, hlongest⟩ := hfound
  unfold SYNC_MIN at hlong
  -- there is room for the sync word, so all of the preamble was skipped
  have hskip : min r.preamble_len (r.period - 1) = r.preamble_len := by omega
  rw [hskip] at hafter hlongest
  have hin : ∀ f < (n / r.period).toNat, ∀ i < r.period, f * r.period + i < b.length := by
    intro f hf i hi
    have hle : f * r.period + r.period ≤ (n / r.period).toNat * r.period := by
      rw [← Nat.succ_mul]
      exact Nat.mul_le_mul_right _ hf
    omega
  refine ⟨hafter, hinside, hlong, fun hsmall => ?_, fun f hf i hi => ?_,
    fun a e ha he hall => hlongest a e ha he fun i hai hie f hf => ?_⟩
  · change (n / (r.period : ℤ)).toNat = b.length / r.period
    rw [hsize hsmall, ← Int.natCast_div, Int.toNat_natCast]
  · change f < (n / r.period).toNat at hf
    change i < len at hi
    change b[f * r.period + (off + i)]? = some (bits.getLsbD (len - 1 - i))
    rw [getElem?_of_lt (hin f hf _ (by omega)), hsame i hi f hf, hbits,
      getLsbD_pack_map_range hshort hi]
  · change r.preamble_len ≤ a at ha
    change e ≤ r.period at he
    have hfirst := hin 0 (by omega) i (by omega)
    rw [Nat.zero_mul, Nat.zero_add] at hfirst
    have heq : b[f * r.period + i]? = b[i]? := hall i hai hie f hf
    rw [getElem?_of_lt (hin f hf i (by omega)), getElem?_of_lt hfirst] at heq
    exact Option.some.inj heq

theorem sync_sound (b : List Bool) (h : (analyze b).sync_len ≠ 0) : SyncSound b (analyze b) := by
  unfold analyze at h ⊢
  dsimp only at h ⊢
  have hnosync : (Result.ofPeriod (findPreamble b) (findPeriod b)).sync_len = 0 := rfl
  generalize Result.ofPeriod (findPreamble b) (findPeriod b) = r at h hnosync ⊢
  split_ifs at h ⊢ with hshort hnone
  · exact absurd rfl h
  · exact absurd hnosync h
  · rcases findSync_cases b (show min r.preamble_len (r.period - 1) < r.period by omega) with
      hfind | ⟨off, len, bits, hfind, hfound⟩
    · rw [hfind] at h
      exact absurd rfl h
    · rw [hfind]
      exact sound_of_found intSize_of_lt (frames_mul_le b r.period) hfound

/-- The analysis does not depend on the polarity, and is sound. -/
theorem analyze_spec (b : List Bool) :
    analyze (b.map not) = (analyze b).complement ∧
      ((analyze b).sync_len ≠ 0 → SyncSound b (analyze b)) :=
  ⟨analyze_not b, sync_sound b⟩

end Bewe.Frame
