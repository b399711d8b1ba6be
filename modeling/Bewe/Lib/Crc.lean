import Mathlib

/-!
# Cyclic checks

The remainder of a byte string by a generator polynomial, most significant bit first, in a shift
register of `n` bits. It is linear in exclusive or (`crcBytes_xor`), so a flipped bit adds a remainder
of its own, its syndrome, whatever the bytes are (`crcBytes_flipBit`). A table from syndromes to the
bits finds the one that was flipped if the syndromes are different. A byte may go in by a table as
well (`crcByte_eq_table`), and a generator with a constant term loses nothing of the register that a
check starts from (`foldl_crcByte_injective`).
-/

namespace Lib

/-! ## Bytes -/

/-- A byte string with bit `p` flipped, counted from the most significant bit of the first byte. -/
def flipBit (bs : List UInt8) (p : ℕ) : List UInt8 :=
  bs.modify (p / 8) (· ^^^ (0x80 >>> UInt8.ofNat (p % 8)))

@[simp] theorem length_flipBit (bs : List UInt8) (p : ℕ) : (flipBit bs p).length = bs.length :=
  List.length_modify _ _ _

theorem flipBit_flipBit (bs : List UInt8) (p : ℕ) : flipBit (flipBit bs p) p = bs := by
  refine List.ext_getElem? fun i => ?_
  rw [flipBit, flipBit, List.getElem?_modify, List.getElem?_modify]
  cases bs[i]? with
  | none => rfl
  | some b =>
    simp only [Option.map_eq_map, Option.map_some]
    split_ifs
    · rw [UInt8.xor_assoc, UInt8.xor_self, UInt8.xor_zero]
    · rfl

/-- The exclusive or of two byte strings. -/
def xorBytes (a b : List UInt8) : List UInt8 := List.zipWith (· ^^^ ·) a b

theorem flipBit_eq_xorBytes (bs : List UInt8) (p : ℕ) :
    flipBit bs p = xorBytes bs (flipBit (List.replicate bs.length 0) p) := by
  refine List.ext_getElem? fun i => ?_
  rw [flipBit, flipBit, xorBytes, List.getElem?_zipWith, List.getElem?_modify,
    List.getElem?_modify, List.getElem?_replicate]
  rcases lt_or_ge i bs.length with hi | hi
  · rw [if_pos hi, List.getElem?_eq_getElem hi]
    simp only [Option.map_eq_map, Option.map_some]
    split_ifs
    · rw [UInt8.zero_xor]
    · rw [UInt8.xor_zero]
  · rw [List.getElem?_eq_none hi]
    rfl

/-! ## The register -/

section

variable {n : ℕ} (poly : BitVec n)

/-- A shift of the register. -/
def crcStep (r : BitVec n) : BitVec n := if r.msb then (r <<< 1) ^^^ poly else r <<< 1

/-- A byte goes in at the top. -/
def crcByte (r : BitVec n) (b : UInt8) : BitVec n :=
  (crcStep poly)^[8] (r ^^^ (b.toBitVec.setWidth n <<< (n - 8)))

/-- The remainder of a byte string. -/
def crcBytes (bs : List UInt8) : BitVec n := bs.foldl (crcByte poly) 0

theorem xor_xor_xor_cancel (a b p : BitVec n) : a ^^^ p ^^^ (b ^^^ p) = a ^^^ b := by
  rw [BitVec.xor_comm b p, ← BitVec.xor_assoc, BitVec.xor_assoc a, BitVec.xor_self, BitVec.xor_zero]

theorem xor_xor_xor_comm (a b c d : BitVec n) : a ^^^ b ^^^ (c ^^^ d) = a ^^^ c ^^^ (b ^^^ d) := by
  rw [BitVec.xor_assoc, ← BitVec.xor_assoc b, BitVec.xor_comm b c, BitVec.xor_assoc c,
    ← BitVec.xor_assoc]

theorem crcStep_xor (a b : BitVec n) :
    crcStep poly (a ^^^ b) = crcStep poly a ^^^ crcStep poly b := by
  simp only [crcStep, BitVec.msb_xor, BitVec.shiftLeft_xor_distrib]
  cases a.msb with
  | false =>
    cases b.msb with
    | false => rfl
    | true => exact BitVec.xor_assoc _ _ _
  | true =>
    cases b.msb with
    | false =>
      show (a <<< 1 ^^^ b <<< 1) ^^^ poly = (a <<< 1 ^^^ poly) ^^^ b <<< 1
      rw [BitVec.xor_assoc, BitVec.xor_assoc, BitVec.xor_comm (b <<< 1)]
    | true => exact (xor_xor_xor_cancel _ _ _).symm

theorem crcSteps_xor (k : ℕ) (a b : BitVec n) :
    (crcStep poly)^[k] (a ^^^ b) = (crcStep poly)^[k] a ^^^ (crcStep poly)^[k] b := by
  induction k generalizing a b with
  | zero => rfl
  | succ k ih => rw [Function.iterate_succ_apply, crcStep_xor, ih]; rfl

theorem crcByte_xor (r r' : BitVec n) (b b' : UInt8) :
    crcByte poly (r ^^^ r') (b ^^^ b') = crcByte poly r b ^^^ crcByte poly r' b' := by
  have hbyte : (b ^^^ b').toBitVec.setWidth n <<< (n - 8) =
      b.toBitVec.setWidth n <<< (n - 8) ^^^ b'.toBitVec.setWidth n <<< (n - 8) := by
    rw [UInt8.toBitVec_xor, BitVec.setWidth_xor, BitVec.shiftLeft_xor_distrib]
  rw [crcByte, hbyte, xor_xor_xor_comm, crcSteps_xor]
  rfl

theorem foldl_crcByte_xor {a b : List UInt8} (h : a.length = b.length) (r r' : BitVec n) :
    (xorBytes a b).foldl (crcByte poly) (r ^^^ r') =
      a.foldl (crcByte poly) r ^^^ b.foldl (crcByte poly) r' := by
  induction a generalizing b r r' with
  | nil =>
    cases b with
    | nil => rfl
    | cons y b => cases h
  | cons x a ih =>
    cases b with
    | nil => cases h
    | cons y b =>
      rw [xorBytes, List.zipWith_cons_cons, List.foldl_cons, crcByte_xor]
      exact ih (Nat.succ.inj h) _ _

theorem crcBytes_xor {a b : List UInt8} (h : a.length = b.length) :
    crcBytes poly (xorBytes a b) = crcBytes poly a ^^^ crcBytes poly b := by
  have hlinear := foldl_crcByte_xor poly h 0 0
  rwa [show (0 : BitVec n) ^^^ 0 = 0 from BitVec.xor_self] at hlinear

/-! ## The register that a check starts from -/

/-- The lowest bit of the register is the bit that was shifted out, if the generator has a constant
term. -/
theorem getLsbD_zero_crcStep (hpoly : poly.getLsbD 0 = true) (r : BitVec n) :
    (crcStep poly r).getLsbD 0 = r.msb := by
  unfold crcStep
  cases r.msb <;> simp [hpoly]

/-- With a constant term no two registers are shifted to the same one. -/
theorem crcStep_injective (hpoly : poly.getLsbD 0 = true) :
    Function.Injective (crcStep poly) := by
  intro a b h
  have hmsb : a.msb = b.msb := by
    rw [← getLsbD_zero_crcStep poly hpoly a, h, getLsbD_zero_crcStep poly hpoly b]
  have hshift : a <<< 1 = b <<< 1 := by
    unfold crcStep at h
    rw [hmsb] at h
    cases hb : b.msb with
    | false => simpa [hb] using h
    | true => simpa [hb] using h
  refine BitVec.eq_of_getLsbD_eq fun i hi => ?_
  by_cases htop : i + 1 < n
  · have hbit := congrArg (·.getLsbD (i + 1)) hshift
    simpa only [BitVec.getLsbD_shiftLeft, htop, decide_true, Bool.true_and, Nat.add_sub_cancel,
      show ¬ i + 1 < 1 by omega, decide_false, Bool.not_false] using hbit
  · rw [BitVec.msb_eq_getLsbD_last, BitVec.msb_eq_getLsbD_last] at hmsb
    rwa [show i = n - 1 by omega]

theorem crcByte_injective (hpoly : poly.getLsbD 0 = true) (b : UInt8) :
    Function.Injective fun r => crcByte poly r b := by
  intro r r' h
  have hxor := (crcStep_injective poly hpoly).iterate 8 h
  exact (BitVec.xor_left_inj _).1 hxor

/-- The remainder of a byte string tells the register that it starts from. -/
theorem foldl_crcByte_injective (hpoly : poly.getLsbD 0 = true) (bs : List UInt8) :
    Function.Injective fun r => bs.foldl (crcByte poly) r := by
  induction bs with
  | nil => exact Function.injective_id
  | cons b bs ih => exact fun r r' h => crcByte_injective poly hpoly b (ih h)

theorem crcSteps_low (k : ℕ) {r : BitVec n} (h : r.toNat * 2 ^ k < 2 ^ n) :
    (crcStep poly)^[k] r = r <<< k := by
  induction k generalizing r with
  | zero => exact (BitVec.shiftLeft_zero r).symm
  | succ k ih =>
    have hpow : 2 * r.toNat * 2 ^ k = r.toNat * 2 ^ (k + 1) := by
      rw [Nat.pow_succ, Nat.mul_comm 2, Nat.mul_assoc, Nat.mul_comm 2]
    have hdouble : 2 * r.toNat < 2 ^ n := by
      refine lt_of_le_of_lt ?_ h
      rw [← hpow]
      exact Nat.le_mul_of_pos_right _ (Nat.two_pow_pos k)
    have hstep : crcStep poly r = r <<< 1 := by
      rw [crcStep, BitVec.msb_eq_false_iff_two_mul_lt.2 hdouble]
      rfl
    have htoNat : (r <<< 1).toNat = 2 * r.toNat := by
      rw [BitVec.toNat_shiftLeft, Nat.shiftLeft_eq, Nat.pow_one, Nat.mul_comm,
        Nat.mod_eq_of_lt hdouble]
    rw [Function.iterate_succ_apply, hstep, ih (by rw [htoNat, hpow]; exact h),
      ← BitVec.shiftLeft_add, Nat.add_comm]

/-- A byte goes in by a table: what eight shifts make of the byte that comes out, added to the
register without it. -/
theorem crcByte_eq_table (hn : 8 ≤ n) (r : BitVec n) (b : UInt8) :
    crcByte poly r b =
      (r <<< 8) ^^^ (crcStep poly)^[8] ((r >>> (n - 8) ^^^ b.toBitVec.setWidth n) <<< (n - 8)) := by
  have hlow : (r.setWidth (n - 8)).setWidth n <<< 8 = r <<< 8 := by
    refine BitVec.eq_of_getLsbD_eq fun i hi => ?_
    simp only [BitVec.getLsbD_shiftLeft, BitVec.getLsbD_setWidth]
    by_cases h8 : i < 8
    · simp [h8]
    · have h1 : i - 8 < n - 8 := by omega
      have h2 : i - 8 < n := by omega
      simp [h1, h2]
  have hsplit : r ^^^ b.toBitVec.setWidth n <<< (n - 8) =
      (r.setWidth (n - 8)).setWidth n ^^^
        (r >>> (n - 8) ^^^ b.toBitVec.setWidth n) <<< (n - 8) := by
    refine BitVec.eq_of_getLsbD_eq fun i hi => ?_
    simp only [BitVec.getLsbD_xor, BitVec.getLsbD_shiftLeft, BitVec.getLsbD_setWidth,
      BitVec.getLsbD_ushiftRight]
    by_cases htop : i < n - 8
    · simp [htop, hi]
    · rw [show n - 8 + (i - (n - 8)) = i by omega]
      simp [htop, hi]
  have hlt : ((r.setWidth (n - 8)).setWidth n).toNat * 2 ^ 8 < 2 ^ n := by
    have hr : ((r.setWidth (n - 8)).setWidth n).toNat < 2 ^ (n - 8) := by
      rw [BitVec.toNat_setWidth_of_le (by omega)]
      exact (r.setWidth (n - 8)).isLt
    calc ((r.setWidth (n - 8)).setWidth n).toNat * 2 ^ 8 < 2 ^ (n - 8) * 2 ^ 8 :=
          Nat.mul_lt_mul_of_pos_right hr (Nat.two_pow_pos 8)
      _ = 2 ^ n := by rw [← Nat.pow_add, Nat.sub_add_cancel hn]
  rw [crcByte, hsplit, crcSteps_xor, crcSteps_low poly 8 hlt, hlow]
/-! ## Syndromes -/

/-- The remainder of the `len` bytes that have bit `p` alone. -/
def syndrome (len p : ℕ) : BitVec n := crcBytes poly (flipBit (List.replicate len 0) p)

theorem crcBytes_flipBit (bs : List UInt8) (p : ℕ) :
    crcBytes poly (flipBit bs p) = crcBytes poly bs ^^^ syndrome poly bs.length p := by
  rw [flipBit_eq_xorBytes, crcBytes_xor _ (by rw [length_flipBit, List.length_replicate]), syndrome]

/-- The table of the syndromes of `len` bytes. -/
def syndromeTable (len : ℕ) : AList fun _ : BitVec n => ℕ :=
  (List.range (8 * len)).foldl (fun tab p => tab.insert (syndrome poly len p) p) ∅

theorem syndrome_of_lookup {len p : ℕ} {r : BitVec n}
    (h : (syndromeTable poly len).lookup r = some p) : p < 8 * len ∧ syndrome poly len p = r := by
  unfold syndromeTable at h
  generalize 8 * len = k at h ⊢
  induction k with
  | zero => cases h
  | succ k ih =>
    rw [List.range_succ, List.foldl_append, List.foldl_cons, List.foldl_nil] at h
    by_cases hr : r = syndrome poly len k
    · rw [hr, AList.lookup_insert, Option.some.injEq] at h
      exact ⟨by omega, by rw [hr, h]⟩
    · rw [AList.lookup_insert_ne hr] at h
      obtain ⟨hlt, heq⟩ := ih h
      exact ⟨by omega, heq⟩

theorem lookup_syndrome (len : ℕ) {p : ℕ} (hp : p < 8 * len)
    (hinj : ∀ q < 8 * len, syndrome poly len q = syndrome poly len p → q = p) :
    (syndromeTable poly len).lookup (syndrome poly len p) = some p := by
  unfold syndromeTable
  generalize 8 * len = k at hp hinj ⊢
  induction k with
  | zero => cases hp
  | succ k ih =>
    rw [List.range_succ, List.foldl_append, List.foldl_cons, List.foldl_nil]
    by_cases hr : syndrome poly len k = syndrome poly len p
    · rw [← hr, AList.lookup_insert, hinj k (by omega) hr]
    · have hpk : p ≠ k := fun h => hr (by rw [h])
      rw [AList.lookup_insert_ne (Ne.symm hr)]
      exact ih (by omega) fun q hq => hinj q (by omega)

end

/-! ## Parity -/

/-- Whether an odd number of bits are set. -/
def parity {n : ℕ} (r : BitVec n) : Bool :=
  (List.range n).foldl (fun acc i => acc ^^ r.getLsbD i) false

theorem parity_xor {n : ℕ} (a b : BitVec n) : parity (a ^^^ b) = (parity a ^^ parity b) := by
  unfold parity
  induction List.range n using List.reverseRecOn with
  | nil => rfl
  | append_singleton l i ih =>
    rw [List.foldl_append, List.foldl_append, List.foldl_append, ih]
    simp only [List.foldl_cons, List.foldl_nil, BitVec.getLsbD_xor]
    rw [Bool.xor_assoc, Bool.xor_assoc, Bool.xor_left_comm (a.getLsbD i)]

end Lib
