import Bewe.Lib.Hdlc
import Bewe.Text
import Bewe.Wifi.Viterbi

/-!
# The data field of a Wi-Fi frame

A transmitter of 802.11 puts 16 zeros before the octets of a PSDU and six behind them, scrambles the
bits, makes the six zeros again, encodes with the generators 133 and 171, and permutes the 48 code
bits of each symbol (`transmit`). `decode_buffer` of `modules/wifi/wifi_ofdm.hpp` undoes the
permutation, runs `Viterbi::decode`, descrambles, and puts the octets together (`decodeData`).

The receiver's register has the newest bit as least significant, where the generators are written
for the newest as most significant, so its trellis is that of another code; and it takes the first
seven bits for the scrambler's state before these bits and not after them. So a PSDU only comes back
where the two cancel. `recovered_iff` says which: the word whose code in that trellis is nearest to
the sent one must have the PSDU's bits under the sequence that begins with the word's own, seven
places on. With the seed 1 no beacon comes back (`beacon_ne`).
-/

namespace Bewe.Wifi

open Lib Lib.Hdlc

/-! ## The receiver -/

/-- The permutation of `demap`, over the equalized values of the 48 subcarriers. -/
def demap (mm : List ℤ) : List ℤ :=
  let sub := mm.map fun x => -x
  (List.range 48).map fun k => sub.getD (3 * (k % 16) + k / 16) 0

/-- The scrambler's state that is taken from the first bits. -/
def firstState (db : List Bool) : ℕ :=
  (List.range 7).foldl (fun scr i => scr ||| (db.getD i false).toNat <<< (6 - i)) 0

/-- The descrambling loop. -/
def descramble : ℕ → List Bool → List Bool
  | _, [] => []
  | scr, d :: db =>
    let fb := scr.testBit 6 ^^ scr.testBit 3
    (d ^^ fb) :: descramble ((scr <<< 1 ||| fb.toNat) &&& 0x7f) db

/-- The number of symbols, and of the bits that are decoded, for a length. -/
def nsym (len : ℕ) : ℕ := (16 + 8 * len + 6 + 23) / 24

@[inherit_doc nsym] def nbits (len : ℕ) : ℕ := 16 + 8 * len + 6

/-- An octet of `mp`. -/
def octetAt (dsb : List Bool) (B : ℕ) : UInt8 :=
  UInt8.ofNat ((List.range 8).foldl
    (fun v b => v ||| (dsb.getD (16 + B * 8 + b) false).toNat <<< b) 0)

/-- `decode_buffer` from the symbols of the data field on, up to the check sequence. -/
def decodeData (vit : Viterbi) (len : ℕ) (symbols : List (List ℤ)) : Viterbi × Bytes :=
  let cs := (List.range (nsym len)).flatMap fun s => demap (symbols.getD s [])
  let r := vit.decode cs (nbits len)
  let dsb := descramble (firstState r.2) r.2
  (r.1, (List.range len).map (octetAt dsb))

/-! ## The transmitter -/

/-- The scrambler `x^7 + x^4 + 1`. -/
def scramble : BitVec 7 → List Bool → List Bool
  | _, [] => []
  | x, d :: ds =>
    let fb := x.getLsbD 6 ^^ x.getLsbD 3
    (d ^^ fb) :: scramble ((x.concat fb).setWidth 7) ds

/-- The output of a generator for the inputs so far, the last one first; `place k` is the bit of the
generator for the input `k` places back. -/
def output (g : ℕ) (place : ℕ → ℕ) (past : List Bool) : Bool :=
  (List.range 7).foldl (fun c k => c ^^ (past.getD k false && g.testBit (place k))) false

/-- The generators 133 and 171, A then B, over inputs that come after others. -/
def encode (place : ℕ → ℕ) : List Bool → List Bool → List Bool
  | _, [] => []
  | past, b :: bs =>
    output 0o133 place (b :: past) :: output 0o171 place (b :: past) ::
      encode place (b :: past) bs

/-- The newest input is the most significant bit, as in the standard. -/
def newestHigh (k : ℕ) : ℕ := 6 - k

/-- The newest input is the least significant bit. -/
def newestLow (k : ℕ) : ℕ := k

/-- The bits that are encoded: zeros fill the last symbol, and the tail is not scrambled. -/
def message (seed : BitVec 7) (psdu : Bytes) : List Bool :=
  let scrambled := scramble seed (List.replicate 16 false ++ sent (psdu.map UInt8.toNat) ++
    List.replicate (24 * nsym psdu.length - (16 + 8 * psdu.length)) false)
  scrambled.take (16 + 8 * psdu.length) ++ List.replicate 6 false ++
    scrambled.drop (nbits psdu.length)

/-- The code bits of a message. -/
def coded (seed : BitVec 7) (psdu : Bytes) : List Bool := encode newestHigh [] (message seed psdu)

/-- Bit `k` of a symbol goes to subcarrier `3 * (k % 16) + k / 16`. -/
def interleave (c : List Bool) : List Bool :=
  (List.range 48).map fun i => c.getD (16 * (i % 3) + i / 3) false

/-- The value of a subcarrier. -/
def bpsk (bit : Bool) : ℤ := if bit then 1 else -1

/-- The symbols of a PSDU, as they are equalized without noise. -/
def transmit (seed : BitVec 7) (psdu : Bytes) : List (List ℤ) :=
  (List.range (nsym psdu.length)).map fun s =>
    (interleave (((coded seed psdu).drop (48 * s)).take 48)).map bpsk

/-! ## Permutation -/

/-- The soft bit of a code bit. -/
def softOf (bit : Bool) : ℤ := if bit then -1 else 1

theorem demap_interleave (c : List Bool) (hc : c.length = 48) :
    demap ((interleave c).map bpsk) = c.map softOf := by
  have hneg : ∀ bit, -bpsk bit = softOf bit := by decide
  refine List.ext_getElem (by simp [demap, hc]) fun k hk₁ hk₂ => ?_
  have hk : k < c.length := by simpa using hk₂
  have hi : 3 * (k % 16) + k / 16 < 48 := by omega
  have hback : 16 * ((3 * (k % 16) + k / 16) % 3) + (3 * (k % 16) + k / 16) / 3 = k := by omega
  simp only [demap, interleave, List.getElem_map, List.getElem_range, List.map_map]
  generalize 3 * (k % 16) + k / 16 = i at hi hback
  rw [List.getD_eq_getElem _ _ (by simpa using hi)]
  simp only [List.getElem_map, List.getElem_range, Function.comp_apply]
  rw [hback, List.getD_eq_getElem _ _ hk]
  exact hneg _

theorem flatMap_take_drop {α : Type*} (l : List α) (n : ℕ) (h : l.length = 48 * n) :
    (List.range n).flatMap (fun s => (l.drop (48 * s)).take 48) = l := by
  have haux : ∀ k, k ≤ n → (List.range k).flatMap (fun s => (l.drop (48 * s)).take 48) =
      l.take (48 * k) := by
    intro k hk
    induction k with
    | zero => simp
    | succ k ih =>
      rw [List.range_succ, List.flatMap_append, ih (by omega), List.flatMap_singleton,
        Nat.mul_succ, List.take_add]
  rw [haux n le_rfl, List.take_of_length_le h.le]

@[simp]
theorem length_scramble (x : BitVec 7) (d : List Bool) : (scramble x d).length = d.length := by
  induction d generalizing x with
  | nil => rfl
  | cons b d ih => rw [scramble, List.length_cons, List.length_cons, ih]

@[simp]
theorem length_encode (place : ℕ → ℕ) (past w : List Bool) :
    (encode place past w).length = 2 * w.length := by
  induction w generalizing past with
  | nil => rfl
  | cons b w ih =>
    rw [encode, List.length_cons, List.length_cons, ih, List.length_cons]
    omega

theorem length_message (seed : BitVec 7) (psdu : Bytes) :
    (message seed psdu).length = 24 * nsym psdu.length := by
  have hn : nbits psdu.length ≤ 24 * nsym psdu.length := by
    unfold nbits nsym
    omega
  unfold nbits at hn
  simp [message, length_sent, nbits]
  omega

theorem length_coded (seed : BitVec 7) (psdu : Bytes) :
    (coded seed psdu).length = 48 * nsym psdu.length := by
  rw [coded, length_encode, length_message]
  omega

theorem flatMap_demap_transmit (seed : BitVec 7) (psdu : Bytes) :
    (List.range (nsym psdu.length)).flatMap (fun s => demap ((transmit seed psdu).getD s [])) =
      (coded seed psdu).map softOf := by
  have hblock : ∀ s ∈ List.range (nsym psdu.length),
      demap ((transmit seed psdu).getD s []) =
        (((coded seed psdu).drop (48 * s)).take 48).map softOf := by
    intro s hs
    have hlt := List.mem_range.mp hs
    have hlen : (((coded seed psdu).drop (48 * s)).take 48).length = 48 := by
      rw [List.length_take, List.length_drop, length_coded]
      omega
    rw [← demap_interleave _ hlen]
    simp [transmit, List.getD_eq_getElem?_getD, hlt]
  rw [List.flatMap_congr hblock, ← List.map_flatMap, flatMap_take_drop _ _ (length_coded seed psdu)]

/-! ## The code of the receiver's trellis -/

/-- The number of places in which a list of bits differs from another. -/
def distance (x y : List Bool) : ℕ :=
  (List.range x.length).countP fun j => x.getD j false != y.getD j false

/-- A word with a tail of zeros. -/
def flushed (v : List Bool) : List Bool := v ++ List.replicate 6 false

/-- In how many places the code of a word in the receiver's trellis differs from a code that is
received. -/
def errors (c v : List Bool) : ℕ := distance (encode newestLow [] (flushed v)) c

/-- No word as long has fewer errors, and of those that have as many this is the first when they are
compared from the last bit on. -/
def Nearest (c v : List Bool) : Prop :=
  ∀ u : List Bool, u.length = v.length → u ≠ v →
    errors c v < errors c u ∨ errors c v = errors c u ∧ v.reverse < u.reverse

theorem Nearest.unique {c v u : List Bool} (hv : Nearest c v) (hu : Nearest c u)
    (hlen : u.length = v.length) : u = v := by
  by_contra hne
  rcases hv u hlen hne with h | ⟨h, hlt⟩ <;> rcases hu v hlen.symm (Ne.symm hne) with h' | ⟨h', hgt⟩
  · omega
  · omega
  · omega
  · exact absurd hgt hlt.not_gt

theorem distance_append (x y : List Bool) (a b : Bool) :
    distance (x ++ [a, b]) y = distance x y + (a != y.getD x.length false).toNat +
      (b != y.getD (x.length + 1) false).toNat := by
  have hpre : (List.range x.length).countP
      (fun j => (x ++ [a, b]).getD j false != y.getD j false) = distance x y := by
    unfold distance
    refine List.countP_congr fun j hj => ?_
    rw [List.getD_append _ _ _ _ (List.mem_range.mp hj)]
  unfold distance at hpre ⊢
  rw [List.length_append, List.length_cons, List.length_singleton, List.range_succ, List.range_succ,
    List.countP_append, List.countP_append, hpre]
  simp only [List.countP_cons, List.countP_nil]
  rw [List.getD_append_right _ _ _ _ le_rfl, List.getD_append_right _ _ _ _ (Nat.le_succ _)]
  have hbit : ∀ p q : Bool, (if p = q then 0 else 1) = (p != q).toNat := by decide
  simp [hbit]

theorem encode_append (place : ℕ → ℕ) (past x y : List Bool) :
    encode place past (x ++ y) = encode place past x ++ encode place (x.reverse ++ past) y := by
  induction x generalizing past with
  | nil => rfl
  | cons b x ih => simp [encode, ih]

/-- The outputs of the trellis are those of the generators with the newest bit as least
significant. -/
theorem output_newestLow (soft : List ℤ) (g : ℕ) (w : List Bool) (bit : Bool) :
    output g newestLow (bit :: w) = par (reg ((trellis soft).state w) bit &&& g) := by
  unfold output par
  refine List.foldl_ext _ _ _ fun c k hk => ?_
  have hk7 := List.mem_range.mp hk
  rw [Nat.testBit_and, testBit_reg, newestLow]
  rcases k with _ | k
  · simp
  · rw [if_neg (Nat.succ_ne_zero k), Nat.add_sub_cancel, testBit_state soft w (by omega)]
    simp

theorem branch_softOf (x y : Bool) (s : Fin NS) (bit : Bool) :
    branch (softOf x) (softOf y) s bit =
      2 * ((o0 s bit != x).toNat + (o1 s bit != y).toNat : ℤ) - 2 := by
  unfold branch softOf
  cases o0 s bit <;> cases o1 s bit <;> cases x <;> cases y <;> decide

theorem metric_eq (c w : List Bool) (hlen : 2 * w.length ≤ c.length) :
    (trellis (c.map softOf)).metric w =
      2 * (distance (encode newestLow [] w.reverse) c : ℤ) - 2 * w.length := by
  have hsoft : ∀ j < c.length, (c.map softOf).getD j 0 = softOf (c.getD j false) := by
    intro j hj
    simp [List.getD_eq_getElem?_getD, hj]
  induction w with
  | nil => simp [Trellis.metric, distance, encode]
  | cons bit w ih =>
    rw [List.length_cons] at hlen
    have hcost : (trellis (c.map softOf)).cost w.length =
        branch (softOf (c.getD (2 * w.length) false))
          (softOf (c.getD (2 * w.length + 1) false)) := by
      rw [← hsoft _ (by omega), ← hsoft _ (by omega)]
      rfl
    have hcode : encode newestLow [] (bit :: w).reverse = encode newestLow [] w.reverse ++
        [o0 ((trellis (c.map softOf)).state w) bit, o1 ((trellis (c.map softOf)).state w) bit] := by
      rw [List.reverse_cons, encode_append]
      simp [encode, output_newestLow (c.map softOf), o0, o1]
    rw [Trellis.metric, ih (by omega), hcost, branch_softOf, hcode, distance_append, length_encode,
      List.length_reverse, List.length_cons]
    push_cast
    ring

theorem hard_map_softOf (c : List Bool) : Hard (c.map softOf) := by
  intro x hx
  obtain ⟨bit, -, rfl⟩ := List.mem_map.mp hx
  cases bit <;> decide

theorem length_flushed (v : List Bool) : (flushed v).length = v.length + 6 := by
  simp [flushed]

theorem exists_flushed (soft : List ℤ) (w : List Bool) (n : ℕ) (hlen : w.length = n + 6)
    (hw : (trellis soft).state w.reverse = 0) : ∃ v : List Bool, v.length = n ∧ w = flushed v := by
  refine ⟨w.take n, by simp [hlen], ?_⟩
  have htail : w.drop n = List.replicate 6 false := by
    refine List.eq_replicate_iff.mpr ⟨by simp [hlen], fun x hx => ?_⟩
    obtain ⟨k, hk, rfl⟩ := List.getElem_of_mem hx
    rw [List.length_drop, hlen] at hk
    have hbit := testBit_state soft w.reverse (k := 5 - k) (by omega)
    rw [hw, List.getD_eq_getElem?_getD, List.getElem?_reverse (by omega), hlen] at hbit
    rw [List.getElem_drop]
    have hk' : n + 6 - 1 - (5 - k) = n + k := by omega
    rw [hk', List.getElem?_eq_getElem (by omega)] at hbit
    simpa using hbit.symm
  rw [flushed, ← htail, List.take_append_drop]

theorem state_flushed (soft : List ℤ) (v : List Bool) :
    (trellis soft).state (flushed v).reverse = 0 :=
  eq_of_testBit fun k hk => by
    rw [testBit_state soft _ hk, flushed, List.reverse_append, List.reverse_replicate,
      List.getD_append _ _ _ _ (by simpa using hk), getD_zeros]
    simp

theorem flushed_reverse_lt (v u : List Bool) :
    (flushed v).reverse < (flushed u).reverse ↔ v.reverse < u.reverse := by
  simp [flushed, List.replicate]

theorem nearest_of_best {c v : List Bool} (hc : 2 * (v.length + 6) ≤ c.length)
    (h : (trellis (c.map softOf)).Best 0 (flushed v).reverse) : Nearest c v := by
  intro u hlen hne
  have hmetric : ∀ x : List Bool, x.length = v.length →
      (trellis (c.map softOf)).metric (flushed x).reverse =
        2 * (errors c x : ℤ) - 2 * (v.length + 6) := by
    intro x hx
    rw [metric_eq _ _ (by rw [List.length_reverse, length_flushed]; omega), List.reverse_reverse,
      List.length_reverse, length_flushed, hx, errors]
    push_cast
    ring
  have hne' : (flushed u).reverse ≠ (flushed v).reverse := fun heq =>
    hne (List.append_cancel_right (List.reverse_injective heq))
  have hleast := h.least (flushed u).reverse
    (by rw [List.length_reverse, List.length_reverse, length_flushed, length_flushed, hlen])
    (state_flushed _ u) hne'
  rw [hmetric v rfl, hmetric u hlen, flushed_reverse_lt] at hleast
  rcases hleast with hlt | ⟨heq, hlt⟩
  · left
    omega
  · exact Or.inr ⟨by omega, hlt⟩

theorem nearest_decode (vit : Viterbi) (c : List Bool) (n : ℕ) (hc : 2 * (n + 6) ≤ c.length) :
    ∃ v : List Bool, v.length = n ∧ (vit.decode (c.map softOf) (n + 6)).2 = flushed v ∧
      Nearest c v := by
  obtain ⟨hlen, hbest⟩ := best_decode vit (hard_map_softOf c) (n + 6)
  obtain ⟨v, hv, hflushed⟩ := exists_flushed _ _ n hlen hbest.leads
  rw [hflushed] at hbest
  exact ⟨v, hv, hflushed, nearest_of_best (by rw [hv]; exact hc) hbest⟩

/-! ## The scrambler's sequence -/

/-- The sequence of `x^7 + x^4 + 1` that begins with the first seven of some bits. -/
def sequence (first : List Bool) (n : ℕ) : Bool :=
  if n < 7 then first.getD n false else sequence first (n - 7) ^^ sequence first (n - 4)

theorem sequence_of_lt (first : List Bool) {n : ℕ} (hn : n < 7) :
    sequence first n = first.getD n false := by
  rw [sequence, if_pos hn]

theorem sequence_add_seven (first : List Bool) (n : ℕ) :
    sequence first (n + 7) = (sequence first n ^^ sequence first (n + 3)) := by
  rw [sequence, if_neg (by omega), Nat.add_sub_cancel, show n + 7 - 4 = n + 3 by omega]

theorem getD_descramble (first : List Bool) (scr j : ℕ)
    (hscr : ∀ k < 7, scr.testBit (6 - k) = sequence first (j + k)) (db : List Bool) (i : ℕ)
    (hi : i < db.length) :
    (descramble scr db).getD i false = (db.getD i false ^^ sequence first (j + i + 7)) := by
  induction db generalizing scr j i with
  | nil => simp at hi
  | cons d db ih =>
    have hfb : (scr.testBit 6 ^^ scr.testBit 3) = sequence first (j + 7) := by
      rw [sequence_add_seven, ← hscr 3 (by norm_num)]
      exact congrArg (· ^^ scr.testBit 3) (hscr 0 (by norm_num))
    rw [descramble, hfb]
    rcases i with _ | i
    · simp
    · rw [List.getD_cons_succ, List.getD_cons_succ, ih _ (j + 1) _ i (by simpa using hi)]
      · rw [show j + 1 + i = j + (i + 1) by omega]
      · intro k hk
        have hmask : ∀ i < 7, Nat.testBit 0x7f i = true := by decide
        rw [Nat.testBit_and, testBit_shiftIn, hmask _ (by omega), Bool.and_true]
        split_ifs with h0
        · rw [show j + 1 + k = j + 7 by omega]
        · rw [show 6 - k - 1 = 6 - (k + 1) by omega, hscr _ (by omega),
            show j + (k + 1) = j + 1 + k by omega]

theorem testBit_firstState (db : List Bool) {k : ℕ} (hk : k < 7) :
    (firstState db).testBit (6 - k) = db.getD k false := by
  have hrange : List.range 7 = [0, 1, 2, 3, 4, 5, 6] := rfl
  simp only [firstState, hrange, List.foldl_cons, List.foldl_nil, Nat.testBit_or,
    Nat.testBit_shiftLeft, Nat.testBit_bool_toNat]
  interval_cases k <;> simp

/-- The descrambled bits: the sequence that begins with the first bits themselves is taken seven
places on. -/
theorem getD_descramble_firstState (db v : List Bool)
    (hfirst : ∀ k < 7, db.getD k false = v.getD k false) {i : ℕ} (hi : i < db.length) :
    (descramble (firstState db) db).getD i false = (db.getD i false ^^ sequence v (i + 7)) := by
  have h := getD_descramble v (firstState db) 0 (fun k hk => by
    rw [testBit_firstState db hk, hfirst k hk, Nat.zero_add, sequence_of_lt v hk]) db i hi
  rwa [Nat.zero_add] at h

/-! ## Octets -/

theorem testBit_pack (f : ℕ → Bool) {i : ℕ} (hi : i < 8) :
    ((List.range 8).foldl (fun v b => v ||| (f b).toNat <<< b) 0).testBit i = f i := by
  have hrange : List.range 8 = [0, 1, 2, 3, 4, 5, 6, 7] := rfl
  simp only [hrange, List.foldl_cons, List.foldl_nil, Nat.testBit_or, Nat.testBit_shiftLeft,
    Nat.testBit_bool_toNat]
  interval_cases i <;> simp

theorem pack_lt (f : ℕ → Bool) :
    (List.range 8).foldl (fun v b => v ||| (f b).toNat <<< b) 0 < 2 ^ 8 := by
  have haux : ∀ (l : List ℕ) (v : ℕ), (∀ b ∈ l, b < 8) → v < 2 ^ 8 →
      l.foldl (fun v b => v ||| (f b).toNat <<< b) v < 2 ^ 8 := by
    intro l
    induction l with
    | nil => exact fun v _ hv => hv
    | cons b l ih =>
      intro v hl hv
      have hb : 2 ^ b < 2 ^ 8 := Nat.pow_lt_pow_right (by norm_num) (hl b List.mem_cons_self)
      have hshift : (f b).toNat <<< b < 2 ^ 8 := by
        rw [Nat.shiftLeft_eq]
        calc (f b).toNat * 2 ^ b ≤ 1 * 2 ^ b := Nat.mul_le_mul_right _ (Bool.toNat_le _)
          _ = 2 ^ b := Nat.one_mul _
          _ < 2 ^ 8 := hb
      exact ih _ (fun c hc => hl c (List.mem_cons_of_mem _ hc)) (Nat.or_lt_two_pow hv hshift)
  exact haux _ 0 (fun b hb => List.mem_range.mp hb) (by norm_num)

theorem octetAt_eq_iff (dsb : List Bool) (B : ℕ) (p : UInt8) :
    octetAt dsb B = p ↔ ∀ b < 8, dsb.getD (16 + (b + 8 * B)) false = p.toNat.testBit b := by
  have hval : octetAt dsb B = p ↔ (List.range 8).foldl
      (fun v b => v ||| (dsb.getD (16 + B * 8 + b) false).toNat <<< b) 0 = p.toNat := by
    have hlt := pack_lt fun b => dsb.getD (16 + B * 8 + b) false
    rw [octetAt, ← UInt8.toNat_inj, UInt8.toNat_ofNat', Nat.mod_eq_of_lt hlt]
  have hplace : ∀ b, 16 + B * 8 + b = 16 + (b + 8 * B) := fun b => by omega
  rw [hval]
  constructor
  · intro h b hb
    rw [← h, testBit_pack _ hb, hplace]
  · intro h
    refine Nat.eq_of_testBit_eq fun b => ?_
    rcases lt_or_ge b 8 with hb | hb
    · rw [testBit_pack _ hb, hplace, h b hb]
    · have hpow : (2 : ℕ) ^ 8 ≤ 2 ^ b := Nat.pow_le_pow_right (by norm_num) hb
      rw [Nat.testBit_lt_two_pow (lt_of_lt_of_le (pack_lt _) hpow),
        Nat.testBit_lt_two_pow (lt_of_lt_of_le p.toNat_lt hpow)]

theorem map_octetAt_eq_iff (dsb : List Bool) (psdu : Bytes) :
    (List.range psdu.length).map (octetAt dsb) = psdu ↔
      ∀ i < 8 * psdu.length,
        dsb.getD (16 + i) false = (sent (psdu.map UInt8.toNat)).getD i false := by
  have hsent : ∀ j (hj : j < psdu.length) (b : ℕ), b < 8 →
      (sent (psdu.map UInt8.toNat)).getD (b + 8 * j) false = psdu[j].toNat.testBit b := by
    intro j hj b hb
    have h := getD_sent (psdu.map UInt8.toNat) j b hb [] (by simpa using hj)
    have hget : (psdu.map UInt8.toNat).getD j 0 = psdu[j].toNat := by
      simp [List.getD_eq_getElem?_getD, hj]
    rwa [List.append_nil, hget] at h
  constructor
  · intro h i hi
    have hj : i / 8 < psdu.length := by omega
    have hoctet : octetAt dsb (i / 8) = psdu[i / 8] := by
      have hget := List.getElem_of_eq h (i := i / 8) (by simpa using hj)
      simpa using hget
    have hbit := (octetAt_eq_iff dsb (i / 8) _).mp hoctet (i % 8) (Nat.mod_lt _ (by norm_num))
    rw [← hsent _ hj _ (Nat.mod_lt _ (by norm_num)), Nat.mod_add_div] at hbit
    exact hbit
  · intro h
    refine List.ext_getElem (by simp) fun j hj₁ hj₂ => ?_
    rw [List.getElem_map, List.getElem_range, octetAt_eq_iff]
    intro b hb
    rw [h (b + 8 * j) (by omega), hsent j hj₂ b hb]

/-! ## What comes back -/

/-- A PSDU comes back when the word nearest to the sent code, in the trellis of the receiver, has
its bits under the sequence that begins with the word itself. -/
theorem recovered_iff (vit : Viterbi) (seed : BitVec 7) (psdu : Bytes) :
    (decodeData vit psdu.length (transmit seed psdu)).2 = psdu ↔
      ∃ v : List Bool, v.length = 16 + 8 * psdu.length ∧ Nearest (coded seed psdu) v ∧
        ∀ i < 8 * psdu.length, (v.getD (16 + i) false ^^ sequence v (23 + i)) =
          (sent (psdu.map UInt8.toNat)).getD i false := by
  obtain ⟨v, hlen, hdecode, hnear⟩ := nearest_decode vit (coded seed psdu) (16 + 8 * psdu.length)
    (by rw [length_coded, nsym]; omega)
  have hfirst : ∀ k < 16 + 8 * psdu.length, (flushed v).getD k false = v.getD k false :=
    fun k hk => List.getD_append _ _ _ _ (by omega)
  have hbits : ∀ i < 8 * psdu.length,
      (descramble (firstState (flushed v)) (flushed v)).getD (16 + i) false =
        (v.getD (16 + i) false ^^ sequence v (23 + i)) := by
    intro i hi
    rw [getD_descramble_firstState _ v (fun k hk => hfirst k (by omega))
      (by rw [length_flushed]; omega), hfirst _ (by omega), show 16 + i + 7 = 23 + i by omega]
  have hmp : (decodeData vit psdu.length (transmit seed psdu)).2 =
      (List.range psdu.length).map
        (octetAt (descramble (firstState (flushed v)) (flushed v))) := by
    rw [← hdecode, ← flatMap_demap_transmit]
    rfl
  rw [hmp, map_octetAt_eq_iff]
  constructor
  · intro h
    exact ⟨v, hlen, hnear, fun i hi => by rw [← hbits i hi, h i hi]⟩
  · rintro ⟨u, hulen, hunear, hu⟩ i hi
    obtain rfl := hnear.unique hunear (by omega)
    rw [hbits i hi, hu i hi]

/-- The octet 25 does come back, with the seed 1. -/
example : (decodeData ⟨[]⟩ 1 (transmit 1 [25])).2 = [25] := by
  unfold decodeData Viterbi.decode
  dsimp only
  rw [walkBack_forward_eq]
  decide +kernel

/-! ## Beacons with one seed -/

theorem take_scramble (x : BitVec 7) (d : List Bool) (n : ℕ) :
    (scramble x d).take n = scramble x (d.take n) := by
  induction d generalizing x n with
  | nil => simp [scramble]
  | cons b d ih =>
    rcases n with _ | n
    · rfl
    · rw [scramble, List.take_succ_cons, ih, List.take_succ_cons, scramble]

theorem take_descramble (scr : ℕ) (db : List Bool) (n : ℕ) :
    (descramble scr db).take n = descramble scr (db.take n) := by
  induction db generalizing scr n with
  | nil => simp [descramble]
  | cons d db ih =>
    rcases n with _ | n
    · rfl
    · rw [descramble, List.take_succ_cons, ih, List.take_succ_cons, descramble]

theorem take_encode (place : ℕ → ℕ) (past w : List Bool) (n : ℕ) :
    (encode place past w).take (2 * n) = encode place past (w.take n) := by
  induction w generalizing past n with
  | nil => simp [encode]
  | cons b w ih =>
    rcases n with _ | n
    · rfl
    · rw [encode, Nat.mul_succ, List.take_succ_cons, List.take_succ_cons, ih, List.take_succ_cons,
        encode]

theorem take_message (seed : BitVec 7) (o : UInt8) (rest : Bytes) :
    (message seed (o :: rest)).take 24 =
      scramble seed (List.replicate 16 false ++ Hdlc.lsbBits o.toNat) := by
  have hsent : sent ((o :: rest).map UInt8.toNat) =
      Hdlc.lsbBits o.toNat ++ sent (rest.map UInt8.toNat) := by
    simp [sent]
  have hlen : 24 ≤ 16 + 8 * (o :: rest).length := by
    rw [List.length_cons]
    omega
  have hhead : (List.replicate 16 false ++ Hdlc.lsbBits o.toNat).length = 24 := by
    rw [List.length_append, List.length_replicate, Hdlc.length_lsbBits]
  unfold message
  dsimp only
  rw [hsent, List.append_assoc, List.take_append_of_le_length, List.take_take, min_eq_left hlen,
    take_scramble, ← List.append_assoc, List.append_assoc, List.take_left' hhead]
  rw [List.length_take, length_scramble, List.length_append, List.length_append,
    List.length_replicate, List.length_append, Hdlc.length_lsbBits, length_sent, List.length_map,
    List.length_replicate, List.length_cons]
  omega

theorem getD_take {α : Type*} (l : List α) (d : α) {n j : ℕ} (hj : j < n) :
    (l.take n).getD j d = l.getD j d := by
  rw [List.getD_eq_getElem?_getD, List.getElem?_take_of_lt hj, List.getD_eq_getElem?_getD]

theorem octetAt_take (db : List Bool) :
    octetAt (descramble (firstState (db.take 24)) (db.take 24)) 0 =
      octetAt (descramble (firstState db) db) 0 := by
  have hfirst : firstState (db.take 24) = firstState db := by
    unfold firstState
    refine List.foldl_ext _ _ _ fun scr i hi => ?_
    have hlt := List.mem_range.mp hi
    rw [getD_take _ _ (by omega)]
  rw [hfirst, ← take_descramble]
  unfold octetAt
  congr 1
  refine List.foldl_ext _ _ _ fun v b hb => ?_
  have hlt := List.mem_range.mp hb
  rw [getD_take _ _ (by omega)]

theorem decode_congr (vit vit' : Viterbi) (c : List Bool) (n : ℕ) (hc : 2 * (n + 6) ≤ c.length) :
    (vit.decode (c.map softOf) (n + 6)).2 = (vit'.decode (c.map softOf) (n + 6)).2 := by
  obtain ⟨v, hlen, hdecode, hnear⟩ := nearest_decode vit c n hc
  obtain ⟨v', hlen', hdecode', hnear'⟩ := nearest_decode vit' c n hc
  rw [hdecode, hdecode', hnear.unique hnear' (hlen'.trans hlen.symm)]

/-- The soft bits of the first symbol of a beacon with the seed 1. -/
def beaconSoft : List ℤ :=
  (encode newestHigh [] (scramble 1 (List.replicate 16 false ++ Hdlc.lsbBits 0x80))).map softOf

theorem survivor_ne (s : Fin NS) :
    octetAt (descramble (firstState (walkLists (forwardLists beaconSoft 24).2 s).reverse)
      (walkLists (forwardLists beaconSoft 24).2 s).reverse) 0 ≠ 0x80 := by
  revert s
  decide +kernel

theorem beacon_ne (vit : Viterbi) (rest : Bytes) :
    (decodeData vit (rest.length + 1) (transmit 1 (0x80 :: rest))).2 ≠ 0x80 :: rest := by
  intro h
  set soft := (coded 1 (0x80 :: rest)).map softOf with hsoft
  have hlen : 2 * (24 + (8 * rest.length + 6)) ≤ (coded 1 (0x80 :: rest)).length := by
    rw [length_coded, nsym, List.length_cons]
    omega
  have hbits : nbits (rest.length + 1) = 24 + (8 * rest.length + 6) := by
    rw [nbits]
    omega
  have hfirst : octetAt (descramble
      (firstState (vit.decode soft (24 + (8 * rest.length + 6))).2)
      (vit.decode soft (24 + (8 * rest.length + 6))).2) 0 = 0x80 := by
    have hhead := congrArg (fun l => l.getD 0 0) h
    rw [hsoft, ← flatMap_demap_transmit, ← hbits]
    simpa [decodeData, List.getD_eq_getElem?_getD] using hhead
  have htake : soft.take (2 * 24) = beaconSoft.take (2 * 24) := by
    rw [hsoft, ← List.map_take, coded, take_encode, take_message, beaconSoft, ← List.map_take,
      take_encode]
    rfl
  rw [← Nat.add_assoc, hsoft, decode_congr vit ⟨[]⟩ _ _ (by omega), ← hsoft] at hfirst
  rw [Nat.add_assoc] at hfirst
  obtain ⟨s, hs⟩ := take_decode ⟨[]⟩ soft 24 (8 * rest.length + 6)
  rw [← octetAt_take, hs, forward_congr _ 24 htake, walkBack_forward_eq] at hfirst
  exact survivor_ne s hfirst

theorem not_recovered :
    ¬ ∀ (vit : Viterbi) (seed : BitVec 7) (psdu : Bytes), seed ≠ 0 →
      (decodeData vit psdu.length (transmit seed psdu)).2 = psdu := by
  intro hclaim
  exact beacon_ne ⟨[]⟩ (List.replicate 19 0 ++ [161, 219, 36, 100]) (hclaim ⟨[]⟩ 1 _ (by decide))

end Bewe.Wifi
