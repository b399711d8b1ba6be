import Bewe.Lib.ProductCode
import Mathlib.Data.Fin.VecNotation
import Mathlib.Data.List.FinRange
import Mathlib.Tactic

/-!
# The block product turbo code of DMR

`bptc196_96` of `dmr_fec.hpp`: the 196 bits of a burst are put in order, 195 of them are a matrix of
13 rows and 15 columns, the columns are decoded as words of Hamming(13,9), then the rows as words of
Hamming(15,11), and 96 of the bits are the payload. `hamming_decode` turns the first bit round that
makes the parity right. The words of either code differ in three places, so one error is corrected;
where there are two in a column the first pass turns one more bit round or none, which is one error
more in that column and none in another. `bptc196_96_of_errors` says what is corrected by the two.
-/

namespace Bewe.Dmr

open Lib

/-! ## Hamming codes -/

/-- `h13_9_par` -/
def h13_9_par (d : Fin 9 → Bool) : Fin 4 → Bool :=
  ![d 0 ^^ d 1 ^^ d 3 ^^ d 5 ^^ d 6,
    d 0 ^^ d 1 ^^ d 2 ^^ d 4 ^^ d 6 ^^ d 7,
    d 0 ^^ d 1 ^^ d 2 ^^ d 3 ^^ d 5 ^^ d 7 ^^ d 8,
    d 0 ^^ d 2 ^^ d 4 ^^ d 5 ^^ d 8]

/-- `h15_11_par` -/
def h15_11_par (d : Fin 11 → Bool) : Fin 4 → Bool :=
  ![d 0 ^^ d 1 ^^ d 2 ^^ d 3 ^^ d 5 ^^ d 7 ^^ d 8,
    d 1 ^^ d 2 ^^ d 3 ^^ d 4 ^^ d 6 ^^ d 8 ^^ d 9,
    d 2 ^^ d 3 ^^ d 4 ^^ d 5 ^^ d 7 ^^ d 9 ^^ d 10,
    d 0 ^^ d 1 ^^ d 2 ^^ d 4 ^^ d 6 ^^ d 7 ^^ d 10]

section

variable {NDATA NPAR : ℕ}

/-- `syn0`: the parity bits are those of the data bits. -/
def syn0 (par : (Fin NDATA → Bool) → Fin NPAR → Bool) (w : Fin (NDATA + NPAR) → Bool) : Bool :=
  decide (∀ i, w (Fin.natAdd NDATA i) = par (fun j => w (Fin.castAdd NPAR j)) i)

/-- `cw[f]^=1` -/
def turn {n : ℕ} (cw : Fin n → Bool) (f : Fin n) : Fin n → Bool := Function.update cw f (!cw f)

/-- `hamming_decode` -/
def hammingDecode (par : (Fin NDATA → Bool) → Fin NPAR → Bool) (cw : Fin (NDATA + NPAR) → Bool) :
    Bool × (Fin (NDATA + NPAR) → Bool) :=
  if syn0 par cw then (true, cw)
  else
    match (List.finRange (NDATA + NPAR)).find? fun f => syn0 par (turn cw f) with
    | some f => (true, turn cw f)
    | none => (false, cw)

/-- Data bits with their parity bits behind them. -/
def encodeWord (par : (Fin NDATA → Bool) → Fin NPAR → Bool) (d : Fin NDATA → Bool) :
    Fin (NDATA + NPAR) → Bool := Fin.append d (par d)

/-- The words with the right parity. -/
def words (par : (Fin NDATA → Bool) → Fin NPAR → Bool) : Set (Fin (NDATA + NPAR) → Bool) :=
  {w | syn0 par w = true}

/-- The parity of a sum is the sum of the parities. -/
def Linear (par : (Fin NDATA → Bool) → Fin NPAR → Bool) : Prop :=
  ∀ d e i, par (fun j => d j ^^ e j) i = (par d i ^^ par e i)

variable {par : (Fin NDATA → Bool) → Fin NPAR → Bool}

theorem encodeWord_mem (d : Fin NDATA → Bool) : encodeWord par d ∈ words par := by
  simp [words, syn0, encodeWord]

theorem mem_words_iff {w : Fin (NDATA + NPAR) → Bool} : w ∈ words par ↔
    ∀ i, w (Fin.natAdd NDATA i) = par (fun j => w (Fin.castAdd NPAR j)) i := by
  simp [words, syn0]

theorem Linear.xor_mem (hpar : Linear par) {w v : Fin (NDATA + NPAR) → Bool} (hw : w ∈ words par)
    (hv : v ∈ words par) : (fun f => w f ^^ v f) ∈ words par := by
  rw [mem_words_iff] at hw hv ⊢
  intro i
  rw [hpar, hw, hv]

theorem hammingDist_turn_le {n : ℕ} (cw : Fin n → Bool) (f : Fin n) :
    hammingDist (turn cw f) cw ≤ 1 := by
  have hsub : ({i | turn cw f i ≠ cw i} : Finset (Fin n)) ⊆ {f} := by
    intro i hi
    rw [Finset.mem_singleton]
    by_contra hne
    exact (Finset.mem_filter.1 hi).2 (Function.update_of_ne hne _ _)
  exact (Finset.card_le_card hsub).trans (Finset.card_singleton _).le

theorem exists_turn_of_hammingDist {n : ℕ} {x w : Fin n → Bool} (h : hammingDist x w = 1) :
    ∃ f, turn x f = w := by
  obtain ⟨f, hf⟩ := Finset.card_eq_one.1 h
  refine ⟨f, funext fun i => ?_⟩
  have hmem : x i ≠ w i ↔ i = f := by
    rw [← Finset.mem_singleton, ← hf, Finset.mem_filter]
    simp
  unfold turn
  rcases eq_or_ne i f with rfl | hne
  · have hdiff := hmem.2 rfl
    rw [Function.update_self]
    cases hx : x i <;> cases hw : w i <;> simp_all
  · rw [Function.update_of_ne hne]
    by_contra hdiff
    exact hne (hmem.1 hdiff)

theorem hammingDecode_near {x w : Fin (NDATA + NPAR) → Bool} (hw : w ∈ words par)
    (hx : hammingDist x w ≤ 1) :
    (hammingDecode par x).2 ∈ words par ∧ hammingDist (hammingDecode par x).2 x ≤ 1 := by
  unfold hammingDecode
  split_ifs with hsyn
  · exact ⟨hsyn, by simp⟩
  · have hne : hammingDist x w ≠ 0 := by
      intro h0
      rw [hammingDist_eq_zero.1 h0] at hsyn
      exact hsyn hw
    obtain ⟨f, hf⟩ := exists_turn_of_hammingDist (by omega : hammingDist x w = 1)
    cases hfind : (List.finRange (NDATA + NPAR)).find? fun f => syn0 par (turn x f) with
    | none =>
      refine absurd ?_ (List.find?_eq_none.1 hfind f (List.mem_finRange f))
      rw [hf]
      exact hw
    | some g =>
      have hg : syn0 par (turn x g) = true := by simpa using List.find?_some hfind
      exact ⟨hg, hammingDist_turn_le x g⟩

theorem Linear.separated (hpar : Linear par)
    (hpairs : ∀ f g : Fin (NDATA + NPAR), (fun i => decide (i = f ∨ i = g)) ∉ words par) :
    Separated (words par) := by
  intro w hw v hv h
  by_contra hne
  have hxor := hpar.xor_mem hw hv
  have hpos : hammingDist w v ≠ 0 := hammingDist_ne_zero.2 hne
  obtain ⟨f, g, hfg⟩ : ∃ f g, ({i | w i ≠ v i} : Finset (Fin (NDATA + NPAR))) = {f, g} := by
    rcases (by omega : hammingDist w v = 1 ∨ hammingDist w v = 2) with h1 | h2
    · obtain ⟨f, hf⟩ := Finset.card_eq_one.1 h1
      exact ⟨f, f, by rw [hf, Finset.pair_eq_singleton]⟩
    · obtain ⟨f, g, -, hfg⟩ := Finset.card_eq_two.1 h2
      exact ⟨f, g, hfg⟩
  refine hpairs f g ?_
  have hsum : (fun i => w i ^^ v i) = fun i => decide (i = f ∨ i = g) := by
    funext i
    have hmem : w i ≠ v i ↔ i = f ∨ i = g := by
      have hi := Finset.ext_iff.1 hfg i
      simpa using hi
    have hbit : (w i ^^ v i) = decide (w i ≠ v i) := by
      cases hw : w i <;> cases hv : v i <;> simp
    exact hbit.trans (decide_eq_decide.2 hmem)
  rwa [hsum] at hxor

theorem Linear.correctsOne (hpar : Linear par)
    (hpairs : ∀ f g : Fin (NDATA + NPAR), (fun i => decide (i = f ∨ i = g)) ∉ words par) :
    CorrectsOne (words par) fun cw => (hammingDecode par cw).2 :=
  (hpar.separated hpairs).correctsOne fun _ hw _ hx => hammingDecode_near hw hx

end

/-- `h13_9_decode` -/
def h13_9_decode (cw : Fin 13 → Bool) : Bool × (Fin 13 → Bool) :=
  @hammingDecode 9 4 h13_9_par cw

/-- `h15_11_decode` -/
def h15_11_decode (cw : Fin 15 → Bool) : Bool × (Fin 15 → Bool) :=
  @hammingDecode 11 4 h15_11_par cw

theorem linear_h13_9_par : Linear h13_9_par := by
  intro d e
  have hcomm : Std.Commutative xor := ⟨Bool.xor_comm⟩
  simp only [h13_9_par, Fin.forall_fin_succ, Matrix.cons_val_zero, Matrix.cons_val_succ]
  refine ⟨?_, ?_, ?_, ?_, nofun⟩ <;> ac_rfl

theorem linear_h15_11_par : Linear h15_11_par := by
  intro d e
  have hcomm : Std.Commutative xor := ⟨Bool.xor_comm⟩
  simp only [h15_11_par, Fin.forall_fin_succ, Matrix.cons_val_zero, Matrix.cons_val_succ]
  refine ⟨?_, ?_, ?_, ?_, nofun⟩ <;> ac_rfl

theorem h13_9_corrects : CorrectsOne (words h13_9_par) fun cw => (h13_9_decode cw).2 := by
  refine linear_h13_9_par.correctsOne ?_
  unfold words
  decide +kernel

theorem h15_11_corrects : CorrectsOne (words h15_11_par) fun cw => (h15_11_decode cw).2 := by
  refine linear_h15_11_par.correctsOne ?_
  unfold words
  decide +kernel

/-! ## The matrix -/

/-- `deint[i] = onair[(i*181) mod 196]` -/
def deinterleave (onair : Fin 196 → Bool) : Fin 196 → Bool :=
  fun i => onair ⟨i.val * 181 % 196, Nat.mod_lt _ (by norm_num)⟩

/-- `M[r][c] = m[1 + r*15 + c]` -/
def matrixOf (m : Fin 196 → Bool) : Fin 13 → Fin 15 → Bool :=
  fun r c => m ⟨1 + r.val * 15 + c.val, by omega⟩

/-- `out96`: row 0 from column 3 to 10, and the rows from 1 to 8 up to column 10. -/
def payloadOf (M : Fin 13 → Fin 15 → Bool) : List Bool :=
  (List.finRange 8).map (fun c => M 0 ⟨3 + c.val, by omega⟩) ++
    (List.finRange 8).flatMap fun r =>
      (List.finRange 11).map fun c => M ⟨1 + r.val, by omega⟩ ⟨c.val, by omega⟩

/-- `bptc196_96` -/
def bptc196_96 (onair : Fin 196 → Bool) : Bool × List Bool :=
  let m := deinterleave onair
  let M := decodeColumns (fun col => (h13_9_decode col).2) (matrixOf m)
  let M := decodeRows (fun row => (h15_11_decode row).2) M
  let out96 := payloadOf M
  (decide (out96.length = 96), out96)

/-! ## What is sent -/

/-- The data bits of the matrix: three reserved bits and the payload. -/
def dataBits (reserved : Fin 3 → Bool) (payload : Fin 96 → Bool) : Fin 9 → Fin 11 → Bool :=
  fun r c =>
    if hr : r.val = 0 then
      if hc : c.val < 3 then reserved ⟨c.val, hc⟩ else payload ⟨c.val - 3, by omega⟩
    else payload ⟨8 + (r.val - 1) * 11 + c.val, by omega⟩

/-- The matrix with the parity of the rows and then that of the columns. -/
def encodeMatrix (D : Fin 9 → Fin 11 → Bool) : Fin 13 → Fin 15 → Bool :=
  fun r c => encodeWord h13_9_par (fun r => encodeWord h15_11_par (D r) c) r

/-- The bits on air: `deint[i]` stands at `(i*181) mod 196`, and 181 times 13 is 1 modulo 196. -/
def interleave (m : Fin 196 → Bool) : Fin 196 → Bool :=
  fun p => m ⟨p.val * 13 % 196, Nat.mod_lt _ (by norm_num)⟩

/-- What is sent for a payload: bit 0 stands before the matrix. -/
def transmitted (R : Bool) (reserved : Fin 3 → Bool) (payload : Fin 96 → Bool) : Fin 196 → Bool :=
  interleave fun i =>
    if i.val = 0 then R
    else
      encodeMatrix (dataBits reserved payload) ⟨(i.val - 1) / 15, by omega⟩
        ⟨(i.val - 1) % 15, Nat.mod_lt _ (by norm_num)⟩

/-- The bits of the matrix in which an error pattern turns the bits on air round. -/
def matrixErrors (pattern : Fin 196 → Bool) : Finset (Fin 13 × Fin 15) :=
  {e | matrixOf (deinterleave pattern) e.1 e.2 = true}

theorem deinterleave_interleave (m : Fin 196 → Bool) : deinterleave (interleave m) = m := by
  funext i
  refine congrArg m (Fin.ext ?_)
  change i.val * 181 % 196 * 13 % 196 = i.val
  omega

theorem matrixOf_transmitted (R : Bool) (reserved : Fin 3 → Bool) (payload : Fin 96 → Bool) :
    matrixOf (deinterleave (transmitted R reserved payload)) =
      encodeMatrix (dataBits reserved payload) := by
  funext r c
  rw [transmitted, deinterleave_interleave, matrixOf]
  dsimp only
  rw [if_neg (by omega)]
  congr 1
  · exact Fin.ext (by dsimp only; omega)
  · exact Fin.ext (by dsimp only; omega)

theorem column_mem (D : Fin 9 → Fin 11 → Bool) (c : Fin 15) :
    (fun r => encodeMatrix D r c) ∈ words h13_9_par :=
  @encodeWord_mem 9 4 h13_9_par fun r => encodeWord h15_11_par (D r) c

theorem row_mem (D : Fin 9 → Fin 11 → Bool) (r : Fin 9) :
    encodeMatrix D (Fin.castAdd 4 r) ∈ words h15_11_par := by
  have hrow : encodeMatrix D (Fin.castAdd 4 r) = encodeWord h15_11_par (D r) := by
    funext c
    rw [encodeMatrix, encodeWord, Fin.append_left]
  rw [hrow]
  exact encodeWord_mem _

theorem encodeMatrix_data (D : Fin 9 → Fin 11 → Bool) (r : Fin 9) (c : Fin 11) :
    encodeMatrix D (Fin.castAdd 4 r) (Fin.castAdd 4 c) = D r c := by
  rw [encodeMatrix, encodeWord, Fin.append_left, encodeWord, Fin.append_left]

theorem payloadOf_of_rows (reserved : Fin 3 → Bool) (payload : Fin 96 → Bool)
    {M : Fin 13 → Fin 15 → Bool}
    (hM : ∀ r : Fin 9,
      M (Fin.castAdd 4 r) = encodeMatrix (dataBits reserved payload) (Fin.castAdd 4 r)) :
    payloadOf M = List.ofFn payload := by
  have hbit : ∀ (r : Fin 9) (c : Fin 11),
      M (Fin.castAdd 4 r) (Fin.castAdd 4 c) = dataBits reserved payload r c := fun r c => by
    rw [hM, encodeMatrix_data]
  have hfirst : ∀ c : Fin 8, M 0 ⟨3 + c.val, by omega⟩ = payload ⟨c.val, by omega⟩ := fun c => by
    have h := hbit 0 ⟨3 + c.val, by omega⟩
    rw [dataBits, dif_pos (show (0 : Fin 9).val = 0 from rfl), dif_neg (by dsimp only; omega)] at h
    exact h.trans (congrArg payload (Fin.ext (Nat.add_sub_cancel_left 3 c.val)))
  have hrest : ∀ (r : Fin 8) (c : Fin 11), M ⟨1 + r.val, by omega⟩ ⟨c.val, by omega⟩ =
      payload ⟨8 + r.val * 11 + c.val, by omega⟩ := fun r c => by
    have h := hbit ⟨1 + r.val, by omega⟩ c
    rw [dataBits, dif_neg (by dsimp only; omega)] at h
    exact h.trans (congrArg payload (Fin.ext (by dsimp only; omega)))
  have hplaces : (List.finRange 8).map (fun c => (⟨c.val, by omega⟩ : Fin 96)) ++
      (List.finRange 8).flatMap (fun r => (List.finRange 11).map fun c =>
        (⟨8 + r.val * 11 + c.val, by omega⟩ : Fin 96)) = List.finRange 96 := by
    decide
  rw [List.ofFn_eq_map, ← hplaces, List.map_append, List.map_map, List.map_flatMap, payloadOf]
  simp only [hfirst, hrest, List.map_map, Function.comp_def]

/-! ## Correction -/

/-- The payload comes back from what is sent whenever three bits of the matrix at most are wrong,
or any of one column. -/
theorem bptc196_96_of_errors (R : Bool) (reserved : Fin 3 → Bool) (payload : Fin 96 → Bool)
    (pattern : Fin 196 → Bool)
    (h : (matrixErrors pattern).card ≤ 3 ∨ ∃ c, ∀ e ∈ matrixErrors pattern, e.2 = c) :
    bptc196_96 (fun p => transmitted R reserved payload p ^^ pattern p) =
      (true, List.ofFn payload) := by
  let sent := encodeMatrix (dataBits reserved payload)
  let M := matrixOf (deinterleave fun p => transmitted R reserved payload p ^^ pattern p)
  have hM : ∀ r c, M r c = (sent r c ^^ matrixOf (deinterleave pattern) r c) := fun r c => by
    have hsent := congrFun (congrFun (matrixOf_transmitted R reserved payload) r) c
    exact congrArg (· ^^ matrixOf (deinterleave pattern) r c) hsent
  have herrors : errors M sent = matrixErrors pattern := by
    ext e
    rw [errors, matrixErrors, Finset.mem_filter_univ, Finset.mem_filter_univ, hM]
    cases sent e.1 e.2 <;> simp
  obtain ⟨c₀, hc₀⟩ : ∃ c₀, ∀ c ≠ c₀, hammingDist (fun r => M r c) (fun r => sent r c) ≤ 1 := by
    rw [← herrors] at h
    rcases h with hfew | ⟨c, hcol⟩
    · exact exists_column_of_card_le hfew
    · exact ⟨c, fun d hd => card_column_le_of_column hcol hd⟩
  let decoded := decodeRows (fun row => (h15_11_decode row).2)
    (decodeColumns (fun col => (h13_9_decode col).2) M)
  have hpayload : payloadOf decoded = List.ofFn payload := payloadOf_of_rows reserved payload
    fun r => decodeRows_decodeColumns h13_9_corrects h15_11_corrects (column_mem _) hc₀ (row_mem _ r)
  change (decide ((payloadOf decoded).length = 96), payloadOf decoded) = (true, List.ofFn payload)
  rw [hpayload, List.length_ofFn]
  rfl

/-- Four errors in the first column and one outside the matrix. -/
theorem bptc196_96_of_column :
    bptc196_96 (fun p => transmitted false (fun _ => false) (fun i => decide (i.val % 3 = 0)) p ^^
        decide (p = 0 ∨ p = 181 ∨ p = 152 ∨ p = 123 ∨ p = 94)) =
      (true, List.ofFn fun i : Fin 96 => decide (i.val % 3 = 0)) :=
  bptc196_96_of_errors false (fun _ => false) (fun i => decide (i.val % 3 = 0))
    (fun p => decide (p = 0 ∨ p = 181 ∨ p = 152 ∨ p = 123 ∨ p = 94)) (Or.inr ⟨0, by decide +kernel⟩)

end Bewe.Dmr
