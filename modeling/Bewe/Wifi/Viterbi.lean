import Bewe.Lib.Trellis
import Mathlib.Data.Nat.Bitwise
import Mathlib.Tactic.Ring

/-!
# The Viterbi decoder of the Wi-Fi receiver

`Viterbi` of `modules/wifi/wifi_ofdm.hpp`: a trellis of 64 states with the last six bits, the newest
least significant, and the outputs of two generators. `decode` keeps for each state the least metric
of the words that lead to it and the state before, pushes both from state to state, and at the end
follows the states back from state 0. `best_decode` says that it finds the best word there is: of
the words of its length that lead to state 0 none has a lower metric, and of those with the same it
is the first when they are compared from the last bit on. That is for the soft bits of a signal
without noise, `1` and `-1`, whose metrics are whole numbers that a `float` holds for the lengths
that L-SIG can say.

Soft bits are of any ordered ring here. A metric from `INF` on stands for a state that nothing leads
to, so that the decoder gives up words whose metric gets there (`survivorsWithin_forward`).
-/

namespace Bewe.Wifi

open Lib

/-! ## The trellis -/

/-- The number of states. -/
abbrev NS : ℕ := 64

instance neZero_ns : NeZero NS := ⟨by decide⟩

/-- `par`: the parity of the bits of a register, which has seven. -/
def par (x : ℕ) : Bool :=
  (List.range 7).foldl (fun c i => c ^^ x.testBit i) false

/-- The register of a state and the bit that comes next. -/
def reg (s : Fin NS) (bit : Bool) : ℕ := s.val <<< 1 ||| bit.toNat

/-- The output of the generator 133. -/
def o0 (s : Fin NS) (bit : Bool) : Bool := par (reg s bit &&& 0o133)

/-- The output of the generator 171. -/
def o1 (s : Fin NS) (bit : Bool) : Bool := par (reg s bit &&& 0o171)

/-- The state that a bit leads to. -/
def ns (s : Fin NS) (bit : Bool) : Fin NS :=
  ⟨reg s bit &&& 0x3f, lt_of_le_of_lt Nat.and_le_right (by decide)⟩

/-! ## Decoding -/

variable {R : Type*} [CommRing R]

/-- The metric of a state that nothing leads to. -/
def INF : R := 1000000000

/-- The metrics after a step, and the states before it. -/
structure Row (R : Type*) where
  npm : Vector R NS
  tbt : Vector (Fin NS) NS

section

variable [LinearOrder R]

/-- The metrics over which a step runs, for one state and one bit. -/
def relax (a b : R) (pm : Vector R NS) (s : Fin NS) (r : Row R) (bit : Bool) : Row R :=
  let e0 := if o0 s bit then -a else a
  let e1 := if o1 s bit then -b else b
  let m : R := pm[s] - e0 - e1
  let n := ns s bit
  let old : R := r.npm[n]
  if m < old then ⟨r.npm.set n m, r.tbt.set n s⟩ else r

/-- One step: `tbt` holds what an earlier call has left in it. -/
def step (a b : R) (pm : Vector R NS) (tbt : Vector (Fin NS) NS) : Row R :=
  (List.finRange NS).foldl
    (fun r s => if INF ≤ pm[s] then r else [false, true].foldl (relax a b pm s) r)
    ⟨Vector.replicate NS INF, tbt⟩

/-- `tb_`, the scratch of `Viterbi`, a row for each bit. -/
structure Viterbi where
  tb_ : List (Vector (Fin NS) NS)

/-- The steps of `decode`: the metrics, and the rows written, the last one first. -/
def Viterbi.forward (vit : Viterbi) (soft : List R) (nbits : ℕ) :
    Vector R NS × List (Vector (Fin NS) NS) :=
  (List.range nbits).foldl
    (fun r t =>
      let row := step (soft.getD (2 * t) 0) (soft.getD (2 * t + 1) 0) r.1
        (vit.tb_.getD t (Vector.replicate NS 0))
      (row.npm, row.tbt :: r.2))
    ((Vector.replicate NS INF).set 0 0, [])

/-- What the scratch has for a state in the row of a bit. -/
def Viterbi.entry (vit : Viterbi) (t : ℕ) (s : Fin NS) : Fin NS :=
  (vit.tb_.getD t (Vector.replicate NS 0))[s]

/-- The bits along which the rows lead back from a state, the last one first. -/
def walkBack : List (Vector (Fin NS) NS) → Fin NS → List Bool
  | [], _ => []
  | tbt :: rows, s => s.val.testBit 0 :: walkBack rows tbt[s]

/-- `Viterbi::decode`. -/
def Viterbi.decode (vit : Viterbi) (soft : List R) (nbits : ℕ) : Viterbi × List Bool :=
  let rows := (vit.forward soft nbits).2
  (⟨rows.reverse ++ vit.tb_.drop nbits⟩, (walkBack rows 0).reverse)

end

/-! ## States and words -/

theorem testBit_shiftIn (x : ℕ) (bit : Bool) (k : ℕ) :
    (x <<< 1 ||| bit.toNat).testBit k = if k = 0 then bit else x.testBit (k - 1) := by
  rw [Nat.testBit_or, Nat.testBit_shiftLeft, Nat.testBit_bool_toNat]
  rcases k with _ | k
  · simp
  · simp

theorem testBit_reg (s : Fin NS) (bit : Bool) (k : ℕ) :
    (reg s bit).testBit k = if k = 0 then bit else s.val.testBit (k - 1) :=
  testBit_shiftIn s.val bit k

theorem testBit_ns (s : Fin NS) (bit : Bool) {k : ℕ} (hk : k < 6) :
    (ns s bit).val.testBit k = if k = 0 then bit else s.val.testBit (k - 1) := by
  have hmask : ∀ j < 6, Nat.testBit 0x3f j = true := by decide
  change (reg s bit &&& 0x3f).testBit k = _
  rw [Nat.testBit_and, testBit_reg, hmask k hk, Bool.and_true]

theorem eq_of_testBit {s r : Fin NS} (h : ∀ k < 6, s.val.testBit k = r.val.testBit k) : s = r := by
  refine Fin.ext (Nat.eq_of_testBit_eq fun k => ?_)
  rcases lt_or_ge k 6 with hk | hk
  · exact h k hk
  · have hpow : (2 : ℕ) ^ 6 ≤ 2 ^ k := Nat.pow_le_pow_right (by norm_num) hk
    rw [Nat.testBit_lt_two_pow (lt_of_lt_of_le s.isLt hpow),
      Nat.testBit_lt_two_pow (lt_of_lt_of_le r.isLt hpow)]

theorem getD_zeros (n k : ℕ) : (List.replicate n false).getD k false = false := by
  rw [List.getD_eq_getElem?_getD, List.getElem?_replicate]
  split_ifs <;> rfl

/-- What a step adds to the metric. -/
def branch (a b : R) (s : Fin NS) (bit : Bool) : R :=
  -(if o0 s bit then -a else a) - (if o1 s bit then -b else b)

/-- The trellis of the decoder over soft bits. -/
def trellis (soft : List R) : Trellis (Fin NS) Bool R where
  start := 0
  next := ns
  cost t := branch (soft.getD (2 * t) 0) (soft.getD (2 * t + 1) 0)

theorem testBit_state (soft : List R) (w : List Bool) {k : ℕ} (hk : k < 6) :
    ((trellis soft).state w).val.testBit k = w.getD k false := by
  induction w generalizing k with
  | nil => simp [Trellis.state, trellis]
  | cons bit w ih =>
    have hstate : (trellis soft).state (bit :: w) = ns ((trellis soft).state w) bit := rfl
    rw [hstate, testBit_ns _ _ hk]
    rcases k with _ | k
    · simp
    · rw [if_neg (Nat.succ_ne_zero k), Nat.add_sub_cancel, ih (by omega)]
      simp

theorem lt_of_first_diff (u v : List Bool) {k : ℕ} (hlen : u.length = v.length)
    (hsame : ∀ j < k, u.getD j false = v.getD j false) (hu : u.getD k false = false)
    (hv : v.getD k false = true) : u < v := by
  induction k generalizing u v with
  | zero =>
    rcases u with _ | ⟨x, u⟩ <;> rcases v with _ | ⟨y, v⟩ <;> simp at hlen hu hv
    rw [hu, hv]
    exact List.cons_lt_cons_iff.mpr (Or.inl (by decide))
  | succ k ih =>
    rcases u with _ | ⟨x, u⟩ <;> rcases v with _ | ⟨y, v⟩
    · simp at hv
    · simp at hlen
    · simp at hlen
    · have hxy : x = y := by simpa using hsame 0 (by omega)
      refine List.cons_lt_cons_iff.mpr (Or.inr ⟨hxy, ih u v (by simpa using hlen) ?_ ?_ ?_⟩)
      · intro j hj
        simpa using hsame (j + 1) (by omega)
      · simpa using hu
      · simpa using hv

/-! ## One step -/

/-- The states from which a state is entered. -/
def lo (n : Fin NS) : Fin NS := ⟨n.val / 2, lt_of_le_of_lt (Nat.div_le_self _ _) n.isLt⟩

@[inherit_doc lo] def hi (n : Fin NS) : Fin NS :=
  ⟨n.val / 2 + 32, Nat.add_lt_add_right (Nat.div_lt_of_lt_mul n.isLt : n.val / 2 < 32) 32⟩

/-- The bit by which a state is entered. -/
def last (n : Fin NS) : Bool := n.val.testBit 0

@[simp]
theorem last_ns (s : Fin NS) (bit : Bool) : last (ns s bit) = bit := by
  rw [last, testBit_ns s bit (by norm_num), if_pos rfl]

theorem entered (n : Fin NS) :
    (List.finRange NS).filter (fun s => ns s (last n) = n) = [lo n, hi n] := by
  revert n
  decide

theorem ns_eq_iff (s n : Fin NS) : ns s (last n) = n ↔ s = lo n ∨ s = hi n := by
  have h : s ∈ (List.finRange NS).filter (fun s => ns s (last n) = n) ↔ s ∈ [lo n, hi n] := by
    rw [entered]
  simpa using h

/-- Words to the lower of two predecessors come before those to the other: they differ first in the
bit that the step drops. -/
theorem lt_of_predecessors (soft : List R) (n : Fin NS) (u v : List Bool)
    (hlen : u.length = v.length) (hu : (trellis soft).state u = lo n)
    (hv : (trellis soft).state v = hi n) : u < v := by
  have hbits : ∀ n : Fin NS, (∀ k < 5, (lo n).val.testBit k = (hi n).val.testBit k) ∧
      (lo n).val.testBit 5 = false ∧ (hi n).val.testBit 5 = true := by
    decide
  obtain ⟨hsame, hzero, hone⟩ := hbits n
  refine lt_of_first_diff u v hlen (fun j hj => ?_) (k := 5) ?_ ?_
  · rw [← testBit_state soft u (by omega), ← testBit_state soft v (by omega), hu, hv, hsame j hj]
  · rw [← testBit_state soft u (by norm_num), hu, hzero]
  · rw [← testBit_state soft v (by norm_num), hv, hone]

theorem exists_reach (soft : List R) (s : Fin NS) :
    ∃ u : List Bool, u.length = 6 ∧ ∀ v, (trellis soft).state (u ++ v) = s := by
  refine ⟨(List.range 6).map s.val.testBit, by simp, fun v => eq_of_testBit fun k hk => ?_⟩
  rw [testBit_state soft _ hk, List.getD_append _ _ _ _ (by simpa using hk)]
  simp [List.getD_eq_getElem?_getD, hk]

/-- What a row has for a state. -/
def Row.entry (r : Row R) (n : Fin NS) : R × Fin NS := (r.npm[n], r.tbt[n])

variable [LinearOrder R]

/-- What becomes of that when the state is entered from another, which has a metric. -/
def offer (a b : R) (n : Fin NS) (x : R × Fin NS) (s : Fin NS) (m : R) : R × Fin NS :=
  if INF ≤ m then x
  else if m + branch a b s (last n) < x.1 then (m + branch a b s (last n), s)
  else x

theorem entry_relax (a b : R) (pm : Vector R NS) (s : Fin NS) (r : Row R) (bit : Bool)
    (n : Fin NS) :
    (relax a b pm s r bit).entry n =
      if ns s bit = n then
        if pm[s] + branch a b s bit < (r.entry n).1 then (pm[s] + branch a b s bit, s)
        else r.entry n
      else r.entry n := by
  have hm : pm[s] - (if o0 s bit then -a else a) - (if o1 s bit then -b else b) =
      pm[s] + branch a b s bit := by
    unfold branch
    ring
  unfold relax
  dsimp only
  rw [hm]
  rcases eq_or_ne (ns s bit) n with rfl | hne
  · rw [if_pos rfl]
    unfold Row.entry
    split_ifs with hlt
    · simp
    · rfl
  · have hval : (ns s bit).val ≠ n.val := fun h => hne (Fin.ext h)
    rw [if_neg hne]
    unfold Row.entry
    split_ifs
    · simp [hval]
    · rfl

theorem entry_relax_both (a b : R) (pm : Vector R NS) (n : Fin NS) (r : Row R) (s : Fin NS) :
    (if decide (ns s (last n) = n) then offer a b n (r.entry n) s pm[s] else r.entry n) =
      (if INF ≤ pm[s] then r else [false, true].foldl (relax a b pm s) r).entry n := by
  have hother : ∀ bit, bit ≠ last n → ns s bit ≠ n := by
    rintro bit hne rfl
    exact hne (last_ns s bit).symm
  simp only [List.foldl_cons, List.foldl_nil, decide_eq_true_eq]
  unfold offer
  rcases le_or_gt INF pm[s] with hinf | hinf
  · rw [if_pos hinf, if_pos hinf, ite_self]
  · rw [if_neg hinf.not_ge, if_neg hinf.not_ge, entry_relax]
    cases hlast : last n with
    | false =>
      rw [hlast] at hother
      rw [if_neg (hother true (by decide)), entry_relax]
    | true =>
      rw [hlast] at hother
      rw [entry_relax, if_neg (hother false (by decide))]

theorem entry_step (a b : R) (pm : Vector R NS) (tbt : Vector (Fin NS) NS) (n : Fin NS) :
    (step a b pm tbt).entry n =
      offer a b n (offer a b n (INF, tbt[n]) (lo n) pm[lo n]) (hi n) pm[hi n] := by
  have hfold : (List.finRange NS).foldl
      (fun x s => if decide (ns s (last n) = n) then offer a b n x s pm[s] else x)
      (Row.entry ⟨Vector.replicate NS INF, tbt⟩ n) = (step a b pm tbt).entry n := by
    unfold step
    exact List.foldl_hom (fun r : Row R => r.entry n) (entry_relax_both a b pm n)
  rw [← hfold, ← List.foldl_filter, entered]
  simp [Row.entry]

/-- A state that some words lead to. -/
def live (pm : Vector R NS) (s : Fin NS) : Prop := pm[s] < INF

/-- The three ways in which a state can get its entry: it keeps what it had, as no metric below
`INF` leads to it, or one of its two predecessors leads to it. -/
theorem step_cases (a b : R) (pm : Vector R NS) (tbt : Vector (Fin NS) NS) (n : Fin NS) :
    (∀ s, live pm s → s = lo n ∨ s = hi n → INF ≤ pm[s] + branch a b s (last n)) ∧
        (step a b pm tbt).entry n = (INF, tbt[n]) ∨
      ∃ s, live pm s ∧ (s = lo n ∨ s = hi n) ∧ pm[s] + branch a b s (last n) < INF ∧
        (step a b pm tbt).entry n = (pm[s] + branch a b s (last n), s) ∧
        ∀ r, live pm r → r = lo n ∨ r = hi n → r ≠ s →
          pm[s] + branch a b s (last n) < pm[r] + branch a b r (last n) ∨
            pm[s] + branch a b s (last n) = pm[r] + branch a b r (last n) ∧ s = lo n ∧
              r = hi n := by
  have hne : hi n ≠ lo n := by
    have h := n.isLt
    simp only [ne_eq, Fin.ext_iff, hi, lo]
    omega
  -- an offer that is not below what there is changes nothing
  have hoffer : ∀ (x : R × Fin NS) (s : Fin NS) (m : R),
      ¬(m < INF ∧ m + branch a b s (last n) < x.1) → offer a b n x s m = x := by
    intro x s m h
    rw [offer]
    split_ifs with hinf hlt
    · rfl
    · exact absurd ⟨not_le.1 hinf, hlt⟩ h
    · rfl
  have htaken : ∀ (x : R × Fin NS) (s : Fin NS) (m : R),
      m < INF ∧ m + branch a b s (last n) < x.1 →
        offer a b n x s m = (m + branch a b s (last n), s) := by
    intro x s m h
    rw [offer, if_neg h.1.not_ge, if_pos h.2]
  rw [entry_step]
  by_cases hl : pm[lo n] < INF ∧ pm[lo n] + branch a b (lo n) (last n) < INF
  · rw [htaken (INF, tbt[n]) (lo n) pm[lo n] hl]
    by_cases hh : pm[hi n] < INF ∧
        pm[hi n] + branch a b (hi n) (last n) < pm[lo n] + branch a b (lo n) (last n)
    · refine Or.inr ⟨hi n, hh.1, Or.inr rfl, hh.2.trans hl.2, htaken _ _ _ hh, ?_⟩
      rintro r - (rfl | rfl) hr
      · exact Or.inl hh.2
      · exact absurd rfl hr
    · refine Or.inr ⟨lo n, hl.1, Or.inl rfl, hl.2, hoffer _ _ _ hh, ?_⟩
      rintro r hlive (rfl | rfl) hr
      · exact absurd rfl hr
      · have hle := not_lt.1 fun hlt => hh ⟨hlive, hlt⟩
        exact hle.lt_or_eq.imp_right fun heq => ⟨heq, rfl, rfl⟩
  · rw [hoffer (INF, tbt[n]) (lo n) pm[lo n] hl]
    by_cases hh : pm[hi n] < INF ∧ pm[hi n] + branch a b (hi n) (last n) < INF
    · refine Or.inr ⟨hi n, hh.1, Or.inr rfl, hh.2, htaken _ _ _ hh, ?_⟩
      rintro r hlive (rfl | rfl) hr
      · have hge := not_lt.1 fun hlt => hl ⟨hlive, hlt⟩
        exact Or.inl (hh.2.trans_le hge)
      · exact absurd rfl hr
    · refine Or.inl ⟨?_, hoffer _ _ _ hh⟩
      rintro s hlive (rfl | rfl)
      · exact not_lt.1 fun hlt => hl ⟨hlive, hlt⟩
      · exact not_lt.1 fun hlt => hh ⟨hlive, hlt⟩

theorem entered_of_live {a b : R} {pm : Vector R NS} (tbt : Vector (Fin NS) NS) {n : Fin NS}
    (hn : live (step a b pm tbt).npm n) :
    ∃ s, (step a b pm tbt).tbt[n] = s ∧ live pm s ∧ (s = lo n ∨ s = hi n) ∧
      (step a b pm tbt).npm[n] = pm[s] + branch a b s (last n) ∧
      ∀ r, live pm r → r = lo n ∨ r = hi n → r ≠ s →
        (step a b pm tbt).npm[n] < pm[r] + branch a b r (last n) ∨
          (step a b pm tbt).npm[n] = pm[r] + branch a b r (last n) ∧ s = lo n ∧ r = hi n := by
  rcases step_cases a b pm tbt n with ⟨-, he⟩ | ⟨s, hs, hpre, -, he, hleast⟩
  · have hnpm : (step a b pm tbt).npm[n] = INF := congrArg Prod.fst he
    exact absurd hn hnpm.ge.not_gt
  · have hnpm : (step a b pm tbt).npm[n] = pm[s] + branch a b s (last n) :=
      congrArg Prod.fst he
    refine ⟨s, congrArg Prod.snd he, hs, hpre, hnpm, ?_⟩
    rw [hnpm]
    exact hleast

theorem live_ns {a b : R} {pm : Vector R NS} (tbt : Vector (Fin NS) NS) {s : Fin NS} {bit : Bool}
    (hs : live pm s) (hlt : pm[s] + branch a b s bit < INF) :
    live (step a b pm tbt).npm (ns s bit) := by
  have hpre : s = lo (ns s bit) ∨ s = hi (ns s bit) := by rw [← ns_eq_iff, last_ns]
  rcases step_cases a b pm tbt (ns s bit) with ⟨hnone, -⟩ | ⟨r, -, -, hr, he, -⟩
  · have hge := hnone s hs hpre
    rw [last_ns] at hge
    exact absurd hlt hge.not_gt
  · exact (congrArg Prod.fst he).trans_lt hr

theorem tbt_of_not_live {a b : R} {pm : Vector R NS} (tbt : Vector (Fin NS) NS) {n : Fin NS}
    (hn : ¬live (step a b pm tbt).npm n) : (step a b pm tbt).tbt[n] = tbt[n] := by
  rcases step_cases a b pm tbt n with ⟨-, he⟩ | ⟨r, -, -, hr, he, -⟩
  · exact congrArg Prod.snd he
  · exact absurd ((congrArg Prod.fst he).trans_lt hr) hn

theorem selectsWithin_step (soft : List R) (t : ℕ) (pm : Vector R NS) (tbt : Vector (Fin NS) NS) :
    (trellis soft).SelectsWithin (· < INF) last t (live pm)
      (live (step (soft.getD (2 * t) 0) (soft.getD (2 * t + 1) 0) pm tbt).npm) (fun s => pm[s])
      (fun s => (step (soft.getD (2 * t) 0) (soft.getD (2 * t + 1) 0) pm tbt).npm[s])
      (fun s => (step (soft.getD (2 * t) 0) (soft.getD (2 * t + 1) 0) pm tbt).tbt[s]) := by
  refine ⟨fun s i hs hlt => live_ns tbt hs hlt, fun n hn => ?_, fun n hn => ?_, fun n hn => hn,
    fun n hn => ?_, fun n hn r hr hrn hne => ?_⟩ <;>
    obtain ⟨s, hs, hlive, hpre, hnpm, hleast⟩ := entered_of_live tbt hn
  · rwa [hs]
  · rw [hs]
    exact (ns_eq_iff s n).mpr hpre
  · rw [hs]
    exact hnpm
  · rw [hs] at hne ⊢
    refine (hleast r hr ((ns_eq_iff r n).mp hrn) hne).imp_right fun ⟨heq, hsl, hrh⟩ => ?_
    refine ⟨heq, fun u v hlen hu hv => ?_⟩
    rw [hsl] at hu
    rw [hrh] at hv
    exact lt_of_predecessors soft n u v hlen hu hv

/-! ## All steps -/

theorem walkBack_eq_trace (rows : List (Vector (Fin NS) NS)) (s : Fin NS) :
    walkBack rows s = Trellis.trace last (rows.map fun tbt s => tbt[s]) s := by
  induction rows generalizing s with
  | nil => rfl
  | cons tbt rows ih => rw [walkBack, ih, List.map_cons, Trellis.trace, last]

theorem forward_succ (vit : Viterbi) (soft : List R) (n : ℕ) :
    vit.forward soft (n + 1) =
      ((step (soft.getD (2 * n) 0) (soft.getD (2 * n + 1) 0) (vit.forward soft n).1
        (vit.tb_.getD n (Vector.replicate NS 0))).npm,
      (step (soft.getD (2 * n) 0) (soft.getD (2 * n + 1) 0) (vit.forward soft n).1
        (vit.tb_.getD n (Vector.replicate NS 0))).tbt :: (vit.forward soft n).2) := by
  unfold Viterbi.forward
  rw [List.range_succ, List.foldl_append]
  rfl

theorem walkBack_append (rows rows' : List (Vector (Fin NS) NS)) (s : Fin NS) :
    ∃ r, walkBack (rows ++ rows') s = walkBack rows s ++ walkBack rows' r := by
  induction rows generalizing s with
  | nil => exact ⟨s, rfl⟩
  | cons tbt rows ih =>
    obtain ⟨r, hr⟩ := ih tbt[s]
    exact ⟨r, by rw [List.cons_append, walkBack, hr, walkBack, List.cons_append]⟩

theorem forward_add (vit : Viterbi) (soft : List R) (m n : ℕ) :
    ∃ rows, (vit.forward soft (m + n)).2 = rows ++ (vit.forward soft m).2 := by
  induction n with
  | zero => exact ⟨[], rfl⟩
  | succ n ih =>
    obtain ⟨rows, hrows⟩ := ih
    rw [← Nat.add_assoc, forward_succ]
    exact ⟨_ :: rows, by rw [hrows]; rfl⟩

theorem length_walkBack_forward (vit : Viterbi) (soft : List R) (n : ℕ) (s : Fin NS) :
    (walkBack (vit.forward soft n).2 s).length = n := by
  induction n generalizing s with
  | zero => rfl
  | succ n ih => rw [forward_succ, walkBack, List.length_cons, ih]

theorem take_decode (vit : Viterbi) (soft : List R) (m n : ℕ) :
    ∃ s, (vit.decode soft (m + n)).2.take m = (walkBack (vit.forward soft m).2 s).reverse := by
  obtain ⟨rows, hrows⟩ := forward_add vit soft m n
  obtain ⟨s, hs⟩ := walkBack_append rows (vit.forward soft m).2 0
  refine ⟨s, ?_⟩
  have hlen : (walkBack (vit.forward soft m).2 s).reverse.length = m := by
    rw [List.length_reverse, length_walkBack_forward]
  unfold Viterbi.decode
  dsimp only
  rw [hrows, hs, List.reverse_append, List.take_left' hlen]

theorem forward_congr (vit : Viterbi) {soft soft' : List R} (n : ℕ)
    (h : soft.take (2 * n) = soft'.take (2 * n)) : vit.forward soft n = vit.forward soft' n := by
  have hget : ∀ j < 2 * n, soft.getD j 0 = soft'.getD j 0 := by
    intro j hj
    have hj' := congrArg (fun l => l.getD j 0) h
    simpa [List.getD_eq_getElem?_getD, hj] using hj'
  unfold Viterbi.forward
  refine List.foldl_ext _ _ _ fun r t ht => ?_
  have hlt := List.mem_range.mp ht
  rw [hget _ (by omega), hget _ (by omega)]

theorem live_start [IsStrictOrderedRing R] (s : Fin NS) :
    live ((Vector.replicate NS (INF : R)).set 0 0) s ↔ s = 0 := by
  have hINF : (0 : R) < INF := by
    unfold INF
    norm_num
  rcases eq_or_ne s 0 with rfl | hne
  · exact ⟨fun _ => rfl, fun _ => hINF⟩
  · have hval : (0 : ℕ) ≠ s.val := fun h => hne (Fin.ext h.symm)
    simp [live, hval, hne]

variable [IsStrictOrderedRing R]

/-- After any number of bits the metrics and the rows are those of the words that were not given up.
-/
theorem survivorsWithin_forward (vit : Viterbi) (soft : List R) (nbits : ℕ) :
    (vit.forward soft nbits).2.length = nbits ∧
      (trellis soft).SurvivorsWithin (· < INF) last (live (vit.forward soft nbits).1)
        (fun s => (vit.forward soft nbits).1[s])
        ((vit.forward soft nbits).2.map fun tbt s => tbt[s]) := by
  induction nbits with
  | zero =>
    have hINF : (0 : R) < INF := by
      unfold INF
      norm_num
    exact ⟨rfl, Trellis.survivorsWithin_nil hINF live_start rfl⟩
  | succ n ih =>
    obtain ⟨hlen, hsurv⟩ := ih
    have hsel := selectsWithin_step soft n (vit.forward soft n).1
      (vit.tb_.getD n (Vector.replicate NS 0))
    rw [forward_succ]
    refine ⟨congrArg (· + 1) hlen, hsurv.step (fun _ _ => lt_of_le_of_lt) last_ns ?_⟩
    rwa [List.length_map, hlen]

/-! ## Soft bits without noise -/

/-- Soft bits that are no larger than those of a signal without noise. -/
def Hard (soft : List R) : Prop := ∀ x ∈ soft, |x| ≤ 1

theorem Hard.getD {soft : List R} (h : Hard soft) (k : ℕ) : |soft.getD k 0| ≤ 1 := by
  rw [List.getD_eq_getElem?_getD]
  cases hk : soft[k]? with
  | none => simp
  | some x => exact h x (List.mem_of_getElem? hk)

theorem branch_le {a b : R} (ha : |a| ≤ 1) (hb : |b| ≤ 1) (s : Fin NS) (bit : Bool) :
    branch a b s bit ≤ 2 := by
  rw [abs_le] at ha hb
  unfold branch
  split_ifs <;> linarith

theorem exists_branch_nonpos (a b : R) (s : Fin NS) : ∃ bit, branch a b s bit ≤ 0 := by
  have hflip : ∀ s : Fin NS, o0 s true = !o0 s false ∧ o1 s true = !o1 s false := by
    decide
  have hneg : branch a b s true = -branch a b s false := by
    unfold branch
    rw [(hflip s).1, (hflip s).2]
    cases o0 s false <;> cases o1 s false <;> simp <;> ring
  rcases le_total (branch a b s false) 0 with h | h
  · exact ⟨false, h⟩
  · exact ⟨true, by linarith⟩

theorem pm_le_of_survivors {soft : List R} (hsoft : Hard soft) {pm : Vector R NS}
    {rows : List (Fin NS → Fin NS)}
    (h : (trellis soft).Survivors last (live pm) (fun s => pm[s]) rows) (s : Fin NS)
    (hs : live pm s) : pm[s] ≤ 12 := by
  have hbest := h.best s hs
  obtain ⟨u, hlen, hstate, hu⟩ := Trellis.exists_metric_le
    (fun t s i => branch_le (hsoft.getD (2 * t)) (hsoft.getD (2 * t + 1)) s i)
    (fun t s => exists_branch_nonpos (soft.getD (2 * t) 0) (soft.getD (2 * t + 1) 0) s)
    (by norm_num) (exists_reach soft) (Trellis.trace last rows s)
  have hle := hbest.metric_le hlen (hstate.trans hbest.leads)
  have hpm : pm[s] = (trellis soft).metric (Trellis.trace last rows s) := h.metric s hs
  have h12 : (2 : R) * (6 : ℕ) = 12 := by norm_num
  rw [hpm, ← h12]
  exact hle.trans hu

theorem selects_step {soft : List R} (hsoft : Hard soft) (t : ℕ) {pm : Vector R NS}
    (tbt : Vector (Fin NS) NS) (hpm : ∀ s, live pm s → pm[s] ≤ 12) :
    (trellis soft).Selects last t (live pm)
      (live (step (soft.getD (2 * t) 0) (soft.getD (2 * t + 1) 0) pm tbt).npm) (fun s => pm[s])
      (fun s => (step (soft.getD (2 * t) 0) (soft.getD (2 * t + 1) 0) pm tbt).npm[s])
      (fun s => (step (soft.getD (2 * t) 0) (soft.getD (2 * t + 1) 0) pm tbt).tbt[s]) := by
  refine (selectsWithin_step soft t pm tbt).selects fun s bit hs => ?_
  have hadd := branch_le (hsoft.getD (2 * t)) (hsoft.getD (2 * t + 1)) s bit
  have hINF : (12 : R) + 2 < INF := by
    unfold INF
    norm_num
  exact lt_of_le_of_lt (add_le_add (hpm s hs) hadd) hINF

theorem survivors_forward (vit : Viterbi) {soft : List R} (hsoft : Hard soft) (nbits : ℕ) :
    (vit.forward soft nbits).2.length = nbits ∧
      (trellis soft).Survivors last (live (vit.forward soft nbits).1)
        (fun s => (vit.forward soft nbits).1[s])
        ((vit.forward soft nbits).2.map fun tbt s => tbt[s]) := by
  induction nbits with
  | zero =>
    exact ⟨rfl, Trellis.survivors_nil live_start rfl⟩
  | succ n ih =>
    obtain ⟨hlen, hsurv⟩ := ih
    have hsel := selects_step hsoft n (vit.tb_.getD n (Vector.replicate NS 0))
      (pm_le_of_survivors hsoft hsurv)
    rw [forward_succ]
    exact ⟨congrArg (· + 1) hlen, hsurv.step last_ns (by rwa [List.length_map, hlen])⟩

theorem best_decode (vit : Viterbi) {soft : List R} (hsoft : Hard soft) (nbits : ℕ) :
    (vit.decode soft nbits).2.length = nbits ∧
      (trellis soft).Best 0 (vit.decode soft nbits).2.reverse := by
  obtain ⟨hlen, hsurv⟩ := survivors_forward vit hsoft nbits
  have hzero : live (vit.forward soft nbits).1 0 := by
    have h := hsurv.live_state (List.replicate nbits false) (by simp [hlen])
    have hstate : (trellis soft).state (List.replicate nbits false) = 0 :=
      eq_of_testBit fun k hk => by
        rw [testBit_state soft _ hk, getD_zeros]
        simp
    rwa [hstate] at h
  have hbest := hsurv.best 0 hzero
  rw [← walkBack_eq_trace] at hbest
  unfold Viterbi.decode
  dsimp only
  rw [List.reverse_reverse]
  refine ⟨?_, hbest⟩
  rw [List.length_reverse, walkBack_eq_trace, Trellis.length_trace, List.length_map, hlen]

/-! ## Evaluation

The same over lists, where the states are taken in pairs, for evaluation with an empty scratch. -/

/-- Each element of a list twice. -/
def twice {α : Type*} : List α → List α
  | [] => []
  | x :: l => x :: x :: twice l

/-- The entries after a step. -/
def entries (a b : ℤ) (pm : List ℤ) : List (ℤ × Fin NS) :=
  (List.finRange NS).zipWith
    (fun n p => offer a b n (offer a b n (INF, 0) (lo n) p.1) (hi n) p.2)
    (twice ((pm.take 32).zip (pm.drop 32)))

/-- `Viterbi.forward` over lists. -/
def forwardLists (soft : List ℤ) (nbits : ℕ) : List ℤ × List (List (Fin NS)) :=
  (List.range nbits).foldl
    (fun r t =>
      let row := entries (soft.getD (2 * t) 0) (soft.getD (2 * t + 1) 0) r.1
      (row.map Prod.fst, row.map Prod.snd :: r.2))
    (0 :: List.replicate 63 INF, [])

/-- `walkBack` over lists. -/
def walkLists : List (List (Fin NS)) → Fin NS → List Bool
  | [], _ => []
  | tbt :: rows, s => s.val.testBit 0 :: walkLists rows (tbt.getD s.val 0)

@[simp]
theorem length_twice {α : Type*} (l : List α) : (twice l).length = 2 * l.length := by
  induction l with
  | nil => rfl
  | cons x l ih =>
    rw [twice, List.length_cons, List.length_cons, ih, List.length_cons]
    omega

theorem getElem?_twice {α : Type*} (l : List α) (i : ℕ) : (twice l)[i]? = l[i / 2]? := by
  induction l generalizing i with
  | nil => rfl
  | cons x l ih =>
    rw [twice]
    rcases i with _ | _ | i
    · rfl
    · rfl
    · rw [List.getElem?_cons_succ, List.getElem?_cons_succ, ih,
        show (i + 1 + 1) / 2 = i / 2 + 1 by omega, List.getElem?_cons_succ]

theorem entries_eq (a b : ℤ) (pm : Vector ℤ NS) :
    entries a b pm.toList =
      (List.finRange NS).map (step a b pm (Vector.replicate NS 0)).entry := by
  refine List.ext_getElem ?_ fun i hi₁ hi₂ => ?_
  · simp only [entries, List.length_zipWith, length_twice, List.length_zip, List.length_take,
      List.length_drop, Vector.length_toList, List.length_finRange, List.length_map]
    decide
  · have hn : i < NS := by simpa using hi₂
    have hpair : (twice ((pm.toList.take 32).zip (pm.toList.drop 32)))[i]? =
        some (pm[lo ⟨i, hn⟩], pm[hi ⟨i, hn⟩]) := by
      have hlo : i / 2 < 32 := Nat.div_lt_of_lt_mul hn
      rw [getElem?_twice, List.getElem?_zip_eq_some, List.getElem?_take_of_lt hlo,
        List.getElem?_drop, Nat.add_comm]
      exact ⟨by simp [lo], by simp [hi]⟩
    obtain ⟨hlt, hval⟩ := List.getElem?_eq_some_iff.mp hpair
    simp only [entries, List.getElem_zipWith, List.getElem_map, List.getElem_finRange]
    rw [hval, entry_step]
    simp

theorem map_finRange_getElem {α : Type*} (v : Vector α NS) :
    (List.finRange NS).map (fun n => v[n]) = v.toList :=
  List.ext_getElem (by simp) fun i _ _ => by simp

theorem forwardLists_eq (soft : List ℤ) (nbits : ℕ) :
    forwardLists soft nbits = (((Viterbi.mk []).forward soft nbits).1.toList,
      ((Viterbi.mk []).forward soft nbits).2.map Vector.toList) := by
  have hnpm : ∀ r : Row ℤ, ((List.finRange NS).map r.entry).map Prod.fst = r.npm.toList := by
    intro r
    rw [List.map_map, ← map_finRange_getElem]
    rfl
  have htbt : ∀ r : Row ℤ, ((List.finRange NS).map r.entry).map Prod.snd = r.tbt.toList := by
    intro r
    rw [List.map_map, ← map_finRange_getElem]
    rfl
  induction nbits with
  | zero => rfl
  | succ n ih =>
    unfold forwardLists at ih ⊢
    rw [List.range_succ, List.foldl_append, ih, forward_succ]
    simp only [List.foldl_cons, List.foldl_nil]
    rw [entries_eq, hnpm, htbt, List.map_cons]
    rfl

theorem walkLists_eq (rows : List (Vector (Fin NS) NS)) (s : Fin NS) :
    walkLists (rows.map Vector.toList) s = walkBack rows s := by
  induction rows generalizing s with
  | nil => rfl
  | cons tbt rows ih =>
    have hget : tbt.toList.getD s.val 0 = tbt[s] := by
      simp [List.getD_eq_getElem?_getD]
    rw [List.map_cons, walkLists, walkBack, hget, ih]

theorem walkBack_forward_eq (soft : List ℤ) (nbits : ℕ) (s : Fin NS) :
    walkBack ((Viterbi.mk []).forward soft nbits).2 s =
      walkLists (forwardLists soft nbits).2 s := by
  rw [forwardLists_eq, walkLists_eq]

end Bewe.Wifi
