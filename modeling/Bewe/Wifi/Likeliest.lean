import Bewe.Wifi.Viterbi
import Mathlib.Data.List.Induction

/-!
# The likeliest input of the Viterbi decoder

What `Viterbi::decode` is for: of the sequences of input bits that end in state 0, the one whose
outputs correlate most with the soft bits (`Likeliest`), in exact arithmetic. The decoder keeps the
negative of the correlation as its metric, and takes a metric from `INF` on for a state that nothing
leads to. So a sequence is forgotten as soon as its correlation is down to `-INF`, also when the
soft bits that follow would make up for it; and where all that lead to a state are forgotten, the
way back goes through what an earlier call has left in the scratch. `Traced` says among which
sequences that leaves the choice, and `likeliest_decode_iff` that the decoder makes the best of it:
it returns a likeliest sequence if and only if there is one among them.
-/

namespace Bewe.Wifi

open Lib

/-! ## Correlation -/

/-- The state that a sequence of bits leads to. -/
def leads (bits : List Bool) : Fin NS := bits.foldl ns 0

/-- The outputs along the path of a sequence. -/
def outputs : Fin NS → List Bool → List Bool
  | _, [] => []
  | s, bit :: bits => o0 s bit :: o1 s bit :: outputs (ns s bit) bits

variable {R : Type*} [CommRing R]

/-- The correlation of the soft bits with the outputs of a sequence: a soft bit counts for an output
0 and against an output 1. -/
def correlation (soft : List R) (bits : List Bool) : R :=
  ((outputs 0 bits).zipWith (fun out x => if out then -x else x) soft).sum

section

variable [LinearOrder R]

/-- Of the sequences of its length that end in state 0, this one has the largest correlation. -/
structure Likeliest (soft : List R) (nbits : ℕ) (bits : List Bool) : Prop where
  length_eq : bits.length = nbits
  ends : leads bits = 0
  most : ∀ bits', bits'.length = nbits → leads bits' = 0 →
    correlation soft bits' ≤ correlation soft bits

/-- The correlation is above `-INF` after every bit. -/
def Kept (soft : List R) (bits : List Bool) : Prop :=
  ∀ k, -INF < correlation soft (bits.take k)

/-- A sequence like that leads to the state. -/
def Reached (soft : List R) (t : ℕ) (s : Fin NS) : Prop :=
  ∃ bits, bits.length = t ∧ leads bits = s ∧ Kept soft bits

/-- The sequences that the way back from a state after `t` bits can find: those that were kept; or,
if none was, those to the state that the scratch has for it, and then its own last bit. -/
inductive Viterbi.Traced (vit : Viterbi) (soft : List R) : ℕ → Fin NS → List Bool → Prop
  | start (s : Fin NS) : Traced vit soft 0 s []
  | kept {t : ℕ} {s : Fin NS} {bits : List Bool} (hlen : bits.length = t) (hleads : leads bits = s)
      (hkept : Kept soft bits) : Traced vit soft t s bits
  | stale {t : ℕ} {s : Fin NS} {bits : List Bool} (hnone : ¬Reached soft (t + 1) s)
      (h : Traced vit soft t (vit.entry t s) bits) : Traced vit soft (t + 1) s (bits ++ [last s])

end

/-! ## Correlation and metric -/

theorem leads_append (bits : List Bool) (bit : Bool) :
    leads (bits ++ [bit]) = ns (leads bits) bit := by
  rw [leads, List.foldl_append]
  rfl

theorem state_reverse (soft : List R) (bits : List Bool) :
    (trellis soft).state bits.reverse = leads bits := by
  induction bits using List.reverseRecOn with
  | nil => rfl
  | append_singleton bits bit ih =>
    rw [List.reverse_append, leads_append, ← ih]
    rfl

theorem outputs_append (s : Fin NS) (bits : List Bool) (bit : Bool) :
    outputs s (bits ++ [bit]) =
      outputs s bits ++ [o0 (bits.foldl ns s) bit, o1 (bits.foldl ns s) bit] := by
  induction bits generalizing s with
  | nil => rfl
  | cons b bits ih => rw [List.cons_append, outputs, ih, outputs, List.foldl_cons]; rfl

theorem length_outputs (s : Fin NS) (bits : List Bool) :
    (outputs s bits).length = 2 * bits.length := by
  induction bits generalizing s with
  | nil => rfl
  | cons b bits ih =>
    rw [outputs, List.length_cons, List.length_cons, ih, List.length_cons]
    ring

theorem sum_zipWith_append (f : Bool → R → R) (l l' : List Bool) (soft : List R) :
    ((l ++ l').zipWith f soft).sum =
      (l.zipWith f soft).sum + (l'.zipWith f (soft.drop l.length)).sum := by
  induction l generalizing soft with
  | nil => simp
  | cons out l ih =>
    cases soft with
    | nil => simp
    | cons x soft => simp [ih, add_assoc]

theorem sum_zipWith_pair (out out' : Bool) (soft : List R) (k : ℕ) :
    ([out, out'].zipWith (fun out x => if out then -x else x) (soft.drop k)).sum =
      (if out then -soft.getD k 0 else soft.getD k 0) +
        (if out' then -soft.getD (k + 1) 0 else soft.getD (k + 1) 0) := by
  have hget : ∀ j, soft.getD (k + j) 0 = (soft.drop k).getD j 0 := by
    intro j
    rw [List.getD_eq_getElem?_getD, List.getD_eq_getElem?_getD, List.getElem?_drop]
  rw [hget 1, ← Nat.add_zero k, hget 0]
  rcases soft.drop (k + 0) with _ | ⟨x, _ | ⟨y, l⟩⟩ <;> simp

theorem correlation_append (soft : List R) (bits : List Bool) (bit : Bool) :
    correlation soft (bits ++ [bit]) = correlation soft bits -
      branch (soft.getD (2 * bits.length) 0) (soft.getD (2 * bits.length + 1) 0) (leads bits)
        bit := by
  rw [correlation, outputs_append, sum_zipWith_append, length_outputs, sum_zipWith_pair, branch,
    correlation, leads]
  ring

theorem metric_reverse (soft : List R) (bits : List Bool) :
    (trellis soft).metric bits.reverse = -correlation soft bits := by
  induction bits using List.reverseRecOn with
  | nil => simp [Trellis.metric, correlation, outputs]
  | append_singleton bits bit ih =>
    have hcost : (trellis soft).cost bits.length (leads bits) bit =
        branch (soft.getD (2 * bits.length) 0) (soft.getD (2 * bits.length + 1) 0) (leads bits)
          bit := rfl
    rw [List.reverse_append, List.reverse_singleton, List.singleton_append, Trellis.metric,
      state_reverse, List.length_reverse, hcost, ih, correlation_append]
    ring

variable [LinearOrder R]

theorem length_back (vit : Viterbi) (soft : List R) (t : ℕ) (s : Fin NS) :
    (walkBack (vit.forward soft t).2 s).reverse.length = t := by
  rw [List.length_reverse, length_walkBack_forward]

variable [IsStrictOrderedRing R]

/-- A bit more does not change which of two sequences to the same state is the better. -/
theorem correlation_append_le (soft : List R) {bits bits' : List Bool} (bit : Bool)
    (hlen : bits'.length = bits.length) (hleads : leads bits' = leads bits)
    (hle : correlation soft bits' ≤ correlation soft bits) :
    correlation soft (bits' ++ [bit]) ≤ correlation soft (bits ++ [bit]) := by
  rw [correlation_append, correlation_append, hlen, hleads]
  linarith

theorem within_reverse (soft : List R) (bits : List Bool) :
    (trellis soft).Within (· < INF) bits.reverse ↔ Kept soft bits := by
  constructor
  · intro h k
    have hk := h (bits.take k).reverse (List.reverse_suffix.2 (List.take_prefix k bits))
    rw [metric_reverse] at hk
    linarith
  · intro h u hu
    have hpre : u.reverse <+: bits := by
      rw [← List.reverse_suffix, List.reverse_reverse]
      exact hu
    have hk := h u.reverse.length
    rw [← List.prefix_iff_eq_take.1 hpre] at hk
    rw [← List.reverse_reverse u, metric_reverse]
    linarith

/-! ## The way back -/

theorem back_of_live (vit : Viterbi) (soft : List R) {t : ℕ} {s : Fin NS}
    (hs : live (vit.forward soft t).1 s) :
    leads (walkBack (vit.forward soft t).2 s).reverse = s ∧
      Kept soft (walkBack (vit.forward soft t).2 s).reverse ∧
      ∀ bits, bits.length = t → leads bits = s → Kept soft bits →
        correlation soft bits ≤ correlation soft (walkBack (vit.forward soft t).2 s).reverse := by
  have hbest := (survivorsWithin_forward vit soft t).2.best s hs
  rw [← walkBack_eq_trace, ← List.reverse_reverse (walkBack (vit.forward soft t).2 s)] at hbest
  refine ⟨?_, (within_reverse soft _).1 hbest.within, fun bits hlen hleads hkept => ?_⟩
  · rw [← state_reverse soft, hbest.leads]
  · have hle := hbest.metric_le ((within_reverse soft bits).2 hkept)
      (by rw [List.length_reverse, List.length_reverse, hlen, length_back])
      ((state_reverse soft bits).trans hleads)
    rw [metric_reverse, metric_reverse] at hle
    exact neg_le_neg_iff.1 hle

theorem live_iff_reached (vit : Viterbi) (soft : List R) (t : ℕ) (s : Fin NS) :
    live (vit.forward soft t).1 s ↔ Reached soft t s := by
  constructor
  · intro hs
    obtain ⟨hleads, hkept, -⟩ := back_of_live vit soft hs
    exact ⟨_, length_back vit soft t s, hleads, hkept⟩
  · rintro ⟨bits, hbits, rfl, hkept⟩
    obtain ⟨hlen, hsurv⟩ := survivorsWithin_forward vit soft t
    rw [← state_reverse soft]
    refine hsurv.live_state _ ((within_reverse soft bits).2 hkept) ?_
    rw [List.length_reverse, hbits, List.length_map, hlen]

/-- The way back finds one of the sequences that it can find, all of which lead where it does and
correlate no more. -/
theorem traced_walkBack (vit : Viterbi) (soft : List R) (t : ℕ) (s : Fin NS) :
    vit.Traced soft t s (walkBack (vit.forward soft t).2 s).reverse ∧
      ∀ bits, vit.Traced soft t s bits →
        bits.length = t ∧ leads bits = leads (walkBack (vit.forward soft t).2 s).reverse ∧
          correlation soft bits ≤ correlation soft (walkBack (vit.forward soft t).2 s).reverse := by
  induction t generalizing s with
  | zero =>
    refine ⟨Viterbi.Traced.start s, fun bits h => ?_⟩
    have hnil : bits = [] := by
      cases h with
      | start => rfl
      | kept hlen _ _ => exact List.length_eq_zero_iff.1 hlen
    rw [hnil]
    exact ⟨rfl, rfl, le_rfl⟩
  | succ t ih =>
    by_cases hs : live (vit.forward soft (t + 1)).1 s
    · have hreached := (live_iff_reached vit soft (t + 1) s).1 hs
      obtain ⟨hleads, hkept, hbest⟩ := back_of_live vit soft hs
      refine ⟨Viterbi.Traced.kept (length_back vit soft (t + 1) s) hleads hkept, fun bits h => ?_⟩
      cases h with
      | kept hlen hto hkept' => exact ⟨hlen, hto.trans hleads.symm, hbest bits hlen hto hkept'⟩
        | stale hnone _ => exact absurd hreached hnone
    · have hnone : ¬Reached soft (t + 1) s := fun h =>
        hs ((live_iff_reached vit soft (t + 1) s).2 h)
      -- the row still has what the scratch had, and the way back goes on from there
      have hback : (walkBack (vit.forward soft (t + 1)).2 s).reverse =
          (walkBack (vit.forward soft t).2 (vit.entry t s)).reverse ++ [last s] := by
        rw [forward_succ] at hs ⊢
        rw [walkBack, List.reverse_cons, tbt_of_not_live _ hs]
        rfl
      obtain ⟨hmem, hall⟩ := ih (vit.entry t s)
      rw [hback]
      refine ⟨Viterbi.Traced.stale hnone hmem, fun bits h => ?_⟩
      cases h with
      | kept hlen hto hkept => exact absurd ⟨bits, hlen, hto, hkept⟩ hnone
      | @stale _ _ bits _ h =>
        obtain ⟨hlen, hto, hle⟩ := hall bits h
        refine ⟨by rw [List.length_append, hlen]; rfl, ?_, ?_⟩
        · rw [leads_append, leads_append, hto]
        · exact correlation_append_le soft (last s) (hlen.trans (length_back vit soft t _).symm)
            hto hle

/-- The decoder returns a likeliest sequence if and only if its way back can find one. -/
theorem likeliest_decode_iff (vit : Viterbi) (soft : List R) (nbits : ℕ) :
    Likeliest soft nbits (vit.decode soft nbits).2 ↔
      ∃ bits, vit.Traced soft nbits 0 bits ∧ Likeliest soft nbits bits := by
  obtain ⟨hmem, hall⟩ := traced_walkBack vit soft nbits 0
  constructor
  · exact fun h => ⟨_, hmem, h⟩
  · rintro ⟨bits, htraced, hbits⟩
    obtain ⟨-, hto, hle⟩ := hall bits htraced
    obtain ⟨hlen, -, -⟩ := hall _ hmem
    exact ⟨hlen, hto.symm.trans hbits.ends,
      fun bits' hlen' hends => (hbits.most bits' hlen' hends).trans hle⟩

theorem likeliest_decode_zero :
    Likeliest ([1, 1] : List ℤ) 1 ((Viterbi.mk []).decode ([1, 1] : List ℤ) 1).2 := by
  refine (likeliest_decode_iff (Viterbi.mk []) [1, 1] 1).2
    ⟨[false], Viterbi.Traced.kept rfl rfl fun k => ?_, rfl, rfl, fun bits hlen hends => ?_⟩
  · rcases k with _ | k
    · decide
    · rw [List.take_of_length_le (by simp)]
      decide
  · obtain ⟨bit, rfl⟩ := List.length_eq_one_iff.1 hlen
    cases bit with
    | false => exact le_rfl
    | true => exact absurd hends (by decide)

/-- A first symbol that costs the sequence that begins with a one as much as `INF`, and six that
make up for it. -/
def clipped : List ℤ :=
  [500000000, 500000000] ++
    ((outputs 0 [true, false, false, false, false, false, false]).drop 2).map
      fun out => if out then -200000000 else 0

/-- The decoder returns seven zeros, with the correlation -600000000, where a one and six zeros have
600000000. -/
theorem not_likeliest_clipped :
    ¬Likeliest clipped 7 ((Viterbi.mk []).decode clipped 7).2 := by
  intro h
  have hdecode : ((Viterbi.mk []).decode clipped 7).2 = List.replicate 7 false := by
    change (walkBack ((Viterbi.mk []).forward clipped 7).2 0).reverse = _
    rw [walkBack_forward_eq]
    decide
  rw [hdecode] at h
  have hmore := h.most [true, false, false, false, false, false, false] rfl rfl
  exact absurd hmore (by decide)

end Bewe.Wifi
