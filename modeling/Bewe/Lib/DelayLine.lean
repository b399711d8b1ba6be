import Bewe.Lib.Ring
import Mathlib.Algebra.BigOperators.Group.Finset.Basic
import Mathlib.Algebra.Module.Defs
import Mathlib.Data.List.GetD
import Mathlib.Logic.Function.Iterate

/-!
# Delay lines

A ring of `T` slots into which the items of a sequence are put one after another, and which is read
backwards from the slot written last. `Holds` says that it has the last `T` items. `T` steps back
from where the next item goes still find an item each (`Holds.read_back`), the newest first. One
step further is once around: it finds the newest item again (`Holds.read_around`), not the one
before the oldest, which is gone.

The items are what a filter weighs with its coefficients: `sumBack` is the sum that a loop over the
coefficients collects on its way back, `convolution` the sum that the filter is.
-/

namespace Lib

/-- The slots, and the one that is written next. -/
structure DelayLine (α : Type*) where
  slots : List α
  pos : ℕ

namespace DelayLine

variable {α : Type*}

/-- The slot behind another. -/
def ahead (T j : ℕ) : ℕ := if T ≤ j + 1 then 0 else j + 1

/-- The slot in front of another. -/
def back (T j : ℕ) : ℕ := if j = 0 then T - 1 else j - 1

/-- The next item. -/
def push (l : DelayLine α) (a : α) : DelayLine α :=
  ⟨l.slots.set l.pos a, ahead l.slots.length l.pos⟩

/-- The slots are those of the last items of a sequence. -/
structure Holds (l : DelayLine α) (past : List α) : Prop where
  full : l.slots.length ≤ past.length
  pos_eq : l.pos = past.length % l.slots.length
  slot : ∀ i, i < past.length → past.length ≤ i + l.slots.length →
    l.slots[i % l.slots.length]? = past[i]?

section

variable {T i : ℕ}

theorem ahead_mod (hT : 0 < T) (i : ℕ) : ahead T (i % T) = (i + 1) % T := by
  have hlt := Nat.mod_lt i hT
  unfold ahead
  rw [← Nat.mod_add_mod]
  split_ifs with hwrap
  · rw [show i % T + 1 = T by omega, Nat.mod_self]
  · exact (Nat.mod_eq_of_lt (by omega)).symm

theorem back_mod (hT : 0 < T) (i : ℕ) : back T ((i + 1) % T) = i % T := by
  have hlt := Nat.mod_lt i hT
  rw [← ahead_mod hT]
  unfold back ahead
  by_cases hwrap : T ≤ i % T + 1
  · rw [if_pos hwrap, if_pos rfl]
    omega
  · rw [if_neg hwrap, if_neg (Nat.succ_ne_zero _), Nat.add_sub_cancel]

theorem ahead_iterate (hT : 0 < T) (i t : ℕ) : (ahead T)^[t] (i % T) = (i + t) % T := by
  induction t with
  | zero => rfl
  | succ t ih => rw [Function.iterate_succ_apply', ih, ahead_mod hT, Nat.add_assoc]

theorem back_iterate (hT : 0 < T) (i t : ℕ) : (back T)^[t] ((i + t) % T) = i % T := by
  induction t with
  | zero => rfl
  | succ t ih => rw [Function.iterate_succ_apply, ← Nat.add_assoc, back_mod hT, ih]

end

section

variable {l : DelayLine α} {past : List α}

@[simp]
theorem length_push (l : DelayLine α) (a : α) : (l.push a).slots.length = l.slots.length :=
  List.length_set

theorem holds_replicate (T : ℕ) (a : α) :
    Holds ⟨List.replicate T a, 0⟩ (List.replicate T a) where
  full := le_refl _
  pos_eq := (Nat.mod_self _).symm
  slot := by
    intro i hi _
    dsimp only
    rw [Nat.mod_eq_of_lt hi]

theorem Holds.push (h : l.Holds past) (hl : 0 < l.slots.length) (a : α) :
    (l.push a).Holds (past ++ [a]) where
  full := by
    have := h.full
    rw [length_push, List.length_append]
    omega
  pos_eq := by
    rw [length_push, List.length_append, List.length_singleton]
    unfold DelayLine.push
    rw [h.pos_eq]
    exact ahead_mod hl _
  slot := by
    intro i hi hlast
    rw [length_push, List.length_append, List.length_singleton] at hlast
    rw [List.length_append, List.length_singleton] at hi
    rw [length_push]
    unfold DelayLine.push
    rw [h.pos_eq]
    rcases Nat.lt_or_ge i past.length with hold | hnew
    · have hslot := Ring.mod_ne_mod hold (by omega : past.length < i + l.slots.length)
      rw [List.getElem?_set_ne hslot, List.getElem?_append_left hold]
      exact h.slot i hold (by omega)
    · have hi : i = past.length := by omega
      rw [hi, List.getElem?_set_self (Nat.mod_lt _ hl), List.getElem?_concat_length]

theorem Holds.read_back (h : l.Holds past) {t : ℕ} (ht : t < l.slots.length) :
    l.slots[(back l.slots.length)^[t + 1] l.pos]? = past[past.length - 1 - t]? := by
  have hfull := h.full
  have hsplit : past.length = past.length - 1 - t + (t + 1) := by omega
  rw [h.pos_eq]
  conv_lhs => rw [hsplit, back_iterate (by omega)]
  exact h.slot _ (by omega) (by omega)

theorem Holds.read_ahead (h : l.Holds past) {t : ℕ} (ht : t < l.slots.length) :
    l.slots[(ahead l.slots.length)^[t] l.pos]? = past[past.length - l.slots.length + t]? := by
  have hfull := h.full
  have hslot := h.slot (past.length - l.slots.length + t) (by omega) (by omega)
  have hturn : (past.length + t) % l.slots.length =
      (past.length - l.slots.length + t) % l.slots.length := by
    rw [← Nat.add_mod_right (past.length - l.slots.length + t)]
    congr 1
    omega
  rw [h.pos_eq, ahead_iterate (by omega), hturn, hslot]

theorem Holds.read_around (h : l.Holds past) (hl : 0 < l.slots.length)
    (hpast : l.slots.length < past.length) :
    l.slots[(back l.slots.length)^[l.slots.length + 1] l.pos]? = past[past.length - 1]? := by
  have hsplit : past.length = past.length - 1 - l.slots.length + (l.slots.length + 1) := by omega
  have hturn : (past.length - 1 - l.slots.length) % l.slots.length =
      (past.length - 1) % l.slots.length := by
    rw [← Nat.add_mod_right, Nat.sub_add_cancel (by omega)]
  rw [h.pos_eq]
  conv_lhs => rw [hsplit, back_iterate hl, hturn]
  exact h.slot _ (by omega) (by omega)

end

/-! ## Filters -/

section

variable {K M : Type*} [Semiring K] [AddCommMonoid M] [Module K M]

/-- The item `t` before item `n`, zero before the first. -/
def delayed (x : List M) (n t : ℕ) : M := if t ≤ n then x.getD (n - t) 0 else 0

/-- Item `n` and those before it, weighed with coefficients. -/
def convolution (h : List K) (x : List M) (n : ℕ) : M :=
  ∑ t ∈ Finset.range h.length, h.getD t 0 • delayed x n t

/-- What a loop over coefficients adds up that goes a slot back for each. -/
def sumBack (slots : List M) (T : ℕ) (h : List K) (acc : M) (j : ℕ) : M × ℕ :=
  h.foldl (fun o c => (o.1 + c • slots.getD (back T o.2) 0, back T o.2)) (acc, j)

theorem sumBack_eq (slots : List M) (T : ℕ) (h : List K) (acc : M) (j : ℕ) :
    (sumBack slots T h acc j).1 = acc + ∑ t ∈ Finset.range h.length,
      h.getD t 0 • slots.getD ((back T)^[t + 1] j) 0 := by
  induction h generalizing acc j with
  | nil => exact (add_zero acc).symm
  | cons c h ih =>
    rw [sumBack, List.foldl_cons, ← sumBack, ih, List.length_cons, Finset.sum_range_succ',
      add_assoc, add_comm (c • _)]
    rfl

theorem delayed_append {x : List M} {n : ℕ} (hn : n < x.length) (y : List M) (t : ℕ) :
    delayed (x ++ y) n t = delayed x n t := by
  unfold delayed
  rw [List.getD_append _ _ _ _ (by omega)]

theorem convolution_append (h : List K) {x : List M} {n : ℕ} (hn : n < x.length) (y : List M) :
    convolution h (x ++ y) n = convolution h x n :=
  Finset.sum_congr rfl fun t _ => by rw [delayed_append hn]

theorem delayed_eq (x : List M) {n t T : ℕ} (ht : t ≤ T) :
    (List.replicate T 0 ++ x).getD (T + n - t) 0 = delayed x n t := by
  unfold delayed
  split_ifs with hn
  · have hlen : (List.replicate T (0 : M)).length ≤ T + n - t := by
      rw [List.length_replicate]
      omega
    rw [List.getD_append_right _ _ _ _ hlen, List.length_replicate]
    congr 1
    omega
  · rw [List.getD_append _ _ _ _ (by rw [List.length_replicate]; omega), List.getD_replicate]
    omega

end

end DelayLine

end Lib
