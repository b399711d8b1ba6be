import Mathlib.Tactic.Common
import Mathlib.Order.Interval.Finset.Nat

/-!
# Rings

Slots in which a sequence is kept, item `i` in slot `i % T` of the `T` there are. `Holds` says that
the items of an interval are in their slots. Items within `T` of each other have different slots, so
what is done to the slots of items behind the interval leaves it alone (`Holds.keep`), and storing
the items that come next, up to the end of the ring, extends it (`Holds.store`).
-/

namespace Lib.Ring

variable {α : Type*}

/-- The items `lo` to `hi` of a sequence are in their slots. -/
def Holds (T : ℕ) (ring f : ℕ → Option α) (lo hi : ℕ) : Prop :=
  ∀ i, lo ≤ i → i < hi → ring (i % T) = f i

/-- Items in the slots from `pos` on. -/
def store (ring : ℕ → Option α) (pos : ℕ) (items : List α) : ℕ → Option α := fun k =>
  if pos ≤ k ∧ k < pos + items.length then items[k - pos]? else ring k

/-- The `n` slots from `pos` on. -/
def fetch (ring : ℕ → Option α) (pos n : ℕ) : List (Option α) :=
  (List.range n).map fun k => ring (pos + k)

variable {T lo lo' hi hi' : ℕ} {ring ring' f f' : ℕ → Option α}

theorem Holds.mono (h : Holds T ring f lo hi) (hlo : lo ≤ lo') (hhi : hi' ≤ hi) :
    Holds T ring f lo' hi' :=
  fun i hl hr => h i (hlo.trans hl) (hr.trans_le hhi)

theorem Holds.congr (h : Holds T ring f lo hi) (hf : ∀ i, i < hi → f' i = f i) :
    Holds T ring f' lo hi :=
  fun i hl hr => (h i hl hr).trans (hf i hr).symm

theorem mod_ne_mod {i j : ℕ} (hij : i < j) (hji : j < i + T) : j % T ≠ i % T := by
  intro heq
  have hinj := Nat.mod_injOn_Ico i T
  have hi : i ∈ (Finset.Ico i (i + T) : Set ℕ) := by
    rw [Finset.mem_coe, Finset.mem_Ico]
    omega
  have hj : j ∈ (Finset.Ico i (i + T) : Set ℕ) := by
    rw [Finset.mem_coe, Finset.mem_Ico]
    omega
  exact absurd (hinj hj hi heq) (by omega)

/-- What is done to the slots of items behind the interval, but less than a ring behind its
beginning, leaves it alone. -/
theorem Holds.keep (h : Holds T ring f lo hi) (hend : hi' ≤ lo + T)
    (hsame : ∀ k, (∀ j, hi ≤ j → j < hi' → j % T ≠ k) → ring' k = ring k) :
    Holds T ring' f lo hi := by
  intro i hl hr
  rw [hsame, h i hl hr]
  intro j hj hj'
  exact mod_ne_mod (hr.trans_le hj) (by omega)

theorem mod_of_piece {len i : ℕ} (hfit : hi % T + len ≤ T) (hl : hi ≤ i)
    (hr : i < hi + len) : i % T = hi % T + (i - hi) := by
  have hsplit : i = hi + (i - hi) := by omega
  conv_lhs => rw [hsplit, Nat.add_mod, Nat.mod_eq_of_lt (show i - hi < T by omega)]
  exact Nat.mod_eq_of_lt (by omega)

theorem store_of_ne {items : List α} (hfit : hi % T + items.length ≤ T) {k : ℕ}
    (hne : ∀ j, hi ≤ j → j < hi + items.length → j % T ≠ k) :
    store ring (hi % T) items k = ring k := by
  refine if_neg ?_
  rintro ⟨hl, hr⟩
  refine hne (hi + (k - hi % T)) (by omega) (by omega) ?_
  rw [mod_of_piece hfit (by omega) (by omega)]
  omega

theorem Holds.store {items : List α} (h : Holds T ring f lo hi)
    (hfit : hi % T + items.length ≤ T) (hend : hi + items.length ≤ lo + T)
    (hitems : ∀ m, m < items.length → items[m]? = f (hi + m)) :
    Holds T (store ring (hi % T) items) f lo (hi + items.length) := by
  intro i hl hr
  rcases Nat.lt_or_ge i hi with hold | hnew
  · exact h.keep hend (fun k hk => store_of_ne hfit hk) i hl hold
  · have hslot := mod_of_piece hfit hnew hr
    rw [Ring.store, if_pos (by omega), hslot, Nat.add_sub_cancel_left, hitems _ (by omega)]
    congr 1
    omega

theorem Holds.fetch {n i : ℕ} (h : Holds T ring f lo hi) (hfit : i % T + n ≤ T)
    (hl : lo ≤ i) (hr : i + n ≤ hi) : fetch ring (i % T) n = (List.range' i n).map f := by
  rw [Ring.fetch, List.range'_eq_map_range, List.map_map]
  refine List.map_congr_left fun k hk => ?_
  have hk : k < n := List.mem_range.1 hk
  show ring (i % T + k) = f (i + k)
  rw [← h (i + k) (by omega) (by omega), mod_of_piece hfit (Nat.le_add_right i k) (by omega),
    Nat.add_sub_cancel_left]

end Lib.Ring
