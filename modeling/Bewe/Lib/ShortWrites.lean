import Mathlib.Data.List.Basic
import Mathlib.Data.List.Infix
import Mathlib.Data.List.TakeDrop
import Mathlib.Tactic.Common

/-!
# Writes that may come short

Buffers that are written one after another, of each of which only so much gets into the file. The file
has all that was to be written just if no write comes short (`landed_eq_iff`).
-/

namespace Lib

variable {α : Type*}

/-- What is in the file of buffers that are written from the `i`-th write on: of each as much as its
write takes.
-/
def landedFrom (takes : ℕ → ℕ) : ℕ → List (List α) → List α
  | _, [] => []
  | i, b :: bs => b.take (takes i) ++ landedFrom takes (i + 1) bs

/-- No write comes short. -/
def WholeFrom (takes : ℕ → ℕ) : ℕ → List (List α) → Prop
  | _, [] => True
  | i, b :: bs => b.length ≤ takes i ∧ WholeFrom takes (i + 1) bs

theorem length_landedFrom_le (takes : ℕ → ℕ) (i : ℕ) (bs : List (List α)) :
    (landedFrom takes i bs).length ≤ bs.flatten.length := by
  induction bs generalizing i with
  | nil => exact le_rfl
  | cons b bs ih =>
    rw [landedFrom, List.flatten_cons, List.length_append, List.length_append]
    exact Nat.add_le_add (List.length_take_le' _ _) (ih (i + 1))

theorem length_landedFrom_eq_iff (takes : ℕ → ℕ) (i : ℕ) (bs : List (List α)) :
    (landedFrom takes i bs).length = bs.flatten.length ↔ WholeFrom takes i bs := by
  induction bs generalizing i with
  | nil => exact ⟨fun _ => trivial, fun _ => rfl⟩
  | cons b bs ih =>
    have hrest := length_landedFrom_le takes (i + 1) bs
    have hfirst : (b.take (takes i)).length = min (takes i) b.length := List.length_take
    rw [landedFrom, List.flatten_cons, List.length_append, List.length_append, hfirst, WholeFrom,
      ← ih]
    constructor
    · intro h
      exact ⟨by omega, by omega⟩
    · rintro ⟨hb, hbs⟩
      omega

theorem landedFrom_of_whole {takes : ℕ → ℕ} {i : ℕ} {bs : List (List α)}
    (h : WholeFrom takes i bs) : landedFrom takes i bs = bs.flatten := by
  induction bs generalizing i with
  | nil => rfl
  | cons b bs ih => rw [landedFrom, List.take_of_length_le h.1, ih h.2, List.flatten_cons]

/-- What is in the file after it was closed, which keeps `kept` entries of what was written. -/
def landed (takes : ℕ → ℕ) (kept : ℕ) (bs : List (List α)) : List α :=
  (landedFrom takes 0 bs).take kept

theorem landed_eq_iff (takes : ℕ → ℕ) (kept : ℕ) (bs : List (List α)) :
    landed takes kept bs = bs.flatten ↔
      WholeFrom takes 0 bs ∧ bs.flatten.length ≤ kept := by
  have hle := length_landedFrom_le takes 0 bs
  constructor
  · intro h
    have hlen := congrArg List.length h
    rw [landed, List.length_take] at hlen
    exact ⟨(length_landedFrom_eq_iff takes 0 bs).1 (by omega), by omega⟩
  · rintro ⟨hwhole, hkept⟩
    rw [landed, landedFrom_of_whole hwhole, List.take_of_length_le hkept]

end Lib
