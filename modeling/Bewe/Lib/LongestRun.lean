import Mathlib.Tactic

/-!
# The longest run

The loop that looks for the longest run of positions at which something holds. It counts the run
that ends where it is, and keeps the first of the longest with its last position. `Known` is what is
known of the positions so far, `Known.step` that a position more keeps it.
-/

namespace Lib

/-- The run that ends where the loop is, and the longest one with its last position. -/
structure LongestRun where
  run : ℕ
  best_len : ℕ
  best_end : ℤ

namespace LongestRun

/-- One position of the loop. -/
def step (p : ℕ → Bool) (r : LongestRun) (i : ℕ) : LongestRun :=
  if p i then
    if r.best_len < r.run + 1 then ⟨r.run + 1, r.run + 1, i⟩
    else ⟨r.run + 1, r.best_len, r.best_end⟩
  else ⟨0, r.best_len, r.best_end⟩

/-- The loop over the positions from `lo` to before `hi`. -/
def scan (p : ℕ → Bool) (lo hi : ℕ) : LongestRun :=
  (List.range' lo (hi - lo)).foldl (step p) ⟨0, 0, -1⟩

/-- What the loop knows of the positions from `lo` to before `hi`. -/
structure Known (p : ℕ → Bool) (lo hi : ℕ) (r : LongestRun) : Prop where
  run_le : lo + r.run ≤ hi
  run_holds : ∀ j, hi ≤ j + r.run → j < hi → p j = true
  run_most : ∀ a, lo ≤ a → (∀ j, a ≤ j → j < hi → p j = true) → hi ≤ a + r.run
  best_le : r.best_len ≠ 0 → lo + (r.best_len : ℤ) ≤ r.best_end + 1 ∧ r.best_end < hi
  best_holds : ∀ j : ℕ, r.best_end < j + (r.best_len : ℤ) → (j : ℤ) ≤ r.best_end → p j = true
  best_most : ∀ a e, lo ≤ a → e ≤ hi → (∀ j, a ≤ j → j < e → p j = true) → e ≤ a + r.best_len

theorem known_start (p : ℕ → Bool) (lo : ℕ) : Known p lo lo ⟨0, 0, -1⟩ := by
  refine ⟨le_rfl, fun j hj hlt => ?_, fun a ha _ => ha, fun h => absurd rfl h, fun j _ hj => ?_,
    fun a e ha he _ => he.trans ha⟩
  · exact absurd hlt (not_lt.2 hj)
  · dsimp only at hj
    omega

theorem Known.step {p : ℕ → Bool} {lo hi : ℕ} {r : LongestRun} (h : Known p lo hi r) :
    Known p lo (hi + 1) (r.step p hi) := by
  have hrun := h.run_le
  unfold LongestRun.step
  cases hp : p hi with
  | false =>
    -- no run goes over this position
    have hbefore : ∀ {a : ℕ}, (∀ j, a ≤ j → j < hi + 1 → p j = true) → hi + 1 ≤ a := by
      intro a hall
      by_contra hlt
      have htrue := hall hi (by omega) (Nat.lt_succ_self hi)
      rw [hp] at htrue
      exact absurd htrue (by decide)
    refine ⟨?_, fun j hj hlt => ?_, fun a _ hall => hbefore hall, fun hne => ?_, h.best_holds,
      fun a e ha he hall => ?_⟩
    · simp only [Bool.false_eq_true, if_false]
      omega
    · simp only [Bool.false_eq_true, if_false] at hj
      omega
    · simp only [Bool.false_eq_true, if_false] at hne ⊢
      have hle := h.best_le hne
      push_cast
      omega
    · rcases Nat.lt_or_ge hi e with hlt | hge
      · have hall' : ∀ j, a ≤ j → j < hi + 1 → p j = true :=
          fun j hj hj' => hall j hj (by omega)
        have hle := hbefore hall'
        omega
      · exact h.best_most a e ha hge hall
  | true =>
    have hholds : ∀ j, hi + 1 ≤ j + (r.run + 1) → j < hi + 1 → p j = true := by
      intro j hj hlt
      rcases Nat.lt_or_ge j hi with hlt' | hge
      · exact h.run_holds j (by omega) hlt'
      · have heq : j = hi := by omega
        rw [heq, hp]
    have hmost : ∀ a, lo ≤ a → (∀ j, a ≤ j → j < hi + 1 → p j = true) →
        hi + 1 ≤ a + (r.run + 1) := by
      intro a ha hall
      have hle := h.run_most a ha fun j hj hlt => hall j hj (by omega)
      omega
    -- a run is one of those before or ends here
    have hcases : ∀ a e, lo ≤ a → e ≤ hi + 1 → (∀ j, a ≤ j → j < e → p j = true) →
        e ≤ a + r.best_len ∨ e ≤ a + (r.run + 1) := by
      intro a e ha he hall
      rcases Nat.lt_or_ge hi e with hlt | hge
      · have heq : e = hi + 1 := by omega
        subst heq
        exact Or.inr (hmost a ha hall)
      · exact Or.inl (h.best_most a e ha hge hall)
    rw [if_pos rfl]
    split_ifs with hbest
    · refine ⟨?_, hholds, hmost, fun _ => ?_, fun j hj hle => ?_, fun a e ha he hall => ?_⟩
      · dsimp only
        omega
      · dsimp only
        push_cast
        omega
      · dsimp only at hj hle
        exact hholds j (by omega) (by omega)
      · dsimp only
        have hor := hcases a e ha he hall
        omega
    · refine ⟨?_, hholds, hmost, fun hne => ?_, h.best_holds, fun a e ha he hall => ?_⟩
      · dsimp only
        omega
      · have hle := h.best_le hne
        dsimp only
        push_cast
        omega
      · dsimp only
        have hor := hcases a e ha he hall
        omega

/-- What the whole loop knows. -/
theorem known_scan (p : ℕ → Bool) {lo hi : ℕ} (h : lo ≤ hi) : Known p lo hi (scan p lo hi) := by
  obtain ⟨n, rfl⟩ := Nat.exists_eq_add_of_le h
  rw [scan, Nat.add_sub_cancel_left]
  clear h
  induction n with
  | zero => exact known_start p lo
  | succ n ih =>
    rw [List.range'_concat, List.foldl_append, Nat.one_mul]
    exact ih.step

end LongestRun

end Lib
