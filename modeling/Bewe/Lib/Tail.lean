import Mathlib.Data.List.Infix
import Mathlib.Data.List.TakeDrop
import Mathlib.Tactic

/-!
# Gates with a tail

A gate is open or closed at each sample, and what it lets through is kept for `T` samples more after
it closes. A history has the newest first. `selected T` is what is kept of a list of samples, of
which some do not look at the gate. With a tail that is one sample longer something else is kept
just if the gate stays closed for more than `T` samples after it was open (`selected_succ_eq_iff`).
-/

namespace Lib

/-! ## Histories -/

/-- The gate was open at the last sample or at one of the `T` before it. -/
def Held (T : ℕ) (hist : List Bool) : Prop := true ∈ hist.take (T + 1)

instance (T : ℕ) (hist : List Bool) : Decidable (Held T hist) :=
  inferInstanceAs (Decidable (true ∈ _))

theorem held_cons_true (T : ℕ) (hist : List Bool) : Held T (true :: hist) := by
  rw [Held, List.take_succ_cons]
  exact List.mem_cons_self

theorem held_succ_cons_false {T : ℕ} {hist : List Bool} :
    Held (T + 1) (false :: hist) ↔ Held T hist := by
  rw [Held, List.take_succ_cons, List.mem_cons]
  exact ⟨fun h => h.resolve_left (by decide), Or.inr⟩

theorem not_held_zero_cons_false (hist : List Bool) : ¬Held 0 (false :: hist) := by
  simp [Held]

theorem Held.succ {T : ℕ} {hist : List Bool} (h : Held T hist) : Held (T + 1) hist :=
  (List.take_prefix_take_left (by omega)).subset h

/-- How long the gate has been closed. -/
theorem held_closed_iff (T k : ℕ) (hist : List Bool) :
    Held T (List.replicate k false ++ true :: hist) ↔ k ≤ T := by
  induction k generalizing T with
  | zero => exact ⟨fun _ => Nat.zero_le _, fun _ => held_cons_true T hist⟩
  | succ k ih =>
    rw [List.replicate_succ, List.cons_append]
    cases T with
    | zero => exact ⟨fun h => absurd h (not_held_zero_cons_false _), fun h => by omega⟩
    | succ T => rw [held_succ_cons_false, ih, Nat.succ_le_succ_iff]

/-- A tail that is one sample longer holds the gate where it has been closed for just as long. -/
theorem held_succ_not_held_iff {T : ℕ} {hist : List Bool} :
    Held (T + 1) hist ∧ ¬Held T hist ↔
      ∃ r, hist = List.replicate (T + 1) false ++ true :: r := by
  constructor
  · rintro ⟨hlong, hshort⟩
    induction T generalizing hist with
    | zero =>
      match hist, hlong, hshort with
      | true :: r, _, hshort => exact absurd (held_cons_true 0 r) hshort
      | false :: true :: r, _, _ => exact ⟨r, rfl⟩
      | false :: false :: r, hlong, _ =>
        exact absurd (held_succ_cons_false.1 hlong) (not_held_zero_cons_false r)
      | [false], hlong, _ => simp [Held] at hlong
      | [], hlong, _ => simp [Held] at hlong
    | succ T ih =>
      match hist, hlong, hshort with
      | true :: r, _, hshort => exact absurd (held_cons_true _ r) hshort
      | false :: r, hlong, hshort =>
        obtain ⟨s, rfl⟩ := ih (held_succ_cons_false.1 hlong) fun h =>
          hshort (held_succ_cons_false.2 h)
        exact ⟨s, rfl⟩
      | [], hlong, _ => simp [Held] at hlong
  · rintro ⟨r, rfl⟩
    rw [held_closed_iff, held_closed_iff]
    omega

/-! ## Samples -/

section

variable {α β : Type*} (T : ℕ) (gate : α → Option Bool) (real silent : α → β)

/-- What is kept of the samples after a history: those that do not look at the gate, those at which
it is open, and something else for those in the tail. -/
def selected : List Bool → List α → List β
  | _, [] => []
  | hist, x :: xs =>
    match gate x with
    | none => real x :: selected hist xs
    | some g =>
      if Held T (g :: hist) then
        (if g then real x else silent x) :: selected (g :: hist) xs
      else selected (g :: hist) xs

/-- At how many samples the gate has been closed for just one sample more than the tail. -/
def overruns : List Bool → List Bool → ℕ
  | _, [] => 0
  | hist, g :: gs =>
    (if Held (T + 1) (g :: hist) ∧ ¬Held T (g :: hist) then 1 else 0) + overruns (g :: hist) gs

variable {T gate real silent}

theorem selected_cons_of_some {x : α} {g : Bool} (hg : gate x = some g) (hist : List Bool)
    (xs : List α) : selected T gate real silent hist (x :: xs) =
      selected T gate real silent hist [x] ++ selected T gate real silent (g :: hist) xs := by
  rw [selected, selected, hg]
  dsimp only
  split_ifs <;> rfl

theorem selected_cons_of_none {x : α} (hg : gate x = none) (hist : List Bool) (xs : List α) :
    selected T gate real silent hist (x :: xs) =
      real x :: selected T gate real silent hist xs := by
  rw [selected, hg]

theorem length_selected_succ (hist : List Bool) (xs : List α) :
    (selected (T + 1) gate real silent hist xs).length =
      (selected T gate real silent hist xs).length + overruns T hist (xs.filterMap gate) := by
  induction xs generalizing hist with
  | nil => rfl
  | cons x xs ih =>
    cases hg : gate x with
    | none =>
      rw [List.filterMap_cons_none hg, selected_cons_of_none hg, selected_cons_of_none hg,
        List.length_cons, List.length_cons, ih]
      omega
    | some g =>
      rw [List.filterMap_cons_some hg, overruns, selected, selected, hg]
      dsimp only
      by_cases hshort : Held T (g :: hist)
      · have hover : ¬(Held (T + 1) (g :: hist) ∧ ¬Held T (g :: hist)) := fun h => h.2 hshort
        rw [if_pos hshort.succ, if_pos hshort, if_neg hover, List.length_cons, List.length_cons, ih]
        omega
      · by_cases hlong : Held (T + 1) (g :: hist)
        · have hover : Held (T + 1) (g :: hist) ∧ ¬Held T (g :: hist) := ⟨hlong, hshort⟩
          rw [if_pos hlong, if_neg hshort, if_pos hover, List.length_cons, ih]
          omega
        · have hover : ¬(Held (T + 1) (g :: hist) ∧ ¬Held T (g :: hist)) := fun h => hlong h.1
          rw [if_neg hlong, if_neg hshort, if_neg hover, ih]
          omega

/-- Where the gate is never closed for longer than the tail, a longer one is the same. -/
theorem selected_succ_of_overruns (hist : List Bool) (xs : List α)
    (h : overruns T hist (xs.filterMap gate) = 0) :
    selected (T + 1) gate real silent hist xs = selected T gate real silent hist xs := by
  induction xs generalizing hist with
  | nil => rfl
  | cons x xs ih =>
    cases hg : gate x with
    | none =>
      rw [List.filterMap_cons_none hg] at h
      rw [selected_cons_of_none hg, selected_cons_of_none hg, ih hist h]
    | some g =>
      rw [List.filterMap_cons_some hg, overruns, Nat.add_eq_zero_iff, ite_eq_right_iff] at h
      have hsame : Held (T + 1) (g :: hist) ↔ Held T (g :: hist) :=
        ⟨fun hlong => by_contra fun hshort => absurd (h.1 ⟨hlong, hshort⟩) one_ne_zero, Held.succ⟩
      rw [selected, selected, hg]
      dsimp only
      rw [ih _ h.2, if_congr hsame rfl rfl]

theorem overruns_ne_zero_iff (hist gs : List Bool) : overruns T hist gs ≠ 0 ↔
    ∃ a g b, gs = a ++ g :: b ∧
      ∃ r, (a ++ [g]).reverse ++ hist = List.replicate (T + 1) false ++ true :: r := by
  induction gs generalizing hist with
  | nil =>
    refine ⟨fun h => absurd rfl h, ?_⟩
    rintro ⟨a, g, b, h, -⟩
    simp at h
  | cons g gs ih =>
    have hhere : (if Held (T + 1) (g :: hist) ∧ ¬Held T (g :: hist) then 1 else 0) ≠ 0 ↔
        ∃ r, g :: hist = List.replicate (T + 1) false ++ true :: r := by
      rw [← held_succ_not_held_iff]
      constructor
      · exact fun h => by_contra fun hno => h (if_neg hno)
      · intro h
        rw [if_pos h]
        exact one_ne_zero
    rw [overruns, ne_eq, Nat.add_eq_zero_iff, not_and_or, ← ne_eq, ← ne_eq, hhere, ih]
    constructor
    · rintro (⟨r, hr⟩ | ⟨a, g', b, rfl, r, hr⟩)
      · exact ⟨[], g, gs, rfl, r, hr⟩
      · exact ⟨g :: a, g', b, rfl, r, by rw [← hr]; simp⟩
    · rintro ⟨a, g', b, h, r, hr⟩
      rcases a with _ | ⟨c, a⟩
      · obtain ⟨rfl, rfl⟩ := List.cons_eq_cons.1 h
        exact Or.inl ⟨r, hr⟩
      · obtain ⟨rfl, rfl⟩ := List.cons_eq_cons.1 h
        exact Or.inr ⟨a, g', b, rfl, r, by rw [← hr]; simp⟩

/-- The gate stays closed for more than the tail after it was open. -/
theorem overruns_nil_ne_zero_iff (gs : List Bool) :
    overruns T [] gs ≠ 0 ↔ true :: List.replicate (T + 1) false <:+: gs := by
  rw [overruns_ne_zero_iff]
  constructor
  · rintro ⟨a, g, b, rfl, r, hr⟩
    rw [List.append_nil] at hr
    have ha : a ++ [g] = r.reverse ++ (true :: List.replicate (T + 1) false) := by
      rw [← List.reverse_reverse (a ++ [g]), hr]
      simp
    exact ⟨r.reverse, b, by rw [← ha, List.append_assoc, List.singleton_append]⟩
  · rintro ⟨a, b, rfl⟩
    refine ⟨a ++ true :: List.replicate T false, false, b, ?_, a.reverse, ?_⟩
    · simp [List.replicate_succ']
    · simp [List.replicate_succ]

/-- A longer tail keeps as many just if the gate never stays closed for more than the tail. -/
theorem length_selected_succ_eq_iff (xs : List α) :
    (selected (T + 1) gate real silent [] xs).length = (selected T gate real silent [] xs).length ↔
      ¬true :: List.replicate (T + 1) false <:+: xs.filterMap gate := by
  rw [← overruns_nil_ne_zero_iff, not_not, length_selected_succ]
  omega

/-- Then it keeps the same. -/
theorem selected_succ_eq_iff (xs : List α) :
    selected (T + 1) gate real silent [] xs = selected T gate real silent [] xs ↔
      ¬true :: List.replicate (T + 1) false <:+: xs.filterMap gate := by
  constructor
  · intro h
    exact (length_selected_succ_eq_iff xs).1 (congrArg List.length h)
  · rw [← overruns_nil_ne_zero_iff, not_not]
    exact selected_succ_of_overruns [] xs

end

end Lib
