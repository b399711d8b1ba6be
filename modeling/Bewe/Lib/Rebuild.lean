import Mathlib.Data.List.Induction

/-!
# Rebuilding a list around a position

A list is built anew, element by element, and the position of the element that carries a mark is
recorded on the way: a later mark takes the place of an earlier one. `rebuild_snd_eq_some_iff` says
where the record ends if there is one mark at most.
-/

namespace Lib

variable {α : Type*}

/-- One element of `rebuild`. -/
def rebuildStep (acc : List α × Option ℕ) (x : α × Bool) : List α × Option ℕ :=
  (acc.1 ++ [x.1], if x.2 then some acc.1.length else acc.2)

/-- The elements of a list and the position of the last one that is marked. -/
def rebuild (l : List (α × Bool)) : List α × Option ℕ := l.foldl rebuildStep ([], none)

@[simp] theorem rebuild_nil : rebuild ([] : List (α × Bool)) = ([], none) := rfl

theorem rebuild_concat (l : List (α × Bool)) (x : α × Bool) :
    rebuild (l ++ [x]) = rebuildStep (rebuild l) x := by
  simp [rebuild, List.foldl_append]

@[simp] theorem rebuild_fst (l : List (α × Bool)) : (rebuild l).1 = l.map Prod.fst := by
  induction l using List.reverseRecOn with
  | nil => rfl
  | append_singleton l x ih => simp [rebuild_concat, rebuildStep, ih]

theorem exists_of_rebuild_snd {l : List (α × Bool)} {k : ℕ} (h : (rebuild l).2 = some k) :
    ∃ a, l[k]? = some (a, true) := by
  induction l using List.reverseRecOn with
  | nil => simp at h
  | append_singleton l x ih =>
    obtain ⟨a, marked⟩ := x
    cases marked with
    | true =>
      have hk : l.length = k := by simpa [rebuild_concat, rebuildStep] using h
      exact ⟨a, by simp [← hk]⟩
    | false =>
      obtain ⟨b, hb⟩ := ih (by simpa [rebuild_concat, rebuildStep] using h)
      have hlt : k < l.length := (List.getElem?_eq_some_iff.1 hb).1
      exact ⟨b, by rw [List.getElem?_append_left hlt, hb]⟩

theorem rebuild_snd_eq_none {l : List (α × Bool)} :
    (rebuild l).2 = none ↔ ∀ x ∈ l, x.2 = false := by
  induction l using List.reverseRecOn with
  | nil => simp
  | append_singleton l x ih =>
    obtain ⟨a, marked⟩ := x
    cases marked with
    | true =>
      simp only [rebuild_concat, rebuildStep, if_true, reduceCtorEq, false_iff]
      intro hall
      simpa using hall (a, true) (by simp)
    | false =>
      rw [rebuild_concat, rebuildStep]
      simp only [Bool.false_eq_true, if_false, ih, List.mem_append, List.mem_singleton]
      constructor
      · rintro hall y (hy | rfl)
        · exact hall y hy
        · rfl
      · exact fun hall y hy => hall y (Or.inl hy)

/-- Where no two elements are marked, the recorded position is that of the marked one. -/
theorem rebuild_snd_eq_some_iff {l : List (α × Bool)}
    (hone : l.Pairwise fun x y => ¬(x.2 = true ∧ y.2 = true)) {k : ℕ} :
    (rebuild l).2 = some k ↔ ∃ a, l[k]? = some (a, true) := by
  refine ⟨exists_of_rebuild_snd, ?_⟩
  rintro ⟨a, ha⟩
  have hmem : (a, true) ∈ l := List.mem_of_getElem? ha
  cases hr : (rebuild l).2 with
  | none =>
    have := rebuild_snd_eq_none.1 hr _ hmem
    simp at this
  | some j =>
    obtain ⟨b, hb⟩ := exists_of_rebuild_snd hr
    obtain ⟨hk, hka⟩ := List.getElem?_eq_some_iff.1 ha
    obtain ⟨hj, hjb⟩ := List.getElem?_eq_some_iff.1 hb
    rw [List.pairwise_iff_getElem] at hone
    rcases Nat.lt_trichotomy j k with hlt | rfl | hlt
    · exact absurd ⟨by rw [hjb], by rw [hka]⟩ (hone j k hj hk hlt)
    · rfl
    · exact absurd ⟨by rw [hka], by rw [hjb]⟩ (hone k j hk hj hlt)

end Lib
