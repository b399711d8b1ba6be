import Mathlib.Tactic

/-!
# The largest of a list

The loop that keeps the first of the largest entries, compared by a key (`maxBy`). A function that
keeps the order of the keys can be applied before the loop or after it (`map_maxBy`), so that
rounding to fewer levels and taking the largest commute. Where there may be no entry above a bound,
the loop carries the key of what it keeps (`keepFirst`).
-/

namespace Lib

variable {α β κ ι : Type*} [LinearOrder κ] [LinearOrder ι]

/-- `mx = x; for(g in xs) if(g > mx) mx = g;`, compared by a key. -/
def maxBy (key : α → κ) (x : α) (xs : List α) : α :=
  xs.foldl (fun mx g => if key mx < key g then g else mx) x

theorem maxBy_spec (key : α → κ) (x : α) (xs : List α) :
    maxBy key x xs ∈ x :: xs ∧ ∀ b ∈ x :: xs, key b ≤ key (maxBy key x xs) := by
  induction xs generalizing x with
  | nil => exact ⟨by simp [maxBy], by simp [maxBy]⟩
  | cons g xs ih =>
    obtain ⟨hmem, hle⟩ := ih (if key x < key g then g else x)
    have hstep : maxBy key x (g :: xs) = maxBy key (if key x < key g then g else x) xs := rfl
    rw [hstep]
    have hhead := hle _ List.mem_cons_self
    split_ifs at hmem hle hhead ⊢ with h
    · refine ⟨List.mem_cons_of_mem x hmem, fun b hb => ?_⟩
      rcases List.mem_cons.1 hb with rfl | hb
      · exact h.le.trans hhead
      · exact hle b hb
    · refine ⟨?_, fun b hb => ?_⟩
      · rcases List.mem_cons.1 hmem with heq | hmem
        · rw [heq]
          exact List.mem_cons_self
        · exact List.mem_cons_of_mem x (List.mem_cons_of_mem g hmem)
      · rcases List.mem_cons.1 hb with rfl | hb
        · exact hhead
        · rcases List.mem_cons.1 hb with rfl | hb
          · exact (not_lt.1 h).trans hhead
          · exact hle b (List.mem_cons_of_mem x hb)

/-- A function that keeps the order of the keys can be applied before or after. -/
theorem map_maxBy {key : α → κ} {key' : β → ι} (hinj : Function.Injective key') {f : α → β}
    (hf : ∀ a b, key a ≤ key b → key' (f a) ≤ key' (f b)) (x : α) (xs : List α) :
    f (maxBy key x xs) = maxBy key' (f x) (xs.map f) := by
  induction xs generalizing x with
  | nil => rfl
  | cons g xs ih =>
    have hstep : f (if key x < key g then g else x) =
        if key' (f x) < key' (f g) then f g else f x := by
      split_ifs with h h'
      · rfl
      · -- keys that the function makes equal
        exact hinj (le_antisymm (not_lt.mp h') (hf x g h.le))
      · next h' => exact absurd h' (not_lt.mpr (hf g x (not_lt.mp h)))
      · rfl
    simp only [maxBy, List.map_cons, List.foldl_cons] at ih ⊢
    rw [ih, hstep]

/-- The largest of a list, or a default. -/
def maxOf [Inhabited α] (key : α → κ) : List α → α
  | [] => default
  | x :: xs => maxBy key x xs

@[simp] theorem maxOf_singleton [Inhabited α] (key : α → κ) (x : α) : maxOf key [x] = x := rfl

theorem map_maxOf [Inhabited α] [Inhabited β] {key : α → κ} {key' : β → ι}
    (hinj : Function.Injective key') {f : α → β}
    (hf : ∀ a b, key a ≤ key b → key' (f a) ≤ key' (f b)) {xs : List α} (hxs : xs ≠ []) :
    f (maxOf key xs) = maxOf key' (xs.map f) := by
  cases xs with
  | nil => exact absurd rfl hxs
  | cons x xs => exact map_maxBy hinj hf x xs

/-- `if(key > best) { best = key; kept = x; }` -/
def keepFirst (key : α → κ) (best : κ × Option α) (x : α) : κ × Option α :=
  if best.1 < key x then (key x, some x) else best

theorem find?_concat_of_lt {key : α → κ} {l : List α} {x : α} (h : ∀ z ∈ l, key z < key x) :
    (∀ z ∈ l ++ [x], key z ≤ key x) ∧ (l ++ [x]).find? (fun z => key z = key x) = some x := by
  constructor
  · intro z hz
    rcases List.mem_append.1 hz with hz | hz
    · exact (h z hz).le
    · rw [List.mem_singleton.1 hz]
  · rw [List.find?_append, List.find?_eq_none.2 fun z hz => by simpa using (h z hz).ne]
    simp

/-- What is kept of a list is the first of the largest entries, if one is above the bound. -/
theorem foldl_keepFirst (key : α → κ) (bound : κ) (l : List α) :
    (l.foldl (keepFirst key) (bound, none) = (bound, none) ∧ ∀ x ∈ l, key x ≤ bound) ∨
      ∃ y, l.foldl (keepFirst key) (bound, none) = (key y, some y) ∧ bound < key y ∧
        (∀ x ∈ l, key x ≤ key y) ∧ l.find? (fun x => key x = key y) = some y := by
  induction l using List.reverseRecOn with
  | nil => exact Or.inl ⟨rfl, by simp⟩
  | append_singleton l x ih =>
    have hlast : ∀ {b : κ}, (∀ z ∈ l, key z ≤ b) → ¬ b < key x → ∀ z ∈ l ++ [x], key z ≤ b := by
      intro b hle hx z hz
      rcases List.mem_append.1 hz with hz | hz
      · exact hle z hz
      · rw [List.mem_singleton.1 hz]
        exact not_lt.1 hx
    rw [List.foldl_append, List.foldl_cons, List.foldl_nil]
    rcases ih with ⟨heq, hle⟩ | ⟨y, heq, hbound, hle, hfirst⟩
    · rw [heq, keepFirst]
      split_ifs with hx
      · exact Or.inr ⟨x, rfl, hx, find?_concat_of_lt fun z hz => (hle z hz).trans_lt hx⟩
      · exact Or.inl ⟨rfl, hlast hle hx⟩
    · rw [heq, keepFirst]
      split_ifs with hx
      · exact Or.inr ⟨x, rfl, hbound.trans hx,
          find?_concat_of_lt fun z hz => (hle z hz).trans_lt hx⟩
      · refine Or.inr ⟨y, rfl, hbound, hlast hle hx, ?_⟩
        rw [List.find?_append, hfirst]
        rfl

end Lib
