import Mathlib.Data.List.Basic

/-!
# Lists whose items a relation tells apart

Putting an item into a list with bounded room: it takes the place of the first one that is the same,
and goes behind the others where there is none. A relation that says what is the same need not be
transitive, and then an item that was put in a place may be the same as one behind it. It is not
exactly if no more than one item was the same as the new one (`pairwise_upsert_iff`).
-/

namespace Lib

variable {α : Type*}

/-- The list with an item in the place of the first that has the property; none if there is none. -/
def replaceFirst (p : α → Bool) (b : α) : List α → Option (List α)
  | [] => none
  | a :: l => if p a then some (b :: l) else (replaceFirst p b l).map fun l' => a :: l'

/-- The list with an item in it, if there is room for `cap`. -/
def upsert (cap : ℕ) (p : α → Bool) (b : α) (l : List α) : Option (List α) :=
  match replaceFirst p b l with
  | some l' => some l'
  | none => if l.length < cap then some (l ++ [b]) else none

variable {p : α → Bool} {b : α} {l l' : List α} {cap : ℕ}

theorem replaceFirst_eq_none_iff : replaceFirst p b l = none ↔ ∀ a ∈ l, p a = false := by
  induction l with
  | nil => simp [replaceFirst]
  | cons a l ih =>
    rw [replaceFirst, List.forall_mem_cons]
    cases h : p a with
    | true => simp
    | false => simpa using ih

theorem exists_of_replaceFirst (h : replaceFirst p b l = some l') :
    ∃ l₁ a l₂, l = l₁ ++ a :: l₂ ∧ (∀ x ∈ l₁, p x = false) ∧ p a = true ∧ l' = l₁ ++ b :: l₂ := by
  induction l generalizing l' with
  | nil => exact absurd h (by simp [replaceFirst])
  | cons a l ih =>
    rw [replaceFirst] at h
    by_cases ha : p a = true
    · rw [if_pos ha] at h
      exact ⟨[], a, l, rfl, by simp, ha, (Option.some.inj h).symm⟩
    · rw [if_neg ha] at h
      obtain ⟨l'', hl'', rfl⟩ := Option.map_eq_some_iff.1 h
      obtain ⟨l₁, x, l₂, rfl, hbefore, hx, rfl⟩ := ih hl''
      refine ⟨a :: l₁, x, l₂, rfl, ?_, hx, rfl⟩
      rw [List.forall_mem_cons]
      exact ⟨by simpa using ha, hbefore⟩

/-- An item takes the place of another, or there was none that had the property, and room. -/
theorem upsert_cases (h : upsert cap p b l = some l') :
    (∃ l₁ a l₂, l = l₁ ++ a :: l₂ ∧ (∀ x ∈ l₁, p x = false) ∧ p a = true ∧ l' = l₁ ++ b :: l₂) ∨
      (∀ a ∈ l, p a = false) ∧ l.length < cap ∧ l' = l ++ [b] := by
  unfold upsert at h
  cases hr : replaceFirst p b l with
  | some l'' =>
    rw [hr] at h
    obtain rfl := Option.some.inj h
    exact Or.inl (exists_of_replaceFirst hr)
  | none =>
    rw [hr] at h
    dsimp only at h
    split_ifs at h with hroom
    exact Or.inr ⟨replaceFirst_eq_none_iff.1 hr, hroom, (Option.some.inj h).symm⟩

/-- An item is refused exactly if it is new and there is no room. -/
theorem upsert_eq_none_iff :
    upsert cap p b l = none ↔ (∀ a ∈ l, p a = false) ∧ cap ≤ l.length := by
  unfold upsert
  rw [← replaceFirst_eq_none_iff (b := b)]
  cases replaceFirst p b l with
  | some l'' => simp
  | none => simp

theorem length_upsert_le (h : upsert cap p b l = some l') (hl : l.length ≤ cap) :
    l'.length ≤ cap := by
  rcases upsert_cases h with ⟨l₁, a, l₂, rfl, -, -, rfl⟩ | ⟨-, hroom, rfl⟩
  · simpa using hl
  · rw [List.length_append]
    exact hroom

theorem mem_of_mem_upsert (h : upsert cap p b l = some l') {x : α} (hx : x ∈ l') :
    x = b ∨ x ∈ l := by
  rcases upsert_cases h with ⟨l₁, a, l₂, rfl, -, -, rfl⟩ | ⟨-, -, rfl⟩ <;>
    simp only [List.mem_append, List.mem_cons, List.not_mem_nil, or_false] at hx ⊢ <;> tauto

theorem mem_upsert (h : upsert cap p b l = some l') : b ∈ l' := by
  rcases upsert_cases h with ⟨l₁, a, l₂, -, -, -, rfl⟩ | ⟨-, -, rfl⟩ <;> simp

/-- Where no two items were the same, none are afterwards exactly if at most one was the same as the
new one. -/
theorem pairwise_upsert_iff {same : α → α → Bool} (hsymm : ∀ a b, same a b = same b a)
    (hl : l.Pairwise fun a b => same a b = false)
    (h : upsert cap (fun a => same a b) b l = some l') :
    (l'.Pairwise fun a b => same a b = false) ↔ (l.filter fun a => same a b).length ≤ 1 := by
  rcases upsert_cases h with ⟨l₁, a, l₂, rfl, hbefore, ha, rfl⟩ | ⟨hnone, -, rfl⟩
  · -- the one that is replaced is the same, so no other may be
    have hfilter : ((l₁ ++ a :: l₂).filter fun a => same a b).length ≤ 1 ↔
        ∀ x ∈ l₂, same x b = false := by
      have hnil : l₁.filter (fun a => same a b) = [] := by
        rw [List.filter_eq_nil_iff]
        exact fun x hx => by simp [hbefore x hx]
      have hpos : (a :: l₂).filter (fun a => same a b) = a :: l₂.filter fun a => same a b :=
        List.filter_cons_of_pos ha
      rw [List.filter_append, hnil, List.nil_append, hpos, List.length_cons]
      simp
    rw [List.pairwise_append, List.pairwise_cons] at hl
    obtain ⟨h₁, ⟨-, h₂⟩, h₁₂⟩ := hl
    rw [hfilter, List.pairwise_append, List.pairwise_cons]
    constructor
    · rintro ⟨-, ⟨hb, -⟩, -⟩ x hx
      rw [hsymm]
      exact hb x hx
    · intro hb
      refine ⟨h₁, ⟨fun x hx => by rw [hsymm, hb x hx], h₂⟩, fun x hx y hy => ?_⟩
      rcases List.mem_cons.1 hy with rfl | hy
      · exact hbefore x hx
      · exact h₁₂ x hx y (List.mem_cons_of_mem a hy)
  · have hnil : l.filter (fun a => same a b) = [] := by
      rw [List.filter_eq_nil_iff]
      exact fun x hx => by simp [hnone x hx]
    rw [hnil, List.pairwise_append]
    refine iff_of_true ⟨hl, List.pairwise_singleton _ _, fun x hx y hy => ?_⟩ (Nat.zero_le 1)
    rw [List.mem_singleton.1 hy, hnone x hx]

end Lib
