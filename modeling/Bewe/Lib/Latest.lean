import Mathlib

/-!
# The latest of each key

A list is gone through once, and of the elements with one key the first of the greatest rank is
kept (`latest`). What is kept are the elements that no other of their key exceeds, one for each key;
where such an element is the only one of its rank, what is kept does not depend on the order of the
list (`perm_latest`). `StdSort` is any way to sort that leaves the order of equal elements open.
-/

namespace Lib

theorem eq_of_mem_of_key_eq {α κ : Type*} {key : α → κ} {l : List α}
    (h : l.Pairwise fun a b => key a ≠ key b) {x y : α} (hx : x ∈ l) (hy : y ∈ l)
    (hxy : key x = key y) : x = y := by
  have hsymm : Std.Symm fun a b : α => key a ≠ key b := ⟨fun _ _ => Ne.symm⟩
  by_contra hne
  exact h.forall hx hy hne hxy

variable {α κ ρ : Type*} [DecidableEq κ] [LinearOrder ρ] (key : α → κ) (rank : α → ρ)

/-- An element takes the place of the one of its key if its rank is greater, or goes to the end if
there is none. -/
def pushLatest : List α → α → List α
  | [], e => [e]
  | h :: t, e =>
    if key h = key e then (if rank h < rank e then e else h) :: t else h :: pushLatest t e

/-- The latest of each key. -/
def latest (l : List α) : List α := l.foldl (pushLatest key rank) []

/-- An element that no other of its key exceeds. -/
def IsLatest (l : List α) (e : α) : Prop := e ∈ l ∧ ∀ r ∈ l, key r = key e → rank r ≤ rank e

section Push

variable {key rank}

theorem mem_of_mem_pushLatest {l : List α} {e x : α} (h : x ∈ pushLatest key rank l e) :
    x ∈ l ∨ x = e := by
  induction l with
  | nil => exact Or.inr (List.mem_singleton.1 h)
  | cons a l ih =>
    rw [pushLatest] at h
    split_ifs at h
    · rcases List.mem_cons.1 h with rfl | h
      · exact Or.inr rfl
      · exact Or.inl (List.mem_cons_of_mem _ h)
    · exact Or.inl h
    · rcases List.mem_cons.1 h with rfl | h
      · exact Or.inl List.mem_cons_self
      · rcases ih h with h | h
        · exact Or.inl (List.mem_cons_of_mem _ h)
        · exact Or.inr h

theorem pairwise_pushLatest {l : List α} (h : l.Pairwise fun a b => key a ≠ key b) (e : α) :
    (pushLatest key rank l e).Pairwise fun a b => key a ≠ key b := by
  induction l with
  | nil => exact List.pairwise_singleton _ _
  | cons a l ih =>
    rw [List.pairwise_cons] at h
    rw [pushLatest]
    split_ifs with hkey hrank
    · exact List.pairwise_cons.2 ⟨fun b hb => hkey ▸ h.1 b hb, h.2⟩
    · exact List.pairwise_cons.2 h
    · refine List.pairwise_cons.2 ⟨fun b hb => ?_, ih h.2⟩
      rcases mem_of_mem_pushLatest hb with hb | rfl
      · exact h.1 b hb
      · exact hkey

end Push

/-- What is pushed is exceeded by what then stands for its key, and so is what stood for a key
before. -/
theorem exists_mem_pushLatest (l : List α) (e x : α) (h : x ∈ l ∨ x = e) :
    ∃ y ∈ pushLatest key rank l e, key y = key x ∧ rank x ≤ rank y := by
  induction l with
  | nil =>
    obtain rfl : x = e := by simpa using h
    exact ⟨x, List.mem_cons_self, rfl, le_rfl⟩
  | cons a l ih =>
    rw [pushLatest]
    by_cases hkey : key a = key e
    · rw [if_pos hkey]
      rcases h with h | rfl
      · rcases List.mem_cons.1 h with rfl | h
        · refine ⟨_, List.mem_cons_self, ?_, ?_⟩
          · split_ifs
            · exact hkey.symm
            · rfl
          · split_ifs with hrank
            · exact hrank.le
            · exact le_rfl
        · exact ⟨x, List.mem_cons_of_mem _ h, rfl, le_rfl⟩
      · refine ⟨_, List.mem_cons_self, ?_, ?_⟩
        · split_ifs
          · rfl
          · exact hkey
        · split_ifs with hrank
          · exact le_rfl
          · exact not_lt.1 hrank
    · rw [if_neg hkey]
      rcases h with h | h
      · rcases List.mem_cons.1 h with rfl | h
        · exact ⟨x, List.mem_cons_self, rfl, le_rfl⟩
        · obtain ⟨y, hy, hxy⟩ := ih (Or.inl h)
          exact ⟨y, List.mem_cons_of_mem _ hy, hxy⟩
      · obtain ⟨y, hy, hxy⟩ := ih (Or.inr h)
        exact ⟨y, List.mem_cons_of_mem _ hy, hxy⟩

theorem latest_concat (l : List α) (e : α) :
    latest key rank (l ++ [e]) = pushLatest key rank (latest key rank l) e := by
  simp [latest]

section Mem

variable {key rank}

theorem mem_of_mem_latest {l : List α} {x : α} (h : x ∈ latest key rank l) : x ∈ l := by
  induction l using List.reverseRecOn with
  | nil => exact h
  | append_singleton l e ih =>
    rw [latest_concat] at h
    rcases mem_of_mem_pushLatest h with h | rfl
    · exact List.mem_append_left _ (ih h)
    · simp

end Mem

theorem pairwise_latest (l : List α) :
    (latest key rank l).Pairwise fun a b => key a ≠ key b := by
  induction l using List.reverseRecOn with
  | nil => exact List.Pairwise.nil
  | append_singleton l e ih =>
    rw [latest_concat]
    exact pairwise_pushLatest ih e

theorem exists_mem_latest {l : List α} {x : α} (h : x ∈ l) :
    ∃ y ∈ latest key rank l, key y = key x ∧ rank x ≤ rank y := by
  induction l using List.reverseRecOn with
  | nil => simp at h
  | append_singleton l e ih =>
    rw [latest_concat]
    rcases List.mem_append.1 h with h | h
    · obtain ⟨y, hy, hkey, hrank⟩ := ih h
      obtain ⟨z, hz, hkey', hrank'⟩ := exists_mem_pushLatest key rank _ e y (Or.inl hy)
      exact ⟨z, hz, hkey'.trans hkey, hrank.trans hrank'⟩
    · exact exists_mem_pushLatest key rank _ e x (Or.inr (List.mem_singleton.1 h))

theorem nodup_latest (l : List α) : (latest key rank l).Nodup :=
  (pairwise_latest key rank l).imp fun hne heq => hne (congrArg key heq)

variable {key rank}

theorem isLatest_of_mem_latest {l : List α} {x : α} (h : x ∈ latest key rank l) :
    IsLatest key rank l x := by
  refine ⟨mem_of_mem_latest h, fun r hr hkey => ?_⟩
  obtain ⟨y, hy, hkey', hrank⟩ := exists_mem_latest key rank hr
  rwa [eq_of_mem_of_key_eq (pairwise_latest key rank l) hy h (hkey'.trans hkey)] at hrank

/-- An element that those of its key before it fall short of, and that none behind it exceeds. -/
def IsFirstLatest (key : α → κ) (rank : α → ρ) (l : List α) (e : α) : Prop :=
  ∃ l₁ l₂, l = l₁ ++ e :: l₂ ∧ (∀ r ∈ l₁, key r = key e → rank r < rank e) ∧
    ∀ r ∈ l₂, key r = key e → rank r ≤ rank e

theorem of_mem_pushLatest {l : List α} (h : l.Pairwise fun a b => key a ≠ key b) {e x : α}
    (hx : x ∈ pushLatest key rank l e) :
    (x ∈ l ∧ (key e = key x → rank e ≤ rank x)) ∨
      x = e ∧ ∀ r ∈ l, key r = key e → rank r < rank e := by
  induction l with
  | nil => exact Or.inr ⟨List.mem_singleton.1 hx, fun r hr => absurd hr List.not_mem_nil⟩
  | cons a l ih =>
    rw [List.pairwise_cons] at h
    rw [pushLatest] at hx
    by_cases hkey : key a = key e
    · rw [if_pos hkey] at hx
      have hother : ∀ r ∈ l, key r ≠ key e := fun r hr heq => h.1 r hr (hkey.trans heq.symm)
      rcases List.mem_cons.1 hx with rfl | hx
      · split_ifs with hrank
        · refine Or.inr ⟨rfl, fun r hr heq => ?_⟩
          rcases List.mem_cons.1 hr with rfl | hr
          · exact hrank
          · exact absurd heq (hother r hr)
        · exact Or.inl ⟨List.mem_cons_self, fun _ => not_lt.1 hrank⟩
      · exact Or.inl ⟨List.mem_cons_of_mem _ hx, fun heq => absurd heq.symm (hother x hx)⟩
    · rw [if_neg hkey] at hx
      rcases List.mem_cons.1 hx with rfl | hx
      · exact Or.inl ⟨List.mem_cons_self, fun heq => absurd heq.symm hkey⟩
      · rcases ih h.2 hx with ⟨hmem, hrank⟩ | ⟨rfl, hrank⟩
        · exact Or.inl ⟨List.mem_cons_of_mem _ hmem, hrank⟩
        · refine Or.inr ⟨rfl, fun r hr heq => ?_⟩
          rcases List.mem_cons.1 hr with rfl | hr
          · exact absurd heq hkey
          · exact hrank r hr heq

theorem isFirstLatest_of_mem_latest {l : List α} {x : α} (h : x ∈ latest key rank l) :
    IsFirstLatest key rank l x := by
  induction l using List.reverseRecOn with
  | nil => exact absurd h List.not_mem_nil
  | append_singleton l e ih =>
    rw [latest_concat] at h
    rcases of_mem_pushLatest (pairwise_latest key rank l) h with ⟨hx, hrank⟩ | ⟨rfl, hrank⟩
    · obtain ⟨l₁, l₂, hl, hbefore, hbehind⟩ := ih hx
      refine ⟨l₁, l₂ ++ [e], by rw [hl, List.append_assoc, List.cons_append], hbefore, fun r hr hkey => ?_⟩
      rcases List.mem_append.1 hr with hr | hr
      · exact hbehind r hr hkey
      · obtain rfl := List.mem_singleton.1 hr
        exact hrank hkey
    · refine ⟨l, [], rfl, fun r hr hkey => ?_, fun r hr => absurd hr List.not_mem_nil⟩
      obtain ⟨y, hy, hykey, hle⟩ := exists_mem_latest key rank hr
      exact hle.trans_lt (hrank y hy (hykey.trans hkey))

omit [DecidableEq κ] in
theorem IsFirstLatest.eq {l : List α} {x y : α} (hx : IsFirstLatest key rank l x)
    (hy : IsFirstLatest key rank l y) (hkey : key x = key y) : x = y := by
  obtain ⟨l₁, l₂, rfl, hx₁, hx₂⟩ := hx
  obtain ⟨r₁, r₂, hl, hy₁, hy₂⟩ := hy
  rcases List.append_eq_append_iff.1 hl with ⟨m, rfl, hm⟩ | ⟨m, rfl, hm⟩
  · cases m with
    | nil => exact (List.cons.inj hm).1
    | cons a m =>
      -- `x` stands before `y`
      obtain ⟨rfl, rfl⟩ := List.cons.inj hm
      have hlt := hy₁ x (List.mem_append_right _ List.mem_cons_self) hkey
      exact absurd (hx₂ y (List.mem_append_right _ List.mem_cons_self) hkey.symm) (not_le.2 hlt)
  · cases m with
    | nil => exact (List.cons.inj hm).1.symm
    | cons a m =>
      obtain ⟨rfl, rfl⟩ := List.cons.inj hm
      have hlt := hx₁ y (List.mem_append_right _ List.mem_cons_self) hkey.symm
      exact absurd (hy₂ x (List.mem_append_right _ List.mem_cons_self) hkey) (not_le.2 hlt)

/-- What is kept is the first of the latest of its key. -/
theorem mem_latest_iff_isFirstLatest {l : List α} {x : α} :
    x ∈ latest key rank l ↔ IsFirstLatest key rank l x := by
  refine ⟨isFirstLatest_of_mem_latest, fun h => ?_⟩
  have hmem : x ∈ l := by
    obtain ⟨l₁, l₂, rfl, -⟩ := h
    exact List.mem_append_right _ List.mem_cons_self
  obtain ⟨y, hy, hkey, -⟩ := exists_mem_latest key rank hmem
  rwa [h.eq (isFirstLatest_of_mem_latest hy) hkey.symm]

/-- Where no two elements that are not exceeded tie, those are what is kept. -/
theorem mem_latest_iff {l : List α}
    (huniq : ∀ x y, IsLatest key rank l x → IsLatest key rank l y → key x = key y → x = y) {x : α} :
    x ∈ latest key rank l ↔ IsLatest key rank l x := by
  refine ⟨isLatest_of_mem_latest, fun h => ?_⟩
  obtain ⟨y, hy, hkey, -⟩ := exists_mem_latest key rank h.1
  rwa [huniq x y h (isLatest_of_mem_latest hy) hkey.symm]

/-- Where no two elements that are not exceeded tie, the order of the list does not matter. -/
theorem perm_latest {l l' : List α} (h : l.Perm l')
    (huniq : ∀ x y, IsLatest key rank l x → IsLatest key rank l y → key x = key y → x = y) :
    (latest key rank l).Perm (latest key rank l') := by
  have hiff : ∀ x, IsLatest key rank l' x ↔ IsLatest key rank l x := fun x => by
    simp only [IsLatest, h.mem_iff]
  rw [List.perm_ext_iff_of_nodup (nodup_latest key rank l) (nodup_latest key rank l')]
  intro x
  rw [mem_latest_iff huniq, mem_latest_iff, hiff]
  intro x y hx hy
  exact huniq x y ((hiff x).1 hx) ((hiff y).1 hy)

/-! ## Sorting -/

/-- `std::sort` by a comparison: the elements, in an order in which none stands before one that it
comes after. -/
structure StdSort (α : Type*) (before : α → α → Prop) where
  sort : List α → List α
  perm : ∀ l, (sort l).Perm l
  sorted : ∀ l, (sort l).Pairwise fun a b => ¬ before b a

/-- Where no two elements are equal to the comparison, there is one way to sort them. -/
theorem StdSort.sort_eq {α : Type*} {before : α → α → Prop} (S S' : StdSort α before)
    {l l' : List α} (h : l.Perm l')
    (hties : ∀ a ∈ l, ∀ b ∈ l, ¬ before a b → ¬ before b a → a = b) : S.sort l = S'.sort l' := by
  have hperm : (S.sort l).Perm (S'.sort l') := ((S.perm l).trans h).trans (S'.perm l').symm
  refine hperm.eq_of_pairwise (fun a b ha hb hab hba => ?_) (S.sorted l) (S'.sorted l')
  have hb' : b ∈ l := h.mem_iff.2 ((S'.perm l').mem_iff.1 hb)
  exact hties a ((S.perm l).mem_iff.1 ha) b hb' hba hab

end Lib
