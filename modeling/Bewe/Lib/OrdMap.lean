import Mathlib

/-!
# Ordered maps

A finite map with its entries in the order of the keys. A key can be set (`assign`), or set only
where it has no value yet (`emplace`). `group` sorts the elements of a list by a key and takes those
of each key through a loop of its own; `find_group` says that the loops do not mix.
-/

namespace Lib

/-- A finite map with its entries in the order of the keys. -/
structure OrdMap (κ ν : Type*) [LinearOrder κ] where
  entries : List (κ × ν)
  sorted : entries.Pairwise fun a b => a.1 < b.1

namespace OrdMap

variable {κ ν α : Type*} [LinearOrder κ]

/-- An entry set among the entries. -/
def insertEntry (k : κ) (v : ν) : List (κ × ν) → List (κ × ν)
  | [] => [(k, v)]
  | e :: es =>
    if k < e.1 then (k, v) :: e :: es
    else if k = e.1 then (k, v) :: es
    else e :: insertEntry k v es

theorem mem_of_mem_insertEntry {k : κ} {v : ν} {es : List (κ × ν)} {x : κ × ν}
    (h : x ∈ insertEntry k v es) : x = (k, v) ∨ x ∈ es := by
  induction es with
  | nil => exact Or.inl (List.mem_singleton.1 h)
  | cons e es ih =>
    rw [insertEntry] at h
    split_ifs at h
    · exact List.mem_cons.1 h
    · exact (List.mem_cons.1 h).imp_right (List.mem_cons_of_mem _)
    · rcases List.mem_cons.1 h with rfl | h
      · exact Or.inr List.mem_cons_self
      · exact (ih h).imp_right (List.mem_cons_of_mem _)

theorem sorted_insertEntry (k : κ) (v : ν) {es : List (κ × ν)}
    (h : es.Pairwise fun a b => a.1 < b.1) :
    (insertEntry k v es).Pairwise fun a b => a.1 < b.1 := by
  induction es with
  | nil => exact List.pairwise_singleton _ _
  | cons e es ih =>
    obtain ⟨hhead, htail⟩ := List.pairwise_cons.1 h
    rw [insertEntry]
    split_ifs with hlt heq
    · refine List.pairwise_cons.2 ⟨fun x hx => ?_, h⟩
      rcases List.mem_cons.1 hx with rfl | hx
      · exact hlt
      · exact hlt.trans (hhead x hx)
    · exact List.pairwise_cons.2 ⟨fun x hx => heq ▸ hhead x hx, htail⟩
    · refine List.pairwise_cons.2 ⟨fun x hx => ?_, ih htail⟩
      rcases mem_of_mem_insertEntry hx with rfl | hx
      · exact lt_of_le_of_ne (not_lt.1 hlt) (Ne.symm heq)
      · exact hhead x hx

/-- The value of a key among the entries. -/
def findEntry (k : κ) : List (κ × ν) → Option ν
  | [] => none
  | e :: es => if e.1 = k then some e.2 else findEntry k es

theorem findEntry_insertEntry (k k' : κ) (v : ν) {es : List (κ × ν)}
    (h : es.Pairwise fun a b => a.1 < b.1) :
    findEntry k' (insertEntry k v es) = if k' = k then some v else findEntry k' es := by
  induction es with
  | nil =>
    rw [insertEntry, findEntry]
    exact if_congr eq_comm rfl rfl
  | cons e es ih =>
    obtain ⟨hhead, htail⟩ := List.pairwise_cons.1 h
    rw [insertEntry]
    by_cases hk : k' = k
    · rw [if_pos hk]
      split_ifs with hlt heq
      · rw [findEntry, if_pos hk.symm]
      · rw [findEntry, if_pos hk.symm]
      · rw [findEntry, if_neg (fun he => heq (hk.symm.trans he.symm)), ih htail, if_pos hk]
    · rw [if_neg hk]
      split_ifs with hlt heq
      · rw [findEntry, if_neg (Ne.symm hk)]
      · rw [findEntry, if_neg (Ne.symm hk), findEntry,
          if_neg (fun he => hk (he.symm.trans heq.symm))]
      · rw [findEntry, findEntry, ih htail, if_neg hk]

theorem findEntry_eq_some_iff {k : κ} {v : ν} {es : List (κ × ν)}
    (h : es.Pairwise fun a b => a.1 < b.1) : findEntry k es = some v ↔ (k, v) ∈ es := by
  induction es with
  | nil => simp [findEntry]
  | cons e es ih =>
    obtain ⟨hhead, htail⟩ := List.pairwise_cons.1 h
    rw [findEntry, List.mem_cons]
    split_ifs with hk
    · rw [Option.some.injEq]
      constructor
      · rintro rfl
        exact Or.inl (by rw [← hk])
      · rintro (rfl | hmem)
        · rfl
        · exact absurd hk (hhead _ hmem).ne
    · rw [ih htail, or_iff_right (fun heq => hk (by rw [← heq]))]

/-! ## Operations -/

/-- No entries. -/
def empty : OrdMap κ ν := ⟨[], List.Pairwise.nil⟩

/-- The value of a key. -/
def find (m : OrdMap κ ν) (k : κ) : Option ν := findEntry k m.entries

/-- `m[k] = v`. -/
def assign (m : OrdMap κ ν) (k : κ) (v : ν) : OrdMap κ ν :=
  ⟨insertEntry k v m.entries, sorted_insertEntry k v m.sorted⟩

/-- `m.emplace(k, v)`: a key that has a value keeps it. -/
def emplace (m : OrdMap κ ν) (k : κ) (v : ν) : OrdMap κ ν :=
  if (m.find k).isSome then m else m.assign k v

variable (m : OrdMap κ ν)

@[simp] theorem find_empty (k : κ) : (empty : OrdMap κ ν).find k = none := rfl

theorem mem_entries_iff {k : κ} {v : ν} : (k, v) ∈ m.entries ↔ m.find k = some v :=
  (findEntry_eq_some_iff m.sorted).symm

theorem find_assign (k k' : κ) (v : ν) :
    (m.assign k v).find k' = if k' = k then some v else m.find k' :=
  findEntry_insertEntry k k' v m.sorted

theorem find_emplace (k k' : κ) (v : ν) :
    (m.emplace k v).find k' = if k' = k then some ((m.find k).getD v) else m.find k' := by
  rw [emplace]
  cases hfind : m.find k with
  | none =>
    rw [if_neg (by rw [Option.isSome_none]; exact Bool.false_ne_true), find_assign]
    rfl
  | some w =>
    rw [if_pos (by rw [Option.isSome_some])]
    split_ifs with hk
    · rw [hk, hfind]
      rfl
    · rfl

/-- Where the entries are written out one after another, those of a key are what was written for
it. -/
theorem filter_flatMap (key : α → κ) (f : κ × ν → List α)
    (h : ∀ e ∈ m.entries, ∀ x ∈ f e, key x = e.1) (k : κ) :
    (m.entries.flatMap f).filter (fun x => key x = k) =
      (m.find k).elim [] fun v => f (k, v) := by
  obtain ⟨es, hsorted⟩ := m
  rw [find]
  dsimp only at *
  induction es with
  | nil => rfl
  | cons e es ih =>
    obtain ⟨hhead, htail⟩ := List.pairwise_cons.1 hsorted
    have hes := ih htail fun e' he' => h e' (List.mem_cons_of_mem _ he')
    have hkey := h e List.mem_cons_self
    rw [List.flatMap_cons, List.filter_append, findEntry]
    split_ifs with hk
    · -- no other entry has the key
      have hnone : findEntry k es = none := by
        by_contra hne
        obtain ⟨v, hv⟩ := Option.ne_none_iff_exists'.1 hne
        exact (hhead _ ((findEntry_eq_some_iff htail).1 hv)).ne hk
      rw [hes, hnone, List.filter_eq_self.2 (fun x hx => by simp [hkey x hx, hk])]
      simp [← hk]
    · rw [hes, List.filter_eq_nil_iff.2 (fun x hx => by simp [hkey x hx, hk]), List.nil_append]

/-! ## Loops for each key -/

/-- The elements of a list, those of each key through a loop of its own. -/
def group (key : α → κ) (step : ν → α → ν) (init : ν) (l : List α) : OrdMap κ ν :=
  l.foldl (fun m x => m.assign (key x) (step ((m.find (key x)).getD init) x)) empty

theorem find_group (key : α → κ) (step : ν → α → ν) (init : ν) (l : List α) (k : κ) :
    (group key step init l).find k =
      if l.filter (fun x => key x = k) = [] then none
      else some ((l.filter fun x => key x = k).foldl step init) := by
  induction l using List.reverseRecOn with
  | nil => rfl
  | append_singleton l x ih =>
    rw [group, List.foldl_append, List.foldl_cons, List.foldl_nil, ← group, find_assign,
      List.filter_append]
    by_cases hk : key x = k
    · have hx : [x].filter (fun x => key x = k) = [x] := by simp [hk]
      rw [if_pos hk.symm, hx, if_neg (by simp), List.foldl_append, hk, ih]
      split_ifs with hnil
      · rw [hnil]
        rfl
      · rfl
    · have hx : [x].filter (fun x => key x = k) = [] := by simp [hk]
      rw [if_neg (Ne.symm hk), hx, List.append_nil, ih]

end OrdMap

end Lib
