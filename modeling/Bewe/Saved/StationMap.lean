import Bewe.Text

/-!
# Packets by station

The maps in which Central keeps a packet for every station (`missions_by_station_`,
`sched_by_station_`), as lists in the order of their iteration. A packet that is too short for what
it should hold is kept too, as none.
-/

namespace Bewe.Saved

/-- A map from the key of a station to its packet, in the order of its iteration. -/
structure StationMap (P : Type) where
  list : List (Bytes × Option P)
  nodup : (list.map Prod.fst).Nodup

namespace StationMap

variable {P : Type}

/-- What is kept under a key. -/
def find (m : StationMap P) (k : Bytes) : Option (Option P) := m.list.lookup k

/-- The list with the value of a key replaced, or with the key at the end. -/
def setList (k : Bytes) (b : Option P) : List (Bytes × Option P) → List (Bytes × Option P)
  | [] => [(k, b)]
  | (k', b') :: l => if k' = k then (k, b) :: l else (k', b') :: setList k b l

theorem mem_map_fst_setList {k k' : Bytes} {b : Option P} {l : List (Bytes × Option P)} :
    k' ∈ (setList k b l).map Prod.fst ↔ k' = k ∨ k' ∈ l.map Prod.fst := by
  induction l with
  | nil => simp [setList]
  | cons x l ih =>
    obtain ⟨k₁, b₁⟩ := x
    rw [setList]
    split_ifs with h
    · subst h
      simp
    · rw [List.map_cons, List.mem_cons, ih, List.map_cons, List.mem_cons]
      tauto

theorem nodup_setList {k : Bytes} {b : Option P} {l : List (Bytes × Option P)}
    (h : (l.map Prod.fst).Nodup) : ((setList k b l).map Prod.fst).Nodup := by
  induction l with
  | nil => simp [setList]
  | cons x l ih =>
    obtain ⟨k₁, b₁⟩ := x
    rw [List.map_cons, List.nodup_cons] at h
    rw [setList]
    split_ifs with hk
    · subst hk
      exact List.nodup_cons.2 h
    · refine List.nodup_cons.2 ⟨fun hm => ?_, ih h.2⟩
      rcases mem_map_fst_setList.1 hm with hm | hm
      · exact hk hm
      · exact h.1 hm

/-- The value of a key set. -/
def set (m : StationMap P) (k : Bytes) (b : Option P) : StationMap P :=
  ⟨setList k b m.list, nodup_setList m.nodup⟩

/-- Nothing kept. -/
def empty : StationMap P := ⟨[], List.nodup_nil⟩

@[simp] theorem find_empty (k : Bytes) : (empty : StationMap P).find k = none := rfl

theorem lookup_setList (k k' : Bytes) (b : Option P) (l : List (Bytes × Option P)) :
    (setList k b l).lookup k' = if k' = k then some b else l.lookup k' := by
  induction l with
  | nil =>
    by_cases h : k' = k <;> simp [setList, h]
  | cons x l ih =>
    obtain ⟨k₁, b₁⟩ := x
    simp only [setList]
    split_ifs with h1 h2 h2
    · subst h1 h2
      simp
    · subst h1
      have hne : (k' == k₁) = false := by simpa using h2
      rw [List.lookup_cons, List.lookup_cons, hne]
    · subst h2
      have hne : (k' == k₁) = false := by simpa using fun h => h1 h.symm
      rw [List.lookup_cons, hne]
      simpa using ih
    · rw [List.lookup_cons, List.lookup_cons]
      cases hk : k' == k₁ with
      | true => rfl
      | false => simpa [h2] using ih

theorem find_set (m : StationMap P) (k k' : Bytes) (b : Option P) :
    (m.set k b).find k' = if k' = k then some b else m.find k' :=
  lookup_setList k k' b m.list

/-- The stations with a packet that holds what it should. -/
def snapshots (m : StationMap P) : List (Bytes × P) :=
  m.list.filterMap fun kb => kb.2.map fun p => (kb.1, p)

theorem nodup_snapshots (m : StationMap P) : (m.snapshots.map Prod.fst).Nodup := by
  have hsub : (m.snapshots.map Prod.fst).Sublist (m.list.map Prod.fst) := by
    unfold snapshots
    generalize m.list = l
    induction l with
    | nil => exact List.Sublist.refl _
    | cons kb l ih =>
      obtain ⟨k, b⟩ := kb
      cases b with
      | none => exact ih.cons k
      | some p => exact ih.cons_cons k
  exact m.nodup.sublist hsub

end StationMap

theorem lookup_eq_some_iff_mem {β : Type*} {l : List (Bytes × β)} (h : (l.map Prod.fst).Nodup)
    {k : Bytes} {b : β} : l.lookup k = some b ↔ (k, b) ∈ l := by
  induction l with
  | nil => simp
  | cons x l ih =>
    obtain ⟨k₁, b₁⟩ := x
    rw [List.map_cons, List.nodup_cons] at h
    rw [List.lookup_cons, List.mem_cons, Prod.mk.injEq]
    cases hk : k == k₁ with
    | true =>
      obtain rfl : k = k₁ := by simpa using hk
      have hnot : (k, b) ∉ l := fun hm => h.1 (List.mem_map.2 ⟨_, hm, rfl⟩)
      simp [hnot, eq_comm]
    | false =>
      have hne : k ≠ k₁ := by simpa using hk
      simp [hne, ih h.2]

theorem StationMap.find_eq_some_iff {P : Type} (m : StationMap P) {k : Bytes} {p : P} :
    m.find k = some (some p) ↔ m.snapshots.lookup k = some p := by
  rw [StationMap.find, lookup_eq_some_iff_mem m.nodup, lookup_eq_some_iff_mem m.nodup_snapshots,
    StationMap.snapshots, List.mem_filterMap]
  constructor
  · exact fun h => ⟨_, h, rfl⟩
  · rintro ⟨⟨k', b⟩, hmem, hb⟩
    obtain ⟨p', hp', heq⟩ := Option.map_eq_some_iff.1 hb
    obtain ⟨rfl, rfl⟩ := Prod.mk.inj heq
    obtain rfl : b = some p' := hp'
    exact hmem

theorem StationMap.find_eq_of_perm {P : Type} {m m' : StationMap P} (h : m.list.Perm m'.list)
    (k : Bytes) : m.find k = m'.find k := by
  refine Option.ext fun b => ?_
  rw [StationMap.find, StationMap.find, lookup_eq_some_iff_mem m.nodup,
    lookup_eq_some_iff_mem m'.nodup]
  exact h.mem_iff

end Bewe.Saved
