import Mathlib.Data.List.Nodup

/-!
# Maps that keep the order of insertion

A finite map with its keys in the order in which they came: a key that is set again keeps its place,
and one that was erased comes last when it is set anew.
-/

namespace Lib

/-- A map with its keys in the order of insertion. -/
structure Dict (κ ν : Type*) where
  keys : List κ
  find : κ → Option ν
  nodup : keys.Nodup
  mem_keys : ∀ k, k ∈ keys ↔ (find k).isSome

namespace Dict

variable {κ ν : Type*}

/-- A map with no keys. -/
def empty : Dict κ ν := ⟨[], fun _ => none, List.nodup_nil, fun _ => by simp⟩

@[simp] theorem find_empty (k : κ) : (empty : Dict κ ν).find k = none := rfl

variable [DecidableEq κ]

/-- A value for a key. -/
def set (d : Dict κ ν) (k : κ) (v : ν) : Dict κ ν where
  keys := if (d.find k).isSome then d.keys else d.keys ++ [k]
  find := Function.update d.find k (some v)
  nodup := by
    split_ifs with h
    · exact d.nodup
    · have hk : k ∉ d.keys := fun hmem => h ((d.mem_keys k).1 hmem)
      exact List.nodup_append.2 ⟨d.nodup, List.nodup_singleton k, by
        rintro a ha b hb rfl
        exact hk (List.mem_singleton.1 hb ▸ ha)⟩
  mem_keys := by
    intro j
    by_cases hj : j = k
    · subst hj
      rw [Function.update_self]
      split_ifs with h
      · simpa using (d.mem_keys j).2 h
      · simp
    · rw [Function.update_of_ne hj, ← d.mem_keys j]
      split_ifs
      · rfl
      · simp [hj]

/-- Without a key. -/
def erase (d : Dict κ ν) (k : κ) : Dict κ ν where
  keys := d.keys.erase k
  find := Function.update d.find k none
  nodup := d.nodup.erase k
  mem_keys := by
    intro j
    rw [d.nodup.mem_erase_iff]
    by_cases hj : j = k
    · simp [hj]
    · rw [Function.update_of_ne hj, ← d.mem_keys]
      simp [hj]

@[simp] theorem find_set_self (d : Dict κ ν) (k : κ) (v : ν) : (d.set k v).find k = some v :=
  Function.update_self ..

theorem keys_set (d : Dict κ ν) {k : κ} (h : d.find k = none) (v : ν) :
    (d.set k v).keys = d.keys ++ [k] := by
  simp [set, h]

theorem find_set (d : Dict κ ν) (j k : κ) (v : ν) :
    (d.set k v).find j = if j = k then some v else d.find j := Function.update_apply ..

theorem find_set_of_ne (d : Dict κ ν) {j k : κ} (h : j ≠ k) (v : ν) :
    (d.set k v).find j = d.find j := Function.update_of_ne h ..

@[simp] theorem find_erase_self (d : Dict κ ν) (k : κ) : (d.erase k).find k = none :=
  Function.update_self ..

theorem find_erase_of_ne (d : Dict κ ν) {j k : κ} (h : j ≠ k) : (d.erase k).find j = d.find j :=
  Function.update_of_ne h ..

end Dict

end Lib
