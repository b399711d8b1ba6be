import Mathlib.Data.List.GetD
import Mathlib.Data.List.Infix
import Mathlib.Tactic

/-!
# Regrouping lists

Lists that arrive one after another and are kept in named places, where a place may come to hold
several of them put together: `Regroups B v` says that the places `v` hold the arrived lists `B`,
each whole and in exactly one place. The element of an arrived list is known by the list and its
position, so equal elements of different lists are not confused.

A place may be filled by a new arrival (`Regroups.arrive`), and two places may be joined into one
(`Regroups.join`). `Regroups.infix` is what a regrouping says about the places alone, and
`regroups_of_names` that any places hold their own lists.
-/

namespace Lib

variable {ν ρ : Type*}

/-- The lists with the given numbers, put together. -/
def gather (B : List (List ρ)) (is : List ℕ) : List ρ := (is.map fun i => B.getD i []).flatten

@[simp] theorem gather_append (B : List (List ρ)) (is js : List ℕ) :
    gather B (is ++ js) = gather B is ++ gather B js := by
  simp [gather]

/-- More arrivals do not change what is gathered from the earlier ones. -/
theorem gather_concat {B : List (List ρ)} {is : List ℕ} (h : ∀ i ∈ is, i < B.length) (b : List ρ) :
    gather (B ++ [b]) is = gather B is := by
  unfold gather
  congr 1
  refine List.map_congr_left fun i hi => ?_
  rw [List.getD_append _ _ _ _ (h i hi)]

/-- Which arrivals each place holds: all of them, each once. -/
structure Grouping (B : List (List ρ)) (v : ν → Option (List ρ)) (src : ν → List ℕ) : Prop where
  rows : ∀ n b, v n = some b → b = gather B (src n)
  absent : ∀ n, v n = none → src n = []
  lt_length : ∀ n, ∀ i ∈ src n, i < B.length
  held : ∀ i, i < B.length → ∃ n, i ∈ src n
  once : ∀ n m i, i ∈ src n → i ∈ src m → n = m
  nodup : ∀ n, (src n).Nodup

/-- The places hold the arrived lists, each whole and in exactly one place. -/
def Regroups (B : List (List ρ)) (v : ν → Option (List ρ)) : Prop := ∃ src, Grouping B v src

/-- Empty places hold nothing. -/
theorem regroups_nil : Regroups ([] : List (List ρ)) fun _ : ν => none :=
  ⟨fun _ => [], ⟨by simp, by simp, by simp, by simp, by simp, by simp⟩⟩

variable {B : List (List ρ)} {v : ν → Option (List ρ)}

/-- Every arrival is found whole in some place. -/
theorem Regroups.infix (h : Regroups B v) {b : List ρ} (hb : b ∈ B) :
    ∃ n c, v n = some c ∧ b <:+: c := by
  obtain ⟨src, hg⟩ := h
  obtain ⟨i, hi, rfl⟩ := List.mem_iff_getElem.mp hb
  obtain ⟨n, hn⟩ := hg.held i hi
  cases hv : v n with
  | none =>
    rw [hg.absent n hv] at hn
    simp at hn
  | some c =>
    refine ⟨n, c, hv, ?_⟩
    rw [hg.rows n c hv, gather]
    obtain ⟨xs, ys, hxy⟩ := List.append_of_mem hn
    rw [hxy, List.map_append, List.map_cons, List.flatten_append, List.flatten_cons,
      List.getD_eq_getElem _ _ hi]
    exact ⟨_, _, by rw [List.append_assoc]⟩

variable [DecidableEq ν]

/-- A new arrival in an empty place. -/
theorem Regroups.arrive (h : Regroups B v) {n : ν} (hn : v n = none) (b : List ρ) :
    Regroups (B ++ [b]) (Function.update v n (some b)) := by
  obtain ⟨src, hs⟩ := h
  have hsrc := hs.absent n hn
  have hfresh : ∀ m, B.length ∉ src m := fun m hm => (hs.lt_length m _ hm).false
  refine ⟨Function.update src n [B.length], ⟨?_, ?_, ?_, ?_, ?_, ?_⟩⟩
  · intro m b' hm
    by_cases hmn : m = n
    · subst hmn
      rw [Function.update_self] at hm ⊢
      rw [← Option.some.inj hm]
      simp [gather]
    · rw [Function.update_of_ne hmn] at hm ⊢
      rw [gather_concat (hs.lt_length m)]
      exact hs.rows m b' hm
  · intro m hm
    by_cases hmn : m = n
    · subst hmn
      simp at hm
    · rw [Function.update_of_ne hmn] at hm ⊢
      exact hs.absent m hm
  · intro m i hi
    rw [List.length_append, List.length_singleton]
    by_cases hmn : m = n
    · subst hmn
      rw [Function.update_self, List.mem_singleton] at hi
      omega
    · rw [Function.update_of_ne hmn] at hi
      have := hs.lt_length m i hi
      omega
  · intro i hi
    rw [List.length_append, List.length_singleton] at hi
    rcases Nat.lt_succ_iff_lt_or_eq.mp hi with hlt | rfl
    · obtain ⟨m, hm⟩ := hs.held i hlt
      have hmn : m ≠ n := by
        rintro rfl
        simp [hsrc] at hm
      exact ⟨m, by rwa [Function.update_of_ne hmn]⟩
    · exact ⟨n, by simp⟩
  · intro m k i hm hk
    by_cases h1 : m = n <;> by_cases h2 : k = n
    · rw [h1, h2]
    · subst h1
      rw [Function.update_self, List.mem_singleton] at hm
      rw [Function.update_of_ne h2, hm] at hk
      exact absurd hk (hfresh k)
    · subst h2
      rw [Function.update_self, List.mem_singleton] at hk
      rw [Function.update_of_ne h1, hk] at hm
      exact absurd hm (hfresh m)
    · rw [Function.update_of_ne h1] at hm
      rw [Function.update_of_ne h2] at hk
      exact hs.once m k i hm hk
  · intro m
    by_cases hmn : m = n
    · subst hmn
      simp
    · rw [Function.update_of_ne hmn]
      exact hs.nodup m

/-- Two places are emptied and what they held goes, put together, into one of them or into an empty
place. -/
theorem Regroups.join (h : Regroups B v) {p s m : ν} {a b : List ρ} (hp : v p = some a)
    (hs : v s = some b) (hne : p ≠ s) (hm : m = p ∨ m = s ∨ v m = none) :
    Regroups B
      (Function.update (Function.update (Function.update v p none) s none) m (some (a ++ b))) := by
  obtain ⟨src, hg⟩ := h
  have hdisj : (src p).Disjoint (src s) := fun i hi hj => hne (hg.once p s i hi hj)
  have hsrcm : m ≠ p → m ≠ s → src m = [] := by
    intro h1 h2
    exact hg.absent m ((hm.resolve_left h1).resolve_left h2)
  -- where an arrival is after the join
  have hmem : ∀ k i, i ∈ (Function.update (Function.update (Function.update src p []) s []) m
      (src p ++ src s)) k ↔
      (k = m ∧ (i ∈ src p ∨ i ∈ src s)) ∨ (k ≠ m ∧ k ≠ p ∧ k ≠ s ∧ i ∈ src k) := by
    intro k i
    by_cases hkm : k = m
    · subst hkm
      simp
    · rw [Function.update_of_ne hkm]
      by_cases hks : k = s
      · subst hks
        simp [hkm]
      · rw [Function.update_of_ne hks]
        by_cases hkp : k = p
        · subst hkp
          simp [hkm]
        · rw [Function.update_of_ne hkp]
          simp [hkm, hks, hkp]
  refine ⟨Function.update (Function.update (Function.update src p []) s []) m (src p ++ src s),
    ⟨?_, ?_, ?_, ?_, ?_, ?_⟩⟩
  · intro k c hk
    by_cases hkm : k = m
    · subst hkm
      rw [Function.update_self, Option.some.injEq] at hk
      rw [Function.update_self, gather_append, ← hg.rows p a hp, ← hg.rows s b hs, hk]
    · rw [Function.update_of_ne hkm] at hk ⊢
      by_cases hks : k = s
      · subst hks
        simp at hk
      · rw [Function.update_of_ne hks] at hk ⊢
        by_cases hkp : k = p
        · subst hkp
          simp at hk
        · rw [Function.update_of_ne hkp] at hk ⊢
          exact hg.rows k c hk
  · intro k hk
    refine List.eq_nil_iff_forall_not_mem.mpr fun i hi => ?_
    rcases (hmem k i).mp hi with ⟨rfl, -⟩ | ⟨h1, h2, h3, h4⟩
    · simp at hk
    · rw [Function.update_of_ne h1, Function.update_of_ne h3, Function.update_of_ne h2] at hk
      rw [hg.absent k hk] at h4
      simp at h4
  · intro k i hi
    rcases (hmem k i).mp hi with ⟨-, h1 | h1⟩ | ⟨-, -, -, h1⟩
    · exact hg.lt_length p i h1
    · exact hg.lt_length s i h1
    · exact hg.lt_length k i h1
  · intro i hi
    obtain ⟨k, hk⟩ := hg.held i hi
    by_cases hkp : k = p
    · exact ⟨m, (hmem m i).mpr (.inl ⟨rfl, .inl (hkp ▸ hk)⟩)⟩
    · by_cases hks : k = s
      · exact ⟨m, (hmem m i).mpr (.inl ⟨rfl, .inr (hks ▸ hk)⟩)⟩
      · have hkm : k ≠ m := by
          rintro rfl
          rw [hsrcm hkp hks] at hk
          simp at hk
        exact ⟨k, (hmem k i).mpr (.inr ⟨hkm, hkp, hks, hk⟩)⟩
  · intro k l i hk hl
    rcases (hmem k i).mp hk with ⟨rfl, h1⟩ | ⟨-, h2, h3, h1⟩ <;>
      rcases (hmem l i).mp hl with ⟨rfl, h4⟩ | ⟨-, h5, h6, h4⟩
    · rfl
    · rcases h1 with h1 | h1
      · exact absurd (hg.once _ _ i h4 h1) h5
      · exact absurd (hg.once _ _ i h4 h1) h6
    · rcases h4 with h4 | h4
      · exact absurd (hg.once _ _ i h1 h4) h2
      · exact absurd (hg.once _ _ i h1 h4) h3
    · exact hg.once k l i h1 h4
  · intro k
    by_cases hkm : k = m
    · subst hkm
      rw [Function.update_self]
      exact (hg.nodup p).append (hg.nodup s) hdisj
    · rw [Function.update_of_ne hkm]
      by_cases hks : k = s
      · subst hks
        simp
      · rw [Function.update_of_ne hks]
        by_cases hkp : k = p
        · subst hkp
          simp
        · rw [Function.update_of_ne hkp]
          exact hg.nodup k

/-- The lists in the places of `ns`, with a number each, are regrouped by these places. -/
theorem regroups_of_names {ns : List ν} (hnd : ns.Nodup) (hns : ∀ n, v n ≠ none → n ∈ ns) :
    Regroups (ns.filterMap v) v := by
  induction ns using List.reverseRecOn generalizing v with
  | nil =>
    have hv : v = fun _ => none := funext fun n => by
      by_contra hn
      simpa using hns n hn
    rw [hv]
    exact regroups_nil
  | append_singleton ns n ih =>
    obtain ⟨hnd', -, hdisj⟩ := List.nodup_append.mp hnd
    have hnns : n ∉ ns := fun hmem => hdisj n hmem n (List.mem_singleton_self n) rfl
    -- without the last place, and then that place
    have hrest := ih (v := Function.update v n none) hnd' fun k hk => by
      by_cases hkn : k = n
      · subst hkn
        simp at hk
      · rw [Function.update_of_ne hkn] at hk
        simpa [hkn] using hns k hk
    have hsame : ns.filterMap (Function.update v n none) = ns.filterMap v :=
      List.filterMap_congr fun k hk => by
        have hkn : k ≠ n := fun h => hnns (h ▸ hk)
        rw [Function.update_of_ne hkn]
    rw [hsame] at hrest
    rw [List.filterMap_append]
    cases hv : v n with
    | none =>
      rw [← hv, Function.update_eq_self] at hrest
      simpa [hv] using hrest
    | some b =>
      have harr := hrest.arrive (Function.update_self n none v) b
      rw [Function.update_idem, ← hv, Function.update_eq_self] at harr
      simpa [hv] using harr

end Lib
