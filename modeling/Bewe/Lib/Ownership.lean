import Mathlib.Logic.Function.Basic
import Mathlib.Data.List.Basic
import Mathlib.Tactic

/-!
# A two-sided index

Items that name the group they belong to, and groups that list their items: the same relation kept
twice, by hand. `Sound` says that what a group lists names that group, `Exact` that a group lists,
once each, precisely the items that name it. An item may name a group that does not exist; such an
item is listed nowhere.

The operations are the ways a program changes the two sides together. Each of them keeps both
properties, except `create`, which puts in a list that somebody else made up: `exact_create_iff`
says when that is right.
-/

namespace Lib

/-- Items that name a group, and groups that list items. -/
@[ext] structure Index (κ υ : Type*) where
  /-- The group that an item names. -/
  owner : κ → Option υ
  /-- The items that a group lists, if the group exists. -/
  members : υ → Option (List κ)

namespace Index

variable {κ υ : Type*}

/-- What a group lists names that group. -/
def Sound (x : Index κ υ) : Prop := ∀ u l, x.members u = some l → ∀ k ∈ l, x.owner k = some u

/-- A group lists exactly the items that name it, each once. -/
def Exact (x : Index κ υ) : Prop :=
  ∀ u l, x.members u = some l → l.Nodup ∧ ∀ k, k ∈ l ↔ x.owner k = some u

theorem Exact.sound {x : Index κ υ} (h : x.Exact) : x.Sound :=
  fun u l hl k hk => ((h u l hl).2 k).mp hk

theorem Sound.eq_of_mem {x : Index κ υ} (h : x.Sound) {u v : υ} {l m : List κ} {k : κ}
    (hl : x.members u = some l) (hm : x.members v = some m) (hkl : k ∈ l) (hkm : k ∈ m) : u = v := by
  have hu := h u l hl k hkl
  have hv := h v m hm k hkm
  rw [hu] at hv
  exact Option.some.inj hv

theorem ne_of_owner_ne {x : Index κ υ} {k k' : κ} (h : x.owner k ≠ x.owner k') : k ≠ k' :=
  fun e => h (congrArg x.owner e)

/-! ## Groups that come and go -/

variable [DecidableEq υ]

/-- A group appears with a given list. -/
def create (x : Index κ υ) (u : υ) (l : List κ) : Index κ υ :=
  { x with members := Function.update x.members u (some l) }

/-- A group disappears; its items keep naming it. -/
def drop (x : Index κ υ) (u : υ) : Index κ υ :=
  { x with members := Function.update x.members u none }

theorem sound_create_iff {x : Index κ υ} (h : x.Sound) (u : υ) (l : List κ) :
    (x.create u l).Sound ↔ ∀ k ∈ l, x.owner k = some u := by
  constructor
  · exact fun hs => hs u l (by simp [create])
  · intro hl v m hm
    simp only [create] at hm ⊢
    by_cases hv : v = u
    · subst hv
      rw [Function.update_self] at hm
      exact Option.some.inj hm ▸ hl
    · exact h v m (by rwa [Function.update_of_ne hv] at hm)

/-- A created group is exact exactly when its list is the items that already name it. -/
theorem exact_create_iff {x : Index κ υ} (h : x.Exact) (u : υ) (l : List κ) :
    (x.create u l).Exact ↔ l.Nodup ∧ ∀ k, k ∈ l ↔ x.owner k = some u := by
  constructor
  · exact fun he => he u l (by simp [create])
  · intro hl v m hm
    simp only [create] at hm ⊢
    by_cases hv : v = u
    · subst hv
      rw [Function.update_self] at hm
      exact Option.some.inj hm ▸ hl
    · exact h v m (by rwa [Function.update_of_ne hv] at hm)

theorem Sound.drop {x : Index κ υ} (h : x.Sound) (u : υ) : (x.drop u).Sound := by
  intro v m hm
  simp only [Index.drop] at hm ⊢
  by_cases hv : v = u
  · simp [hv] at hm
  · exact h v m (by rwa [Function.update_of_ne hv] at hm)

theorem Exact.drop {x : Index κ υ} (h : x.Exact) (u : υ) : (x.drop u).Exact := by
  intro v m hm
  simp only [Index.drop] at hm ⊢
  by_cases hv : v = u
  · simp [hv] at hm
  · exact h v m (by rwa [Function.update_of_ne hv] at hm)

/-! ## Items that change groups -/

variable [DecidableEq κ]

/-- An item that named no group joins the end of a group's list, or just names the group if the
group does not exist. -/
def assign (x : Index κ υ) (k : κ) (u : υ) : Index κ υ where
  owner := Function.update x.owner k (some u)
  members := Function.update x.members u ((x.members u).map (· ++ [k]))

/-- An item leaves its group. -/
def release (x : Index κ υ) (k : κ) : Index κ υ where
  owner := Function.update x.owner k none
  members u := if x.owner k = some u then (x.members u).map (List.filter (· ≠ k)) else x.members u

/-- The items of a list stop naming a group. -/
def disown (x : Index κ υ) (l : List κ) : Index κ υ :=
  { x with owner := fun k => if k ∈ l then none else x.owner k }

@[simp] theorem release_owner_self (x : Index κ υ) (k : κ) : (x.release k).owner k = none := by
  simp [release]

theorem release_of_owner_eq_none {x : Index κ υ} {k : κ} (h : x.owner k = none) : x.release k = x := by
  ext1
  · simp only [release]
    rw [← h, Function.update_eq_self]
  · simp [release, h]

theorem Sound.assign {x : Index κ υ} (h : x.Sound) {k : κ} (hk : x.owner k = none) (u : υ) :
    (x.assign k u).Sound := by
  intro v l hl k' hk'
  simp only [Index.assign] at hl ⊢
  by_cases hv : v = u
  · subst hv
    rw [Function.update_self, Option.map_eq_some_iff] at hl
    obtain ⟨l₀, hl₀, rfl⟩ := hl
    rcases List.mem_append.mp hk' with hm | hm
    · have ho := h v l₀ hl₀ k' hm
      rw [Function.update_of_ne (ne_of_owner_ne (x := x) (by simp [ho, hk])), ho]
    · rw [List.mem_singleton.mp hm, Function.update_self]
  · rw [Function.update_of_ne hv] at hl
    have ho := h v l hl k' hk'
    rw [Function.update_of_ne (ne_of_owner_ne (x := x) (by simp [ho, hk])), ho]

theorem Sound.release {x : Index κ υ} (h : x.Sound) (k : κ) : (x.release k).Sound := by
  intro v l hl k' hk'
  simp only [Index.release] at hl ⊢
  split_ifs at hl with hv
  · obtain ⟨l₀, hl₀, rfl⟩ := Option.map_eq_some_iff.mp hl
    obtain ⟨hm, hne⟩ := List.mem_filter.mp hk'
    rw [Function.update_of_ne (by simpa using hne)]
    exact h v l₀ hl₀ k' hm
  · have ho := h v l hl k' hk'
    rw [Function.update_of_ne (by rintro rfl; exact hv ho), ho]

theorem Sound.disown_drop {x : Index κ υ} (h : x.Sound) {u : υ} {l : List κ}
    (hl : x.members u = some l) : ((x.disown l).drop u).Sound := by
  intro v m hm k hk
  simp only [Index.drop, disown] at hm ⊢
  have hv : v ≠ u := by rintro rfl; simp at hm
  rw [Function.update_of_ne hv] at hm
  rw [if_neg fun hkl => hv (h.eq_of_mem hm hl hk hkl)]
  exact h v m hm k hk

theorem Exact.assign {x : Index κ υ} (h : x.Exact) {k : κ} (hk : x.owner k = none) (u : υ) :
    (x.assign k u).Exact := by
  intro v l hl
  simp only [Index.assign] at hl ⊢
  by_cases hv : v = u
  · subst hv
    rw [Function.update_self, Option.map_eq_some_iff] at hl
    obtain ⟨l₀, hl₀, rfl⟩ := hl
    obtain ⟨hnd, hmem⟩ := h v l₀ hl₀
    have hkl : k ∉ l₀ := fun hm => by simp [(hmem k).mp hm] at hk
    refine ⟨List.nodup_append.mpr ⟨hnd, List.nodup_singleton k, ?_⟩, fun k' => ?_⟩
    · rintro a ha b hb rfl
      exact hkl (List.mem_singleton.mp hb ▸ ha)
    · by_cases hkk : k' = k
      · simp [hkk]
      · simp [hkk, hmem k']
  · rw [Function.update_of_ne hv] at hl
    obtain ⟨hnd, hmem⟩ := h v l hl
    refine ⟨hnd, fun k' => ?_⟩
    by_cases hkk : k' = k
    · subst hkk
      rw [hmem, hk, Function.update_self]
      simpa using fun e => hv e.symm
    · rw [hmem, Function.update_of_ne hkk]

theorem Exact.release {x : Index κ υ} (h : x.Exact) (k : κ) : (x.release k).Exact := by
  intro v l hl
  simp only [Index.release] at hl ⊢
  split_ifs at hl with hv
  · obtain ⟨l₀, hl₀, rfl⟩ := Option.map_eq_some_iff.mp hl
    obtain ⟨hnd, hmem⟩ := h v l₀ hl₀
    refine ⟨hnd.filter _, fun k' => ?_⟩
    by_cases hkk : k' = k
    · simp [hkk]
    · simp [hkk, hmem k']
  · obtain ⟨hnd, hmem⟩ := h v l hl
    refine ⟨hnd, fun k' => ?_⟩
    by_cases hkk : k' = k
    · subst hkk
      simp [hmem, hv]
    · rw [hmem, Function.update_of_ne hkk]

theorem Exact.disown_drop {x : Index κ υ} (h : x.Exact) {u : υ} {l : List κ}
    (hl : x.members u = some l) : ((x.disown l).drop u).Exact := by
  intro v m hm
  simp only [Index.drop, disown] at hm ⊢
  have hv : v ≠ u := by rintro rfl; simp at hm
  rw [Function.update_of_ne hv] at hm
  obtain ⟨hnd, hmem⟩ := h v m hm
  refine ⟨hnd, fun k => ?_⟩
  rw [hmem]
  split_ifs with hkl
  · rw [((h u l hl).2 k).mp hkl]
    simpa using fun e => hv e.symm
  · rfl

/-! ## Moves -/

/-- One change of the index that keeps both sides in step. -/
inductive Move : Index κ υ → Index κ υ → Prop
  /-- An item that names no group joins one. -/
  | assign {x : Index κ υ} (k : κ) (u : υ) : x.owner k = none → Move x (x.assign k u)
  /-- An item leaves its group. -/
  | release {x : Index κ υ} (k : κ) : Move x (x.release k)
  /-- A group that no item names appears, empty. -/
  | appear {x : Index κ υ} (u : υ) : (∀ k, x.owner k ≠ some u) → Move x (x.create u [])
  /-- A group disappears. -/
  | drop {x : Index κ υ} (u : υ) : Move x (x.drop u)
  /-- A group disappears and its items forget it. -/
  | disband {x : Index κ υ} {u : υ} {l : List κ} :
    x.members u = some l → Move x ((x.disown l).drop u)

/-- Any number of moves. -/
abbrev Moves : Index κ υ → Index κ υ → Prop := Relation.ReflTransGen Move

theorem Move.sound {x y : Index κ υ} (h : Move x y) (hx : x.Sound) : y.Sound := by
  cases h with
  | assign k u hk => exact hx.assign hk u
  | release k => exact hx.release k
  | appear u _ => exact (sound_create_iff hx u []).mpr (by simp)
  | drop u => exact hx.drop u
  | disband hl => exact hx.disown_drop hl

theorem Move.exact {x y : Index κ υ} (h : Move x y) (hx : x.Exact) : y.Exact := by
  cases h with
  | assign k u hk => exact hx.assign hk u
  | release k => exact hx.release k
  | appear u hu => exact (exact_create_iff hx u []).mpr ⟨List.nodup_nil, by simpa using hu⟩
  | drop u => exact hx.drop u
  | disband hl => exact hx.disown_drop hl

theorem Moves.sound {x y : Index κ υ} (h : Moves x y) (hx : x.Sound) : y.Sound := by
  induction h with
  | refl => exact hx
  | tail _ hm ih => exact hm.sound ih

theorem Moves.exact {x y : Index κ υ} (h : Moves x y) (hx : x.Exact) : y.Exact := by
  induction h with
  | refl => exact hx
  | tail _ hm ih => exact hm.exact ih

end Index

end Lib
