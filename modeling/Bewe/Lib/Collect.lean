import Mathlib.Tactic.Common
import Mathlib.Data.List.Nodup

/-!
# Collecting what is new

A search that keeps each thing it comes upon for the first time and stops when it has enough of
them. `Collected.Sound` says what it has found of the things it was shown: each at most once, and
all of them unless it has stopped.
-/

namespace Lib

/-- What a search has found, in order, and whether it has stopped. -/
structure Collected (α : Type*) where
  found : List α
  full : Bool

namespace Collected

variable {α : Type*}

/-- The search at its beginning. -/
def start : Collected α := ⟨[], false⟩

/-- The search comes upon a thing; it stops when `limit` are found. -/
def add [DecidableEq α] (limit : ℕ) (s : Collected α) (a : α) : Collected α :=
  if s.full then s
  else if a ∈ s.found then s
  else ⟨s.found ++ [a], decide (limit ≤ s.found.length + 1)⟩

/-- What a search under a limit has found of the things that it was shown. -/
structure Sound (limit : ℕ) (Shown : α → Prop) (s : Collected α) : Prop where
  nodup : s.found.Nodup
  shown : ∀ a ∈ s.found, Shown a
  all : s.full = false → ∀ a, Shown a → a ∈ s.found
  room : s.full = false → s.found.length < max 1 limit
  enough : s.full = true → s.found.length = max 1 limit

theorem sound_start (limit : ℕ) : (start : Collected α).Sound limit fun _ => False where
  nodup := List.nodup_nil
  shown a ha := by simp [start] at ha
  all _ _ h := h.elim
  room _ := by
    rw [start, List.length_nil]
    omega
  enough h := by simp [start] at h

theorem Sound.mono {limit : ℕ} {Shown Shown' : α → Prop} {s : Collected α} (h : s.Sound limit Shown)
    (hfull : s.full = true) (himp : ∀ a, Shown a → Shown' a) : s.Sound limit Shown' where
  nodup := h.nodup
  shown a ha := himp a (h.shown a ha)
  all hs := by simp [hfull] at hs
  room hs := by simp [hfull] at hs
  enough := h.enough

theorem Sound.congr {limit : ℕ} {Shown Shown' : α → Prop} {s : Collected α} (h : s.Sound limit Shown)
    (hiff : ∀ a, Shown a ↔ Shown' a) : s.Sound limit Shown' := by
  obtain rfl : Shown = Shown' := funext fun a => propext (hiff a)
  exact h

theorem Sound.add [DecidableEq α] {limit : ℕ} {Shown : α → Prop} {s : Collected α}
    (h : s.Sound limit Shown) (a : α) : (s.add limit a).Sound limit fun b => Shown b ∨ b = a := by
  unfold Collected.add
  split_ifs with hfull hmem
  · exact h.mono hfull fun b hb => Or.inl hb
  · have hshown := h.shown a hmem
    refine h.congr fun b => ⟨Or.inl, ?_⟩
    rintro (hb | rfl)
    · exact hb
    · exact hshown
  · have hopen : s.full = false := by simpa using hfull
    have hroom := h.room hopen
    constructor
    · exact List.nodup_append.2 ⟨h.nodup, List.nodup_singleton a, by
        rintro b hb c hc rfl
        exact hmem (List.mem_singleton.1 hc ▸ hb)⟩
    · intro b hb
      rcases List.mem_append.1 hb with hb | hb
      · exact Or.inl (h.shown b hb)
      · exact Or.inr (List.mem_singleton.1 hb)
    · rintro - b (hb | rfl)
      · exact List.mem_append_left _ (h.all hopen b hb)
      · exact List.mem_append_right _ (List.mem_singleton.2 rfl)
    · intro hlimit
      simp only [decide_eq_false_iff_not, Nat.not_le] at hlimit
      simp only [List.length_append, List.length_singleton]
      omega
    · intro hlimit
      simp only [decide_eq_true_eq] at hlimit
      simp only [List.length_append, List.length_singleton]
      omega

theorem Sound.foldl [DecidableEq α] {limit : ℕ} {Shown : α → Prop} {s : Collected α}
    (h : s.Sound limit Shown) (as : List α) :
    (as.foldl (Collected.add limit) s).Sound limit fun b => Shown b ∨ b ∈ as := by
  induction as generalizing s Shown with
  | nil => exact h.congr fun b => by simp
  | cons a as ih => exact (ih (h.add a)).congr fun b => by rw [List.mem_cons, or_assoc]

end Collected

end Lib
