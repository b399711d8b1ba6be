import Mathlib.Tactic.Common

/-!
# Loops that may not end

A loop as it is executed: a turn of it goes on from another state or leaves the loop, and a turn may
have loops in it. With a limit on the turns of every loop there is a result or there is none, and a
loop ends if there is one with some limit. Where each turn that goes on makes something smaller, the
limit need only be above it (`Shrinks.exists_run`); and where the turns of a recursive function are
those of the loop, the result is what the function says (`Follows.run`).
-/

namespace Lib

variable {σ ρ : Type*}

/-- What a turn of a loop comes to: another turn, or the end of the loop. -/
inductive Turn (σ ρ : Type*)
  | again (s : σ)
  | leave (r : ρ)

/-- At most `n` turns of a loop; no result if it is not left by then, or if a turn has none. -/
def turns (turn : σ → Option (Turn σ ρ)) : ℕ → σ → Option ρ
  | 0, _ => none
  | n + 1, s =>
    match turn s with
    | none => none
    | some (.again s) => turns turn n s
    | some (.leave r) => some r

/-- A loop with a limit on its turns and on those of the loops in it. -/
def loop (turn : ℕ → σ → Option (Turn σ ρ)) (limit : ℕ) (s : σ) : Option ρ :=
  turns (turn limit) limit s

variable (size : σ → ℕ) (turn : ℕ → σ → Option (Turn σ ρ))

/-- Each turn of a loop comes to its end, and makes the state smaller or leaves the loop. -/
def Consumes : Prop :=
  ∀ limit s, size s < limit →
    ∃ t, turn limit s = some t ∧ ∀ s', t = .again s' → size s' < size s

/-- What a turn comes to is what one step of a function does that counts its steps and has enough of
them left.
-/
def Turn.Is (g : ℕ → σ → ρ) (s : σ) : Turn σ ρ → Prop
  | .again s' => size s' < size s ∧ ∀ n, size s' < n → g (n + 1) s = g n s'
  | .leave r => ∀ n, g (n + 1) s = r

/-- What a turn leaves is smaller than the state, or with the end of the loop no larger. -/
def Turn.Within (left : ρ → ℕ) (s : σ) : Turn σ ρ → Prop
  | .again s' => size s' < size s
  | .leave r => left r ≤ size s

/-- A loop whose turns consume, and whose result is no larger than the state was. -/
def Shrinks (left : ρ → ℕ) : Prop :=
  ∀ limit s, size s < limit → ∃ t, turn limit s = some t ∧ t.Within size left s

/-- The turns of a loop are the steps of a function, and make the state smaller. -/
def Follows (g : ℕ → σ → ρ) : Prop :=
  ∀ limit s, size s < limit → ∃ t, turn limit s = some t ∧ t.Is size g s

variable {size turn}

theorem Follows.consumes {g : ℕ → σ → ρ} (h : Follows size turn g) : Consumes size turn := by
  intro limit s hs
  obtain ⟨t, ht, his⟩ := h limit s hs
  refine ⟨t, ht, ?_⟩
  rintro s' rfl
  exact his.1

theorem Shrinks.consumes {left : ρ → ℕ} (h : Shrinks size turn left) : Consumes size turn := by
  intro limit s hs
  obtain ⟨t, ht, hwithin⟩ := h limit s hs
  refine ⟨t, ht, ?_⟩
  rintro s' rfl
  exact hwithin

theorem Shrinks.exists_run {left : ρ → ℕ} (h : Shrinks size turn left) {limit : ℕ} {s : σ}
    (hs : size s < limit) : ∃ r, loop turn limit s = some r ∧ left r ≤ size s := by
  have hturns : ∀ n s, size s < n → size s < limit →
      ∃ r, turns (turn limit) n s = some r ∧ left r ≤ size s := by
    intro n
    induction n with
    | zero => exact fun s hn => absurd hn (Nat.not_lt_zero _)
    | succ n ih =>
      intro s hn hlimit
      obtain ⟨t, ht, hwithin⟩ := h limit s hlimit
      unfold turns
      rw [ht]
      cases t with
      | leave r => exact ⟨r, rfl, hwithin⟩
      | again s' =>
        have hlt : size s' < size s := hwithin
        obtain ⟨r, hr, hleft⟩ := ih s' (by omega) (by omega)
        exact ⟨r, hr, by omega⟩
  exact hturns limit s hs hs

theorem Follows.run {g : ℕ → σ → ρ} (h : Follows size turn g) {limit n : ℕ} {s : σ}
    (hlimit : size s < limit) (hn : size s < n) : loop turn limit s = some (g n s) := by
  have hturns : ∀ m n s, size s < m → size s < n → size s < limit →
      turns (turn limit) m s = some (g n s) := by
    intro m
    induction m with
    | zero => exact fun n s hm => absurd hm (Nat.not_lt_zero _)
    | succ m ih =>
      intro n s hm hn hlimit
      obtain ⟨k, rfl⟩ : ∃ k, n = k + 1 := ⟨n - 1, by omega⟩
      obtain ⟨t, ht, his⟩ := h limit s hlimit
      unfold turns
      rw [ht]
      cases t with
      | leave r => exact congrArg some (his k).symm
      | again s' =>
        obtain ⟨hlt, hstep⟩ := his
        rw [hstep k (by omega)]
        exact ih k s' (by omega) (by omega) (by omega)
  exact hturns limit n s hlimit hn hlimit

end Lib
