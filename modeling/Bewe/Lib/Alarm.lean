import Mathlib.Algebra.BigOperators.Intervals
import Mathlib.Algebra.Order.BigOperators.Group.Finset
import Mathlib.Data.List.Basic
import Mathlib.Data.Nat.Cast.Basic
import Mathlib.Tactic.Common

/-!
# Alarms with hysteresis

An alarm that is fed with the number of times that its condition was met in each tick, from two
counters: the hits since it was last forgotten, and the ticks without one since the last hit. It is
raised with the hit that makes `enter` of them, and forgotten after `clear` ticks without one.
`Episode` says on the counts alone where the hits begin that are counted together (`since_state`).

The signals of such an alarm come in cycles, and one ends after `clear` quiet ticks
(`cycles_history`, `clears_iff`). That the condition has been met in each of the last `enter` ticks
when it is raised does not follow from a count of hits: `held_iff` says when it does.
-/

namespace Lib.Alarm

/-! ## The counters -/

/-- The counters of an alarm that has not been forgotten. -/
structure Pending where
  hits : ℕ
  miss : ℕ
  deriving DecidableEq

/-- What a tick with `c` hits makes of the counters. -/
def step (clear : ℕ) : Option Pending → ℕ → Option Pending
  | none, 0 => none
  | none, c + 1 => some ⟨c + 1, 0⟩
  | some p, 0 => if clear ≤ p.miss + 1 then none else some ⟨p.hits, p.miss + 1⟩
  | some p, c + 1 => some ⟨p.hits + (c + 1), 0⟩

/-- The counters before each tick. -/
def state (clear : ℕ) (c : ℕ → ℕ) : ℕ → Option Pending
  | 0 => none
  | n + 1 => step clear (state clear c n) (c n)

/-- An alarm with enough hits. -/
def Raised (enter : ℕ) (s : Option Pending) : Prop := ∃ p ∈ s, enter ≤ p.hits

variable {enter clear : ℕ} {c : ℕ → ℕ}

/-! ## Episodes -/

/-- The first hits after a long time without any. -/
def Starts (clear : ℕ) (c : ℕ → ℕ) (a : ℕ) : Prop := 0 < c a ∧ ∀ j < a, 0 < c j → j + clear < a

/-- The last start up to a tick. -/
structure Episode (clear : ℕ) (c : ℕ → ℕ) (a n : ℕ) : Prop where
  le : a ≤ n
  starts : Starts clear c a
  last : ∀ b, a < b → b ≤ n → ¬Starts clear c b

/-- The hits from a tick on, before another one. -/
def hits (c : ℕ → ℕ) (a n : ℕ) : ℕ := ∑ j ∈ Finset.Ico a n, c j

@[simp] theorem hits_self (c : ℕ → ℕ) (a : ℕ) : hits c a a = 0 := by simp [hits]

theorem hits_succ {a n : ℕ} (h : a ≤ n) : hits c a (n + 1) = hits c a n + c n :=
  Finset.sum_Ico_succ_top h c

/-- Counters that have not been forgotten: since when they count, and when the last hit was. -/
structure Since (clear : ℕ) (c : ℕ → ℕ) (n : ℕ) (p : Pending) (a l : ℕ) : Prop where
  le : a ≤ l
  lt : l < n
  starts : Starts clear c a
  last : ∀ b, a < b → b < n → ¬Starts clear c b
  hits : p.hits = hits c a n
  hit : 0 < c l
  quiet : ∀ j, l < j → j < n → c j = 0
  miss : p.miss + l + 1 = n
  miss_lt : p.miss < clear

theorem since_state (hclear : 0 < clear) (n : ℕ) :
    (state clear c n = none → ∀ j < n, 0 < c j → j + clear < n) ∧
      ∀ p, state clear c n = some p → ∃ a l, Since clear c n p a l := by
  induction n with
  | zero => exact ⟨fun _ j hj => absurd hj (Nat.not_lt_zero j), fun p hp => absurd hp (by simp [state])⟩
  | succ n ih =>
    obtain ⟨ihnone, ihsome⟩ := ih
    rw [state]
    cases hs : state clear c n with
    | none =>
      have hold := ihnone hs
      cases hc : c n with
      | zero =>
        refine ⟨fun _ j hj hcj => ?_, fun p hp => absurd hp (by simp [step])⟩
        have hne : j ≠ n := fun h => by rw [h, hc] at hcj; exact absurd hcj (lt_irrefl 0)
        exact (hold j (by omega) hcj).trans (Nat.lt_succ_self n)
      | succ k =>
        refine ⟨fun h => absurd h (by simp [step]), fun p hp => ⟨n, n, ?_⟩⟩
        obtain rfl : ⟨k + 1, 0⟩ = p := by simpa [step] using hp
        exact
          { le := le_rfl
            lt := Nat.lt_succ_self n
            starts := ⟨by omega, hold⟩
            last := fun b hab hbn => absurd hbn (by omega)
            hits := by rw [hits_succ le_rfl, hits_self, hc, Nat.zero_add]
            hit := by omega
            quiet := fun j hlj hjn => absurd hjn (by omega)
            miss := by simp
            miss_lt := hclear }
    | some p =>
      obtain ⟨a, l, h⟩ := ihsome p hs
      have han : a ≤ n := h.le.trans h.lt.le
      cases hc : c n with
      | zero =>
        have hno : ¬Starts clear c n := fun hst => absurd hst.1 (by omega)
        have hquiet : ∀ j, l < j → j < n + 1 → c j = 0 := by
          intro j hlj hjn
          rcases Nat.lt_succ_iff_lt_or_eq.1 hjn with hj | rfl
          · exact h.quiet j hlj hj
          · exact hc
        have hmiss := h.miss
        rw [step]
        split_ifs with hgone
        · refine ⟨fun _ j hj hcj => ?_, fun q hq => absurd hq (by simp)⟩
          have hjl : j ≤ l := by
            by_contra hlj
            rw [hquiet j (by omega) hj] at hcj
            exact absurd hcj (lt_irrefl 0)
          omega
        · refine ⟨fun h => absurd h (by simp), fun q hq => ⟨a, l, ?_⟩⟩
          obtain rfl := Option.some.inj hq
          exact
            { le := h.le
              lt := by have := h.lt; omega
              starts := h.starts
              last := fun b hab hbn => by
                rcases Nat.lt_succ_iff_lt_or_eq.1 hbn with hb | rfl
                · exact h.last b hab hb
                · exact hno
              hits := by rw [hits_succ han, hc, Nat.add_zero]; exact h.hits
              hit := h.hit
              quiet := hquiet
              miss := by simp only; omega
              miss_lt := by simp only; omega }
      | succ k =>
        refine ⟨fun h => absurd h (by simp [step]), fun q hq => ⟨a, n, ?_⟩⟩
        obtain rfl : ⟨p.hits + (k + 1), 0⟩ = q := by simpa [step] using hq
        -- the last hit was not long enough ago
        have hno : ¬Starts clear c n := fun hst => by
          have hlt := hst.2 l h.lt h.hit
          have hmiss := h.miss
          have hmiss' := h.miss_lt
          omega
        exact
          { le := han
            lt := Nat.lt_succ_self n
            starts := h.starts
            last := fun b hab hbn => by
              rcases Nat.lt_succ_iff_lt_or_eq.1 hbn with hb | rfl
              · exact h.last b hab hb
              · exact hno
            hits := by rw [hits_succ han, hc, ← h.hits]
            hit := by omega
            quiet := fun j hlj hjn => absurd hjn (by omega)
            miss := by simp
            miss_lt := hclear }

/-! ## When an alarm is raised -/

/-- The tick that raises it. -/
def Raises (enter clear : ℕ) (c : ℕ → ℕ) (n : ℕ) : Prop :=
  ¬Raised enter (state clear c n) ∧ Raised enter (state clear c (n + 1))

/-- It is raised with the hit of an episode that makes enough of them. -/
theorem raises_iff (henter : 0 < enter) (hclear : 0 < clear) (n : ℕ) :
    Raises enter clear c n ↔
      ∃ a, Episode clear c a n ∧ hits c a n < enter ∧ enter ≤ hits c a (n + 1) := by
  obtain ⟨hnone, hsome⟩ := since_state (c := c) hclear n
  rw [Raises, state]
  cases hs : state clear c n with
  | none =>
    have hold := hnone hs
    cases hc : c n with
    | zero =>
      refine iff_of_false (by rintro ⟨-, p, hp, -⟩; simp [step] at hp) ?_
      rintro ⟨a, ha, hlt, hle⟩
      rw [hits_succ ha.le, hc] at hle
      omega
    | succ k =>
      have hstart : Starts clear c n := ⟨by omega, hold⟩
      constructor
      · rintro ⟨-, p, hp, hle⟩
        obtain rfl : ⟨k + 1, 0⟩ = p := by simpa [step] using hp
        refine ⟨n, ⟨le_rfl, hstart, fun b hab hbn => absurd hbn (by omega)⟩, by simpa using henter, ?_⟩
        rw [hits_succ le_rfl, hits_self, hc]
        simpa using hle
      · rintro ⟨a, ha, hlt, hle⟩
        obtain rfl : a = n := by
          by_contra hne
          exact ha.last n (lt_of_le_of_ne ha.le hne) le_rfl hstart
        rw [hits_succ le_rfl, hits_self, hc] at hle
        exact ⟨by simp [Raised], ⟨k + 1, 0⟩, rfl, by simpa using hle⟩
  | some p =>
    obtain ⟨a', l, h⟩ := hsome p hs
    have hmiss := h.miss
    have hmiss' := h.miss_lt
    have hno : ¬Starts clear c n := fun hst => by
      have hlt := hst.2 l h.lt h.hit
      omega
    have hepisode : Episode clear c a' n :=
      ⟨h.le.trans h.lt.le, h.starts, fun b hab hbn => by
        rcases lt_or_eq_of_le hbn with hb | rfl
        · exact h.last b hab hb
        · exact hno⟩
    have huniq : ∀ a, Episode clear c a n → a = a' := by
      intro a ha
      rcases lt_trichotomy a a' with hlt | heq | hlt
      · exact absurd h.starts (ha.last a' hlt hepisode.le)
      · exact heq
      · exact absurd ha.starts (hepisode.last a hlt ha.le)
    cases hc : c n with
    | zero =>
      constructor
      · rintro ⟨hlow, q, hq, hle⟩
        rw [step] at hq
        split_ifs at hq
        · exact absurd hq (by simp)
        · obtain rfl := Option.some.inj hq
          exact absurd ⟨p, rfl, hle⟩ hlow
      · rintro ⟨a, ha, hlt, hle⟩
        rw [hits_succ ha.le, hc] at hle
        omega
    | succ k =>
      constructor
      · rintro ⟨hlow, q, hq, hle⟩
        obtain rfl : ⟨p.hits + (k + 1), 0⟩ = q := by simpa [step] using hq
        have hlow' : p.hits < enter := by
          by_contra hge
          exact hlow ⟨p, rfl, not_lt.1 hge⟩
        refine ⟨a', hepisode, by rw [← h.hits]; exact hlow', ?_⟩
        rw [hits_succ hepisode.le, ← h.hits, hc]
        exact hle
      · rintro ⟨a, ha, hlt, hle⟩
        obtain rfl := huniq a ha
        rw [hits_succ ha.le, ← h.hits, hc] at hle
        rw [← h.hits] at hlt
        refine ⟨?_, ⟨p.hits + (k + 1), 0⟩, rfl, hle⟩
        rintro ⟨q, hq, hge⟩
        obtain rfl := Option.some.inj hq
        omega

/-- The condition was met in each of the last ticks. -/
def Held (enter : ℕ) (c : ℕ → ℕ) (n : ℕ) : Prop := ∀ k < enter, ∃ j, j + k = n ∧ 0 < c j

/-- When the hit that makes enough of them comes, the condition has been met in each of the last ticks
exactly if there was one hit in each tick before, from the first one on. -/
theorem held_iff (hclear : 0 < clear) {a n : ℕ} (ha : Episode clear c a n)
    (hlt : hits c a n < enter) (hle : enter ≤ hits c a (n + 1)) :
    Held enter c n ↔ n + 1 = a + enter ∧ ∀ j, a ≤ j → j < n → c j = 1 := by
  have hsucc := hits_succ (c := c) ha.le
  constructor
  · intro hheld
    -- no tick before the first hits of an episode has one
    have hfirst : a + enter ≤ n + 1 := by
      by_contra hgt
      obtain ⟨j, hj, hcj⟩ := hheld (n + 1 - a) (by omega)
      have hja : j < a := by have := ha.le; omega
      have hold := ha.starts.2 j hja hcj
      have := ha.le
      omega
    have hpos : ∀ j, n + 1 ≤ j + enter → j ≤ n → 0 < c j := by
      intro j hj hjn
      obtain ⟨i, hi, hci⟩ := hheld (n - j) (by omega)
      obtain rfl : i = j := by omega
      exact hci
    -- one hit in each of the last ticks leaves no room for another one
    have hcount : ∀ m, a ≤ m → m ≤ n → (∀ j, m ≤ j → j ≤ n → 0 < c j) →
        hits c a m + (n - m) ≤ hits c a n := by
      intro m ham hmn hm
      have hsplit : hits c a m + hits c m n = hits c a n := Finset.sum_Ico_consecutive c ham hmn
      have hcard : (Finset.Ico m n).card • 1 ≤ hits c m n :=
        Finset.card_nsmul_le_sum _ _ _ fun j hj =>
          hm j (Finset.mem_Ico.1 hj).1 (Finset.mem_Ico.1 hj).2.le
      rw [Nat.card_Ico, nsmul_one, Nat.cast_id] at hcard
      omega
    have hlast : n + 1 = a + enter := by
      by_contra hne
      have hwindow := hcount (n + 1 - enter) (by omega) (by omega) fun j hj hjn => hpos j (by omega) hjn
      have hone : c a ≤ hits c a (n + 1 - enter) :=
        Finset.single_le_sum (fun _ _ => Nat.zero_le _) (Finset.mem_Ico.2 ⟨le_rfl, by omega⟩)
      have := ha.starts.1
      omega
    refine ⟨hlast, ?_⟩
    have hge : ∀ j ∈ Finset.Ico a n, 1 ≤ c j := fun j hj => by
      rw [Finset.mem_Ico] at hj
      exact hpos j (by omega) hj.2.le
    have hsum : ∑ j ∈ Finset.Ico a n, 1 = ∑ j ∈ Finset.Ico a n, c j := by
      refine le_antisymm (Finset.sum_le_sum hge) ?_
      rw [Finset.sum_const, Nat.card_Ico, nsmul_one, Nat.cast_id]
      rw [hits] at hlt
      omega
    have hall := (Finset.sum_eq_sum_iff_of_le hge).1 hsum
    exact fun j haj hjn => (hall j (Finset.mem_Ico.2 ⟨haj, hjn⟩)).symm
  · rintro ⟨hlast, hone⟩ k hk
    refine ⟨n - k, by omega, ?_⟩
    rcases Nat.eq_zero_or_pos k with rfl | hk0
    · rw [Nat.sub_zero]
      omega
    · rw [hone (n - k) (by omega) (by omega)]
      exact Nat.one_pos

/-! ## When it is forgotten -/

/-- There has been no hit in the last ticks. -/
def Quiet (clear : ℕ) (c : ℕ → ℕ) (n : ℕ) : Prop := ∀ k < clear, ∃ j, j + k = n ∧ c j = 0

/-- The tick with which a raised alarm is forgotten. -/
def Clears (enter clear : ℕ) (c : ℕ → ℕ) (n : ℕ) : Prop :=
  Raised enter (state clear c n) ∧ state clear c (n + 1) = none

/-- It is forgotten at the end of the last of the ticks without a hit. -/
theorem clears_iff (hclear : 0 < clear) (n : ℕ) :
    Clears enter clear c n ↔ Raised enter (state clear c n) ∧ Quiet clear c n := by
  refine and_congr_right fun hraised => ?_
  obtain ⟨p, hp, -⟩ := hraised
  obtain ⟨a, l, h⟩ := (since_state hclear n).2 p hp
  have hmiss := h.miss
  rw [state, Option.mem_def.1 hp]
  cases hc : c n with
  | zero =>
    rw [step]
    constructor
    · intro hgone
      split_ifs at hgone with hle
      intro k hk
      refine ⟨n - k, by omega, ?_⟩
      rcases Nat.eq_zero_or_pos k with rfl | hk0
      · simpa using hc
      · exact h.quiet (n - k) (by omega) (by omega)
    · intro hquiet
      rw [if_pos]
      by_contra hlt
      obtain ⟨j, hj, hcj⟩ := hquiet (p.miss + 1) (by omega)
      obtain rfl : j = l := by omega
      have := h.hit
      omega
  | succ k =>
    refine iff_of_false (by simp [step]) fun hquiet => ?_
    obtain ⟨j, hj, hcj⟩ := hquiet 0 hclear
    rw [Nat.add_zero] at hj
    rw [hj, hc] at hcj
    exact absurd hcj (by simp)

/-! ## Signals -/

/-- What an alarm signals. -/
inductive Signal
  | new
  | update
  | clear
  deriving DecidableEq, Repr

/-- One alarm from its beginning to its end. -/
def IsCycle (w : List Signal) : Prop :=
  ∃ m, w = Signal.new :: (List.replicate m Signal.update ++ [Signal.clear])

/-- The signals of each tick: that it is raised, any number of updates while it is, and that it is
forgotten. -/
structure Signals (enter clear : ℕ) (c : ℕ → ℕ) (out : ℕ → List Signal) : Prop where
  raises : ∀ n, Raises enter clear c n → ∃ m, out n = Signal.new :: List.replicate m Signal.update
  clears : ∀ n, Clears enter clear c n → out n = [Signal.clear]
  stays : ∀ n, Raised enter (state clear c n) → Raised enter (state clear c (n + 1)) →
    ∃ m, out n = List.replicate m Signal.update
  silent : ∀ n, ¬Raised enter (state clear c n) → ¬Raised enter (state clear c (n + 1)) → out n = []

/-- The signals before a tick. -/
def history (out : ℕ → List Signal) (n : ℕ) : List Signal := (List.range n).flatMap out

theorem history_succ (out : ℕ → List Signal) (n : ℕ) : history out (n + 1) = history out n ++ out n := by
  simp [history, List.range_succ]

/-- An alarm has been raised and not been forgotten since. -/
def Open (w : List Signal) : Prop := ∃ u v, w = u ++ Signal.new :: v ∧ Signal.clear ∉ v

section

variable {out : ℕ → List Signal}

theorem not_raised_zero : ¬Raised enter (state clear c 0) := by simp [Raised, state]

theorem clear_not_mem_replicate (m : ℕ) : Signal.clear ∉ List.replicate m Signal.update := fun h =>
  absurd (List.eq_of_mem_replicate h) (by decide)

theorem new_not_mem_replicate (m : ℕ) : Signal.new ∉ List.replicate m Signal.update := fun h =>
  absurd (List.eq_of_mem_replicate h) (by decide)

theorem clears_of_not_raised {n : ℕ} (h : Raised enter (state clear c n))
    (h' : ¬Raised enter (state clear c (n + 1))) : Clears enter clear c n := by
  refine ⟨h, ?_⟩
  obtain ⟨p, hp, hle⟩ := h
  rw [state, Option.mem_def.1 hp] at h' ⊢
  cases hc : c n with
  | zero =>
    rw [hc, step] at h'
    rw [step]
    split_ifs at h' ⊢ with hgone
    · rfl
    · exact absurd ⟨_, rfl, hle⟩ h'
  | succ k =>
    rw [hc, step] at h'
    exact absurd ⟨_, rfl, hle.trans (Nat.le_add_right _ _)⟩ h'

theorem mem_out_clear_iff (h : Signals enter clear c out) (n : ℕ) :
    Signal.clear ∈ out n ↔ Clears enter clear c n := by
  by_cases hr : Raised enter (state clear c n)
  · by_cases hr' : Raised enter (state clear c (n + 1))
    · obtain ⟨m, hm⟩ := h.stays n hr hr'
      refine iff_of_false (hm ▸ clear_not_mem_replicate m) fun hclears => ?_
      obtain ⟨p, hp, -⟩ := hr'
      rw [hclears.2] at hp
      exact absurd hp (by simp)
    · have hclears := clears_of_not_raised hr hr'
      exact iff_of_true (by simp [h.clears n hclears]) hclears
  · refine iff_of_false ?_ fun hclears => hr hclears.1
    by_cases hr' : Raised enter (state clear c (n + 1))
    · obtain ⟨m, hm⟩ := h.raises n ⟨hr, hr'⟩
      rw [hm]
      simp
    · simp [h.silent n hr hr']

theorem mem_out_new_iff (h : Signals enter clear c out) (n : ℕ) :
    Signal.new ∈ out n ↔ Raises enter clear c n := by
  by_cases hr : Raised enter (state clear c n)
  · refine iff_of_false ?_ fun hraises => hraises.1 hr
    by_cases hr' : Raised enter (state clear c (n + 1))
    · obtain ⟨m, hm⟩ := h.stays n hr hr'
      exact hm ▸ new_not_mem_replicate m
    · simp [h.clears n (clears_of_not_raised hr hr')]
  · by_cases hr' : Raised enter (state clear c (n + 1))
    · obtain ⟨m, hm⟩ := h.raises n ⟨hr, hr'⟩
      exact iff_of_true (by simp [hm]) ⟨hr, hr'⟩
    · exact iff_of_false (by simp [h.silent n hr hr']) fun hraises => hr' hraises.2

/-- The signals before a tick are whole cycles, and the beginning of one while the alarm is raised. -/
theorem cycles_history (h : Signals enter clear c out) (n : ℕ) :
    ∃ (cs : List (List Signal)) (rest : List Signal), (∀ w ∈ cs, IsCycle w) ∧
      history out n = cs.flatten ++ rest ∧
      (Raised enter (state clear c n) → ∃ m, rest = Signal.new :: List.replicate m Signal.update) ∧
      (¬Raised enter (state clear c n) → rest = []) := by
  induction n with
  | zero => exact ⟨[], [], by simp, rfl, fun hr => absurd hr not_raised_zero, fun _ => rfl⟩
  | succ n ih =>
    obtain ⟨cs, rest, hcs, hhist, hopen, hclosed⟩ := ih
    rw [history_succ, hhist]
    by_cases hr : Raised enter (state clear c n)
    · obtain ⟨m, rfl⟩ := hopen hr
      by_cases hr' : Raised enter (state clear c (n + 1))
      · obtain ⟨k, hk⟩ := h.stays n hr hr'
        refine ⟨cs, Signal.new :: List.replicate (m + k) Signal.update, hcs, ?_, fun _ => ⟨_, rfl⟩,
          fun hno => absurd hr' hno⟩
        rw [hk, List.append_assoc, List.cons_append, List.replicate_append_replicate]
      · rw [h.clears n (clears_of_not_raised hr hr')]
        refine ⟨cs ++ [Signal.new :: (List.replicate m Signal.update ++ [Signal.clear])], [], ?_, ?_,
          fun hyes => absurd hyes hr', fun _ => rfl⟩
        · intro w hw
          rcases List.mem_append.1 hw with hw | hw
          · exact hcs w hw
          · exact ⟨m, List.mem_singleton.1 hw⟩
        · simp
    · obtain rfl := hclosed hr
      by_cases hr' : Raised enter (state clear c (n + 1))
      · obtain ⟨m, hm⟩ := h.raises n ⟨hr, hr'⟩
        exact ⟨cs, out n, hcs, by rw [List.append_nil], fun _ => ⟨m, hm⟩, fun hno => absurd hr' hno⟩
      · exact ⟨cs, [], hcs, by rw [h.silent n hr hr', List.append_nil], fun hyes => absurd hyes hr',
          fun _ => rfl⟩

theorem not_open_flatten {cs : List (List Signal)} (h : ∀ w ∈ cs, IsCycle w) : ¬Open cs.flatten := by
  rintro ⟨u, v, heq, hv⟩
  rcases List.eq_nil_or_concat cs with rfl | ⟨cs, w, rfl⟩
  · simp at heq
  · obtain ⟨m, rfl⟩ := h w (by simp)
    have hend : (cs.flatten ++ Signal.new :: List.replicate m Signal.update) ++ [Signal.clear] =
        u ++ Signal.new :: v := by
      rw [← heq]
      simp
    rcases List.eq_nil_or_concat v with rfl | ⟨v, x, rfl⟩
    · have hlast := (List.append_inj' hend rfl).2
      exact absurd hlast (by decide)
    · rw [List.concat_eq_append, ← List.cons_append, ← List.append_assoc] at hend
      have hlast := (List.append_inj' hend rfl).2
      obtain rfl := List.singleton_injective hlast
      exact hv (by simp)

/-- It is raised exactly while it has been signalled and not been forgotten since. -/
theorem open_history_iff (h : Signals enter clear c out) (n : ℕ) :
    Open (history out n) ↔ Raised enter (state clear c n) := by
  obtain ⟨cs, rest, hcs, hhist, hopen, hclosed⟩ := cycles_history h n
  rw [hhist]
  constructor
  · intro hop
    by_contra hr
    obtain rfl := hclosed hr
    rw [List.append_nil] at hop
    exact not_open_flatten hcs hop
  · intro hr
    obtain ⟨m, rfl⟩ := hopen hr
    exact ⟨cs.flatten, List.replicate m Signal.update, rfl, clear_not_mem_replicate m⟩

/-- While it is raised, it has been raised once since it was forgotten. -/
theorem exists_raises (h : Signals enter clear c out) {n : ℕ} (hr : Raised enter (state clear c n)) :
    ∃ s < n, Raises enter clear c s ∧ ∀ r, s ≤ r → r < n → Signal.clear ∉ out r := by
  induction n with
  | zero => exact absurd hr not_raised_zero
  | succ n ih =>
    by_cases hr' : Raised enter (state clear c n)
    · obtain ⟨s, hs, hraises, hno⟩ := ih hr'
      refine ⟨s, by omega, hraises, fun r hsr hrn => ?_⟩
      rcases Nat.lt_succ_iff_lt_or_eq.1 hrn with hlt | rfl
      · exact hno r hsr hlt
      · obtain ⟨m, hm⟩ := h.stays r hr' hr
        exact hm ▸ clear_not_mem_replicate m
    · refine ⟨n, Nat.lt_succ_self n, ⟨hr', hr⟩, fun r hsr hrn => ?_⟩
      obtain rfl : r = n := by omega
      obtain ⟨m, hm⟩ := h.raises r ⟨hr', hr⟩
      rw [hm]
      simp

/-! ## The law -/

/-- The signals of the first ticks are those of an alarm that is raised when its condition has been met in
each of the last `enter` ticks, and forgotten at the end of the last of `clear` ticks without it. -/
structure Lawful (enter clear : ℕ) (c : ℕ → ℕ) (out : ℕ → List Signal) (n : ℕ) : Prop where
  cycles : ∃ cs : List (List Signal), (∀ w ∈ cs, IsCycle w) ∧ history out n <+: cs.flatten
  new : ∀ t < n, Signal.new ∈ out t → Held enter c t
  clear : ∀ t < n, Signal.clear ∈ out t ↔ Open (history out t) ∧ Quiet clear c t
  confirmed : ∀ t < n, out t ≠ [] → ∃ s ≤ t, Held enter c s ∧ Signal.new ∈ out s ∧
    ∀ r, s ≤ r → r < t → Signal.clear ∉ out r

/-- Where an episode comes to `enter` hits, they come one in each tick, from its beginning on. -/
def Debounced (enter clear : ℕ) (c : ℕ → ℕ) (n : ℕ) : Prop :=
  ∀ t < n, ∀ a, Episode clear c a t → hits c a t < enter → enter ≤ hits c a (t + 1) →
    t + 1 = a + enter ∧ ∀ j, a ≤ j → j < t → c j = 1

/-- A count of hits obeys the law exactly where the hits that raise the alarm come one in each tick. -/
theorem lawful_iff (henter : 0 < enter) (hclear : 0 < clear) (h : Signals enter clear c out) (n : ℕ) :
    Lawful enter clear c out n ↔ Debounced enter clear c n := by
  constructor
  · intro hl t ht a ha hlt hle
    have hraises := (raises_iff henter hclear t).2 ⟨a, ha, hlt, hle⟩
    exact (held_iff hclear ha hlt hle).1 (hl.new t ht ((mem_out_new_iff h t).2 hraises))
  · intro hd
    have hheld : ∀ t < n, Raises enter clear c t → Held enter c t := by
      intro t ht hraises
      obtain ⟨a, ha, hlt, hle⟩ := (raises_iff henter hclear t).1 hraises
      exact (held_iff hclear ha hlt hle).2 (hd t ht a ha hlt hle)
    refine ⟨?_, fun t ht hnew => hheld t ht ((mem_out_new_iff h t).1 hnew), fun t _ => ?_, ?_⟩
    · obtain ⟨cs, rest, hcs, hhist, hopen, hclosed⟩ := cycles_history h n
      rw [hhist]
      by_cases hr : Raised enter (state clear c n)
      · obtain ⟨m, rfl⟩ := hopen hr
        refine ⟨cs ++ [Signal.new :: (List.replicate m Signal.update ++ [Signal.clear])], ?_, ?_⟩
        · intro w hw
          rcases List.mem_append.1 hw with hw | hw
          · exact hcs w hw
          · exact ⟨m, List.mem_singleton.1 hw⟩
        · exact ⟨[Signal.clear], by simp⟩
      · obtain rfl := hclosed hr
        exact ⟨cs, hcs, by rw [List.append_nil]⟩
    · rw [mem_out_clear_iff h, clears_iff hclear, open_history_iff h]
    · intro t ht hne
      by_cases hr : Raised enter (state clear c t)
      · obtain ⟨s, hs, hraises, hno⟩ := exists_raises h hr
        exact ⟨s, hs.le, hheld s (hs.trans ht) hraises, (mem_out_new_iff h s).2 hraises, hno⟩
      · have hr' : Raised enter (state clear c (t + 1)) := by
          by_contra hr'
          exact hne (h.silent t hr hr')
        have hraises : Raises enter clear c t := ⟨hr, hr'⟩
        exact ⟨t, le_rfl, hheld t ht hraises, (mem_out_new_iff h t).2 hraises,
          fun r htr hrt => absurd hrt (by omega)⟩

end

end Lib.Alarm
