import Mathlib.Data.List.Basic
import Mathlib.Order.Defs.LinearOrder
import Mathlib.Order.Lattice
import Mathlib.Data.List.Lex
import Mathlib.Algebra.Order.Ring.Defs
import Mathlib.Tactic.Linarith

/-!
# Trellises and their survivors

A trellis has states that inputs lead on from, each input at a cost. A word is a list of inputs with
the last one first, so that a step puts an input before the word. `Best` is the word of its length
that leads to a state at the least cost, where of several the first in lexicographic order is taken,
which compares last inputs first. The algorithm keeps for each state the cost of the best word and
the state before the last step, and follows these back at the end (`trace`). `Survivors.step` is one
step of it: of the states that lead to a state the one of least cost is kept, and of several the one
whose words come first. Where a state is given up as soon as what it costs is no longer `ok`, the
same holds of the words that are never given up (`SurvivorsWithin`).
-/

namespace Lib

/-- States, the state an input leads to, and the cost of an input in a state at a time. -/
structure Trellis (σ ι R : Type*) where
  start : σ
  next : σ → ι → σ
  cost : ℕ → σ → ι → R

namespace Trellis

variable {σ ι R : Type*} [CommRing R] (T : Trellis σ ι R)

/-- The state that a word leads to. -/
def state : List ι → σ
  | [] => T.start
  | i :: w => T.next (state w) i

/-- The cost of a word. -/
def metric : List ι → R
  | [] => 0
  | i :: w => metric w + T.cost w.length (T.state w) i

/-! ## Bounds -/

section

variable [LinearOrder R] [IsStrictOrderedRing R] {T} {c : R}

theorem metric_append_le (hc : ∀ t s i, T.cost t s i ≤ c) (u v : List ι) :
    T.metric (u ++ v) ≤ T.metric v + c * u.length := by
  induction u with
  | nil => simp
  | cons i u ih =>
    have hlast := hc (u ++ v).length (T.state (u ++ v)) i
    rw [List.cons_append, metric, List.length_cons]
    push_cast
    linarith

/-- If some input never costs anything, some word of each length does not. -/
theorem exists_metric_nonpos (hfree : ∀ t s, ∃ i, T.cost t s i ≤ 0) (t : ℕ) :
    ∃ w : List ι, w.length = t ∧ T.metric w ≤ 0 := by
  induction t with
  | zero => exact ⟨[], rfl, le_rfl⟩
  | succ t ih =>
    obtain ⟨w, hlen, hw⟩ := ih
    obtain ⟨i, hi⟩ := hfree w.length (T.state w)
    exact ⟨i :: w, by rw [List.length_cons, hlen], add_nonpos hw hi⟩

/-- If every state can be led to by a word of `k` inputs put before any other, then to each state
that words of a length lead to one leads that costs no more than `k` inputs can. -/
theorem exists_metric_le (hc : ∀ t s i, T.cost t s i ≤ c) (hfree : ∀ t s, ∃ i, T.cost t s i ≤ 0)
    (h0 : 0 ≤ c) {k : ℕ} (hreach : ∀ s, ∃ u : List ι, u.length = k ∧ ∀ v, T.state (u ++ v) = s)
    (w : List ι) :
    ∃ u : List ι, u.length = w.length ∧ T.state u = T.state w ∧ T.metric u ≤ c * k := by
  rcases Nat.le_total w.length k with hshort | hlong
  · have hw := metric_append_le hc w []
    rw [List.append_nil, metric] at hw
    have hle : c * w.length ≤ c * k := mul_le_mul_of_nonneg_left (by exact_mod_cast hshort) h0
    exact ⟨w, rfl, rfl, by linarith⟩
  · obtain ⟨u, hlen, hu⟩ := hreach (T.state w)
    obtain ⟨v, hv, hfreev⟩ := exists_metric_nonpos hfree (w.length - k)
    have hle := metric_append_le hc u v
    rw [hlen] at hle
    exact ⟨u ++ v, by rw [List.length_append, hlen, hv]; omega, hu v, by linarith⟩

end

/-! ## The way back -/

/-- The word along which the survivors lead back from a state: each row says from which state a
state was entered, and `label` by which input. -/
def trace (label : σ → ι) : List (σ → σ) → σ → List ι
  | [], _ => []
  | back :: rows, s => label s :: trace label rows (back s)

@[simp]
theorem length_trace (label : σ → ι) (rows : List (σ → σ)) (s : σ) :
    (trace label rows s).length = rows.length := by
  induction rows generalizing s with
  | nil => rfl
  | cons back rows ih => rw [trace, List.length_cons, List.length_cons, ih]

/-! ## Words that are given up -/

variable (ok : R → Prop)

/-- What a word costs is `ok` after every input. -/
def Within (w : List ι) : Prop := ∀ u, u <:+ w → ok (T.metric u)

variable {T ok}

theorem Within.tail {i : ι} {w : List ι} (h : T.Within ok (i :: w)) : T.Within ok w :=
  fun u hu => h u (hu.trans (List.suffix_cons i w))

theorem within_cons {i : ι} {w : List ι} (h : T.Within ok w) (hi : ok (T.metric (i :: w))) :
    T.Within ok (i :: w) := by
  intro u hu
  rcases List.suffix_cons_iff.1 hu with rfl | hu
  · exact hi
  · exact h u hu

/-! ## The best word to a state -/

variable [LinearOrder R] [LinearOrder ι]

variable (T) in
/-- Of the words of its length that lead to a state, this one costs least, and of several it comes
first. -/
structure Best (s : σ) (w : List ι) : Prop where
  leads : T.state w = s
  least : ∀ u : List ι, u.length = w.length → T.state u = s → u ≠ w →
    T.metric w < T.metric u ∨ T.metric w = T.metric u ∧ w < u

theorem Best.metric_le {s : σ} {w u : List ι} (h : T.Best s w) (hlen : u.length = w.length)
    (hu : T.state u = s) : T.metric w ≤ T.metric u := by
  rcases eq_or_ne u w with rfl | hne
  · exact le_rfl
  · rcases h.least u hlen hu hne with hlt | ⟨heq, -⟩
    · exact hlt.le
    · exact heq.le

variable (T ok) in
/-- Of the words of its length that lead to a state and are never given up, this one costs least,
and of several it comes first. -/
structure BestWithin (s : σ) (w : List ι) : Prop where
  within : T.Within ok w
  leads : T.state w = s
  least : ∀ u : List ι, T.Within ok u → u.length = w.length → T.state u = s → u ≠ w →
    T.metric w < T.metric u ∨ T.metric w = T.metric u ∧ w < u

theorem BestWithin.metric_le {s : σ} {w u : List ι} (h : T.BestWithin ok s w)
    (hu : T.Within ok u) (hlen : u.length = w.length) (hs : T.state u = s) :
    T.metric w ≤ T.metric u := by
  rcases eq_or_ne u w with rfl | hne
  · exact le_rfl
  · rcases h.least u hu hlen hs hne with hlt | ⟨heq, -⟩
    · exact hlt.le
    · exact heq.le

theorem bestWithin_true_iff {s : σ} {w : List ι} :
    T.BestWithin (fun _ => True) s w ↔ T.Best s w := by
  constructor
  · exact fun h => ⟨h.leads, fun u => h.least u fun _ _ => trivial⟩
  · exact fun h => ⟨fun _ _ => trivial, h.leads, fun u _ => h.least u⟩

/-! ## Survivors -/

variable (T) in
/-- What is known after as many steps as there are rows: a state that a word leads to is live, and
from a live state the survivors lead back along its best word, whose cost is kept. -/
structure Survivors (label : σ → ι) (live : σ → Prop) (pm : σ → R) (rows : List (σ → σ)) :
    Prop where
  live_state : ∀ w : List ι, w.length = rows.length → live (T.state w)
  best : ∀ s, live s → T.Best s (trace label rows s)
  metric : ∀ s, live s → pm s = T.metric (trace label rows s)

variable (T ok) in
/-- The same of the words that are never given up. -/
structure SurvivorsWithin (label : σ → ι) (live : σ → Prop) (pm : σ → R) (rows : List (σ → σ)) :
    Prop where
  live_state : ∀ w : List ι, T.Within ok w → w.length = rows.length → live (T.state w)
  best : ∀ s, live s → T.BestWithin ok s (trace label rows s)
  metric : ∀ s, live s → pm s = T.metric (trace label rows s)

theorem survivorsWithin_true_iff {label : σ → ι} {live : σ → Prop} {pm : σ → R}
    {rows : List (σ → σ)} :
    T.SurvivorsWithin (fun _ => True) label live pm rows ↔ T.Survivors label live pm rows := by
  constructor
  · exact fun h => ⟨fun w => h.live_state w fun _ _ => trivial,
      fun s hs => bestWithin_true_iff.1 (h.best s hs), h.metric⟩
  · exact fun h => ⟨fun w _ => h.live_state w,
      fun s hs => bestWithin_true_iff.2 (h.best s hs), h.metric⟩

variable (T) in
/-- What one step does: from a live state every input leads to a live one, and a live state was
entered from a live one, at a cost that is less than from any other, or the words to it come first.
-/
structure Selects (label : σ → ι) (t : ℕ) (live live' : σ → Prop) (pm pm' : σ → R) (back : σ → σ) :
    Prop where
  live_next : ∀ s i, live s → live' (T.next s i)
  live_back : ∀ s, live' s → live (back s)
  next_back : ∀ s, live' s → T.next (back s) (label s) = s
  metric : ∀ s, live' s → pm' s = pm (back s) + T.cost t (back s) (label s)
  least : ∀ s, live' s → ∀ r, live r → T.next r (label s) = s → r ≠ back s →
    pm' s < pm r + T.cost t r (label s) ∨
      pm' s = pm r + T.cost t r (label s) ∧
        ∀ u v : List ι, u.length = v.length → T.state u = back s → T.state v = r → u < v

variable (T ok) in
/-- What a step does that gives up words: an input leads to a live state if what it costs is `ok`,
and a live state was entered at such a cost. -/
structure SelectsWithin (label : σ → ι) (t : ℕ) (live live' : σ → Prop) (pm pm' : σ → R)
    (back : σ → σ) : Prop where
  live_next : ∀ s i, live s → ok (pm s + T.cost t s i) → live' (T.next s i)
  live_back : ∀ s, live' s → live (back s)
  next_back : ∀ s, live' s → T.next (back s) (label s) = s
  ok_metric : ∀ s, live' s → ok (pm' s)
  metric : ∀ s, live' s → pm' s = pm (back s) + T.cost t (back s) (label s)
  least : ∀ s, live' s → ∀ r, live r → T.next r (label s) = s → r ≠ back s →
    pm' s < pm r + T.cost t r (label s) ∨
      pm' s = pm r + T.cost t r (label s) ∧
        ∀ u v : List ι, u.length = v.length → T.state u = back s → T.state v = r → u < v

theorem SelectsWithin.selects {label : σ → ι} {t : ℕ} {live live' : σ → Prop} {pm pm' : σ → R}
    {back : σ → σ} (h : T.SelectsWithin ok label t live live' pm pm' back)
    (hok : ∀ s i, live s → ok (pm s + T.cost t s i)) :
    T.Selects label t live live' pm pm' back :=
  ⟨fun s i hs => h.live_next s i hs (hok s i hs), h.live_back, h.next_back, h.metric, h.least⟩

/-- A step, after those whose survivors are known. A word that is given up stays so. -/
theorem SurvivorsWithin.step [IsStrictOrderedRing R] {label : σ → ι} {live live' : σ → Prop}
    {pm pm' : σ → R} {rows : List (σ → σ)} {back : σ → σ} (hok : ∀ x y, x ≤ y → ok y → ok x)
    (hlabel : ∀ s i, label (T.next s i) = i)
    (h : T.SurvivorsWithin ok label live pm rows)
    (hsel : T.SelectsWithin ok label rows.length live live' pm pm' back) :
    T.SurvivorsWithin ok label live' pm' (back :: rows) := by
  have hmetric : ∀ s, live' s → pm' s = T.metric (trace label (back :: rows) s) := by
    intro s hs
    have hbest := h.best _ (hsel.live_back s hs)
    rw [trace, Trellis.metric, length_trace, hbest.leads, hsel.metric s hs,
      h.metric _ (hsel.live_back s hs)]
  have hlive_le : ∀ w, T.Within ok w → w.length = rows.length →
      live (T.state w) ∧ pm (T.state w) ≤ T.metric w := by
    intro w hw hlen
    have hlive := h.live_state w hw hlen
    refine ⟨hlive, ?_⟩
    rw [h.metric _ hlive]
    exact (h.best _ hlive).metric_le hw (by rw [length_trace, hlen]) rfl
  refine ⟨fun w hw hlen => ?_, fun s hs => ⟨?_, ?_, fun u hwithin hu hleads hne => ?_⟩, hmetric⟩
  · cases w with
    | nil => simp at hlen
    | cons i w =>
      have hlen' : w.length = rows.length := by simpa using hlen
      obtain ⟨hlive, hle⟩ := hlive_le w hw.tail hlen'
      have hcost : pm (T.state w) + T.cost rows.length (T.state w) i ≤ T.metric (i :: w) := by
        rw [Trellis.metric, hlen']
        linarith
      exact hsel.live_next _ i hlive (hok _ _ hcost (hw _ List.suffix_rfl))
  · rw [trace]
    refine within_cons (h.best _ (hsel.live_back s hs)).within ?_
    have hs' := hmetric s hs
    rw [trace] at hs'
    rw [← hs']
    exact hsel.ok_metric s hs
  · rw [trace, state, (h.best _ (hsel.live_back s hs)).leads, hsel.next_back s hs]
  · cases u with
    | nil => simp at hu
    | cons i u =>
      have hlen : u.length = rows.length := by simpa using hu
      have hi : label s = i := by rw [← hleads, state, hlabel]
      obtain ⟨hlive, hle⟩ := hlive_le u hwithin.tail hlen
      have hbest := h.best _ (hsel.live_back s hs)
      have hval := hmetric s hs
      rw [trace] at hne hval ⊢
      subst hi
      -- the other word's last step may start where the survivor's does, or elsewhere
      rcases eq_or_ne (T.state u) (back s) with hsame | hother
      · have hne' : u ≠ trace label rows (back s) := fun heq => hne (by rw [heq])
        rcases hbest.least u hwithin.tail (by rw [hlen, length_trace]) hsame hne' with
          hlt | ⟨heq, hlt⟩
        · left
          rw [Trellis.metric, Trellis.metric, length_trace, hlen, hsame, hbest.leads]
          linarith
        · right
          refine ⟨?_, List.cons_lt_cons_iff.mpr (Or.inr ⟨rfl, hlt⟩)⟩
          rw [Trellis.metric, Trellis.metric, length_trace, hlen, hsame, hbest.leads, heq]
      · have hu' : T.metric (label s :: u) =
            T.metric u + T.cost rows.length (T.state u) (label s) := by
          rw [Trellis.metric, hlen]
        rw [← hval, hu']
        rcases hsel.least s hs _ hlive hleads hother with hlt | ⟨heq, hfirst⟩
        · left
          linarith
        · rcases hle.lt_or_eq with hlt | heq'
          · left
            linarith
          · right
            exact ⟨by rw [heq, heq'], List.cons_lt_cons_iff.mpr
              (Or.inr ⟨rfl, hfirst _ _ (by rw [length_trace, hlen]) hbest.leads rfl⟩)⟩

theorem Survivors.step [IsStrictOrderedRing R] {label : σ → ι} {live live' : σ → Prop}
    {pm pm' : σ → R} {rows : List (σ → σ)} {back : σ → σ}
    (hlabel : ∀ s i, label (T.next s i) = i) (h : T.Survivors label live pm rows)
    (hsel : T.Selects label rows.length live live' pm pm' back) :
    T.Survivors label live' pm' (back :: rows) := by
  have hall : T.SelectsWithin (fun _ => True) label rows.length live live' pm pm' back :=
    ⟨fun s i hs _ => hsel.live_next s i hs, hsel.live_back, hsel.next_back, fun _ _ => trivial,
      hsel.metric, hsel.least⟩
  exact survivorsWithin_true_iff.1
    ((survivorsWithin_true_iff.2 h).step (fun _ _ _ _ => trivial) hlabel hall)

theorem survivorsWithin_nil {label : σ → ι} {live : σ → Prop} {pm : σ → R} (hok : ok 0)
    (hlive : ∀ s, live s ↔ s = T.start) (hpm : pm T.start = 0) :
    T.SurvivorsWithin ok label live pm [] := by
  refine ⟨fun w _ hw => ?_, fun s hs => ?_, fun s hs => ?_⟩
  · rw [List.length_nil, List.length_eq_zero_iff] at hw
    rw [hw]
    exact (hlive _).mpr rfl
  · rw [(hlive s).mp hs]
    refine ⟨fun u hu => ?_, rfl, fun u _ hu _ hne => absurd (List.length_eq_zero_iff.mp hu) hne⟩
    rw [List.suffix_nil.1 hu]
    exact hok
  · rw [(hlive s).mp hs, hpm]
    rfl

theorem survivors_nil {label : σ → ι} {live : σ → Prop} {pm : σ → R}
    (hlive : ∀ s, live s ↔ s = T.start) (hpm : pm T.start = 0) : T.Survivors label live pm [] :=
  survivorsWithin_true_iff.1 (survivorsWithin_nil trivial hlive hpm)

end Trellis

end Lib
