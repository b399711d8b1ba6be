import Bewe.Lib.Layout

/-!
# Scanning a stream

A stream arrives in pieces, and a decoder looks at every position of it that has enough samples
behind it. At a position it may find something and go on behind it, or go on with the next position.
What has been looked at is dropped, and the rest waits for the next piece.

If a step looks no further than the samples that are required behind a position, and goes no further
either, it does not matter how the stream is cut (`feed_append`, `foldl_eq_flatten`), and what comes
later only adds to what was found (`prefix_feed`).
-/

namespace Lib

/-- A step at a position of a buffer, whose first sample has the number `base`: how far it goes on, and
the state. It looks at `need` samples from the position on, and goes on by at most as many. -/
structure Scanner (α σ : Type*) where
  need : ℕ
  step : List α → (base j : ℕ) → σ → ℕ × σ
  need_pos : 0 < need
  step_slice : ∀ buf base j s, j + need ≤ buf.length →
    step buf base j s = step (slice j need buf) (base + j) 0 s
  step_le : ∀ buf base j s, (step buf base j s).1 ≤ need

/-- The samples that wait, the number of the first, and the state. -/
structure Scanned (α σ : Type*) where
  buf : List α
  base : ℕ
  state : σ

theorem foldl_eq_flatten {α δ : Type*} {f : δ → List α → δ}
    (happend : ∀ d xs ys, f (f d xs) ys = f d (xs ++ ys)) {d : δ} (hnil : f d [] = d)
    (chunks : List (List α)) : chunks.foldl f d = f d chunks.flatten := by
  induction chunks using List.reverseRecOn with
  | nil => exact hnil.symm
  | append_singleton chunks xs ih =>
    rw [List.foldl_append, List.foldl_cons, List.foldl_nil, ih, happend, List.flatten_append,
      List.flatten_singleton]

namespace Scanner

variable {α σ : Type*} (S : Scanner α σ)

/-- `while(j <= limit) { … if(adv > 0) { j += adv; continue; } … j++; }` -/
def loop (buf : List α) (base limit j : ℕ) (s : σ) : ℕ × σ :=
  if j ≤ limit then
    let r := S.step buf base j s
    loop buf base limit (j + if 0 < r.1 then r.1 else 1) r.2
  else (j, s)
termination_by limit + 1 - j
decreasing_by
  split_ifs <;> omega

/-- A piece arrives. -/
def feed (st : Scanned α σ) (xs : List α) : Scanned α σ :=
  let buf := st.buf ++ xs
  if buf.length < S.need then { st with buf := buf }
  else
    let r := S.loop buf st.base (buf.length - S.need) 0 st.state
    { buf := buf.drop r.1, base := st.base + r.1, state := r.2 }

/-! ## The scan of a buffer -/

/-- How far a step goes on. -/
def advance (adv : ℕ) : ℕ := if 0 < adv then adv else 1

theorem advance_pos (adv : ℕ) : 0 < advance adv := by
  unfold advance
  split_ifs with h
  · exact h
  · exact Nat.one_pos

theorem advance_step_le (buf : List α) (base j : ℕ) (s : σ) :
    advance (S.step buf base j s).1 ≤ S.need := by
  unfold advance
  split_ifs
  · exact S.step_le buf base j s
  · exact S.need_pos

/-- A step at the first sample, and on. -/
def next (st : Scanned α σ) : Scanned α σ :=
  let r := S.step (st.buf.take S.need) st.base 0 st.state
  { buf := st.buf.drop (advance r.1), base := st.base + advance r.1, state := r.2 }

theorem length_next {st : Scanned α σ} (h : S.need ≤ st.buf.length) :
    (S.next st).buf.length < st.buf.length := by
  have hneed := S.need_pos
  have hadv := advance_pos (S.step (st.buf.take S.need) st.base 0 st.state).1
  rw [next, List.length_drop]
  omega

/-- All positions of some samples with enough behind them, one after another, without the buffer. -/
def scan (st : Scanned α σ) : Scanned α σ :=
  if S.need ≤ st.buf.length then scan (S.next st) else st
termination_by st.buf.length
decreasing_by
  exact S.length_next ‹_›

theorem scan_of_lt {st : Scanned α σ} (h : st.buf.length < S.need) : S.scan st = st := by
  rw [scan, if_neg (not_le.2 h)]

theorem scan_of_le (st : Scanned α σ) (h : S.need ≤ st.buf.length) :
    S.scan st = S.scan (S.next st) := by
  rw [scan, if_pos h]

theorem scan_loop (buf : List α) (base limit : ℕ) (h : limit + S.need = buf.length) (j : ℕ) (s : σ)
    (hj : j ≤ buf.length) :
    S.scan { buf := buf.drop j, base := base + j, state := s } =
      { buf := buf.drop (S.loop buf base limit j s).1
        base := base + (S.loop buf base limit j s).1
        state := (S.loop buf base limit j s).2 } := by
  induction hk : limit + 1 - j using Nat.strong_induction_on generalizing j s with
  | _ k ih =>
    rw [loop]
    split_ifs with hle
    · have hlen : S.need ≤ (buf.drop j).length := by
        rw [List.length_drop]
        omega
      have hstep : S.step ((buf.drop j).take S.need) (base + j) 0 s = S.step buf base j s :=
        (S.step_slice buf base j s (by omega)).symm
      have hadv := advance_step_le S buf base j s
      have hpos := advance_pos (S.step buf base j s).1
      rw [scan_of_le S _ hlen, next]
      dsimp only
      rw [hstep, List.drop_drop, Nat.add_assoc]
      exact ih _ (by omega) _ _ (by omega) rfl
    · refine S.scan_of_lt ?_
      rw [List.length_drop]
      have hneed := S.need_pos
      omega

theorem feed_eq_scan (st : Scanned α σ) (xs : List α) :
    S.feed st xs = S.scan { st with buf := st.buf ++ xs } := by
  unfold feed
  dsimp only
  split_ifs with hlt
  · exact (S.scan_of_lt hlt).symm
  · exact (S.scan_loop (st.buf ++ xs) st.base _ (Nat.sub_add_cancel (not_lt.1 hlt)) 0 st.state
      (Nat.zero_le _)).symm

theorem scan_append (st : Scanned α σ) (xs : List α) :
    S.scan { st with buf := st.buf ++ xs } =
      S.scan { S.scan st with buf := (S.scan st).buf ++ xs } := by
  induction hk : st.buf.length using Nat.strong_induction_on generalizing st with
  | _ k ih =>
    rcases lt_or_ge st.buf.length S.need with hlt | hle
    · rw [S.scan_of_lt hlt]
    · have hadv := advance_step_le S (st.buf.take S.need) st.base 0 st.state
      have htake : (st.buf ++ xs).take S.need = st.buf.take S.need :=
        List.take_append_of_le_length hle
      have hlen : S.need ≤ (st.buf ++ xs).length := by
        rw [List.length_append]
        omega
      have hnext : S.next { st with buf := st.buf ++ xs } =
          { S.next st with buf := (S.next st).buf ++ xs } := by
        unfold next
        dsimp only
        rw [htake, List.drop_append_of_le_length (hadv.trans hle)]
      rw [S.scan_of_le { st with buf := st.buf ++ xs } hlen, S.scan_of_le st hle, hnext]
      exact ih _ (by rw [← hk]; exact S.length_next hle) _ rfl

theorem feed_append (st : Scanned α σ) (xs ys : List α) :
    S.feed (S.feed st xs) ys = S.feed st (xs ++ ys) := by
  rw [feed_eq_scan, feed_eq_scan, feed_eq_scan, ← List.append_assoc]
  exact (S.scan_append { st with buf := st.buf ++ xs } ys).symm

/-- Nothing happens while nothing arrives and nothing waits that was not looked at. -/
theorem feed_nil (st : Scanned α σ) (h : st.buf.length < S.need) : S.feed st [] = st := by
  rw [feed_eq_scan, List.append_nil, S.scan_of_lt h]

/-! ## What was found -/

section

variable {ρ : Type*} (found : σ → List ρ)

theorem prefix_scan (hfound : ∀ buf base j s, found s <+: found (S.step buf base j s).2)
    (st : Scanned α σ) : found st.state <+: found (S.scan st).state := by
  induction hk : st.buf.length using Nat.strong_induction_on generalizing st with
  | _ k ih =>
    rcases lt_or_ge st.buf.length S.need with hlt | hle
    · rw [S.scan_of_lt hlt]
    · rw [S.scan_of_le st hle]
      exact (hfound _ _ _ _).trans (ih _ (by rw [← hk]; exact S.length_next hle) (S.next st) rfl)

theorem prefix_feed (hfound : ∀ buf base j s, found s <+: found (S.step buf base j s).2)
    (st : Scanned α σ) (xs : List α) : found st.state <+: found (S.feed st xs).state := by
  rw [feed_eq_scan]
  exact S.prefix_scan found hfound { st with buf := st.buf ++ xs }

end

end Scanner

end Lib
