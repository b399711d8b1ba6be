import Bewe.Lib.Lines

/-!
# Reading lines from pieces of a text

A reader that is given a text in pieces, keeps what has no end yet in a buffer, and hands out every
line that is complete, until one is refused. However the text is cut, the lines that are handed out are
those of the whole text (`drain_of_takes`), and it ends with a refusal just if one of them is refused
(`drain_of_refuses`).
-/

namespace Lib

section Lines

variable {α : Type*} [DecidableEq α] (q : α)

/-- The complete lines of a text, without the separators that end them. -/
def fullLines (s : List α) : List (List α) := (linesOf q s).1.map List.dropLast

/-- What stands behind the last complete line. -/
def lastLine (s : List α) : List α := (linesOf q s).2

variable {q}

theorem fullLines_of_not_mem {s : List α} (h : q ∉ s) : fullLines q s = [] := by
  rw [fullLines, linesOf_of_not_mem h, List.map_nil]

theorem lastLine_of_not_mem {s : List α} (h : q ∉ s) : lastLine q s = s := by
  rw [lastLine, linesOf_of_not_mem h]

theorem fullLines_line {l : List α} (h : q ∉ l) (t : List α) :
    fullLines q (l ++ q :: t) = l :: fullLines q t := by
  rw [fullLines, linesOf_line h, List.map_cons, List.dropLast_concat]
  rfl

theorem lastLine_line {l : List α} (h : q ∉ l) (t : List α) :
    lastLine q (l ++ q :: t) = lastLine q t := by
  rw [lastLine, linesOf_line h]
  rfl

theorem not_mem_lastLine (s : List α) : q ∉ lastLine q s := by
  induction s using lines_induction (q := q) with
  | tail s h => rwa [lastLine_of_not_mem h]
  | line l t h ih => rwa [lastLine_line h]

/-- A text may be read in two goes, if what had no end yet is read again. -/
theorem fullLines_append (a b : List α) :
    fullLines q (a ++ b) = fullLines q a ++ fullLines q (lastLine q a ++ b) := by
  induction a using lines_induction (q := q) with
  | tail a h => rw [fullLines_of_not_mem h, lastLine_of_not_mem h, List.nil_append]
  | line l t h ih =>
    rw [List.append_assoc, List.cons_append, fullLines_line h, fullLines_line h, lastLine_line h, ih,
      List.cons_append]

theorem lastLine_append (a b : List α) : lastLine q (a ++ b) = lastLine q (lastLine q a ++ b) := by
  induction a using lines_induction (q := q) with
  | tail a h => rw [lastLine_of_not_mem h]
  | line l t h ih =>
    rw [List.append_assoc, List.cons_append, lastLine_line h, lastLine_line h, ih]

end Lines

variable {α σ ε : Type*}

/-- What a reader of lines has: the bytes with no end yet, the state of what the lines are handed to,
all lines that were handed out, and why one was refused.
-/
structure LineReader (α σ ε : Type*) where
  buf : List α
  state : σ
  handed : List (List α)
  raised : Option ε

section Reader

variable [DecidableEq α] (q : α) (ingest : List α → σ → Except ε σ)

/-- The loop that hands out the complete lines of the buffer. -/
def handOut : ℕ → LineReader α σ ε → LineReader α σ ε
  | 0, r => r
  | n + 1, r =>
    if q ∈ r.buf then
      let line := r.buf.takeWhile (· ≠ q)
      let r := { r with buf := (r.buf.dropWhile (· ≠ q)).tail, handed := r.handed ++ [line] }
      match ingest line r.state with
      | .error e => { r with raised := some e }
      | .ok s => handOut n { r with state := s }
    else r

/-- The loop that reads a text in pieces of at most `chunk` bytes; it is left at the end of the text or
by a refusal, with what has not been read.
-/
def drain (chunk : ℕ) : ℕ → List α → LineReader α σ ε → LineReader α σ ε × List α
  | 0, t, r => (r, t)
  | n + 1, t, r =>
    if t.take chunk = [] then (r, t)
    else
      let r := handOut q ingest (r.buf ++ t.take chunk).length { r with buf := r.buf ++ t.take chunk }
      if r.raised.isSome then (r, t.drop chunk) else drain chunk n (t.drop chunk) r

/-- A line is taken in every state. -/
def Takes (l : List α) : Prop := ∀ s, ∃ s', ingest l s = .ok s'

/-- A line is refused in every state. -/
def Refuses (l : List α) : Prop := ∀ s, ∃ e, ingest l s = .error e

variable {q ingest}

theorem handOut_of_not_mem {r : LineReader α σ ε} (h : q ∉ r.buf) (n : ℕ) :
    handOut q ingest n r = r := by
  cases n with
  | zero => rfl
  | succ n => rw [handOut, if_neg h]

theorem handOut_line {l t : List α} (h : q ∉ l) (n : ℕ) (s : σ) (handed : List (List α))
    (raised : Option ε) : handOut q ingest (n + 1) ⟨l ++ q :: t, s, handed, raised⟩ =
      match ingest l s with
      | .error e => ⟨t, s, handed ++ [l], some e⟩
      | .ok s' => handOut q ingest n ⟨t, s', handed ++ [l], raised⟩ := by
  have hne : ∀ c ∈ l, (decide (c ≠ q)) = true := fun c hc =>
    decide_eq_true fun heq => h (heq ▸ hc)
  have htake : (l ++ q :: t).takeWhile (· ≠ q) = l := by
    rw [List.takeWhile_append_of_pos hne, List.takeWhile_cons_of_neg (by simp), List.append_nil]
  have hdrop : ((l ++ q :: t).dropWhile (· ≠ q)).tail = t := by
    rw [List.dropWhile_append_of_pos hne, List.dropWhile_cons_of_neg (by simp), List.tail_cons]
  rw [handOut, if_pos (List.mem_append_right l List.mem_cons_self)]
  dsimp only
  rw [htake, hdrop]

section Spec

variable {P : σ → List (List α) → Prop}
  (hP : ∀ {l s s' h}, P s h → ingest l s = .ok s' → P s' (h ++ [l]))

include hP

/-- Where every line is taken, all of them are handed out. -/
theorem handOut_of_takes {buf : List α} (htakes : ∀ l ∈ fullLines q buf, Takes ingest l) {n : ℕ}
    (hn : buf.length ≤ n) {s : σ} (handed : List (List α)) (h : P s handed) :
    ∃ s', handOut q ingest n ⟨buf, s, handed, none⟩ =
        ⟨lastLine q buf, s', handed ++ fullLines q buf, none⟩ ∧
      P s' (handed ++ fullLines q buf) := by
  induction buf using lines_induction (q := q) generalizing n s handed with
  | tail buf hq =>
    rw [fullLines_of_not_mem hq, lastLine_of_not_mem hq, List.append_nil]
    exact ⟨s, handOut_of_not_mem hq n, h⟩
  | line l t hl ih =>
    rw [fullLines_line hl] at htakes ⊢
    rw [List.length_append, List.length_cons] at hn
    obtain ⟨m, rfl⟩ : ∃ m, n = m + 1 := ⟨n - 1, by omega⟩
    obtain ⟨s1, hs1⟩ := htakes l List.mem_cons_self s
    obtain ⟨s', hs', hkept⟩ := ih (fun x hx => htakes x (List.mem_cons_of_mem l hx))
      (show t.length ≤ m by omega) _ (hP h hs1)
    have hcons : handed ++ l :: fullLines q t = handed ++ [l] ++ fullLines q t := by
      rw [List.append_assoc, List.singleton_append]
    rw [handOut_line hl, hs1, lastLine_line hl, hcons]
    exact ⟨s', hs', hkept⟩

omit hP in
/-- Where one is refused, the loop ends with its refusal. -/
theorem handOut_of_refuses {buf : List α}
    (hrefuses : ∃ l ∈ fullLines q buf, Refuses ingest l) {n : ℕ} (hn : buf.length ≤ n) (s : σ)
    (handed : List (List α)) :
    (handOut q ingest n ⟨buf, s, handed, none⟩).raised.isSome = true := by
  induction buf using lines_induction (q := q) generalizing n s handed with
  | tail buf hq =>
    rw [fullLines_of_not_mem hq] at hrefuses
    obtain ⟨l, hl, -⟩ := hrefuses
    exact absurd hl List.not_mem_nil
  | line l t hl ih =>
    rw [fullLines_line hl] at hrefuses
    rw [List.length_append, List.length_cons] at hn
    obtain ⟨m, rfl⟩ : ∃ m, n = m + 1 := ⟨n - 1, by omega⟩
    rw [handOut_line hl]
    cases hs : ingest l s with
    | error e => rfl
    | ok s1 =>
      obtain ⟨x, hx, hrefused⟩ := hrefuses
      rcases List.mem_cons.1 hx with rfl | hx
      · obtain ⟨e, he⟩ := hrefused s
        rw [hs] at he
        exact absurd he (by simp)
      · exact ih ⟨x, hx, hrefused⟩ (by omega) s1 _

variable {chunk : ℕ} (hchunk : 0 < chunk)

include hchunk

theorem drain_of_takes {t buf : List α} (hbuf : q ∉ buf)
    (htakes : ∀ l ∈ fullLines q (buf ++ t), Takes ingest l) {n : ℕ} (hn : t.length < n) {s : σ}
    (handed : List (List α)) (h : P s handed) :
    ∃ s', drain q ingest chunk n t ⟨buf, s, handed, none⟩ =
        (⟨lastLine q (buf ++ t), s', handed ++ fullLines q (buf ++ t), none⟩, []) ∧
      P s' (handed ++ fullLines q (buf ++ t)) := by
  induction n generalizing t buf s handed with
  | zero => exact absurd hn (Nat.not_lt_zero _)
  | succ n ih =>
    rw [drain]
    split_ifs with hend
    · obtain rfl : t = [] := (List.take_eq_nil_iff.1 hend).resolve_left hchunk.ne'
      rw [List.append_nil, fullLines_of_not_mem hbuf, lastLine_of_not_mem hbuf, List.append_nil]
      exact ⟨s, rfl, h⟩
    · -- the lines of the piece first, then those of the rest behind what it has left in the buffer
      have hsplit : buf ++ t = (buf ++ t.take chunk) ++ t.drop chunk := by
        rw [List.append_assoc, List.take_append_drop]
      have hlines := fullLines_append (q := q) (buf ++ t.take chunk) (t.drop chunk)
      have hlast := lastLine_append (q := q) (buf ++ t.take chunk) (t.drop chunk)
      rw [hsplit, hlines] at htakes
      have hne : t ≠ [] := fun hnil => hend (by rw [hnil, List.take_nil])
      have hlen : (t.drop chunk).length < n := by
        have hpos := List.length_pos_iff.2 hne
        rw [List.length_drop]
        omega
      obtain ⟨s1, hs1, hkept⟩ := handOut_of_takes hP
        (fun l hl => htakes l (List.mem_append_left _ hl)) (Nat.le_refl _) handed h
      obtain ⟨s', hs', hkept'⟩ := ih (not_mem_lastLine (buf ++ t.take chunk))
        (fun l hl => htakes l (List.mem_append_right _ hl)) hlen _ hkept
      rw [hsplit, hlines, hlast, ← List.append_assoc]
      refine ⟨s', ?_, hkept'⟩
      simp only [hs1]
      exact hs'

omit hP in
theorem drain_of_refuses (hdec : ∀ l, Takes ingest l ∨ Refuses ingest l) {t buf : List α}
    (hbuf : q ∉ buf) (hrefuses : ∃ l ∈ fullLines q (buf ++ t), Refuses ingest l) {n : ℕ}
    (hn : t.length < n) (s : σ) (handed : List (List α)) :
    (drain q ingest chunk n t ⟨buf, s, handed, none⟩).1.raised.isSome = true := by
  induction n generalizing t buf s handed with
  | zero => exact absurd hn (Nat.not_lt_zero _)
  | succ n ih =>
    rw [drain]
    split_ifs with hend
    · obtain rfl : t = [] := (List.take_eq_nil_iff.1 hend).resolve_left hchunk.ne'
      rw [List.append_nil, fullLines_of_not_mem hbuf] at hrefuses
      obtain ⟨l, hl, -⟩ := hrefuses
      exact absurd hl List.not_mem_nil
    · have hsplit : buf ++ t = (buf ++ t.take chunk) ++ t.drop chunk := by
        rw [List.append_assoc, List.take_append_drop]
      have hne : t ≠ [] := fun hnil => hend (by rw [hnil, List.take_nil])
      have hlen : (t.drop chunk).length < n := by
        have hpos := List.length_pos_iff.2 hne
        rw [List.length_drop]
        omega
      rw [hsplit, fullLines_append] at hrefuses
      dsimp only
      -- a line of the piece is refused, or they are all taken and one behind them is refused
      by_cases hpiece : ∃ l ∈ fullLines q (buf ++ t.take chunk), Refuses ingest l
      · have hraised := handOut_of_refuses hpiece (Nat.le_refl _) s handed
        rw [if_pos hraised]
        exact hraised
      · have htakes : ∀ l ∈ fullLines q (buf ++ t.take chunk), Takes ingest l := fun l hl =>
          (hdec l).resolve_right fun hr => hpiece ⟨l, hl, hr⟩
        obtain ⟨s1, hs1, -⟩ := handOut_of_takes (P := fun _ _ => True) (fun _ _ => trivial) htakes
          (Nat.le_refl _) (s := s) handed trivial
        simp only [hs1]
        refine ih (not_mem_lastLine _) ?_ hlen s1 _
        obtain ⟨l, hl, hr⟩ := hrefuses
        exact ⟨l, (List.mem_append.1 hl).resolve_left fun h => hpiece ⟨l, h, hr⟩, hr⟩

end Spec

end Reader

end Lib
