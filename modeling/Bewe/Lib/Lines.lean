import Mathlib.Data.List.Basic
import Mathlib.Data.List.Infix
import Mathlib.Tactic.Common

/-!
# Lines

A text as its complete lines, each with the separator that ends it, and what follows the last one
(`linesOf`). A text that ends with a line can be read in two goes (`linesOf_append`). `takeLine n`
is what a buffer for `n` entries takes from a text; where the lines are no longer than that, it
takes a line at a time (`takeLine_line`, `takeLine_tail`).
-/

namespace Lib

variable {α : Type*} [DecidableEq α] {q : α}

/-- The complete lines and the rest. -/
def linesOf (q : α) : List α → List (List α) × List α
  | [] => ([], [])
  | c :: t =>
    if c = q then ([c] :: (linesOf q t).1, (linesOf q t).2)
    else
      match (linesOf q t).1 with
      | [] => ([], c :: (linesOf q t).2)
      | l :: ls => ((c :: l) :: ls, (linesOf q t).2)

/-- What a buffer for `n` entries takes: up to the separator, and with it. -/
def takeLine (q : α) : ℕ → List α → List α
  | 0, _ => []
  | _ + 1, [] => []
  | n + 1, c :: t => if c = q then [c] else c :: takeLine q n t

/-- The lines are no longer than `n`, and the rest has room for its separator. -/
def ShortLines (q : α) (n : ℕ) (s : List α) : Prop :=
  (∀ l ∈ (linesOf q s).1, l.length ≤ n) ∧ (linesOf q s).2.length < n

instance (q : α) (n : ℕ) (s : List α) : Decidable (ShortLines q n s) :=
  inferInstanceAs (Decidable (_ ∧ _))

theorem linesOf_of_not_mem {s : List α} (h : q ∉ s) : linesOf q s = ([], s) := by
  induction s with
  | nil => rfl
  | cons c t ih =>
    rw [List.mem_cons, not_or] at h
    rw [linesOf, if_neg (Ne.symm h.1), ih h.2]

theorem linesOf_line {l : List α} (h : q ∉ l) (t : List α) :
    linesOf q (l ++ q :: t) = ((l ++ [q]) :: (linesOf q t).1, (linesOf q t).2) := by
  induction l with
  | nil => rw [List.nil_append, linesOf, if_pos rfl, List.nil_append]
  | cons c l ih =>
    rw [List.mem_cons, not_or] at h
    rw [List.cons_append, linesOf, if_neg (Ne.symm h.1), ih h.2, List.cons_append]

/-- Either a text has no complete line, or it begins with one. -/
@[elab_as_elim]
theorem lines_induction {motive : List α → Prop} (s : List α)
    (tail : ∀ s, q ∉ s → motive s)
    (line : ∀ l t, q ∉ l → motive t → motive (l ++ q :: t)) : motive s := by
  by_cases h : q ∈ s
  · obtain ⟨l, t, rfl, hl⟩ := List.eq_append_cons_of_mem h
    exact line l t hl (lines_induction t tail line)
  · exact tail s h
termination_by s.length
decreasing_by
  rename_i heq
  rw [heq, List.length_append, List.length_cons]
  omega

theorem flatten_linesOf (s : List α) : (linesOf q s).1.flatten ++ (linesOf q s).2 = s := by
  induction s using lines_induction (q := q) with
  | tail s h => rw [linesOf_of_not_mem h, List.flatten_nil, List.nil_append]
  | line l t h ih =>
    rw [linesOf_line h, List.flatten_cons, List.append_assoc, List.append_assoc, ih]
    rfl

/-- A text that ends with a line does not change the lines behind it. -/
theorem linesOf_append {a : List α} (ha : (linesOf q a).2 = []) (b : List α) :
    linesOf q (a ++ b) = ((linesOf q a).1 ++ (linesOf q b).1, (linesOf q b).2) := by
  induction a using lines_induction (q := q) with
  | tail a h =>
    rw [linesOf_of_not_mem h] at ha ⊢
    dsimp only at ha
    rw [ha, List.nil_append, List.nil_append]
  | line l t h ih =>
    rw [linesOf_line h] at ha ⊢
    rw [List.append_assoc, List.cons_append, linesOf_line h, ih ha, List.cons_append]

/-- The complete lines of a text are complete. -/
theorem linesOf_flatten (s : List α) :
    linesOf q (linesOf q s).1.flatten = ((linesOf q s).1, []) := by
  induction s using lines_induction (q := q) with
  | tail s h =>
    rw [linesOf_of_not_mem h]
    rfl
  | line l t h ih =>
    rw [linesOf_line h, List.flatten_cons, List.append_assoc, List.singleton_append, linesOf_line h,
      ih]

theorem takeLine_line {l : List α} (h : q ∉ l) {n : ℕ} (hn : l.length < n) (t : List α) :
    takeLine q n (l ++ q :: t) = l ++ [q] := by
  induction l generalizing n with
  | nil =>
    obtain ⟨n, rfl⟩ := Nat.exists_eq_succ_of_ne_zero (Nat.pos_iff_ne_zero.1 hn)
    rw [List.nil_append, takeLine, if_pos rfl, List.nil_append]
  | cons c l ih =>
    rw [List.mem_cons, not_or] at h
    obtain ⟨n, rfl⟩ := Nat.exists_eq_succ_of_ne_zero (Nat.ne_of_gt (Nat.zero_lt_of_lt hn))
    rw [List.cons_append, takeLine, if_neg (Ne.symm h.1), ih h.2 (Nat.lt_of_succ_lt_succ hn),
      List.cons_append]

theorem takeLine_tail {s : List α} (h : q ∉ s) {n : ℕ} (hn : s.length ≤ n) :
    takeLine q n s = s := by
  induction s generalizing n with
  | nil =>
    cases n with
    | zero => rfl
    | succ n => rfl
  | cons c t ih =>
    rw [List.mem_cons, not_or] at h
    obtain ⟨n, rfl⟩ := Nat.exists_eq_succ_of_ne_zero (Nat.ne_of_gt (Nat.zero_lt_of_lt hn))
    rw [takeLine, if_neg (Ne.symm h.1), ih h.2 (Nat.le_of_succ_le_succ hn)]

theorem takeLine_ne_nil {s : List α} (h : s ≠ []) (n : ℕ) : takeLine q (n + 1) s ≠ [] := by
  obtain ⟨c, t, rfl⟩ := List.exists_cons_of_ne_nil h
  rw [takeLine]
  split_ifs
  · exact List.cons_ne_nil _ _
  · exact List.cons_ne_nil _ _

theorem shortLines_line {l t : List α} {n : ℕ} (hl : q ∉ l) :
    ShortLines q n (l ++ q :: t) ↔ l.length < n ∧ ShortLines q n t := by
  rw [ShortLines, linesOf_line hl, List.forall_mem_cons, List.length_append, List.length_singleton,
    and_assoc]
  rfl

theorem shortLines_append {a : List α} {n : ℕ} (ha : (linesOf q a).2 = []) {b : List α}
    (h : ShortLines q n (a ++ b)) : ShortLines q n b := by
  rw [ShortLines, linesOf_append ha] at h
  exact ⟨fun l hl => h.1 l (List.mem_append_right _ hl), h.2⟩

end Lib
