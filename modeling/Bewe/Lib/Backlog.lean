import Mathlib

/-!
# Queues with a count of bytes

A queue whose items have sizes, and beside it the sum of the sizes as a counter that every operation
keeps by hand (`Counted`). Items are pushed at either end, popped a few at a time, and evicted from
the front while a limit would be exceeded, those that may be. `evict_spec` says what an eviction
takes; where every item may be evicted it takes the oldest (`evict_oldest`).

`Flow` is the history of a queue that is fed behind and loses items in front only, some taken and
some dropped.
-/

namespace Lib

/-- A queue and its counter. -/
structure Backlog (α : Type*) where
  queue : List α
  bytes : ℕ

namespace Backlog

variable {α : Type*}

/-- An empty queue. -/
def empty : Backlog α := ⟨[], 0⟩

section

variable (size : α → ℕ)

/-- The counter is the sum of the sizes. -/
def Counted (b : Backlog α) : Prop := b.bytes = (b.queue.map size).sum

/-- An item behind the others. -/
def push (b : Backlog α) (a : α) : Backlog α := ⟨b.queue ++ [a], b.bytes + size a⟩

/-- An item in front of the others. -/
def pushFront (b : Backlog α) (a : α) : Backlog α := ⟨a :: b.queue, b.bytes + size a⟩

/-- Up to `n` items from the front, one after another. -/
def pop : ℕ → Backlog α → List α × Backlog α
  | 0, b => ([], b)
  | _ + 1, ⟨[], bytes⟩ => ([], ⟨[], bytes⟩)
  | n + 1, ⟨a :: q, bytes⟩ =>
    let r := pop n ⟨q, bytes - size a⟩
    (a :: r.1, r.2)

variable (limit : ℕ) (droppable : α → Bool) (room : ℕ)

/-- From the front on, while there is not `room` below the limit, the items that may be dropped:
these, and what is left. -/
def evict : List α → ℕ → List α × Backlog α
  | [], bytes => ([], ⟨[], bytes⟩)
  | a :: q, bytes =>
    if limit < bytes + room then
      if droppable a then
        let r := evict q (bytes - size a)
        (a :: r.1, r.2)
      else
        let r := evict q bytes
        (r.1, ⟨a :: r.2.queue, r.2.bytes⟩)
    else ([], ⟨a :: q, bytes⟩)

end

variable {size : α → ℕ} {b : Backlog α}

theorem Counted.push (h : b.Counted size) (a : α) : (b.push size a).Counted size := by
  unfold Counted at h ⊢
  simp only [Backlog.push, h, List.map_append, List.map_singleton, List.sum_append,
    List.sum_singleton]

theorem Counted.pushFront (h : b.Counted size) (a : α) : (b.pushFront size a).Counted size := by
  unfold Counted at h ⊢
  simp only [Backlog.pushFront, h, List.map_cons, List.sum_cons]
  omega

theorem Counted.pop (h : b.Counted size) (n : ℕ) :
    (b.pop size n).1 = b.queue.take n ∧ (b.pop size n).2.queue = b.queue.drop n ∧
      (b.pop size n).2.Counted size := by
  induction n generalizing b with
  | zero => exact ⟨by rw [List.take_zero]; rfl, by rw [List.drop_zero]; rfl, h⟩
  | succ n ih =>
    obtain ⟨q, bytes⟩ := b
    cases q with
    | nil => exact ⟨rfl, rfl, h⟩
    | cons a q =>
      have hrest : (⟨q, bytes - size a⟩ : Backlog α).Counted size := by
        unfold Counted at h ⊢
        simp only [List.map_cons, List.sum_cons] at h
        dsimp only
        omega
      obtain ⟨htake, hdrop, hcount⟩ := ih hrest
      exact ⟨congrArg (List.cons a) htake, hdrop, hcount⟩

section

variable (size : α → ℕ) (limit : ℕ) (droppable : α → Bool) (room : ℕ)

/-- What an eviction drops may be dropped and was queued; the rest stays in its order; and the
counter goes down by what is dropped, `other` being the bytes of items in front. -/
theorem evict_spec (q : List α) (other : ℕ) :
    let e := evict size limit droppable room q (other + (q.map size).sum)
    (∀ a ∈ e.1, droppable a = true) ∧ q.Perm (e.1 ++ e.2.queue) ∧ List.Sublist e.2.queue q ∧
      List.Sublist e.1 q ∧ e.2.bytes = other + (e.2.queue.map size).sum := by
  induction q generalizing other with
  | nil => simp [evict]
  | cons a q ih =>
    simp only [evict, List.map_cons, List.sum_cons]
    split_ifs with hlimit hdrop
    · have hbytes : other + (size a + (q.map size).sum) - size a = other + (q.map size).sum := by
        omega
      obtain ⟨hdroppable, hperm, hkept, hdropped, hcount⟩ := ih other
      rw [hbytes]
      refine ⟨?_, hperm.cons a, hkept.cons a, hdropped.cons_cons a, hcount⟩
      intro x hx
      rcases List.mem_cons.1 hx with rfl | hx
      · exact hdrop
      · exact hdroppable x hx
    · have hbytes : other + (size a + (q.map size).sum) = other + size a + (q.map size).sum := by
        omega
      obtain ⟨hdroppable, hperm, hkept, hdropped, hcount⟩ := ih (other + size a)
      rw [hbytes]
      refine ⟨hdroppable, (hperm.cons a).trans List.perm_middle.symm, hkept.cons_cons a,
        hdropped.cons a, ?_⟩
      rw [hcount]
      simp only [List.map_cons, List.sum_cons]
      omega
    · exact ⟨by simp, List.Perm.refl _, List.Sublist.refl _, List.nil_sublist _, by simp⟩

/-- Where every item may be dropped, an eviction drops the oldest, until there is room or nothing is
left. -/
theorem evict_oldest (q : List α) (bytes : ℕ) :
    let e := evict size limit (fun _ => true) room q bytes
    q = e.1 ++ e.2.queue ∧ (e.2.queue = [] ∨ e.2.bytes + room ≤ limit) := by
  induction q generalizing bytes with
  | nil => exact ⟨rfl, Or.inl rfl⟩
  | cons a q ih =>
    simp only [evict, if_true]
    split_ifs with hlimit
    · obtain ⟨hsplit, hroom⟩ := ih (bytes - size a)
      exact ⟨by rw [List.cons_append, ← hsplit], hroom⟩
    · exact ⟨rfl, Or.inr (Nat.le_of_not_lt hlimit)⟩

end

end Backlog

section

variable {α : Type*} {enqueued queue taken dropped : List α}

/-- What was enqueued is what has gone and, behind it, what is queued; and what has gone was taken,
in that order, or dropped. -/
def Flow (enqueued queue taken dropped : List α) : Prop :=
  ∃ gone, enqueued = gone ++ queue ∧ gone.Perm (taken ++ dropped) ∧ taken.Sublist gone

theorem Flow.nil : Flow ([] : List α) [] [] [] := ⟨[], rfl, List.Perm.refl _, List.Sublist.refl _⟩

theorem Flow.pushAll (h : Flow enqueued queue taken dropped) (as : List α) :
    Flow (enqueued ++ as) (queue ++ as) taken dropped := by
  obtain ⟨gone, hsplit, hperm, hsub⟩ := h
  exact ⟨gone, by rw [hsplit, List.append_assoc], hperm, hsub⟩

theorem Flow.push (h : Flow enqueued queue taken dropped) (a : α) :
    Flow (enqueued ++ [a]) (queue ++ [a]) taken dropped := h.pushAll [a]

theorem Flow.take {front rest : List α} (h : Flow enqueued (front ++ rest) taken dropped) :
    Flow enqueued rest (taken ++ front) dropped := by
  obtain ⟨gone, hsplit, hperm, hsub⟩ := h
  refine ⟨gone ++ front, by rw [hsplit, List.append_assoc], ?_, List.Sublist.append_right hsub front⟩
  refine (hperm.append_right front).trans ?_
  rw [List.append_assoc, List.append_assoc]
  exact List.perm_append_comm.append_left taken

theorem Flow.drop {front rest : List α} (h : Flow enqueued (front ++ rest) taken dropped) :
    Flow enqueued rest taken (dropped ++ front) := by
  obtain ⟨gone, hsplit, hperm, hsub⟩ := h
  refine ⟨gone ++ front, by rw [hsplit, List.append_assoc], ?_, hsub.trans (List.sublist_append_left _ _)⟩
  rw [← List.append_assoc]
  exact hperm.append_right front

theorem Flow.eq_append (h : Flow enqueued queue taken []) : enqueued = taken ++ queue := by
  obtain ⟨gone, hsplit, hperm, hsub⟩ := h
  rw [List.append_nil] at hperm
  rw [hsplit, hsub.eq_of_length hperm.length_eq.symm]

theorem Flow.sublist (h : Flow enqueued queue taken dropped) :
    (taken ++ queue).Sublist enqueued := by
  obtain ⟨gone, hsplit, -, hsub⟩ := h
  rw [hsplit]
  exact List.Sublist.append_right hsub queue

end

end Lib
