import Bewe.Lib.Layout

/-!
# What a function looks at

A function of a buffer looks at its first `n` entries if what is behind them makes no difference
(`ReadsWithin`). Reads at an index, slices and pointers into the buffer do so within their bounds,
and what is put together from such functions does too. A walk that goes from position to position
within a buffer ends (`exists_iterate_eq_none`).
-/

namespace Lib

variable {α β γ δ : Type*} {m n : ℕ}

/-- The function looks at the first `n` entries of what it is given. -/
def ReadsWithin (n : ℕ) (f : List α → β) : Prop := ∀ p q, p.take n = q.take n → f p = f q

namespace ReadsWithin

theorem const (n : ℕ) (b : β) : ReadsWithin n fun _ : List α => b := fun _ _ _ => rfl

theorem map {f : List α → β} (h : ReadsWithin n f) (g : β → γ) : ReadsWithin n fun p => g (f p) :=
  fun p q hpq => congrArg g (h p q hpq)

/-- What is looked at next may depend on what was read. -/
theorem bind {f : List α → β} {g : β → List α → γ} (hf : ReadsWithin n f)
    (hg : ∀ b, ReadsWithin n (g b)) : ReadsWithin n fun p => g (f p) p := by
  intro p q hpq
  dsimp only
  rw [hf p q hpq]
  exact hg _ p q hpq

theorem map₂ {f : List α → β} {g : List α → γ} (hf : ReadsWithin n f) (hg : ReadsWithin n g)
    (op : β → γ → δ) : ReadsWithin n fun p => op (f p) (g p) :=
  hf.bind fun b => hg.map (op b)

theorem ite {c : Prop} [Decidable c] {f g : List α → β} (hf : c → ReadsWithin n f)
    (hg : ¬c → ReadsWithin n g) : ReadsWithin n fun p => if c then f p else g p := by
  intro p q hpq
  dsimp only
  split_ifs with hc
  · exact hf hc p q hpq
  · exact hg hc p q hpq

theorem drop {f : List α → β} (h : ReadsWithin m f) {i : ℕ} (hi : i + m ≤ n) :
    ReadsWithin n fun p => f (p.drop i) := by
  intro p q hpq
  apply h
  have htake : ∀ l : List α, (l.drop i).take m = ((l.take n).drop i).take m := by
    intro l
    rw [List.drop_take, List.take_take, Nat.min_eq_left (by omega)]
  rw [htake p, htake q, hpq]

/-- What is behind the first `n` entries may be left out. -/
theorem take {f : List α → β} (h : ReadsWithin n f) (p : List α) : f (p.take n) = f p := by
  apply h
  rw [List.take_take, Nat.min_self]

theorem append {f : List α → β} {p : List α} (h : ReadsWithin p.length f) (q r : List α) :
    f (p ++ q) = f (p ++ r) := by
  apply h
  rw [List.take_left, List.take_left]

end ReadsWithin

theorem readsWithin_slice {off len : ℕ} (h : off + len ≤ n) :
    ReadsWithin n fun p : List α => slice off len p := by
  have htake : ReadsWithin len fun p : List α => p.take len := fun _ _ hpq => hpq
  exact htake.drop h

theorem slice_eq_cons {off len : ℕ} {l : List α} (h : off < l.length) (hlen : 0 < len) (d : α) :
    slice off len l = l.getD off d :: slice (off + 1) (len - 1) l := by
  obtain ⟨len, rfl⟩ := Nat.exists_eq_succ_of_ne_zero hlen.ne'
  rw [slice, slice, List.drop_eq_getElem_cons h, List.take_succ_cons, List.getD_eq_getElem?_getD,
    List.getElem?_eq_getElem h]
  rfl

theorem readsWithin_getD {i : ℕ} (h : i < n) (d : α) :
    ReadsWithin n fun p : List α => p.getD i d := by
  have hget : ∀ p : List α, p.getD i d = (slice i 1 p).getD 0 d := by
    intro p
    rw [slice, List.getD_eq_getElem?_getD, List.getD_eq_getElem?_getD,
      List.getElem?_take_of_lt one_pos, List.getElem?_drop, Nat.add_zero]
  intro p q hpq
  have hslice : slice i 1 p = slice i 1 q := readsWithin_slice h p q hpq
  dsimp only
  rw [hget p, hget q, hslice]

/-! ## Walks -/

/-- A walk whose steps go up and stay within `n` is over after `n + 1` of them. -/
theorem exists_iterate_eq_none {next : ℕ → Option ℕ}
    (hnext : ∀ i j, next i = some j → i < j ∧ j ≤ n) (i : ℕ) (hi : i ≤ n) :
    ∃ k ≤ n + 1 - i, (fun o => Option.bind o next)^[k] (some i) = none := by
  induction hd : n - i using Nat.strong_induction_on generalizing i with
  | _ d ih =>
    cases hstep : next i with
    | none => exact ⟨1, by omega, hstep⟩
    | some j =>
      obtain ⟨hij, hjn⟩ := hnext i j hstep
      obtain ⟨k, hk, hend⟩ := ih (n - j) (by omega) j hjn rfl
      refine ⟨k + 1, by omega, ?_⟩
      rw [Function.iterate_succ_apply, Option.bind_some, hstep]
      exact hend

end Lib
