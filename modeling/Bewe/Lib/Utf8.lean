import Mathlib.Data.List.Basic
import Mathlib.Tactic

/-!
# Characters and their bytes

A text in UTF-8. The first byte of a character tells it from the bytes that continue one, so that a
text that is cut anywhere can be cut back to whole characters: `exists_take_utf8` says what the cut
leaves, and `exists_dropPartial_utf8` that whole characters are left of it.
-/

namespace Lib

/-- The bytes of a text. -/
def utf8 (s : List Char) : List UInt8 := s.flatMap String.utf8EncodeChar

/-- A byte that continues a character. -/
def continues (c : UInt8) : Bool := c &&& 0xc0 = 0x80

/-- A character is one byte below 0x80, or a first byte from there on and others that continue it. -/
theorem utf8EncodeChar_eq (c : Char) :
    ∃ b bs, String.utf8EncodeChar c = b :: bs ∧ continues b = false ∧
      (∀ x ∈ bs, continues x = true) ∧ (bs = [] ↔ b < 0x80) := by
  have hone : ∀ v ≤ 0x7f, continues (UInt8.ofNat v) = false ∧ UInt8.ofNat v < 0x80 := by decide
  have htwo : ∀ v < 0x20, continues (UInt8.ofNat (v + 0xc0)) = false ∧
      ¬ UInt8.ofNat (v + 0xc0) < 0x80 := by decide
  have hthree : ∀ v < 0x10, continues (UInt8.ofNat (v + 0xe0)) = false ∧
      ¬ UInt8.ofNat (v + 0xe0) < 0x80 := by decide
  have hfour : ∀ v < 0x08, continues (UInt8.ofNat (v + 0xf0)) = false ∧
      ¬ UInt8.ofNat (v + 0xf0) < 0x80 := by decide
  have hrest : ∀ v < 0x40, continues (UInt8.ofNat (v + 0x80)) = true := by decide
  have hmod : ∀ v : ℕ, continues (UInt8.ofNat (v % 0x40 + 0x80)) = true := fun v =>
    hrest _ (Nat.mod_lt _ (by decide))
  have hnil : ∀ x ∈ ([] : List UInt8), continues x = true := fun x hx => absurd hx List.not_mem_nil
  have hcons : ∀ (v : ℕ) {bs : List UInt8}, (∀ x ∈ bs, continues x = true) →
      ∀ x ∈ UInt8.ofNat (v % 0x40 + 0x80) :: bs, continues x = true := fun v bs h =>
    List.forall_mem_cons.2 ⟨hmod v, h⟩
  unfold String.utf8EncodeChar
  dsimp only
  generalize c.val.toNat = v
  split_ifs with h1 h2 h3
  · exact ⟨_, _, rfl, (hone v h1).1, hnil, iff_of_true rfl (hone v h1).2⟩
  · obtain ⟨hfirst, hge⟩ := htwo (v / 64 % 0x20) (Nat.mod_lt _ (by decide))
    exact ⟨_, _, rfl, hfirst, hcons _ hnil, iff_of_false (List.cons_ne_nil _ _) hge⟩
  · obtain ⟨hfirst, hge⟩ := hthree (v / 4096 % 0x10) (Nat.mod_lt _ (by decide))
    exact ⟨_, _, rfl, hfirst, hcons _ (hcons _ hnil), iff_of_false (List.cons_ne_nil _ _) hge⟩
  · obtain ⟨hfirst, hge⟩ := hfour (v / 262144 % 0x08) (Nat.mod_lt _ (by decide))
    exact ⟨_, _, rfl, hfirst, hcons _ (hcons _ (hcons _ hnil)),
      iff_of_false (List.cons_ne_nil _ _) hge⟩

/-- A text without control characters has no control bytes. -/
theorem le_of_mem_utf8 {s : List Char} (h : ∀ c ∈ s, 32 ≤ c.toNat) : ∀ b ∈ utf8 s, 32 ≤ b := by
  have hone : ∀ v ≤ 0x7f, 32 ≤ v → 32 ≤ UInt8.ofNat v := by decide
  have hhigh : ∀ v < 0x80, 32 ≤ UInt8.ofNat (v + 0x80) := by decide
  have hrest : ∀ v m k : ℕ, m ≤ 0x80 → 0 < m → k + m ≤ 0x80 →
      32 ≤ UInt8.ofNat (v % m + (k + 0x80)) := by
    intro v m k hm hpos hk
    have hlt := Nat.mod_lt v hpos
    rw [← Nat.add_assoc]
    exact hhigh _ (by omega)
  intro b hb
  obtain ⟨c, hc, hb⟩ := List.mem_flatMap.1 hb
  have hge : 32 ≤ c.val.toNat := h c hc
  unfold String.utf8EncodeChar at hb
  dsimp only at hb
  generalize c.val.toNat = v at hb hge
  split_ifs at hb with h1 h2 h3
  · rw [List.mem_singleton.1 hb]
    exact hone v h1 hge
  all_goals
    simp only [List.mem_cons, List.not_mem_nil, or_false] at hb
    rcases hb with rfl | hb
  · exact hrest _ 0x20 0x40 (by decide) (by decide) (by decide)
  · rw [hb]
    exact hrest _ 0x40 0 (by decide) (by decide) (by decide)
  · exact hrest _ 0x10 0x60 (by decide) (by decide) (by decide)
  · rcases hb with rfl | rfl <;> exact hrest _ 0x40 0 (by decide) (by decide) (by decide)
  · exact hrest _ 0x08 0x70 (by decide) (by decide) (by decide)
  · rcases hb with rfl | rfl | rfl <;> exact hrest _ 0x40 0 (by decide) (by decide) (by decide)

/-- A text that is cut ends in the first bytes of a character. -/
theorem exists_take_utf8 {s : List Char} {n : ℕ} (hn : 0 < n) (hle : n ≤ (utf8 s).length) :
    ∃ k c b bs m, s[k]? = some c ∧ String.utf8EncodeChar c = b :: bs ∧
      (utf8 s).take n = utf8 (s.take k) ++ b :: bs.take m := by
  induction s generalizing n with
  | nil => exact absurd hle (Nat.not_le.2 hn)
  | cons c s ih =>
    obtain ⟨b, bs, hc, -⟩ := utf8EncodeChar_eq c
    have hcons : utf8 (c :: s) = (b :: bs) ++ utf8 s := by rw [utf8, List.flatMap_cons, hc]; rfl
    rw [hcons] at hle ⊢
    rw [List.length_append] at hle
    rcases Nat.lt_or_ge (b :: bs).length n with hlt | hge
    · obtain ⟨k, c', b', bs', m, hk, hc', htake⟩ := ih (n := n - (b :: bs).length) (by omega)
        (by omega)
      refine ⟨k + 1, c', b', bs', m, hk, hc', ?_⟩
      have hbegin : utf8 ((c :: s).take (k + 1)) = (b :: bs) ++ utf8 (s.take k) := by
        rw [List.take_succ_cons, utf8, List.flatMap_cons, hc]
        rfl
      rw [hbegin, List.take_append, List.take_of_length_le hlt.le, htake, List.append_assoc]
    · obtain ⟨m, rfl⟩ := Nat.exists_eq_succ_of_ne_zero hn.ne'
      refine ⟨0, c, b, bs, m, rfl, hc, ?_⟩
      rw [List.take_append_of_le_length hge]
      rfl

/-- What is left once the bytes that continue a character are dropped from the end, and the first
byte of a character with more bytes. -/
def dropPartial (t : List UInt8) : List UInt8 :=
  match t.reverse.dropWhile continues with
  | [] => []
  | c :: r => if c < 0x80 then (c :: r).reverse else r.reverse

/-- Behind the first byte of the last character nothing is left of it but the whole. -/
theorem dropPartial_append (t : List UInt8) {b : UInt8} {bs : List UInt8}
    (hb : continues b = false) (hbs : ∀ x ∈ bs, continues x = true) :
    dropPartial (t ++ b :: bs) = if b < 0x80 then t ++ [b] else t := by
  have hdrop : (t ++ b :: bs).reverse.dropWhile continues = b :: t.reverse := by
    rw [List.reverse_append, List.reverse_cons, List.append_assoc,
      List.dropWhile_append_of_pos fun x hx => hbs x (List.mem_reverse.1 hx),
      List.singleton_append, List.dropWhile_cons_of_neg (by simp [hb])]
  unfold dropPartial
  rw [hdrop]
  dsimp only
  rw [List.reverse_cons, List.reverse_reverse]

theorem prefix_of_dropPartial (t : List UInt8) : dropPartial t <+: t := by
  have hsuffix := List.dropWhile_suffix continues (l := t.reverse)
  unfold dropPartial
  split
  · exact List.nil_prefix
  next c r h =>
    rw [h] at hsuffix
    have hbegin := List.reverse_prefix.2 hsuffix
    rw [List.reverse_reverse] at hbegin
    split_ifs
    · exact hbegin
    · rw [List.reverse_cons] at hbegin
      exact (List.prefix_append _ _).trans hbegin

theorem exists_dropPartial_utf8 (s : List Char) {n : ℕ} (hle : n ≤ (utf8 s).length) :
    ∃ k, dropPartial ((utf8 s).take n) = utf8 (s.take k) := by
  rcases Nat.eq_zero_or_pos n with rfl | hn
  · exact ⟨0, by simp [dropPartial, utf8]⟩
  · obtain ⟨k, c, b, bs, m, hk, hc, htake⟩ := exists_take_utf8 hn hle
    obtain ⟨b', bs', hc', hb, hbs, hone⟩ := utf8EncodeChar_eq c
    obtain ⟨rfl, rfl⟩ := List.cons.inj (hc.symm.trans hc')
    rw [htake, dropPartial_append _ hb fun x hx => hbs x (List.mem_of_mem_take hx)]
    split_ifs with hlt
    · refine ⟨k + 1, ?_⟩
      rw [List.take_add_one, hk, utf8, utf8, List.flatMap_append, Option.toList_some,
        List.flatMap_singleton, hc, hone.2 hlt]
    · exact ⟨k, rfl⟩

end Lib
