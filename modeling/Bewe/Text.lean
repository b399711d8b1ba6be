import Mathlib.Tactic

/-!
# Byte strings

A `std::string` is a list of bytes. Names, ids, and file names of the programs are compared and
ordered as such, and taken apart with the searches of `std::string`.
-/

namespace Bewe

/-- A `std::string`. -/
abbrev Bytes := List UInt8

instance lawfulBEq_bytes : LawfulBEq Bytes := List.instLawfulBEq

/-- The bytes of an ASCII literal. -/
def ascii (s : String) : Bytes := s.toList.map fun c => UInt8.ofNat c.toNat

/-- What a C function sees of a string: the bytes before the first NUL. -/
def cStr (s : Bytes) : Bytes := s.takeWhile (· ≠ 0)

/-- `tolower` in the C locale. -/
def toLower (c : UInt8) : UInt8 := if 65 ≤ c ∧ c ≤ 90 then c + 32 else c

namespace InfoParse

/-- `InfoParse::lower`. -/
def lower (s : Bytes) : Bytes := s.map toLower

end InfoParse

/-! ## Searching -/

/-- The positions at which a string occurs in another. -/
def occurrences (sub s : Bytes) : List ℕ :=
  (List.range (s.length + 1 - sub.length)).filter fun i => sub.isPrefixOf (s.drop i)

/-- `find(sub) != npos`, or `strstr`. -/
def contains (sub s : Bytes) : Bool := occurrences sub s ≠ []

/-- `rfind(sub)`: the last position at which a string occurs. -/
def rfind (sub s : Bytes) : Option ℕ := (occurrences sub s).getLast?

theorem mem_occurrences {sub s : Bytes} {i : ℕ} :
    i ∈ occurrences sub s ↔ i < s.length + 1 - sub.length ∧ sub <+: s.drop i := by
  simp [occurrences]

theorem rfind_eq_some {sub s : Bytes} {i : ℕ} :
    rfind sub s = some i ↔ i ∈ occurrences sub s ∧ ∀ j ∈ occurrences sub s, j ≤ i := by
  have hsorted : (occurrences sub s).Pairwise (· ≤ ·) :=
    (List.pairwise_le_range).sublist List.filter_sublist
  have hlast : ∀ k, rfind sub s = some k →
      k ∈ occurrences sub s ∧ ∀ j ∈ occurrences sub s, j ≤ k := by
    intro k hk
    refine ⟨List.mem_of_getLast? hk, fun j hj => ?_⟩
    rw [rfind, List.getLast?_eq_some_getLast (List.ne_nil_of_mem hj)] at hk
    rw [← Option.some.inj hk]
    exact hsorted.rel_getLast hj
  refine ⟨hlast i, fun ⟨hi, hmax⟩ => ?_⟩
  cases hr : rfind sub s with
  | none => rw [rfind, List.getLast?_eq_none_iff] at hr; simp [hr] at hi
  | some k =>
    obtain ⟨hk, hkmax⟩ := hlast k hr
    rw [Nat.le_antisymm (hmax k hk) (hkmax i hi)]

theorem rfind_append_cons {c : UInt8} {a b : Bytes} (h : c ∉ b) :
    rfind [c] (a ++ c :: b) = some a.length := by
  refine rfind_eq_some.mpr ⟨mem_occurrences.mpr ⟨by simp, by simp⟩, fun j hj => ?_⟩
  obtain ⟨-, t, ht⟩ := mem_occurrences.mp hj
  by_contra! hlt
  have hdrop : (a ++ c :: b).drop j = b.drop (j - a.length - 1) := by
    obtain ⟨k, rfl⟩ : ∃ k, j = a.length + (k + 1) := ⟨j - a.length - 1, by omega⟩
    rw [← List.drop_drop, List.drop_left, List.drop_succ_cons]
    congr 1
    omega
  rw [hdrop] at ht
  exact h (List.mem_of_mem_drop (ht ▸ List.mem_append_left t (List.mem_singleton.mpr rfl)))

/-! ## Joining -/

theorem length_le_intercalate (sep : Bytes) {xs : List Bytes} (h : ∀ x ∈ xs, x ≠ []) :
    xs.length ≤ (List.intercalate sep xs).length := by
  induction xs with
  | nil => simp
  | cons x xs ih =>
    have hx := List.length_pos_of_ne_nil (h x (by simp))
    have hxs := ih fun y hy => h y (List.mem_cons_of_mem _ hy)
    cases xs with
    | nil => simpa using Nat.one_le_iff_ne_zero.mpr hx.ne'
    | cons y ys =>
      rw [List.intercalate_cons_cons]
      simp only [List.length_cons, List.length_append] at hxs ⊢
      omega

theorem not_mem_intercalate {c : UInt8} {sep : Bytes} (hsep : c ∉ sep) {xs : List Bytes}
    (h : ∀ x ∈ xs, c ∉ x) : c ∉ List.intercalate sep xs := by
  induction xs with
  | nil => simp
  | cons x xs ih =>
    have hx := h x (by simp)
    have hxs := ih fun y hy => h y (List.mem_cons_of_mem _ hy)
    cases xs with
    | nil => simpa using hx
    | cons y ys =>
      rw [List.intercalate_cons_cons, List.mem_append, List.mem_append]
      tauto

/-! ## Paths -/

/-- The separator of paths. -/
def slash : UInt8 := 47

/-- `dir + "/" + name`. -/
def join (dir name : Bytes) : Bytes := dir ++ slash :: name

@[simp] theorem join_inj {dir a b : Bytes} : join dir a = join dir b ↔ a = b := by
  simp [join]

/-- A path's part before its last slash, if it has one. -/
def dirOf (path : Bytes) : Option Bytes := (rfind [slash] path).map fun i => path.take i

/-- A path's part after its last slash. -/
def baseOf (path : Bytes) : Bytes :=
  match rfind [slash] path with
  | some i => path.drop (i + 1)
  | none => path

theorem rfind_slash_join {dir n : Bytes} (h : slash ∉ n) :
    rfind [slash] (join dir n) = some dir.length := rfind_append_cons h

theorem baseOf_join {dir n : Bytes} (h : slash ∉ n) : baseOf (join dir n) = n := by
  rw [baseOf, rfind_slash_join h]
  simp [join]

/-- The name under which a directory lists a path, if the path lies directly in it. -/
def entryIn (dir path : Bytes) : Option Bytes :=
  if (dir ++ [slash]).isPrefixOf path ∧ slash ∉ path.drop (dir.length + 1) then
    some (path.drop (dir.length + 1))
  else none

theorem entryIn_eq_some {dir path n : Bytes} :
    entryIn dir path = some n ↔ path = join dir n ∧ slash ∉ n := by
  unfold entryIn join
  constructor
  · intro h
    split_ifs at h with hp
    obtain rfl := Option.some.inj h
    obtain ⟨t, ht⟩ := List.isPrefixOf_iff_prefix.mp hp.1
    rw [← ht]
    refine ⟨by simp, ?_⟩
    rw [ht]
    exact hp.2
  · rintro ⟨rfl, hn⟩
    have hdrop : (dir ++ slash :: n).drop (dir.length + 1) = n := by
      rw [← List.drop_drop, List.drop_left, List.drop_one, List.tail_cons]
    rw [hdrop, if_pos ⟨by simp, hn⟩]

end Bewe
