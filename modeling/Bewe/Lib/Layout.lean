import Mathlib.Tactic

/-!
# Bytes at offsets

Records laid over byte strings: the bytes at an offset (`slice`), other bytes in their place
(`splice`), little-endian numbers, and a string cut into rows of one width. A partial row at the end
is no row.
-/

namespace Lib

variable {α : Type*}

/-! ## Slices -/

/-- The `len` entries from `off` on. -/
def slice (off len : ℕ) (l : List α) : List α := (l.drop off).take len

/-- A list with the entries from `off` on replaced by `v`. -/
def splice (off : ℕ) (v l : List α) : List α := l.take off ++ v ++ l.drop (off + v.length)

theorem slice_length {off len : ℕ} {l : List α} (h : off + len ≤ l.length) :
    (slice off len l).length = len := by
  simp only [slice, List.length_take, List.length_drop]
  omega

theorem splice_length {off : ℕ} {v l : List α} (h : off + v.length ≤ l.length) :
    (splice off v l).length = l.length := by
  simp only [splice, List.length_append, List.length_take, List.length_drop]
  omega

theorem map_slice {β : Type*} (f : α → β) (off len : ℕ) (l : List α) :
    (slice off len l).map f = slice off len (l.map f) := by
  rw [slice, slice, List.map_take, List.map_drop]

theorem slice_splice_self {off : ℕ} {v l : List α} (h : off ≤ l.length) :
    slice off v.length (splice off v l) = v := by
  have hoff : (l.take off).length = off := by simp [h]
  rw [slice, splice, List.append_assoc, List.drop_append_of_le_length hoff.ge, List.drop_eq_nil_of_le
    hoff.le, List.nil_append, List.take_left']
  rfl

theorem slice_splice_of_le {off off' len : ℕ} {v l : List α} (h : off + len ≤ off')
    (hl : off' ≤ l.length) : slice off len (splice off' v l) = slice off len l := by
  have htake : (l.take off').length = off' := by simp [hl]
  rw [slice, slice, splice, List.append_assoc, List.drop_append_of_le_length (by omega),
    List.take_append_of_le_length (by simp [hl]; omega), List.drop_take, List.take_take]
  congr 1
  omega

theorem slice_splice_of_ge {off off' len : ℕ} {v l : List α} (h : off' + v.length ≤ off)
    (hl : off' ≤ l.length) : slice off len (splice off' v l) = slice off len l := by
  have hlen : (l.take off' ++ v).length = off' + v.length := by simp [hl]
  rw [slice, slice, splice, List.drop_append, List.drop_eq_nil_of_le (by omega), List.nil_append,
    List.drop_drop, hlen]
  congr 2
  omega

theorem slice_append_slice (off m n : ℕ) (l : List α) :
    slice off m l ++ slice (off + m) n l = slice off (m + n) l := by
  rw [slice, slice, slice, List.take_add, List.drop_drop]

theorem slice_slice {off n i len : ℕ} (h : i + len ≤ n) (l : List α) :
    slice i len (slice off n l) = slice (off + i) len l := by
  rw [slice, slice, slice, List.drop_take, List.drop_drop, List.take_take, Nat.min_eq_left (by omega)]

theorem slice_splice_within {off i len : ℕ} {v l : List α} (h : off ≤ l.length)
    (hi : i + len ≤ v.length) : slice (off + i) len (splice off v l) = slice i len v := by
  have hself := slice_splice_self (v := v) h
  conv_rhs => rw [← hself]
  simp only [slice, List.drop_take, List.take_take, List.drop_drop]
  congr 1
  omega

theorem getElem?_splice {off : ℕ} {v l : List α} (h : off ≤ l.length) (i : ℕ) :
    (splice off v l)[i]? =
      if i < off then l[i]? else if i < off + v.length then v[i - off]? else l[i]? := by
  have hoff : (l.take off).length = off := by simp [h]
  rw [splice, List.append_assoc, List.getElem?_append, hoff]
  split_ifs with h1 h2
  · rw [List.getElem?_take_of_lt h1]
  · rw [List.getElem?_append_left (by omega)]
  · rw [List.getElem?_append_right (by omega), List.getElem?_drop]
    congr 1
    omega

/-- Bytes written at an offset; a gap before them is zeros, and writing nothing does nothing. -/
def pwrite (off : ℕ) (v l : List UInt8) : List UInt8 :=
  if v = [] then l else splice off v (l ++ List.replicate (off - l.length) 0)

/-! ## Numbers -/

/-- The little-endian bytes of a number, `w` of them. -/
def leBytes : ℕ → ℕ → List UInt8
  | 0, _ => []
  | w + 1, n => UInt8.ofNat (n % 256) :: leBytes w (n / 256)

/-- The number with the given little-endian bytes. -/
def leNat : List UInt8 → ℕ
  | [] => 0
  | b :: bs => b.toNat + 256 * leNat bs

@[simp] theorem leBytes_length (w n : ℕ) : (leBytes w n).length = w := by
  induction w generalizing n with
  | zero => rfl
  | succ w ih => simp [leBytes, ih]

theorem leNat_leBytes_mod (w n : ℕ) : leNat (leBytes w n) = n % 256 ^ w := by
  induction w generalizing n with
  | zero => simp [leBytes, leNat, Nat.mod_one]
  | succ w ih =>
    have hb : (UInt8.ofNat (n % 256)).toNat = n % 256 := by
      simp
    rw [leBytes, leNat, hb, ih, pow_succ', Nat.mod_mul]

theorem leNat_leBytes {w n : ℕ} (h : n < 256 ^ w) : leNat (leBytes w n) = n := by
  rw [leNat_leBytes_mod, Nat.mod_eq_of_lt h]

/-! ## Rows -/

/-- The rows of width `w` in a byte string. -/
def rows (w : ℕ) (b : List α) : List (List α) :=
  (List.range (b.length / w)).map fun i => slice (i * w) w b

@[simp] theorem rows_length (w : ℕ) (b : List α) : (rows w b).length = b.length / w := by
  simp [rows]

theorem row_end_le {w i : ℕ} {b : List α} (h : i < b.length / w) : i * w + w ≤ b.length := by
  calc i * w + w = (i + 1) * w := by ring
    _ ≤ b.length / w * w := Nat.mul_le_mul_right w h
    _ ≤ b.length := Nat.div_mul_le_self _ _

theorem length_of_mem_rows {w : ℕ} {b r : List α} (h : r ∈ rows w b) : r.length = w := by
  obtain ⟨i, hi, rfl⟩ := List.mem_map.mp h
  exact slice_length (row_end_le (List.mem_range.mp hi))

theorem rows_cons {w : ℕ} (hw : 0 < w) {r : List α} (hr : r.length = w) (b : List α) :
    rows w (r ++ b) = r :: rows w b := by
  have hlen : (r ++ b).length / w = b.length / w + 1 := by
    rw [List.length_append, hr, Nat.add_div_left _ hw]
  rw [rows, hlen, List.range_succ_eq_map, List.map_cons, List.map_map, rows]
  congr 1
  · rw [Nat.zero_mul, slice, List.drop_zero, List.take_left' hr]
  · refine List.map_congr_left fun i _ => ?_
    simp only [Function.comp_apply, Nat.succ_eq_add_one, slice]
    rw [show (i + 1) * w = r.length + i * w by rw [hr]; ring, ← List.drop_drop, List.drop_left]

/-- The rows of a text made of rows are those rows, and the rows of what follows. -/
theorem rows_flatten_append {w : ℕ} (hw : 0 < w) {rs : List (List α)} (hrs : ∀ r ∈ rs, r.length = w)
    (b : List α) : rows w (rs.flatten ++ b) = rs ++ rows w b := by
  induction rs with
  | nil => simp
  | cons r rs ih =>
    rw [List.flatten_cons, List.append_assoc, rows_cons hw (hrs r (by simp)),
      ih fun x hx => hrs x (List.mem_cons_of_mem _ hx), List.cons_append]

theorem rows_flatten {w : ℕ} (hw : 0 < w) {rs : List (List α)} (hrs : ∀ r ∈ rs, r.length = w) :
    rows w rs.flatten = rs := by
  have hnil : rows w ([] : List α) = [] := by simp [rows]
  rw [← List.append_nil rs.flatten, rows_flatten_append hw hrs, hnil, List.append_nil]

theorem length_flatten_of_forall {w : ℕ} {rs : List (List α)} (hrs : ∀ r ∈ rs, r.length = w) :
    rs.flatten.length = rs.length * w := by
  induction rs with
  | nil => simp
  | cons r rs ih =>
    rw [List.flatten_cons, List.length_append, hrs r (by simp),
      ih fun x hx => hrs x (List.mem_cons_of_mem _ hx), List.length_cons, Nat.succ_mul, Nat.add_comm]

theorem flatten_rows (w : ℕ) (b : List α) : (rows w b).flatten = b.take (b.length / w * w) := by
  have key : ∀ n, n ≤ b.length / w →
      ((List.range n).map fun i => slice (i * w) w b).flatten = b.take (n * w) := by
    intro n
    induction n with
    | zero => simp
    | succ n ih =>
      intro hn
      rw [List.range_succ, List.map_append, List.flatten_append, ih (by omega), List.map_singleton,
        List.flatten_singleton, slice, Nat.succ_mul, List.take_add]
  exact key _ le_rfl

theorem flatten_rows_of_dvd {w : ℕ} {b : List α} (h : w ∣ b.length) : (rows w b).flatten = b := by
  rw [flatten_rows, Nat.div_mul_cancel h, List.take_length]

end Lib
