import Bewe.HostState.Channels

/-!
# What the readers leave

No reader of the file goes back: what it leaves is an end of what it was given.
-/

namespace Bewe.HostState

open Lib
open Saved (Chars copyName numberOr0 toLongLong isSep)
open Saved.JScan (readKey readNumber readString consume peek skipWs)
open EmitterDb (quote backslash comma colon openBrace closeBrace openBracket closeBracket member)
open Df (PktDfConfig kMaxElements)

/-- What is behind the blanks is an end. -/
theorem skipWs_suffix (t : Bytes) : skipWs t <:+ t := List.dropWhile_suffix _

/-- What is behind the characters of a string is an end. -/
theorem scanChars_suffix : ∀ t : Bytes, (Saved.scanChars t).2 <:+ t
  | [] => List.suffix_rfl
  | [c] => by
    rw [Saved.scanChars]
    split_ifs
    · exact List.suffix_rfl
    · exact List.nil_suffix
  | c :: d :: t => by
    have hrest := (scanChars_suffix t).trans ((List.suffix_cons d t).trans (List.suffix_cons c _))
    rw [Saved.scanChars]
    split_ifs
    · exact List.suffix_rfl
    · exact hrest
    · exact hrest
    · exact hrest
    · exact (scanChars_suffix (d :: t)).trans (List.suffix_cons c _)

/-- `read_string` leaves an end, and all but the blanks if there is no string. -/
theorem readString_suffix (t : Bytes) : (readString t).2 <:+ t := by
  rw [readString]
  have hskip := skipWs_suffix t
  cases hs : skipWs t with
  | nil => exact List.nil_suffix
  | cons c r =>
    rw [hs] at hskip
    dsimp only
    split_ifs
    · exact (((List.tail_suffix _).trans (scanChars_suffix r)).trans (List.suffix_cons c r)).trans hskip
    · exact hskip

/-- `read_key` leaves an end, with the colon gone or not. -/
theorem readKey_suffix (t : Bytes) : (readKey t).2 <:+ t := by
  have hstring := readString_suffix t
  rw [readKey]
  generalize readString t = r at hstring ⊢
  obtain ⟨_ | k, u⟩ := r
  · exact hstring
  · have hskip := (skipWs_suffix u).trans hstring
    dsimp only at hskip ⊢
    cases hs : skipWs u with
    | nil => exact List.nil_suffix
    | cons c r =>
      rw [hs] at hskip
      dsimp only
      split_ifs
      · exact (List.suffix_cons c r).trans hskip
      · exact hskip

/-- `read_number` leaves an end, whether it reads a number or not. -/
theorem readNumber_suffix (t : Bytes) : (readNumber t).2 <:+ t := by
  rw [readNumber]
  split_ifs
  · exact skipWs_suffix t
  · exact (List.dropWhile_suffix _).trans (skipWs_suffix t)

/-- `consume` leaves an end, whether it takes the sign or not. -/
theorem consume_suffix (d : UInt8) (t : Bytes) : (consume d t).2 <:+ t := by
  have hskip := skipWs_suffix t
  rw [consume]
  cases hs : skipWs t with
  | nil => exact List.nil_suffix
  | cons c r =>
    rw [hs] at hskip
    dsimp only
    split_ifs
    · exact (List.suffix_cons c r).trans hskip
    · exact hskip

/-- What is behind the closing bracket is an end. -/
theorem skipDepth_suffix (depth : ℕ) (t : Bytes) : Saved.skipDepth depth t <:+ t := by
  induction t generalizing depth with
  | nil =>
    cases depth <;> exact List.suffix_rfl
  | cons c t ih =>
    cases depth with
    | zero => exact List.suffix_rfl
    | succ n =>
      rw [Saved.skipDepth]
      split_ifs
      · exact (ih _).trans (List.suffix_cons c t)
      · exact (ih _).trans (List.suffix_cons c t)
      · exact (ih _).trans (List.suffix_cons c t)

/-- What is behind an unknown value is an end. -/
theorem skipValue_suffix (t : Bytes) : skipValue t <:+ t := by
  rw [skipValue]
  split_ifs
  · exact readString_suffix t
  · have h1 := consume_suffix openBracket t
    generalize consume openBracket t = r at h1 ⊢
    obtain ⟨_ | _, u⟩ := r
    · have h2 := consume_suffix openBrace u
      dsimp only
      generalize consume openBrace u = q at h2 ⊢
      obtain ⟨_ | _, w⟩ := q
      · exact (readNumber_suffix w).trans (h2.trans h1)
      · exact (skipDepth_suffix 1 w).trans (h2.trans h1)
    · exact (skipDepth_suffix 1 u).trans h1

section Items

variable {ρ : Type} {field : Bytes → ρ → Bytes → ρ × Bytes}

/-- An item leaves an end if each of its fields does. -/
theorem readItem_suffix (h : ∀ k r t, (field k r t).2 <:+ t) (fuel : ℕ) (r : ρ) (t : Bytes) :
    (readItem field fuel r t).2 <:+ t := by
  induction fuel generalizing r t with
  | zero => exact List.suffix_rfl
  | succ n ih =>
    have hkey := readKey_suffix t
    rw [readItem]
    generalize readKey t = q at hkey ⊢
    obtain ⟨_ | k, u⟩ := q
    · exact hkey
    · have hfield := (h k r u).trans hkey
      dsimp only
      split_ifs
      · exact (skipWs_suffix _).trans hfield
      · exact (ih _ _).trans hfield

/-- So does a list of items. -/
theorem readItems_suffix (h : ∀ k r t, (field k r t).2 <:+ t) (start : ρ) (keep : ρ → Bool) (cap : ℕ)
    (fuel : ℕ) (rs : List ρ) (t : Bytes) : (readItems field start keep cap fuel rs t).2 <:+ t := by
  induction fuel generalizing rs t with
  | zero => exact List.suffix_rfl
  | succ n ih =>
    rw [readItems]
    split_ifs
    · exact skipWs_suffix t
    · have hopen := consume_suffix openBrace t
      generalize consume openBrace t = q at hopen ⊢
      obtain ⟨_ | _, u⟩ := q
      · exact hopen
      · exact (ih _ _).trans ((consume_suffix _ _).trans ((readItem_suffix h _ _ _).trans hopen))

end Items

theorem notchField_suffix (k : Bytes) (n : NotchSnap) (t : Bytes) : (notchField k n t).2 <:+ t := by
  unfold notchField
  split_ifs <;> exact readNumber_suffix t

/-! ## Options -/

theorem isSome_orElse {α : Type} (a b : Option α) : (a <|> b).isSome = (a.isSome || b.isSome) := by
  cases a <;> rfl

end Bewe.HostState
