import Bewe.HostState.Load
import Bewe.Saved.SchedulesRead

/-!
# Reading the members of the file

What `JScan` makes of numbers, strings and keys: a number is read whole where nothing behind it
continues it, and strings and keys come back where they have neither quotes nor backslashes.
-/

namespace Bewe.HostState

open Lib
open Saved (Chars copyName numberOr0 toLongLong isSep NumText isSep_of_isNumByte scanChars)
open Saved.JScan (readKey readNumber readString consume peek skipWs)
open EmitterDb (quote backslash comma colon openBrace closeBrace openBracket closeBracket member)

/-! ## The bytes of a value -/

/-- A value that is a number. -/
def IsNumber (w : Bytes) : Prop := ∀ c ∈ w, isNumByte c = true

theorem isNumber_fmt_iff (n : ℕ) (x : Binary32) : IsNumber (x.fmt n) ↔ x.value.isSome :=
  Binary32.forall_isNumByte_fmt_iff n x

theorem isNumber_natText (n : ℕ) : IsNumber (natText n) := fun _ hc =>
  isNumByte_of_isDigit (isDigit_of_mem_natText hc)

/-! ## Numbers -/

/-- A text that does not continue a number. -/
def Ends (t : Bytes) : Prop := ∀ c ∈ t.head?, isNumByte c = false

theorem readNumber_of_isNumber {w t : Bytes} (h : IsNumber w) (hne : w ≠ []) (ht : Ends t) :
    readNumber (w ++ t) = (some (strtod w).1, t) := by
  have hskip : skipWs (w ++ t) = w ++ t := by
    obtain ⟨c, r, rfl⟩ := List.exists_cons_of_ne_nil hne
    exact Saved.JScan.skipWs_cons (isSep_of_isNumByte (h c (by simp))) _
  have htake : (w ++ t).takeWhile isNumByte = w := by
    rw [List.takeWhile_append_of_pos h]
    cases t with
    | nil => simp
    | cons c t => simp [ht c (by simp)]
  have hdrop : (w ++ t).dropWhile isNumByte = t := by
    rw [List.dropWhile_append_of_pos h]
    cases t with
    | nil => rfl
    | cons c t => simp [ht c (by simp)]
  simp only [readNumber, hskip, htake, hdrop, hne, if_false]

/-! ## Keys and strings -/

/-- A text without quotes and backslashes. -/
def Unescaped (s : Bytes) : Prop := ∀ c ∈ s, c ≠ quote ∧ c ≠ backslash

instance (s : Bytes) : Decidable (Unescaped s) := List.decidableBAll _ s

theorem scanChars_cons {c : UInt8} (h : c ≠ quote ∧ c ≠ backslash) (t : Bytes) :
    scanChars (c :: t) = (c :: (scanChars t).1, (scanChars t).2) := by
  cases t with
  | nil => simp [scanChars, h]
  | cons d t => rw [scanChars, if_neg h.1, if_neg h.2]

theorem scanChars_of_unescaped {s : Bytes} (h : Unescaped s) (t : Bytes) :
    scanChars (s ++ quote :: t) = (s, quote :: t) := by
  induction s with
  | nil => cases t <;> simp [scanChars]
  | cons c s ih =>
    rw [List.cons_append, scanChars_cons (h c (by simp)), ih fun d hd => h d (List.mem_cons_of_mem c hd)]

theorem readString_of_unescaped {s : Bytes} (h : Unescaped s) (t : Bytes) :
    readString (quote :: (s ++ quote :: t)) = (some s, t) := by
  rw [readString, Saved.JScan.skipWs_cons (by decide)]
  simp [scanChars_of_unescaped h]

theorem readKey_of_unescaped {k : Bytes} (h : Unescaped k) (t : Bytes) :
    readKey (quote :: (k ++ quote :: colon :: t)) = (some k, t) := by
  rw [readKey, readString_of_unescaped h]
  simp [Saved.JScan.skipWs_cons (show isSep colon = false by decide)]

theorem skipWs_sep {c : UInt8} (h : isSep c = true) (t : Bytes) : skipWs (c :: t) = skipWs t := by
  simp [skipWs, h]

theorem readKey_congr {t u : Bytes} (h : skipWs t = skipWs u) : readKey t = readKey u := by
  simp only [readKey, readString, h]

end Bewe.HostState
