import Mathlib.Data.List.TakeWhile
import Bewe.EmitterDb.Jsonl
import Bewe.Lib.Float

/-!
# Text of the saved lists

What `missions.json` and `schedules.json` of Central have in common: the character arrays of the
packets, `json_escape`, and the two readers of what it writes. `parse_str` is a cursor over a
NUL-terminated buffer and takes every byte after a backslash as it is; `JScan::read_string` reads
`\n` and `\r` as what `json_escape` wrote them for. Both are given by what they leave of each byte
of a string.
-/

namespace Bewe.Saved

open Lib
open EmitterDb (quote backslash comma colon openBrace closeBrace openBracket closeBracket lineFeed
  carriageReturn letterN letterR tab)

/-! ## Character arrays -/

/-- `char[n]` of a packet. -/
structure Chars (n : ℕ) where
  bytes : Bytes
  size : bytes.length = n
  deriving DecidableEq

/-- The array as a C string; a full array ends where it ends, as it does once it is copied into
`n + 1` zeros. -/
def Chars.str {n : ℕ} (a : Chars n) : Bytes := cStr a.bytes

/-- The first `n` bytes of a string and zeros behind it. -/
def Chars.ofStr (n : ℕ) (s : Bytes) : Chars n :=
  ⟨(s ++ List.replicate n 0).take n, by simp⟩

theorem zero_not_mem_cStr (s : Bytes) : (0 : UInt8) ∉ cStr s := by
  intro h
  have := List.mem_takeWhile_imp h
  simp at this

theorem cStr_append_replicate {s : Bytes} (h : (0 : UInt8) ∉ s) (k : ℕ) :
    cStr (s ++ List.replicate k 0) = s := by
  have hs : ∀ c ∈ s, decide (c ≠ 0) = true := fun c hc => by
    simpa using fun h0 : c = 0 => h (h0 ▸ hc)
  rw [cStr, List.takeWhile_append_of_pos hs]
  cases k <;> simp [List.replicate_succ]

theorem Chars.str_ofStr {n : ℕ} {s : Bytes} (h : (0 : UInt8) ∉ s) :
    (Chars.ofStr n s).str = s.take n := by
  have h' : (0 : UInt8) ∉ s.take n := fun hm => h (List.mem_of_mem_take hm)
  calc (Chars.ofStr n s).str
    _ = cStr (s.take n ++ List.replicate (min (n - s.length) n) 0) := by
      rw [← List.take_replicate, ← List.take_append]
      rfl
    _ = s.take n := cStr_append_replicate h' _

theorem Chars.str_length_le {n : ℕ} (a : Chars n) : a.str.length ≤ n := by
  calc a.str.length
    _ ≤ a.bytes.length := (List.takeWhile_prefix _).length_le
    _ = n := a.size

/-! ## Escapes -/

/-- What both readers pass over between values: white space and commas. -/
def isSep (c : UInt8) : Bool := c = comma || c = 32 || c = lineFeed || c = carriageReturn || c = tab

/-- One byte of `json_escape`. -/
def escapeChar (c : UInt8) : Bytes :=
  if c = quote ∨ c = backslash then [backslash, c]
  else if c = lineFeed then [backslash, letterN]
  else if c = carriageReturn then [backslash, letterR]
  else if c < 32 then [] -- skip control
  else [c]

/-- `json_escape`. -/
def jsonEscape (s : Bytes) : Bytes := s.flatMap escapeChar

/-- The loop of `parse_str` up to the closing quote or the end. -/
def parseChars : Bytes → Bytes × Bytes
  | [] => ([], [])
  | [c] => if c = quote then ([], [c]) else ([c], [])
  | c :: d :: t =>
    if c = quote then ([], c :: d :: t)
    else if c = backslash then (d :: (parseChars t).1, (parseChars t).2)
    else (c :: (parseChars (d :: t)).1, (parseChars (d :: t)).2)

/-- `parse_str` into an array of `cap` bytes: whether it has found a string, the bytes that the array
then has, and what follows. -/
def parseStr (cap : ℕ) (t : Bytes) : Bool × Bytes × Bytes :=
  match t.dropWhile (· ≠ quote) with
  | [] => (false, [], [])
  | _ :: t =>
    match (parseChars t).2 with
    | [] => (false, (parseChars t).1.take (cap - 1), [])
    | _ :: r => (true, (parseChars t).1.take (cap - 1), r)

/-- The loop of `JScan::read_string`. -/
def scanChars : Bytes → Bytes × Bytes
  | [] => ([], [])
  | [c] => if c = quote then ([], [c]) else ([c], [])
  | c :: d :: t =>
    if c = quote then ([], c :: d :: t)
    else if c = backslash then
      if d = letterN then (lineFeed :: (scanChars t).1, (scanChars t).2)
      else if d = letterR then (carriageReturn :: (scanChars t).1, (scanChars t).2)
      else (d :: (scanChars t).1, (scanChars t).2)
    else (c :: (scanChars (d :: t)).1, (scanChars (d :: t)).2)

/-- What `parse_str` makes of a byte that has been written. -/
def reparsed (c : UInt8) : Bytes :=
  if c = lineFeed then [letterN]
  else if c = carriageReturn then [letterR]
  else if c < 32 then []
  else [c]

/-- What `JScan` makes of a byte that has been written. -/
def rescanned (c : UInt8) : Bytes :=
  if c < 32 ∧ c ≠ lineFeed ∧ c ≠ carriageReturn then [] else [c]

/-- A string with its quotes. -/
def quoted (s : Bytes) : Bytes := quote :: jsonEscape s ++ [quote]

theorem parseChars_escapeChar (c : UInt8) {t : Bytes} (ht : t ≠ []) :
    parseChars (escapeChar c ++ t) = (reparsed c ++ (parseChars t).1, (parseChars t).2) := by
  obtain ⟨d, t, rfl⟩ := List.exists_cons_of_ne_nil ht
  unfold escapeChar reparsed
  by_cases h1 : c = quote
  · subst h1
    simp [parseChars, quote, backslash, lineFeed, carriageReturn]
  by_cases h2 : c = backslash
  · subst h2
    simp [parseChars, quote, backslash, lineFeed, carriageReturn]
  rw [if_neg (by simp [h1, h2])]
  split_ifs
  · simp [parseChars, quote, backslash]
  · simp [parseChars, quote, backslash]
  · simp
  · simp [parseChars, h1, h2]

theorem scanChars_escapeChar (c : UInt8) {t : Bytes} (ht : t ≠ []) :
    scanChars (escapeChar c ++ t) = (rescanned c ++ (scanChars t).1, (scanChars t).2) := by
  obtain ⟨d, t, rfl⟩ := List.exists_cons_of_ne_nil ht
  unfold escapeChar rescanned
  by_cases h1 : c = quote
  · subst h1
    simp [scanChars, quote, backslash, lineFeed, carriageReturn, letterN, letterR]
  by_cases h2 : c = backslash
  · subst h2
    simp [scanChars, quote, backslash, lineFeed, carriageReturn, letterN, letterR]
  rw [if_neg (by simp [h1, h2])]
  by_cases h3 : c = lineFeed
  · subst h3
    simp [scanChars, quote, backslash, lineFeed, letterN]
  by_cases h4 : c = carriageReturn
  · subst h4
    simp [scanChars, quote, backslash, lineFeed, carriageReturn, letterN, letterR]
  rw [if_neg h3, if_neg h4]
  by_cases h5 : c < 32
  · simp [h3, h4, h5]
  · simp [scanChars, h1, h2, h5]

/-- What `parseChars` makes of an escaped text: that text, each byte as it reads it back. -/
theorem parseChars_jsonEscape (s t : Bytes) :
    parseChars (jsonEscape s ++ quote :: t) = (s.flatMap reparsed, quote :: t) := by
  induction s with
  | nil => cases t <;> simp [jsonEscape, parseChars]
  | cons c s ih =>
    have hcons : jsonEscape (c :: s) ++ quote :: t = escapeChar c ++ (jsonEscape s ++ quote :: t) := by
      simp [jsonEscape]
    rw [hcons, parseChars_escapeChar _ (by simp), ih, List.flatMap_cons]

/-- The same of `scanChars`. -/
theorem scanChars_jsonEscape (s t : Bytes) :
    scanChars (jsonEscape s ++ quote :: t) = (s.flatMap rescanned, quote :: t) := by
  induction s with
  | nil => cases t <;> simp [jsonEscape, scanChars]
  | cons c s ih =>
    have hcons : jsonEscape (c :: s) ++ quote :: t = escapeChar c ++ (jsonEscape s ++ quote :: t) := by
      simp [jsonEscape]
    rw [hcons, scanChars_escapeChar _ (by simp), ih, List.flatMap_cons]

theorem parseStr_quoted (cap : ℕ) (s t : Bytes) :
    parseStr cap (quoted s ++ t) = (true, (s.flatMap reparsed).take (cap - 1), t) := by
  have hread := parseChars_jsonEscape s t
  simp [parseStr, quoted, hread]

/-! ## What is kept -/

/-- A byte that `parse_str` changes or loses: a control character. -/
def isControl (c : UInt8) : Bool := c < 32

/-- A byte that `JScan` loses: a control character other than the ends of lines. -/
def isLost (c : UInt8) : Bool := c < 32 && c ≠ lineFeed && c ≠ carriageReturn

theorem flatMap_eq_self_iff {f : UInt8 → Bytes} {bad : UInt8 → Bool}
    (hgood : ∀ c, bad c = false → f c = [c]) (hbad : ∀ c, ∀ d ∈ f c, bad d = false) (s : Bytes) :
    s.flatMap f = s ↔ ∀ c ∈ s, bad c = false := by
  constructor
  · intro h c hc
    rw [← h] at hc
    obtain ⟨d, -, hd⟩ := List.mem_flatMap.1 hc
    exact hbad d c hd
  · intro h
    induction s with
    | nil => rfl
    | cons c s ih =>
      rw [List.flatMap_cons, hgood c (h c (by simp)), ih fun d hd => h d (List.mem_cons_of_mem _ hd)]
      rfl

theorem isControl_of_mem_reparsed {c d : UInt8} (h : d ∈ reparsed c) : isControl d = false := by
  unfold reparsed at h
  split_ifs at h with h1 h2 h3
  · rw [List.mem_singleton.1 h]
    decide
  · rw [List.mem_singleton.1 h]
    decide
  · simp at h
  · rw [List.mem_singleton.1 h]
    simpa [isControl] using h3

theorem flatMap_reparsed_eq_iff (s : Bytes) :
    s.flatMap reparsed = s ↔ ∀ c ∈ s, isControl c = false := by
  refine flatMap_eq_self_iff (fun c hc => ?_) (fun c d hd => isControl_of_mem_reparsed hd) s
  have h32 : ¬ c < 32 := by simpa [isControl] using hc
  unfold reparsed
  split_ifs with h1 h2
  · exact absurd (by rw [h1]; decide) h32
  · exact absurd (by rw [h2]; decide) h32
  · rfl

theorem isLost_of_mem_rescanned {c d : UInt8} (h : d ∈ rescanned c) : isLost d = false := by
  unfold rescanned at h
  split_ifs at h with hc
  · simp at h
  · rw [List.mem_singleton.1 h]
    simpa [isLost] using hc

theorem isLost_of_mem_flatMap {s : Bytes} {d : UInt8} (h : d ∈ s.flatMap rescanned) :
    isLost d = false := by
  obtain ⟨c, -, hd⟩ := List.mem_flatMap.1 h
  exact isLost_of_mem_rescanned hd

theorem zero_not_mem_rescanned (s : Bytes) : (0 : UInt8) ∉ s.flatMap rescanned := fun h =>
  absurd (isLost_of_mem_flatMap h) (by decide)

/-- A string comes back through `JScan` exactly if it has no control characters but the ends of
lines. -/
theorem flatMap_rescanned_eq_iff (s : Bytes) :
    s.flatMap rescanned = s ↔ ∀ c ∈ s, isLost c = false := by
  refine flatMap_eq_self_iff (fun c hc => ?_) (fun c d hd => isLost_of_mem_rescanned hd) s
  rw [rescanned, if_neg]
  simpa [isLost] using hc

theorem cStr_eq_self {s : Bytes} (h : (0 : UInt8) ∉ s) : cStr s = s := by
  simpa using cStr_append_replicate h 0

theorem Chars.str_copied {n : ℕ} {s : Bytes} (h : (0 : UInt8) ∉ s) :
    (Chars.ofStr (n + 1) ((cStr s).take n)).str = s.take n := by
  have htake : (0 : UInt8) ∉ s.take n := fun h0 => h (List.mem_of_mem_take h0)
  rw [cStr_eq_self h, Chars.str_ofStr htake, List.take_take, Nat.min_eq_right (Nat.le_succ n)]

/-- A string of an array comes back through `JScan` exactly if it leaves the last byte free and has
no control characters but the ends of lines. -/
theorem Chars.str_copied_eq_iff {n : ℕ} (a : Chars (n + 1)) :
    a.str = (Chars.ofStr (n + 1) ((cStr (a.str.flatMap rescanned)).take n)).str ↔
      a.str.length ≤ n ∧ ∀ c ∈ a.str, isLost c = false := by
  rw [Chars.str_copied (zero_not_mem_rescanned _)]
  constructor
  · intro h
    refine ⟨?_, fun c hc => ?_⟩
    · rw [h, List.length_take]
      exact Nat.min_le_left _ _
    · rw [h] at hc
      exact isLost_of_mem_flatMap (List.mem_of_mem_take hc)
  · rintro ⟨hlen, hlost⟩
    rw [(flatMap_rescanned_eq_iff _).2 hlost, List.take_of_length_le hlen]

end Bewe.Saved
