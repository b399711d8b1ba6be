import Bewe.Lib.Loop
import Bewe.HostState.File
import Mathlib.Data.List.DropRight

/-!
# The loops of the scanners

The loops of `JScan`, and of the two cursors that read the saved missions, as they are executed: each
has a limit on its turns, and the text that is left is the state. A turn takes a byte or leaves the
loop, and with a limit above the length of the text the loops leave what their definitions without a
limit say (`skip_eq`, `readString_eq`, `parseStr_eq`).
-/

namespace Bewe.Readers

open Lib
open Saved (Chars isSep isBlank isGap)
open EmitterDb (quote backslash comma colon openBrace closeBrace openBracket closeBracket lineFeed
  carriageReturn letterN letterR)

/-! ## Bytes that are passed over -/

/-- A turn of `while(p<end && P(*p)) p++`. -/
def skipTurn (P : UInt8 → Bool) (_ : ℕ) : Bytes → Option (Turn Bytes Bytes)
  | [] => some (.leave [])
  | c :: t => some (if P c then .again t else .leave (c :: t))

/-- `while(p<end && P(*p)) p++`. -/
def skip (P : UInt8 → Bool) (limit : ℕ) (t : Bytes) : Option Bytes := loop (skipTurn P) limit t

theorem follows_skip (P : UInt8 → Bool) :
    Follows List.length (skipTurn P) fun _ => List.dropWhile P := by
  intro limit t _
  cases t with
  | nil => exact ⟨_, rfl, fun _ => rfl⟩
  | cons c t =>
    refine ⟨_, rfl, ?_⟩
    cases hc : P c with
    | true => exact ⟨Nat.lt_succ_self _, fun _ _ => List.dropWhile_cons_of_pos hc⟩
    | false => exact fun _ => List.dropWhile_cons_of_neg (by rw [hc]; exact Bool.false_ne_true)

theorem skip_eq (P : UInt8 → Bool) {limit : ℕ} {t : Bytes} (h : t.length < limit) :
    skip P limit t = some (t.dropWhile P) := (follows_skip P).run h h

/-! ## `JScan` -/

namespace JScan

/-- `consume`. -/
def consume (limit : ℕ) (c : UInt8) (t : Bytes) : Option (Bool × Bytes) := do
  match ← skip isSep limit t with
  | d :: r => if d = c then some (true, r) else some (false, d :: r)
  | [] => some (false, [])

/-- `peek`. -/
def peek (limit : ℕ) (c : UInt8) (t : Bytes) : Option (Bool × Bytes) := do
  let t ← skip isSep limit t
  some (t.head? = some c, t)

/-- A turn of the loop of `read_string`. -/
def stringTurn (_ : ℕ) : Bytes × Bytes → Option (Turn (Bytes × Bytes) (Bytes × Bytes))
  | (out, []) => some (.leave (out, []))
  | (out, [c]) => some (if c = quote then .leave (out, [c]) else .again (out ++ [c], []))
  | (out, c :: d :: t) => some (
    if c = quote then .leave (out, c :: d :: t)
    else if c = backslash then
      if d = letterN then .again (out ++ [lineFeed], t)
      else if d = letterR then .again (out ++ [carriageReturn], t)
      else .again (out ++ [d], t)
    else .again (out ++ [c], d :: t))

/-- `read_string`. -/
def readString (limit : ℕ) (t : Bytes) : Option (Option Bytes × Bytes) := do
  match ← skip isSep limit t with
  | c :: r =>
    if c = quote then
      let s ← loop stringTurn limit ([], r)
      some (some s.1, s.2.tail)
    else some (none, c :: r)
  | [] => some (none, [])

/-- `read_number`. -/
def readNumber (limit : ℕ) (t : Bytes) : Option (Option (Fp 53) × Bytes) := do
  let s ← skip isSep limit t
  let p ← skip isNumByte limit s
  if p.length = s.length then some (none, s)
  else some (some (strtod (s.take (s.length - p.length))).1, p)

/-- `read_key`. -/
def readKey (limit : ℕ) (t : Bytes) : Option (Option Bytes × Bytes) := do
  match ← readString limit t with
  | (none, t) => some (none, t)
  | (some k, t) =>
    match ← skip isSep limit t with
    | c :: r => if c = colon then some (some k, r) else some (none, c :: r)
    | [] => some (none, [])

/-- A turn of the loop that passes over a value at a depth. -/
def depthTurn (_ : ℕ) : ℕ × Bytes → Option (Turn (ℕ × Bytes) Bytes)
  | (_, []) => some (.leave [])
  | (0, t) => some (.leave t)
  | (depth + 1, c :: t) => some (
    if c = openBracket ∨ c = openBrace then .again (depth + 2, t)
    else if c = closeBracket ∨ c = closeBrace then .again (depth, t)
    else .again (depth + 1, t))

/-- A string, an array or an object is passed over; `other` says what becomes of anything else. -/
def skipValue (limit : ℕ) (other : Bytes → Option Bytes) (t : Bytes) : Option Bytes := do
  match ← peek limit quote t with
  | (true, t) =>
    let s ← readString limit t
    some s.2
  | (false, t) =>
    match ← consume limit openBracket t with
    | (true, t) => loop depthTurn limit (1, t)
    | (false, t) =>
      match ← consume limit openBrace t with
      | (true, t) => loop depthTurn limit (1, t)
      | (false, t) => other t

/-! ## What they leave -/

/-- What has been passed over is not there any more. -/
theorem skipWs_skipWs (t : Bytes) :
    Saved.JScan.skipWs (Saved.JScan.skipWs t) = Saved.JScan.skipWs t :=
  List.dropWhile_idempotent _ _

theorem consume_skipWs (c : UInt8) (t : Bytes) :
    Saved.JScan.consume c (Saved.JScan.skipWs t) = Saved.JScan.consume c t := by
  unfold Saved.JScan.consume
  rw [skipWs_skipWs]

theorem readString_skipWs (t : Bytes) :
    Saved.JScan.readString (Saved.JScan.skipWs t) = Saved.JScan.readString t := by
  unfold Saved.JScan.readString
  rw [skipWs_skipWs]

theorem readNumber_skipWs (t : Bytes) :
    Saved.JScan.readNumber (Saved.JScan.skipWs t) = Saved.JScan.readNumber t := by
  unfold Saved.JScan.readNumber
  rw [skipWs_skipWs]

theorem consume_eq (c : UInt8) {limit : ℕ} {t : Bytes} (h : t.length < limit) :
    consume limit c t = some (Saved.JScan.consume c t) := by
  unfold consume Saved.JScan.consume Saved.JScan.skipWs
  rw [skip_eq _ h]
  cases t.dropWhile isSep with
  | nil => rfl
  | cons d r => exact (apply_ite some _ _ _).symm

theorem peek_eq (c : UInt8) {limit : ℕ} {t : Bytes} (h : t.length < limit) :
    peek limit c t = some (Saved.JScan.peek c t, Saved.JScan.skipWs t) := by
  unfold peek
  rw [skip_eq _ h]
  rfl

theorem follows_string : Follows (fun s => s.2.length) stringTurn
    fun _ s => (s.1 ++ (Saved.scanChars s.2).1, (Saved.scanChars s.2).2) := by
  rintro limit ⟨out, t⟩ _
  match t with
  | [] => exact ⟨_, rfl, fun _ => by simp [Saved.scanChars]⟩
  | [c] =>
    refine ⟨_, rfl, ?_⟩
    by_cases hq : c = quote
    · rw [if_pos hq]
      exact fun _ => by simp [Saved.scanChars, hq]
    · rw [if_neg hq]
      exact ⟨Nat.one_pos, fun _ _ => by simp [Saved.scanChars, hq]⟩
  | c :: d :: t =>
    refine ⟨_, rfl, ?_⟩
    have happend : ∀ (b : UInt8) (r : Bytes × Bytes), (out ++ b :: r.1, r.2) =
        ((out ++ [b]) ++ r.1, r.2) := fun b r => by rw [List.append_assoc, List.singleton_append]
    split_ifs with hq hb hn hr
    · exact fun _ => by simp only [Saved.scanChars, if_pos hq, List.append_nil]
    · exact ⟨by simp, fun _ _ => by
        simp only [Saved.scanChars, if_neg hq, if_pos hb, if_pos hn, happend]⟩
    · exact ⟨by simp, fun _ _ => by
        simp only [Saved.scanChars, if_neg hq, if_pos hb, if_neg hn, if_pos hr, happend]⟩
    · exact ⟨by simp, fun _ _ => by
        simp only [Saved.scanChars, if_neg hq, if_pos hb, if_neg hn, if_neg hr, happend]⟩
    · exact ⟨by simp, fun _ _ => by simp only [Saved.scanChars, if_neg hq, if_neg hb, happend]⟩

theorem length_skipWs_le (t : Bytes) : (t.dropWhile isSep).length ≤ t.length :=
  (List.dropWhile_suffix _).length_le

theorem readString_eq {limit : ℕ} {t : Bytes} (h : t.length < limit) :
    readString limit t = some (Saved.JScan.readString t) := by
  have hlen := length_skipWs_le t
  unfold readString Saved.JScan.readString Saved.JScan.skipWs
  rw [skip_eq _ h]
  cases hs : t.dropWhile isSep with
  | nil => rfl
  | cons c r =>
    rw [hs, List.length_cons] at hlen
    have hloop : loop stringTurn limit ([], r) = some (Saved.scanChars r) :=
      follows_string.run (s := ([], r)) (n := limit) (show r.length < limit by omega)
        (show r.length < limit by omega)
    simp only [Option.bind_eq_bind, Option.bind_some, hloop]
    exact (apply_ite some _ _ _).symm

theorem readNumber_eq {limit : ℕ} {t : Bytes} (h : t.length < limit) :
    readNumber limit t = some (Saved.JScan.readNumber t) := by
  have hlen := length_skipWs_le t
  unfold readNumber Saved.JScan.readNumber Saved.JScan.skipWs
  rw [skip_eq _ h]
  simp only [Option.bind_eq_bind, Option.bind_some]
  generalize t.dropWhile isSep = s at hlen
  rw [skip_eq _ (show s.length < limit by omega), Option.bind_some]
  -- the number is what was passed over
  have hparts : s.takeWhile isNumByte ++ s.dropWhile isNumByte = s := List.takeWhile_append_dropWhile
  have hsum := congrArg List.length hparts
  rw [List.length_append] at hsum
  have htoken : s.take (s.length - (s.dropWhile isNumByte).length) = s.takeWhile isNumByte := by
    rw [show s.length - (s.dropWhile isNumByte).length = (s.takeWhile isNumByte).length by omega]
    exact (List.prefix_iff_eq_take.1 (List.takeWhile_prefix _)).symm
  have hnone : (s.dropWhile isNumByte).length = s.length ↔ s.takeWhile isNumByte = [] := by
    rw [← List.length_eq_zero_iff]
    omega
  rw [htoken]
  by_cases hnil : s.takeWhile isNumByte = []
  · rw [if_pos (hnone.2 hnil), if_pos hnil]
  · rw [if_neg fun hsame => hnil (hnone.1 hsame), if_neg hnil]

theorem readKey_eq {limit : ℕ} {t : Bytes} (h : t.length < limit) :
    readKey limit t = some (Saved.JScan.readKey t) := by
  have hlen := (HostState.readString_suffix t).length_le
  unfold readKey Saved.JScan.readKey
  rw [readString_eq h]
  simp only [Option.bind_eq_bind, Option.bind_some]
  generalize Saved.JScan.readString t = r at hlen ⊢
  obtain ⟨_ | k, u⟩ := r
  · rfl
  · dsimp only at hlen ⊢
    rw [skip_eq _ (show u.length < limit by omega), Option.bind_some]
    unfold Saved.JScan.skipWs
    cases u.dropWhile isSep with
    | nil => rfl
    | cons c r => exact (apply_ite some _ _ _).symm

theorem follows_depth : Follows (fun s => s.2.length) depthTurn
    fun _ s => Saved.skipDepth s.1 s.2 := by
  rintro limit ⟨depth, t⟩ _
  cases t with
  | nil =>
    refine ⟨_, rfl, fun _ => ?_⟩
    cases depth <;> rfl
  | cons c t =>
    cases depth with
    | zero => exact ⟨_, rfl, fun _ => rfl⟩
    | succ depth =>
      refine ⟨_, rfl, ?_⟩
      split_ifs with hopen hclose
      · exact ⟨Nat.lt_succ_self _, fun _ _ => if_pos hopen⟩
      · exact ⟨Nat.lt_succ_self _, fun _ _ => (if_neg hopen).trans (if_pos hclose)⟩
      · exact ⟨Nat.lt_succ_self _, fun _ _ => (if_neg hopen).trans (if_neg hclose)⟩

/-- What is read is no longer than the text. -/
theorem length_consume_le (c : UInt8) (t : Bytes) :
    (Saved.JScan.consume c t).2.length ≤ t.length := (HostState.consume_suffix c t).length_le

theorem depth_eq (depth : ℕ) {limit : ℕ} {t : Bytes} (h : t.length < limit) :
    loop depthTurn limit (depth, t) = some (Saved.skipDepth depth t) :=
  follows_depth.run (s := (depth, t)) h h

/-- A value that is passed over, with what `rest` makes of anything else. -/
def restOf (rest : Bytes → Bytes) (t : Bytes) : Bytes :=
  if Saved.JScan.peek quote t then (Saved.JScan.readString t).2
  else
    match Saved.JScan.consume openBracket t with
    | (true, t) => Saved.skipDepth 1 t
    | (false, t) =>
      match Saved.JScan.consume openBrace t with
      | (true, t) => Saved.skipDepth 1 t
      | (false, t) => rest t

theorem skipValue_eq {limit : ℕ} {other : Bytes → Option Bytes} (rest : Bytes → Bytes)
    (hother : ∀ u : Bytes, u.length < limit → other u = some (rest u)) {t : Bytes}
    (h : t.length < limit) : skipValue limit other t = some (restOf rest t) := by
  have hskip : (Saved.JScan.skipWs t).length ≤ t.length := length_skipWs_le t
  unfold skipValue restOf
  rw [peek_eq _ h]
  simp only [Option.bind_eq_bind, Option.bind_some]
  cases Saved.JScan.peek quote t with
  | true =>
    dsimp only
    rw [if_pos rfl, readString_eq (by omega), readString_skipWs]
    rfl
  | false =>
    -- the bracket and the brace are looked for one after the other
    have hbracket := length_consume_le openBracket t
    dsimp only
    rw [if_neg Bool.false_ne_true, consume_eq _ (by omega), consume_skipWs, Option.bind_some]
    generalize Saved.JScan.consume openBracket t = p at hbracket ⊢
    obtain ⟨_ | _, u⟩ := p
    · have hbrace := length_consume_le openBrace u
      dsimp only at hbracket ⊢
      rw [consume_eq _ (by omega), Option.bind_some]
      generalize Saved.JScan.consume openBrace u = q at hbrace ⊢
      obtain ⟨_ | _, w⟩ := q
      · exact hother w (by dsimp only at hbrace; omega)
      · exact depth_eq 1 (by dsimp only at hbrace; omega)
    · exact depth_eq 1 (by dsimp only at hbracket; omega)

end JScan

/-! ## `parse_str` -/

/-- A turn of the loop of `parse_str` into an array of `cap` bytes: what is in the array, and the text. -/
def parseTurn (cap _ : ℕ) : Bytes × Bytes → Option (Turn (Bytes × Bytes) (Bytes × Bytes))
  | (dst, []) => some (.leave (dst, []))
  | (dst, [c]) => some (
    if c = quote then .leave (dst, [c])
    else .again (if dst.length < cap - 1 then dst ++ [c] else dst, []))
  | (dst, c :: d :: t) => some (
    if c = quote then .leave (dst, c :: d :: t)
    else if c = EmitterDb.backslash then
      .again (if dst.length < cap - 1 then dst ++ [d] else dst, t)
    else .again (if dst.length < cap - 1 then dst ++ [c] else dst, d :: t))

/-- `parse_str`, and `mj_parse_str`: whether there is a string, what is in the array, and the text. -/
def parseStr (limit cap : ℕ) (t : Bytes) : Option (Bool × Bytes × Bytes) := do
  match ← skip (· ≠ quote) limit t with
  | [] => some (false, [], [])
  | _ :: t =>
    let s ← loop (parseTurn cap) limit ([], t)
    match s.2 with
    | [] => some (false, s.1, [])
    | _ :: r => some (true, s.1, r)

/-- A byte is put into the array if there is room for it. -/
theorem put_append (cap : ℕ) (dst : Bytes) (c : UInt8) (s : Bytes) :
    (if dst.length < cap - 1 then dst ++ [c] else dst) ++
        s.take (cap - 1 - (if dst.length < cap - 1 then dst ++ [c] else dst).length) =
      dst ++ (c :: s).take (cap - 1 - dst.length) := by
  split_ifs with hroom
  · obtain ⟨k, hk⟩ : ∃ k, cap - 1 - dst.length = k + 1 := ⟨cap - 1 - dst.length - 1, by omega⟩
    rw [List.length_append, List.length_singleton, hk, List.take_succ_cons, List.append_assoc,
      show cap - 1 - (dst.length + 1) = k by omega]
    rfl
  · rw [show cap - 1 - dst.length = 0 by omega, List.take_zero, List.take_zero]

theorem follows_parse (cap : ℕ) : Follows (fun s => s.2.length) (parseTurn cap)
    fun _ s => (s.1 ++ (Saved.parseChars s.2).1.take (cap - 1 - s.1.length), (Saved.parseChars s.2).2) := by
  rintro limit ⟨dst, t⟩ _
  match t with
  | [] => exact ⟨_, rfl, fun _ => by simp [Saved.parseChars]⟩
  | [c] =>
    refine ⟨_, rfl, ?_⟩
    rcases eq_or_ne c quote with hq | hq
    · rw [if_pos hq]
      exact fun _ => by simp [Saved.parseChars, hq]
    · rw [if_neg hq]
      exact ⟨Nat.one_pos, fun _ _ => by simp only [Saved.parseChars, if_neg hq, ← put_append]⟩
  | c :: d :: t =>
    refine ⟨_, rfl, ?_⟩
    rcases eq_or_ne c quote with hq | hq
    · rw [if_pos hq]
      exact fun _ => by simp [Saved.parseChars, hq]
    · rw [if_neg hq]
      rcases eq_or_ne c EmitterDb.backslash with hb | hb
      · rw [if_pos hb]
        exact ⟨by simp, fun _ _ => by
          simp only [Saved.parseChars, if_neg hq, if_pos hb, ← put_append]⟩
      · rw [if_neg hb]
        exact ⟨by simp, fun _ _ => by
          simp only [Saved.parseChars, if_neg hq, if_neg hb, ← put_append]⟩

theorem parseStr_eq (cap : ℕ) {limit : ℕ} {t : Bytes} (h : t.length < limit) :
    parseStr limit cap t = some (Saved.parseStr cap t) := by
  have hlen := (List.dropWhile_suffix (l := t) (· ≠ quote)).length_le
  unfold parseStr Saved.parseStr
  rw [skip_eq _ h]
  cases hs : t.dropWhile (· ≠ quote) with
  | nil => rfl
  | cons c r =>
    rw [hs, List.length_cons] at hlen
    have hloop : loop (parseTurn cap) limit ([], r) =
        some ((Saved.parseChars r).1.take (cap - 1), (Saved.parseChars r).2) :=
      (follows_parse cap).run (s := ([], r)) (n := limit) (show r.length < limit by omega)
        (show r.length < limit by omega)
    simp only [Option.bind_eq_bind, Option.bind_some, hloop]
    cases (Saved.parseChars r).2 with
    | nil => rfl
    | cons d w => rfl

end Bewe.Readers
