import Bewe.HostBandPlan.Model
import Bewe.Readers.Scan

/-!
# The loops of the readers of HOST

`HostState::load` and `HostBandPlan::load_from_file` as they are executed: a loop over the members of
the file, in it one over the items of a list, and in that one over the members of an item. Whatever the
value of a key is, the key and its colon are behind the cursor by the end of the turn; so the loops end,
and with what the readers are said to read (`loadState_eq`, `loadPlan_eq`).
-/

namespace Bewe.Readers

open Lib
open Saved (numberOr0)
open EmitterDb (quote openBrace closeBrace openBracket closeBracket)

/-! ## The members of an item -/

section Items

variable {ρ : Type}

/-- The members of an item as they are read: those that are strings, those that are numbers, and what
becomes of the value of another key.
-/
structure Fields (ρ : Type) where
  field : Bytes → ρ → Bytes → ρ × Bytes
  strings : List Bytes
  numbers : List Bytes
  other : ℕ → Bytes → Option Bytes

/-- The value of a key. -/
def Fields.value (F : Fields ρ) (limit : ℕ) (k t : Bytes) : Option Bytes := do
  if k ∈ F.strings then
    let s ← JScan.readString limit t
    some s.2
  else if k ∈ F.numbers then
    let d ← JScan.readNumber limit t
    some d.2
  else F.other limit t

/-- The text is left where the value of the key ends. -/
def Fields.Reads (F : Fields ρ) : Prop :=
  ∀ limit k r t, t.length < limit →
    F.value limit k t = some (F.field k r t).2 ∧ (F.field k r t).2 <:+ t

/-- A turn of the loop over the members of an item. -/
def itemTurn (F : Fields ρ) (limit : ℕ) : ρ × Bytes → Option (Turn (ρ × Bytes) (ρ × Bytes))
  | (r, t) => do
    match ← JScan.readKey limit t with
    | (none, t) => some (.leave (r, t))
    | (some k, t) =>
      let u ← F.value limit k t
      match ← JScan.peek limit closeBrace u with
      | (true, u) => some (.leave ((F.field k r t).1, u))
      | (false, u) => some (.again ((F.field k r t).1, u))

/-- A turn of the loop over the items: an item is kept if `keep` says so and there is room for it. -/
def itemsTurn (F : Fields ρ) (start : ρ) (keep : ρ → Bool) (cap limit : ℕ) :
    List ρ × Bytes → Option (Turn (List ρ × Bytes) (List ρ × Bytes))
  | (rs, t) => do
    match ← JScan.peek limit closeBracket t with
    | (true, t) => some (.leave (rs, t))
    | (false, t) =>
      match ← JScan.consume limit openBrace t with
      | (false, t) => some (.leave (rs, t))
      | (true, t) =>
        let r ← loop (itemTurn F) limit (start, t)
        let c ← JScan.consume limit closeBrace r.2
        some (.again (if rs.length < cap ∧ keep r.1 then rs ++ [r.1] else rs, c.2))

theorem readKey_skipWs (t : Bytes) :
    Saved.JScan.readKey (Saved.JScan.skipWs t) = Saved.JScan.readKey t := by
  unfold Saved.JScan.readKey
  rw [JScan.readString_skipWs]

/-- A key has at least its quote in front of it. -/
theorem length_lt_of_readKey {t k u : Bytes} (h : Saved.JScan.readKey t = (some k, u)) :
    u.length < t.length := by
  have hskip := JScan.length_skipWs_le t
  unfold Saved.JScan.readKey Saved.JScan.readString Saved.JScan.skipWs at h
  cases hs : t.dropWhile Saved.isSep with
  | nil =>
    rw [hs] at h
    exact absurd (congrArg Prod.fst h) (Option.some_ne_none k).symm
  | cons c r =>
    rw [hs] at h hskip
    rw [List.length_cons] at hskip
    dsimp only at h
    split_ifs at h
    · have hchars := (HostState.scanChars_suffix r).length_le
      have htail := (List.tail_suffix (Saved.scanChars r).2).length_le
      dsimp only at h
      generalize (Saved.scanChars r).2.tail = w at h htail
      have hrest := JScan.length_skipWs_le w
      cases hw : w.dropWhile Saved.isSep with
      | nil =>
        rw [hw] at h
        exact absurd (congrArg Prod.fst h) (Option.some_ne_none k).symm
      | cons d v =>
        rw [hw] at h hrest
        rw [List.length_cons] at hrest
        dsimp only at h
        split_ifs at h
        · have hv : v = u := congrArg Prod.snd h
          rw [← hv]
          omega
        · exact absurd (congrArg Prod.fst h) (Option.some_ne_none k).symm
    · exact absurd (congrArg Prod.fst h) (Option.some_ne_none k).symm

theorem readItem_skipWs (field : Bytes → ρ → Bytes → ρ × Bytes) {n : ℕ} (hn : 0 < n) (r : ρ)
    (t : Bytes) : HostState.readItem field n r (Saved.JScan.skipWs t) =
      HostState.readItem field n r t := by
  obtain ⟨m, rfl⟩ : ∃ m, n = m + 1 := ⟨n - 1, by omega⟩
  unfold HostState.readItem
  rw [readKey_skipWs]

variable {F : Fields ρ}

theorem follows_item (hF : F.Reads) : Follows (fun s => s.2.length) (itemTurn F)
    fun n s => HostState.readItem F.field n s.1 s.2 := by
  rintro limit ⟨r, t⟩ (h : t.length < limit)
  unfold itemTurn
  simp only [JScan.readKey_eq h, Option.bind_eq_bind, Option.bind_some]
  cases hkey : Saved.JScan.readKey t with
  | mk key u =>
    cases key with
    | none =>
      refine ⟨_, rfl, fun n => ?_⟩
      simp only [HostState.readItem, hkey]
    | some k =>
      have hlt := length_lt_of_readKey hkey
      obtain ⟨hvalue, hsuffix⟩ := hF limit k r u (by omega)
      have hle := hsuffix.length_le
      have hskip := JScan.length_skipWs_le (F.field k r u).2
      simp only [hvalue, JScan.peek_eq closeBrace (lt_of_le_of_lt hle (hlt.trans h)),
        Option.bind_some]
      cases hpeek : Saved.JScan.peek closeBrace (F.field k r u).2 with
      | true =>
        refine ⟨_, rfl, fun n => ?_⟩
        simp only [HostState.readItem, hkey, hpeek, if_true]
      | false =>
        refine ⟨_, rfl, ?_, fun n hn => ?_⟩
        · exact lt_of_le_of_lt (hskip.trans hle) hlt
        · simp only [HostState.readItem, hkey, hpeek, if_false, Bool.false_eq_true]
          exact (readItem_skipWs F.field (by omega) _ _).symm

theorem item_eq (hF : F.Reads) (r : ρ) {limit : ℕ} {t : Bytes} (h : t.length < limit) :
    loop (itemTurn F) limit (r, t) = some (HostState.readItem F.field (t.length + 1) r t) :=
  (follows_item hF).run (s := (r, t)) h (Nat.lt_succ_self _)

theorem length_readItem_le (hF : F.Reads) (n : ℕ) (r : ρ) (t : Bytes) :
    (HostState.readItem F.field n r t).2.length ≤ t.length :=
  (HostState.readItem_suffix (fun k r t => (hF (t.length + 1) k r t (Nat.lt_succ_self _)).2)
    n r t).length_le

theorem length_lt_of_consume {c : UInt8} {t u : Bytes} (h : Saved.JScan.consume c t = (true, u)) :
    u.length < t.length := by
  have hskip := JScan.length_skipWs_le t
  unfold Saved.JScan.consume Saved.JScan.skipWs at h
  cases hs : t.dropWhile Saved.isSep with
  | nil =>
    rw [hs] at h
    exact absurd (congrArg Prod.fst h) Bool.false_ne_true
  | cons d r =>
    rw [hs] at h hskip
    rw [List.length_cons] at hskip
    dsimp only at h
    split_ifs at h
    · have hr : r = u := congrArg Prod.snd h
      rw [← hr]
      exact hskip
    · exact absurd (congrArg Prod.fst h) Bool.false_ne_true

theorem follows_items (hF : F.Reads) (start : ρ) (keep : ρ → Bool) (cap : ℕ) :
    Follows (fun s => s.2.length) (itemsTurn F start keep cap)
      fun n s => HostState.readItems F.field start keep cap n s.1 s.2 := by
  rintro limit ⟨rs, t⟩ (h : t.length < limit)
  have hskip : (Saved.JScan.skipWs t).length ≤ t.length := JScan.length_skipWs_le t
  unfold itemsTurn
  simp only [JScan.peek_eq _ h, Option.bind_eq_bind, Option.bind_some]
  cases hpeek : Saved.JScan.peek closeBracket t with
  | true =>
    refine ⟨_, rfl, fun n => ?_⟩
    simp only [HostState.readItems, hpeek, if_true]
  | false =>
    simp only [JScan.consume_eq _ (lt_of_le_of_lt hskip h), JScan.consume_skipWs, Option.bind_some]
    cases hopen : Saved.JScan.consume openBrace t with
    | mk found u =>
      cases found with
      | false =>
        refine ⟨_, rfl, fun n => ?_⟩
        simp only [HostState.readItems, hpeek, hopen, if_false, Bool.false_eq_true]
      | true =>
        -- the brace is consumed, and nothing after it makes the text longer
        have hlt := length_lt_of_consume hopen
        have hitem := length_readItem_le hF (u.length + 1) start u
        have hclose := JScan.length_consume_le closeBrace
          (HostState.readItem F.field (u.length + 1) start u).2
        simp only [item_eq hF start (lt_trans hlt h), Option.bind_some,
          JScan.consume_eq closeBrace (lt_of_le_of_lt hitem (lt_trans hlt h))]
        refine ⟨_, rfl, lt_of_le_of_lt (hclose.trans hitem) hlt, fun n _ => ?_⟩
        simp only [HostState.readItems, hpeek, hopen, if_false, Bool.false_eq_true]

theorem items_eq (hF : F.Reads) (start : ρ) (keep : ρ → Bool) (cap : ℕ) (rs : List ρ) {limit : ℕ}
    {t : Bytes} (h : t.length < limit) : loop (itemsTurn F start keep cap) limit (rs, t) =
      some (HostState.readItems F.field start keep cap (t.length + 1) rs t) :=
  (follows_items hF start keep cap).run (s := (rs, t)) h (Nat.lt_succ_self _)

theorem length_readItems_le (hF : F.Reads) (start : ρ) (keep : ρ → Bool) (cap n : ℕ) (rs : List ρ)
    (t : Bytes) : (HostState.readItems F.field start keep cap n rs t).2.length ≤ t.length :=
  (HostState.readItems_suffix (fun k r t => (hF (t.length + 1) k r t (Nat.lt_succ_self _)).2)
    start keep cap n rs t).length_le

theorem Fields.reads_of (F : Fields ρ)
    (hstrings : ∀ k ∈ F.strings, ∀ r t, (F.field k r t).2 = (Saved.JScan.readString t).2)
    (hnumbers : ∀ k ∈ F.numbers, ∀ r t, (F.field k r t).2 = (Saved.JScan.readNumber t).2)
    (hother : ∀ k, k ∉ F.strings → k ∉ F.numbers → ∀ limit r t, t.length < limit →
      F.other limit t = some (F.field k r t).2 ∧ (F.field k r t).2 <:+ t) : F.Reads := by
  intro limit k r t h
  unfold Fields.value
  split_ifs with hs hn
  · rw [hstrings k hs, JScan.readString_eq h]
    exact ⟨rfl, HostState.readString_suffix t⟩
  · rw [hnumbers k hn, JScan.readNumber_eq h]
    exact ⟨rfl, HostState.readNumber_suffix t⟩
  · exact hother k hs hn limit r t h

end Items

/-! ## The items -/

/-- Where the value of any other key is taken for a number. -/
def skipNumber (limit : ℕ) (t : Bytes) : Option Bytes := do
  let d ← JScan.readNumber limit t
  some d.2

/-- Where it may be a string too. -/
def skipText (limit : ℕ) (t : Bytes) : Option Bytes := do
  match ← JScan.peek limit quote t with
  | (true, t) =>
    let s ← JScan.readString limit t
    some s.2
  | (false, t) => skipNumber limit t

/-- The members of a notch. -/
def notchFields : Fields HostState.NotchSnap where
  field := HostState.notchField
  strings := []
  numbers := [ascii "lo", ascii "hi"]
  other := skipNumber

/-- The members of a channel. -/
def chanFields : Fields HostState.ChanSnap where
  field := HostState.chanField
  strings := [ascii "owner", ascii "decode_mods"]
  numbers := [ascii "s", ascii "e", ascii "mode", ascii "audio_mask", ascii "pan", ascii "sq",
    ascii "sq_manual", ascii "det_on", ascii "det_s", ascii "det_e"]
  other limit := JScan.skipValue limit (skipNumber limit)

/-- The members of a segment. -/
def bandFields : Fields HostBandPlan.PktBandEntry where
  field := HostBandPlan.bandField
  strings := [ascii "label", ascii "description"]
  numbers := [ascii "freq_lo", ascii "freq_hi", ascii "category"]
  other := skipText

theorem skipNumber_eq {limit : ℕ} {t : Bytes} (h : t.length < limit) :
    skipNumber limit t = some (Saved.JScan.readNumber t).2 := by
  unfold skipNumber
  rw [JScan.readNumber_eq h]
  rfl

theorem skipText_eq {limit : ℕ} {t : Bytes} (h : t.length < limit) :
    skipText limit t = some (Saved.JScan.skipUnknown t) := by
  have hskip : (Saved.JScan.skipWs t).length < limit := (JScan.length_skipWs_le t).trans_lt h
  unfold skipText Saved.JScan.skipUnknown
  simp only [JScan.peek_eq _ h, Option.bind_eq_bind, Option.bind_some]
  cases Saved.JScan.peek quote t with
  | true => simp only [JScan.readString_eq hskip, JScan.readString_skipWs, if_true, Option.bind_some]
  | false =>
    simp only [skipNumber_eq hskip, JScan.readNumber_skipWs, if_false, Bool.false_eq_true]

theorem skipOther_eq {limit : ℕ} {t : Bytes} (h : t.length < limit) :
    JScan.skipValue limit (skipNumber limit) t = some (HostState.skipValue t) :=
  JScan.skipValue_eq (fun t => (Saved.JScan.readNumber t).2) (fun _ hu => skipNumber_eq hu) h

theorem notchFields_reads : notchFields.Reads := by
  refine Fields.reads_of _ (fun k hk => absurd hk (List.not_mem_nil)) ?_ ?_
  · intro k _ r t
    change (HostState.notchField k r t).2 = _
    unfold HostState.notchField
    split_ifs <;> rfl
  · intro k _ hk limit r t h
    refine ⟨?_, HostState.notchField_suffix k r t⟩
    change skipNumber limit t = some (HostState.notchField k r t).2
    rw [skipNumber_eq h]
    unfold HostState.notchField
    split_ifs <;> rfl

theorem chanFields_reads : chanFields.Reads := by
  refine Fields.reads_of _ ?_ ?_ ?_
  · intro k hk r t
    fin_cases hk <;> rfl
  · intro k hk r t
    fin_cases hk <;> rfl
  · intro k hs hn limit r t h
    have hfield : (chanFields.field k r t).2 = HostState.skipValue t := by
      change (HostState.chanField k r t).2 = _
      simp only [chanFields, List.mem_cons, List.not_mem_nil, or_false, not_or] at hs hn
      simp only [HostState.chanField, hs, hn, if_false]
    rw [hfield]
    exact ⟨skipOther_eq h, HostState.skipValue_suffix t⟩

theorem bandFields_reads : bandFields.Reads := by
  refine Fields.reads_of _ ?_ ?_ ?_
  · intro k hk r t
    fin_cases hk <;> rfl
  · intro k hk r t
    fin_cases hk <;> rfl
  · intro k hs hn limit r t h
    have hfield : (bandFields.field k r t).2 = Saved.JScan.skipUnknown t := by
      change (HostBandPlan.bandField k r t).2 = _
      simp only [bandFields, List.mem_cons, List.not_mem_nil, or_false, not_or] at hs hn
      simp only [HostBandPlan.bandField, hs, hn, if_false]
    rw [hfield]
    refine ⟨skipText_eq h, ?_⟩
    unfold Saved.JScan.skipUnknown
    split_ifs
    · exact HostState.readString_suffix t
    · exact HostState.readNumber_suffix t

/-! ## `HostState::load` -/

open HostState (Snapshot numberField numberKeys elementKey MAX_NOTCHES MAX_CHANNELS)

/-- A turn of the loop over the notches. -/
def notchesTurn := itemsTurn notchFields {} (fun n => n.lo.lt n.hi) MAX_NOTCHES

/-- A turn of the loop over the channels. -/
def chansTurn := itemsTurn chanFields {} (fun c => c.s.lt c.e) MAX_CHANNELS

/-- Whether a key of the file has a number. -/
def isNumberKey (k : Bytes) : Bool :=
  (numberKeys.find? fun p => p.1 = k).isSome || (elementKey (ascii "df_ex") k).isSome ||
    (elementKey (ascii "df_ey") k).isSome

/-- A turn of the loop over the members of the file. -/
def fileTurn (limit : ℕ) : Snapshot × Bytes → Option (Turn (Snapshot × Bytes) Snapshot)
  | (st, t) => do
    match ← JScan.readKey limit t with
    | (none, _) => some (.leave st)
    | (some k, t) =>
      if isNumberKey k then
        let d ← JScan.readNumber limit t
        some (.again ((numberField k (numberOr0 d)).getD id st, d.2))
      else if k = ascii "notches" then
        match ← JScan.consume limit openBracket t with
        | (false, _) => some (.leave st)
        | (true, t) =>
          let r ← loop notchesTurn limit (st.notches, t)
          let c ← JScan.consume limit closeBracket r.2
          some (.again ({ st with notches := r.1 }, c.2))
      else if k = ascii "channels" then
        match ← JScan.consume limit openBracket t with
        | (false, _) => some (.leave st)
        | (true, t) =>
          let r ← loop chansTurn limit (st.chans, t)
          let c ← JScan.consume limit closeBracket r.2
          some (.again ({ st with chans := r.1 }, c.2))
      else
        let u ← JScan.skipValue limit (skipNumber limit) t
        some (.again (st, u))

/-- `HostState::load` of the bytes of the file. -/
def loadState (limit : ℕ) (body : Bytes) : Option Snapshot := do
  match ← JScan.consume limit openBrace body with
  | (false, _) => some {}
  | (true, t) =>
    let st ← loop fileTurn limit ({}, t)
    some { st with ok := true }

theorem isSome_numberField (k : Bytes) (d : Fp 53) : (numberField k d).isSome = isNumberKey k := by
  unfold numberField HostState.setElement isNumberKey
  simp only [HostState.isSome_orElse, Option.isSome_map, Bool.or_assoc]

/-- A list of items with its brackets is read to its end. -/
theorem list_eq {ρ : Type} {F : Fields ρ} (hF : F.Reads) (start : ρ) (keep : ρ → Bool) (cap : ℕ)
    (rs : List ρ) {limit : ℕ} {t : Bytes} (h : t.length < limit) :
    ∃ r c, loop (itemsTurn F start keep cap) limit (rs, t) = some r ∧
      JScan.consume limit closeBracket r.2 = some c ∧
      r = HostState.readItems F.field start keep cap (t.length + 1) rs t ∧
      c = Saved.JScan.consume closeBracket r.2 ∧ c.2.length ≤ t.length := by
  have hitems := length_readItems_le hF start keep cap (t.length + 1) rs t
  refine ⟨_, _, items_eq hF start keep cap rs h, JScan.consume_eq _ (hitems.trans_lt h), rfl, rfl, ?_⟩
  exact (JScan.length_consume_le _ _).trans hitems

theorem follows_file : Follows (fun s => s.2.length) fileTurn
    fun n s => HostState.readFile n s.1 s.2 := by
  rintro limit ⟨st, t⟩ (h : t.length < limit)
  unfold fileTurn
  simp only [JScan.readKey_eq h, Option.bind_eq_bind, Option.bind_some]
  cases hkey : Saved.JScan.readKey t with
  | mk key u =>
    cases key with
    | none =>
      refine ⟨_, rfl, fun n => ?_⟩
      simp only [HostState.readFile, hkey]
    | some k =>
      have hlt := length_lt_of_readKey hkey
      have hu : u.length < limit := hlt.trans h
      dsimp only
      cases hnum : numberField k (numberOr0 (Saved.JScan.readNumber u)) with
      | some f =>
        have hk : isNumberKey k = true := by
          rw [← isSome_numberField k (numberOr0 (Saved.JScan.readNumber u)), hnum]
          rfl
        rw [if_pos hk, JScan.readNumber_eq hu]
        refine ⟨_, rfl, ?_, fun n _ => ?_⟩
        · exact (HostState.readNumber_suffix u).length_le.trans_lt hlt
        · simp only [HostState.readFile, hkey, hnum, Option.getD_some]
      | none =>
        have hk : ¬isNumberKey k = true := by
          rw [← isSome_numberField k (numberOr0 (Saved.JScan.readNumber u)), hnum]
          exact Bool.false_ne_true
        rw [if_neg hk]
        split_ifs with hnotches hchannels
        · rw [JScan.consume_eq _ hu, Option.bind_some]
          cases hopen : Saved.JScan.consume openBracket u with
          | mk found w =>
            cases found with
            | false =>
              refine ⟨_, rfl, fun n => ?_⟩
              simp only [HostState.readFile, hkey, hnum, if_pos hnotches, hopen]
            | true =>
              have hw := length_lt_of_consume hopen
              obtain ⟨r, c, hr, hc, rfl, rfl, hle⟩ := list_eq notchFields_reads {}
                (fun n => n.lo.lt n.hi) MAX_NOTCHES st.notches (hw.trans hu)
              simp only [notchesTurn, hr, hc, Option.bind_some]
              refine ⟨_, rfl, hle.trans_lt (hw.trans hlt), fun n _ => ?_⟩
              simp only [HostState.readFile, hkey, hnum, if_pos hnotches, hopen]
              rfl
        · rw [JScan.consume_eq _ hu, Option.bind_some]
          cases hopen : Saved.JScan.consume openBracket u with
          | mk found w =>
            cases found with
            | false =>
              refine ⟨_, rfl, fun n => ?_⟩
              simp only [HostState.readFile, hkey, hnum, if_neg hnotches, if_pos hchannels, hopen]
            | true =>
              have hw := length_lt_of_consume hopen
              obtain ⟨r, c, hr, hc, rfl, rfl, hle⟩ := list_eq chanFields_reads {}
                (fun c => c.s.lt c.e) MAX_CHANNELS st.chans (hw.trans hu)
              simp only [chansTurn, hr, hc, Option.bind_some]
              refine ⟨_, rfl, hle.trans_lt (hw.trans hlt), fun n _ => ?_⟩
              simp only [HostState.readFile, hkey, hnum, if_neg hnotches, if_pos hchannels, hopen]
              rfl
        · rw [skipOther_eq hu, Option.bind_some]
          refine ⟨_, rfl, (HostState.skipValue_suffix u).length_le.trans_lt hlt, fun n _ => ?_⟩
          simp only [HostState.readFile, hkey, hnum, if_neg hnotches, if_neg hchannels]

/-- The state is loaded as it is said to be, whatever the bytes of the file are. -/
theorem loadState_eq {limit : ℕ} {body : Bytes} (h : body.length < limit) :
    loadState limit body = some (HostState.load body) := by
  unfold loadState HostState.load
  rw [JScan.consume_eq _ h]
  simp only [Option.bind_eq_bind, Option.bind_some]
  have hopen := JScan.length_consume_le openBrace body
  generalize Saved.JScan.consume openBrace body = q at hopen ⊢
  obtain ⟨_ | _, t⟩ := q
  · rfl
  · have ht : t.length < limit := hopen.trans_lt h
    have hfile := follows_file.run (s := ({}, t)) ht (Nat.lt_succ_self t.length)
    simp only [hfile, Option.bind_some]

/-! ## `HostBandPlan::load_from_file` -/

open HostBandPlan (PktBandEntry MAX_BAND_SEGMENTS defaultBandPlanJson)

/-- A turn of the loop over the segments. -/
def bandsTurn := itemsTurn bandFields { valid := 1 } PktBandEntry.isWide MAX_BAND_SEGMENTS

/-- A turn of the loop over the members of the file. -/
def planTurn (limit : ℕ) (t : Bytes) : Option (Turn Bytes (List PktBandEntry)) := do
  match ← JScan.readKey limit t with
  | (none, _) => some (.leave [])
  | (some k, t) =>
    if k ≠ ascii "bands" then
      let u ← JScan.skipValue limit some t
      some (.again u)
    else
      match ← JScan.consume limit openBracket t with
      | (false, _) => some (.leave [])
      | (true, t) =>
        let r ← loop bandsTurn limit ([], t)
        let _ ← JScan.consume limit closeBracket r.2
        some (.leave r.1)

/-- The bytes that are read: those of the plan that comes with the program if there are none. -/
def planBody : Option Bytes → Bytes
  | none => defaultBandPlanJson
  | some [] => defaultBandPlanJson
  | some body => body

/-- `load_from_file` of the bytes of the file, if there is one. -/
def loadPlan (limit : ℕ) (file : Option Bytes) : Option (List PktBandEntry) := do
  match ← JScan.consume limit openBrace (planBody file) with
  | (false, _) => some []
  | (true, t) => loop planTurn limit t

theorem skipPlan_eq {limit : ℕ} {t : Bytes} (h : t.length < limit) :
    JScan.skipValue limit some t = some (HostBandPlan.skipOther t) :=
  JScan.skipValue_eq id (fun _ _ => rfl) h

theorem length_skipPlan_le (t : Bytes) : (HostBandPlan.skipOther t).length ≤ t.length := by
  unfold HostBandPlan.skipOther
  split_ifs
  · exact (HostState.readString_suffix t).length_le
  · have hbracket := JScan.length_consume_le openBracket t
    generalize Saved.JScan.consume openBracket t = p at hbracket ⊢
    obtain ⟨_ | _, u⟩ := p
    · have hbrace := JScan.length_consume_le openBrace u
      dsimp only at hbracket ⊢
      generalize Saved.JScan.consume openBrace u = q at hbrace ⊢
      obtain ⟨_ | _, w⟩ := q
      · exact hbrace.trans hbracket
      · exact ((HostState.skipDepth_suffix 1 w).length_le.trans hbrace).trans hbracket
    · exact (HostState.skipDepth_suffix 1 u).length_le.trans hbracket

theorem follows_plan : Follows List.length planTurn HostBandPlan.readPlan := by
  intro limit t h
  unfold planTurn
  simp only [JScan.readKey_eq h, Option.bind_eq_bind, Option.bind_some]
  cases hkey : Saved.JScan.readKey t with
  | mk key u =>
    cases key with
    | none =>
      refine ⟨_, rfl, fun n => ?_⟩
      simp only [HostBandPlan.readPlan, hkey]
    | some k =>
      have hlt := length_lt_of_readKey hkey
      have hu : u.length < limit := hlt.trans h
      dsimp only
      rcases eq_or_ne k (ascii "bands") with hk | hk
      · rw [if_neg (not_not.2 hk), JScan.consume_eq _ hu, Option.bind_some]
        cases hopen : Saved.JScan.consume openBracket u with
        | mk found w =>
          cases found with
          | false =>
            refine ⟨_, rfl, fun n => ?_⟩
            simp only [HostBandPlan.readPlan, hkey, if_pos hk, hopen]
          | true =>
            have hw := length_lt_of_consume hopen
            obtain ⟨r, c, hr, hc, rfl, rfl, hle⟩ := list_eq bandFields_reads { valid := 1 }
              PktBandEntry.isWide MAX_BAND_SEGMENTS [] (hw.trans hu)
            simp only [bandsTurn, hr, hc, Option.bind_some]
            refine ⟨_, rfl, fun n => ?_⟩
            simp only [HostBandPlan.readPlan, hkey, if_pos hk, hopen]
            rfl
      · rw [if_pos hk, skipPlan_eq hu, Option.bind_some]
        refine ⟨_, rfl, (length_skipPlan_le u).trans_lt hlt, fun n _ => ?_⟩
        simp only [HostBandPlan.readPlan, hkey, if_neg hk]

/-- The plan is loaded as it is said to be, whatever the bytes of the file are. -/
theorem loadPlan_eq {limit : ℕ} {file : Option Bytes} (h : (planBody file).length < limit) :
    loadPlan limit file = some (HostBandPlan.loadFromFile file) := by
  have hbody : HostBandPlan.loadFromFile file =
      match Saved.JScan.consume openBrace (planBody file) with
      | (false, _) => []
      | (true, t) => HostBandPlan.readPlan (t.length + 1) t := by
    rcases file with _ | _ | ⟨c, body⟩
    · rfl
    · rfl
    · rfl
  unfold loadPlan
  rw [hbody, JScan.consume_eq _ h]
  simp only [Option.bind_eq_bind, Option.bind_some]
  have hopen := JScan.length_consume_le openBrace (planBody file)
  generalize Saved.JScan.consume openBrace (planBody file) = q at hopen ⊢
  obtain ⟨_ | _, t⟩ := q
  · rfl
  · exact follows_plan.run (s := t) (hopen.trans_lt h) (Nat.lt_succ_self t.length)

end Bewe.Readers
