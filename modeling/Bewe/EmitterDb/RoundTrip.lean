import Bewe.EmitterDb.Jsonl

/-!
# Reading back a written line

What `emitterFromJsonl` makes of the line that `emitterToJsonl` writes, and the same for sightings.
Strings come back whatever their bytes, integers up to `2^53` come back, and a number comes back as
it was printed, with six significant digits. The argument is the same for both records: each member
reads its own field (`Reads`), and the loop reads one member after the other (`readMembers_members`).
-/

namespace Bewe.EmitterDb

open Lib

/-! ## Strings -/

/-- The digits that `\u%04x` prints for a control byte are read as that byte. -/
theorem codeByte_hex : ∀ n < 32,
    codeByte [hexByte 0, hexByte 0, hexByte (n / 16), hexByte (n % 16)] = [UInt8.ofNat n] := by
  decide

theorem readChars_escapeByte (c : UInt8) {t : Bytes} (ht : t ≠ []) :
    readChars 0 (escapeByte c ++ t) = (c :: (readChars 0 t).1, (readChars 0 t).2) := by
  obtain ⟨d, t, rfl⟩ := List.exists_cons_of_ne_nil ht
  unfold escapeByte
  split_ifs with h1 h2 h3 h4 h5 h6
  · subst h1
    simp [readChars, quote, backslash, letterN, letterR, letterT]
  · subst h2
    simp [readChars, quote, backslash, letterN, letterR, letterT]
  · subst h3
    simp [readChars, quote, backslash, letterN]
  · subst h4
    simp [readChars, quote, backslash, letterN, letterR]
  · subst h5
    simp [readChars, quote, backslash, letterN, letterR, letterT]
  · -- a control byte: its four digits spell it
    have hcode := codeByte_hex c.toNat h6
    rw [UInt8.ofNat_toNat] at hcode
    simp [readChars, quote, backslash, letterN, letterR, letterT, letterU, hcode]
  · simp [readChars, h1, h2]

/-- An escaped string is read back up to its closing quote. -/
theorem readChars_jsEscape (v t : Bytes) :
    readChars 0 (jsEscape v ++ quote :: t) = (v, quote :: t) := by
  induction v with
  | nil => cases t <;> simp [jsEscape, readChars]
  | cons c v ih =>
    have hcons : jsEscape (c :: v) ++ quote :: t = escapeByte c ++ (jsEscape v ++ quote :: t) := by
      simp [jsEscape]
    rw [hcons, readChars_escapeByte _ (by simp), ih]

theorem skipWs_cons {c : UInt8} (h : isWs c = false) (t : Bytes) : skipWs (c :: t) = c :: t := by
  simp [skipWs, h]

theorem readString_strText (v t : Bytes) : readString (strText v ++ t) = (some v, t) := by
  have hcons : strText v ++ t = quote :: (jsEscape v ++ quote :: t) := by simp [strText]
  rw [hcons, readString, skipWs_cons (by decide)]
  simp [readChars_jsEscape]

/-! ## Numbers -/

/-- What may follow a value: a comma or a closing brace. -/
def EndsValue (t : Bytes) : Prop := ∃ c r, t = c :: r ∧ (c = comma ∨ c = closeBrace)

theorem readNumber_append {s t : Bytes} (hs : ∀ c ∈ s, isNumByte c = true) (hne : s ≠ [])
    (ht : EndsValue t) : readNumber (s ++ t) = (some (parseDecimal s), t) := by
  have hws : ∀ c, isNumByte c = true → isWs c = false := by
    intro c hc
    by_contra hw
    simp only [isWs, Bool.not_eq_false, Bool.or_eq_true, decide_eq_true_eq] at hw
    rcases hw with ((rfl | rfl) | rfl) | rfl <;> exact absurd hc (by decide)
  have hskip : skipWs (s ++ t) = s ++ t := by
    obtain ⟨c, s, rfl⟩ := List.exists_cons_of_ne_nil hne
    exact skipWs_cons (hws c (hs c (by simp))) _
  obtain ⟨c, r, rfl, hc⟩ := ht
  have hend : isNumByte c = false := by rcases hc with rfl | rfl <;> decide
  have htake : (s ++ c :: r).takeWhile isNumByte = s := by
    rw [List.takeWhile_append_of_pos hs]
    simp [hend]
  have hdrop : (s ++ c :: r).dropWhile isNumByte = c :: r := by
    rw [List.dropWhile_append_of_pos hs]
    simp [hend]
  simp only [readNumber, hskip, htake, hdrop, hne, if_false]

theorem readNumber_fmtG (q : ℚ) {t : Bytes} (ht : EndsValue t) :
    readNumber (fmtG 6 q ++ t) = (some (roundSig 6 q), t) := by
  obtain ⟨hs, hne⟩ := fmtG_text 6 q
  rw [readNumber_append hs hne ht, parseDecimal_fmtG (by norm_num)]

/-- `%lld` is read back, up to the precision of a `double`. -/
theorem readInt64_intText {z : ℤ} (hz : |z| ≤ 2 ^ 53) {t : Bytes} (ht : EndsValue t) :
    readInt64 (intText z ++ t) = (some z, t) := by
  have h := readNumber_append (fun c hc => isNumByte_of_mem_intText hc) (intText_ne_nil z) ht
  rw [readInt64, h, parseDecimal_intText]
  simp [roundBits_intCast (by norm_num) hz, truncate]

/-! ## Arrays -/

/-- The strings of an array, up to its closing bracket. -/
theorem readStrings_join (vs : List Bytes) (t : Bytes) {fuel : ℕ} (hf : vs.length < fuel) :
    readStrings fuel (List.intercalate [comma] (vs.map strText) ++ closeBracket :: t) =
      (vs, closeBracket :: t) := by
  induction vs generalizing fuel with
  | nil =>
    obtain ⟨n, rfl⟩ : ∃ n, fuel = n + 1 := ⟨fuel - 1, by simp at hf; omega⟩
    have hpeek : peek closeBracket (closeBracket :: t) = true := by
      simp [peek, skipWs_cons (show isWs closeBracket = false by decide)]
    simp [readStrings, hpeek]
  | cons v vs ih =>
    obtain ⟨n, rfl⟩ : ∃ n, fuel = n + 1 := ⟨fuel - 1, by simp at hf; omega⟩
    -- after a string comes either the closing bracket or a comma and the next string
    have hstart : ∀ rest, peek closeBracket (strText v ++ rest) = false ∧
        skipWs (strText v ++ rest) ≠ [] := by
      intro rest
      simp [strText, peek, skipWs_cons (show isWs quote = false by decide)]
      decide
    cases vs with
    | nil =>
      simp only [List.map_cons, List.map_nil, List.intercalate_singleton]
      rw [readStrings, (hstart _).1]
      simp only [(hstart _).2, readString_strText, Bool.false_or, decide_false, Bool.false_eq_true,
        if_false]
      have hpeek : peek comma (closeBracket :: t) = false := by
        simp [peek, skipWs_cons (show isWs closeBracket = false by decide)]
        decide
      have hnil := ih (show ([] : List Bytes).length < n by simp at hf ⊢; omega)
      simp only [List.map_nil, List.intercalate_nil, List.nil_append] at hnil
      simp [hpeek, hnil]
    | cons w ws =>
      have hjoin : List.intercalate [comma] ((v :: w :: ws).map strText) ++ closeBracket :: t =
          strText v ++ comma :: (List.intercalate [comma] ((w :: ws).map strText) ++
            closeBracket :: t) := by
        simp [List.intercalate]
      rw [hjoin, readStrings, (hstart _).1]
      simp only [(hstart _).2, readString_strText, Bool.false_or, decide_false, Bool.false_eq_true,
        if_false]
      have hcomma : ∀ r, peek comma (comma :: r) = true ∧ (consume comma (comma :: r)).2 = r := by
        intro r
        simp [peek, consume, skipWs_cons (show isWs comma = false by decide)]
      rw [(hcomma _).1, if_pos rfl, (hcomma _).2, ih (by simp at hf ⊢; omega)]

theorem readArray_arrText (vs : List Bytes) (t : Bytes) : readArray (arrText vs ++ t) = (vs, t) := by
  have hopen : ∀ c r, isWs c = false → (consume c (c :: r)).2 = r := by
    intro c r hc
    simp [consume, skipWs_cons hc]
  have hlen := length_le_intercalate [comma] (show ∀ x ∈ vs.map strText, x ≠ [] by simp [strText])
  rw [List.length_map] at hlen
  have hcons : arrText vs ++ t =
      openBracket :: (List.intercalate [comma] (vs.map strText) ++ closeBracket :: t) := by
    simp [arrText]
  rw [hcons, readArray, hopen _ _ (by decide)]
  rw [readStrings_join vs t (by simp; omega)]
  simp [hopen closeBracket t (by decide)]

/-! ## Members -/

theorem comma_read (t : Bytes) :
    peek comma (comma :: t) = true ∧ (consume comma (comma :: t)).2 = t := by
  simp [peek, consume, skipWs_cons (show isWs comma = false by decide)]

/-- One member of a record's line: its key, the text of its value, and what reading it does. -/
structure Entry (ρ : Type*) where
  key : String
  text : Bytes
  set : ρ → ρ

/-- Reading the value of the entry's key sets its field and ends after the value. -/
def Entry.Reads {ρ : Type*} (field : Bytes → ρ → Bytes → ρ × Bytes) (e : Entry ρ) : Prop :=
  jsEscape (ascii e.key) = ascii e.key ∧
    ∀ (r : ρ) (t : Bytes), EndsValue t → field (ascii e.key) r (e.text ++ t) = (e.set r, t)

theorem member_append {k : String} (hk : jsEscape (ascii k) = ascii k) (v t : Bytes) :
    member k v ++ t = strText (ascii k) ++ colon :: (v ++ t) := by
  simp [member, strText, hk]

theorem readMembers_step {ρ : Type*} {field : Bytes → ρ → Bytes → ρ × Bytes} {e : Entry ρ}
    (he : e.Reads field) (fuel : ℕ) (r : ρ) {t : Bytes} (ht : EndsValue t) :
    readMembers field (fuel + 1) r (member e.key e.text ++ t) =
      readMembers field fuel (e.set r) (if peek comma t then (consume comma t).2 else t) := by
  obtain ⟨hkey, hread⟩ := he
  have hpeek : ∀ rest, peek closeBrace (strText (ascii e.key) ++ rest) = false := by
    intro rest
    simp [strText, peek, skipWs_cons (show isWs quote = false by decide)]
    decide
  have hcolon : ∀ rest, consume colon (colon :: rest) = (true, rest) := by
    intro rest
    simp [consume, skipWs_cons (show isWs colon = false by decide)]
  rw [member_append hkey, readMembers, hpeek]
  simp only [readString_strText, hcolon, hread r t ht, Bool.false_eq_true, if_false]

theorem readMembers_members {ρ : Type*} {field : Bytes → ρ → Bytes → ρ × Bytes}
    (es : List (Entry ρ)) (h : ∀ e ∈ es, e.Reads field) {fuel : ℕ} (hf : es.length < fuel) (r : ρ) :
    readMembers field fuel r
        (List.intercalate [comma] (es.map fun e => member e.key e.text) ++ [closeBrace]) =
      some (es.foldl (fun r e => e.set r) r) := by
  have hclose : peek closeBrace [closeBrace] = true ∧ peek comma [closeBrace] = false := by decide
  induction es generalizing fuel r with
  | nil =>
    obtain ⟨n, rfl⟩ : ∃ n, fuel = n + 1 := ⟨fuel - 1, by simp at hf; omega⟩
    simp [readMembers, hclose.1]
  | cons e es ih =>
    obtain ⟨n, rfl⟩ : ∃ n, fuel = n + 1 := ⟨fuel - 1, by simp at hf; omega⟩
    have he := h e (by simp)
    have hes := fun r => ih (fun e' he' => h e' (List.mem_cons_of_mem _ he'))
      (show es.length < n by simp at hf; omega) r
    cases es with
    | nil =>
      simp only [List.map_cons, List.map_nil, List.intercalate_singleton]
      rw [readMembers_step he n r ⟨closeBrace, [], rfl, Or.inr rfl⟩, hclose.2]
      simpa using hes (e.set r)
    | cons e' es =>
      simp only [List.map_cons] at hes ⊢
      rw [List.intercalate_cons_cons, List.append_assoc, List.append_assoc, List.singleton_append,
        readMembers_step he n r ⟨comma, _, rfl, Or.inl rfl⟩, (comma_read _).1, if_pos rfl,
        (comma_read _).2, hes (e.set r)]
      rfl

theorem readObject_object {ρ : Type*} {field : Bytes → ρ → Bytes → ρ × Bytes} (es : List (Entry ρ))
    (h : ∀ e ∈ es, e.Reads field) (r : ρ) :
    readObject field r (object (es.map fun e => member e.key e.text)) =
      some (es.foldl (fun r e => e.set r) r) := by
  have hopen : ∀ t, consume openBrace (openBrace :: t) = (true, t) := by
    intro t
    simp [consume, skipWs_cons (show isWs openBrace = false by decide)]
  have hlen := length_le_intercalate [comma]
    (show ∀ x ∈ es.map fun e => member e.key e.text, x ≠ [] by simp [member])
  rw [List.length_map] at hlen
  rw [object, readObject, List.cons_append, hopen]
  exact readMembers_members es h (by simp; omega) r

/-! ## Records -/

section Entries

variable {ρ : Type*} {field : Bytes → ρ → Bytes → ρ × Bytes} {k : String}

/-- A string member, a number, an integer, or an array that `set` puts into the record. -/
def strEntry (k : String) (set : Bytes → ρ → ρ) (v : Bytes) : Entry ρ := ⟨k, strText v, set v⟩

@[inherit_doc strEntry] def numEntry (k : String) (set : ℚ → ρ → ρ) (q : ℚ) : Entry ρ :=
  ⟨k, fmtG 6 q, set (roundSig 6 q)⟩

@[inherit_doc strEntry] def intEntry (k : String) (set : ℤ → ρ → ρ) (z : ℤ) : Entry ρ :=
  ⟨k, intText z, set z⟩

@[inherit_doc strEntry] def arrEntry (k : String) (set : List Bytes → ρ → ρ) (vs : List Bytes) :
    Entry ρ :=
  ⟨k, arrText vs, set vs⟩

/-- A member is read if its branch reads a string into the field that `set` sets. -/
theorem reads_str (get : ρ → Bytes) {set : Bytes → ρ → ρ} (v : Bytes)
    (hk : jsEscape (ascii k) = ascii k)
    (h : ∀ r t, field (ascii k) r t =
      (set (into (readString t) (get r)).1 r, (into (readString t) (get r)).2)) :
    (strEntry k set v).Reads field := by
  refine ⟨hk, fun r t _ => ?_⟩
  simp only [strEntry, h, readString_strText, into, Option.getD_some]

@[inherit_doc reads_str]
theorem reads_num (get : ρ → ℚ) {set : ℚ → ρ → ρ} (q : ℚ) (hk : jsEscape (ascii k) = ascii k)
    (h : ∀ r t, field (ascii k) r t =
      (set (into (readNumber t) (get r)).1 r, (into (readNumber t) (get r)).2)) :
    (numEntry k set q).Reads field := by
  refine ⟨hk, fun r t ht => ?_⟩
  simp only [numEntry, h, readNumber_fmtG q ht, into, Option.getD_some]

@[inherit_doc reads_str]
theorem reads_int (get : ρ → ℤ) {set : ℤ → ρ → ρ} {z : ℤ} (hz : |z| ≤ 2 ^ 53)
    (hk : jsEscape (ascii k) = ascii k)
    (h : ∀ r t, field (ascii k) r t =
      (set (into (readInt64 t) (get r)).1 r, (into (readInt64 t) (get r)).2)) :
    (intEntry k set z).Reads field := by
  refine ⟨hk, fun r t ht => ?_⟩
  simp only [intEntry, h, readInt64_intText hz ht, into, Option.getD_some]

@[inherit_doc reads_str]
theorem reads_arr {set : List Bytes → ρ → ρ} (vs : List Bytes) (hk : jsEscape (ascii k) = ascii k)
    (h : ∀ r t, field (ascii k) r t = (set (readArray t).1 r, (readArray t).2)) :
    (arrEntry k set vs).Reads field := by
  refine ⟨hk, fun r t _ => ?_⟩
  simp only [arrEntry, h, readArray_arrText]

end Entries

/-- A count of `w ≤ 32` bits is an integer that a `double` holds, and comes back from it. -/
theorem count_bounds {n w : ℕ} (hn : n < 2 ^ w) (hw : w ≤ 32) :
    |(n : ℤ)| ≤ 2 ^ 53 ∧ ((n : ℤ) % 2 ^ w).toNat = n := by
  have h32 : n < 2 ^ 32 := hn.trans_le (Nat.pow_le_pow_right (by norm_num) hw)
  refine ⟨?_, ?_⟩
  · rw [abs_of_nonneg (by positivity)]
    exact_mod_cast (by omega : n ≤ 2 ^ 53)
  · have hmod : ((n : ℤ) % 2 ^ w) = n := Int.emod_eq_of_lt (by positivity) (by exact_mod_cast hn)
    rw [hmod, Int.toNat_natCast]

/-- The members of an emitter's line. -/
def emitterEntries (e : Emitter) : List (Entry Emitter) :=
  [strEntry "uid" (fun v r => { r with emitter_uid := v }) e.emitter_uid,
    strEntry "name" (fun v r => { r with display_name := v }) e.display_name,
    numEntry "f_mhz" (fun v r => { r with freq_center_mhz := v }) e.freq_center_mhz,
    numEntry "tol_khz" (fun v r => { r with freq_tolerance_khz := v }) e.freq_tolerance_khz,
    numEntry "bw_khz" (fun v r => { r with bw_khz := v }) e.bw_khz,
    strEntry "mod" (fun v r => { r with modulation := v }) e.modulation,
    strEntry "proto" (fun v r => { r with protocol := v }) e.protocol,
    strEntry "tags_id" (fun v r => { r with tags_id := v }) e.tags_id,
    intEntry "first" (fun v r => { r with first_seen_utc := v }) e.first_seen_utc,
    intEntry "last" (fun v r => { r with last_seen_utc := v }) e.last_seen_utc,
    intEntry "count" (fun v r => { r with sighting_count := UInt32.ofNat (v % 2 ^ 32).toNat })
      e.sighting_count.toNat,
    arrEntry "stations" (fun v r => { r with contributing_stations := v }) e.contributing_stations,
    strEntry "notes" (fun v r => { r with operator_notes := v }) e.operator_notes,
    arrEntry "members" (fun v r => { r with member_sighting_ids := v }) e.member_sighting_ids,
    strEntry "creator" (fun v r => { r with created_by := v }) e.created_by,
    intEntry "created" (fun v r => { r with created_utc := v }) e.created_utc]

/-- The times of an emitter are integers that a `double` holds. -/
def EmitterTimes (e : Emitter) : Prop :=
  |e.first_seen_utc| ≤ 2 ^ 53 ∧ |e.last_seen_utc| ≤ 2 ^ 53 ∧ |e.created_utc| ≤ 2 ^ 53

/-- Every member of an emitter's line reads its field. -/
theorem reads_emitterEntries {e : Emitter} (ht : EmitterTimes e) :
    ∀ x ∈ emitterEntries e, x.Reads emitterField := by
  obtain ⟨hfirst, hlast, hcreated⟩ := ht
  have hcount := (count_bounds e.sighting_count.toNat_lt le_rfl).1
  simp only [emitterEntries, List.forall_mem_cons, List.not_mem_nil, false_implies, implies_true,
    and_true]
  refine ⟨?_, ?_, ?_, ?_, ?_, ?_, ?_, ?_, ?_, ?_, ?_, ?_, ?_, ?_, ?_, ?_⟩
  · exact reads_str Emitter.emitter_uid _ (by decide) fun _ _ => rfl
  · exact reads_str Emitter.display_name _ (by decide) fun _ _ => rfl
  · exact reads_num Emitter.freq_center_mhz _ (by decide) fun _ _ => rfl
  · exact reads_num Emitter.freq_tolerance_khz _ (by decide) fun _ _ => rfl
  · exact reads_num Emitter.bw_khz _ (by decide) fun _ _ => rfl
  · exact reads_str Emitter.modulation _ (by decide) fun _ _ => rfl
  · exact reads_str Emitter.protocol _ (by decide) fun _ _ => rfl
  · exact reads_str Emitter.tags_id _ (by decide) fun _ _ => rfl
  · exact reads_int Emitter.first_seen_utc hfirst (by decide) fun _ _ => rfl
  · exact reads_int Emitter.last_seen_utc hlast (by decide) fun _ _ => rfl
  · exact reads_int (fun r => r.sighting_count.toNat) hcount (by decide) fun _ _ => rfl
  · exact reads_arr _ (by decide) fun _ _ => rfl
  · exact reads_str Emitter.operator_notes _ (by decide) fun _ _ => rfl
  · exact reads_arr _ (by decide) fun _ _ => rfl
  · exact reads_str Emitter.created_by _ (by decide) fun _ _ => rfl
  · exact reads_int Emitter.created_utc hcreated (by decide) fun _ _ => rfl

/-- An emitter as its line keeps it: with the numbers that were printed. -/
def printedEmitter (e : Emitter) : Emitter :=
  { e with
    freq_center_mhz := roundSig 6 e.freq_center_mhz
    freq_tolerance_khz := roundSig 6 e.freq_tolerance_khz
    bw_khz := roundSig 6 e.bw_khz }

/-- The line of an emitter with a uid is read as the emitter with the numbers that were printed; the
line of one without is refused. -/
theorem emitterFromJsonl_emitterToJsonl {e : Emitter} (ht : EmitterTimes e) :
    emitterFromJsonl (emitterToJsonl e) =
      if e.emitter_uid = [] then none else some (printedEmitter e) := by
  have hline : emitterToJsonl e = object ((emitterEntries e).map fun x => member x.key x.text) := rfl
  have hset : (emitterEntries e).foldl (fun r x => x.set r) {} = printedEmitter e := by
    have hcount := (count_bounds e.sighting_count.toNat_lt le_rfl).2
    simp only [emitterEntries, strEntry, numEntry, intEntry, arrEntry, printedEmitter,
      List.foldl_cons, List.foldl_nil, hcount, UInt32.ofNat_toNat]
  rw [emitterFromJsonl, hline, readObject_object _ (reads_emitterEntries ht), hset]
  by_cases hu : e.emitter_uid = []
  · simp [printedEmitter, hu]
  · simp [printedEmitter, hu]

/-- The members of a sighting's line. -/
def sightingEntries (s : Sighting) : List (Entry Sighting) :=
  [strEntry "sid" (fun v r => { r with sighting_id := v }) s.sighting_id,
    strEntry "file" (fun v r => { r with filename := v }) s.filename,
    strEntry "reporter" (fun v r => { r with reporter := v }) s.reporter,
    strEntry "station" (fun v r => { r with station := v }) s.station,
    numEntry "f_mhz" (fun v r => { r with freq_mhz := v }) s.freq_mhz,
    numEntry "bw_khz" (fun v r => { r with bw_khz := v }) s.bw_khz,
    strEntry "mod" (fun v r => { r with modulation := v }) s.modulation,
    strEntry "proto" (fun v r => { r with protocol := v }) s.protocol,
    strEntry "target" (fun v r => { r with target := v }) s.target,
    strEntry "op" (fun v r => { r with operator_name := v }) s.operator_name,
    strEntry "tags" (fun v r => { r with tags := v }) s.tags,
    intEntry "start" (fun v r => { r with start_utc := v }) s.start_utc,
    intEntry "dur" (fun v r => { r with duration_s := UInt32.ofNat (v % 2 ^ 32).toNat })
      s.duration_s.toNat,
    strEntry "euid" (fun v r => { r with emitter_uid := v }) s.emitter_uid,
    intEntry "status" (fun v r => { r with match_status := UInt8.ofNat (v % 2 ^ 8).toNat })
      s.match_status.toNat]

/-- Every member of a sighting's line reads its field. -/
theorem reads_sightingEntries {s : Sighting} (hstart : |s.start_utc| ≤ 2 ^ 53) :
    ∀ x ∈ sightingEntries s, x.Reads sightingField := by
  have hdur := (count_bounds s.duration_s.toNat_lt le_rfl).1
  have hstatus := (count_bounds s.match_status.toNat_lt (by norm_num)).1
  simp only [sightingEntries, List.forall_mem_cons, List.not_mem_nil, false_implies, implies_true,
    and_true]
  refine ⟨?_, ?_, ?_, ?_, ?_, ?_, ?_, ?_, ?_, ?_, ?_, ?_, ?_, ?_, ?_⟩
  · exact reads_str Sighting.sighting_id _ (by decide) fun _ _ => rfl
  · exact reads_str Sighting.filename _ (by decide) fun _ _ => rfl
  · exact reads_str Sighting.reporter _ (by decide) fun _ _ => rfl
  · exact reads_str Sighting.station _ (by decide) fun _ _ => rfl
  · exact reads_num Sighting.freq_mhz _ (by decide) fun _ _ => rfl
  · exact reads_num Sighting.bw_khz _ (by decide) fun _ _ => rfl
  · exact reads_str Sighting.modulation _ (by decide) fun _ _ => rfl
  · exact reads_str Sighting.protocol _ (by decide) fun _ _ => rfl
  · exact reads_str Sighting.target _ (by decide) fun _ _ => rfl
  · exact reads_str Sighting.operator_name _ (by decide) fun _ _ => rfl
  · exact reads_str Sighting.tags _ (by decide) fun _ _ => rfl
  · exact reads_int Sighting.start_utc hstart (by decide) fun _ _ => rfl
  · exact reads_int (fun r => r.duration_s.toNat) hdur (by decide) fun _ _ => rfl
  · exact reads_str Sighting.emitter_uid _ (by decide) fun _ _ => rfl
  · exact reads_int (fun r => r.match_status.toNat) hstatus (by decide) fun _ _ => rfl

/-- A sighting as its line keeps it. -/
def printedSighting (s : Sighting) : Sighting :=
  { s with freq_mhz := roundSig 6 s.freq_mhz, bw_khz := roundSig 6 s.bw_khz }

/-- The line of a sighting with an id is read as the sighting with the numbers that were printed;
the line of one without is refused. -/
theorem sightingFromJsonl_sightingToJsonl {s : Sighting} (hstart : |s.start_utc| ≤ 2 ^ 53) :
    sightingFromJsonl (sightingToJsonl s) =
      if s.sighting_id = [] then none else some (printedSighting s) := by
  have hline : sightingToJsonl s = object ((sightingEntries s).map fun x => member x.key x.text) :=
    rfl
  have hset : (sightingEntries s).foldl (fun r x => x.set r) {} = printedSighting s := by
    have hdur := (count_bounds s.duration_s.toNat_lt le_rfl).2
    have hstatus := (count_bounds s.match_status.toNat_lt (by norm_num)).2
    simp only [sightingEntries, strEntry, numEntry, intEntry, printedSighting, List.foldl_cons,
      List.foldl_nil, hdur, hstatus, UInt32.ofNat_toNat, UInt8.ofNat_toNat]
  rw [sightingFromJsonl, hline, readObject_object _ (reads_sightingEntries hstart), hset]
  by_cases hu : s.sighting_id = []
  · simp [printedSighting, hu]
  · simp [printedSighting, hu]

end Bewe.EmitterDb
