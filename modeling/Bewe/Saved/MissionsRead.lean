import Bewe.Saved.Missions

/-!
# Reading back the saved missions

What `load_missions_from_json` makes of the text that `save_missions_to_json` writes. A member of a
mission is read by its branch up to the comma or the brace behind it; the loops then read the
members, the missions, and the stations one after the other. `restart_eq` says what is left of every
station: its missions as they come back (`reread`), put into a packet again.
-/

namespace Bewe.Saved

open Lib
open EmitterDb (quote comma colon openBrace closeBrace openBracket closeBracket lineFeed
  carriageReturn tab member object truncate backslash)

/-! ## Values -/

/-- A `long long` after it has been written and read as a `double`. -/
def reread64 (z : ℤ) : ℤ := toLongLong (Fp.ofRat double_pos z)

/-- A character array after its string has been written and read. -/
def rereadChars {n : ℕ} (a : Chars n) : Chars n := .ofStr n ((a.str.flatMap reparsed).take 511)

/-- A mission after it has been written and read. -/
def reread (e : MissionSyncEntry) : MissionSyncEntry where
  valid := 1
  state := e.state
  op_index := e.op_index
  rollover := e.rollover
  year := e.year
  code := rereadChars e.code
  start_utc := Int64.ofInt (reread64 e.start_utc.toInt)
  end_utc := Int64.ofInt (reread64 e.end_utc.toInt)
  started_by := rereadChars e.started_by
  station_name := rereadChars e.station_name
  host_name := rereadChars e.host_name
  lat := (e.lat.decimal 6).cast float_pos
  lon := (e.lon.decimal 6).cast float_pos
  sdr_kind := rereadChars e.sdr_kind
  antenna := rereadChars e.antenna

/-- The text goes on with a comma or a closing brace. -/
def EndsMember (t : Bytes) : Prop := ∃ c r, t = c :: r ∧ (c = comma ∨ c = closeBrace)

theorem EndsMember.endsNumber {t : Bytes} (h : EndsMember t) : EndsNumber t := by
  obtain ⟨c, r, rfl, rfl | rfl⟩ := h
  · intro c hc
    obtain rfl : comma = c := by simpa using hc
    decide
  · intro c hc
    obtain rfl : closeBrace = c := by simpa using hc
    decide

/-- A text whose first byte is neither a quote nor a blank. -/
def Plain (s : Bytes) : Prop := ∃ c r, s = c :: r ∧ c ≠ quote ∧ isBlank c = false

theorem Plain.append {s : Bytes} (h : Plain s) (t : Bytes) : Plain (s ++ t) := by
  obtain ⟨c, r, rfl, hc⟩ := h
  exact ⟨c, r ++ t, rfl, hc⟩

theorem plain_signText (neg : Bool) {s : Bytes} (h : Plain s) : Plain (signText neg ++ s) := by
  cases neg with
  | true => exact ⟨minusByte, s, rfl, by decide⟩
  | false => exact h

theorem plain_natText (n : ℕ) : Plain (natText n) := by
  obtain ⟨c, r, hcr⟩ := List.exists_cons_of_ne_nil (natText_ne_nil n)
  have hc : isDigit c = true := isDigit_of_mem_natText (by rw [hcr]; simp)
  obtain ⟨d, hd, rfl⟩ := exists_digitByte hc
  refine ⟨_, r, hcr, ?_⟩
  clear hc hcr
  revert d
  decide

theorem plain_intText (z : ℤ) : Plain (intText z) := plain_signText _ (plain_natText _)

theorem plain_fmt {p : ℕ} (n : ℕ) (x : Fp p) : Plain (x.fmt n) := by
  cases x with
  | fin q h =>
    rw [Fp.fmt, fmtFixed, List.append_assoc]
    exact plain_signText _ ((plain_natText _).append _)
  | inf neg => exact plain_signText _ ⟨105, [110, 102], rfl, by decide⟩
  | nan neg => exact plain_signText _ ⟨110, [97, 110], rfl, by decide⟩

/-- A number is read by the branch for numbers. -/
theorem readValue_number {key s t : Bytes} {v : Fp 53} (e : MissionSyncEntry) (hs : Plain s)
    (h : strtod (s ++ t) = (v, t)) : readValue key e (s ++ t) = (setNumber key v e, t) := by
  obtain ⟨c, r, rfl, hc, -⟩ := hs
  have hhead : ((c :: r) ++ t).head? ≠ some quote := by simpa using hc
  rw [readValue, if_neg hhead, h]

/-- A quoted string is read by the branch for strings. -/
theorem readValue_quoted {key : Bytes} (s t : Bytes) (e : MissionSyncEntry) :
    readValue key e (quoted s ++ t) = (setString key ((s.flatMap reparsed).take 511) e, t) := by
  have hhead : (quoted s ++ t).head? = some quote := rfl
  rw [readValue, if_pos hhead, parseStr_quoted]

theorem truncate_intCast (z : ℤ) : truncate (z : ℚ) = z := by
  simp [truncate]

/-- A small integer comes back from a `double`. -/
theorem reread64_of_abs_le {z : ℤ} (h : |z| ≤ 2 ^ 53) : reread64 z = z := by
  have hz := abs_le.1 h
  have hlo : (-2 ^ 63 : ℤ) ≤ z ∧ z < 2 ^ 63 := by
    constructor <;> linarith
  simp only [reread64, Fp.ofRat, toLongLong, roundBits_intCast (by norm_num) h, truncate_intCast,
    hlo, if_true, and_self]

theorem reread64_byte (c : UInt8) : UInt8.ofInt (reread64 c.toNat) = c := by
  have hlt : c.toNat < 256 := c.toNat_lt
  have hmod : ((c.toNat : ℤ) % 256).toNat = c.toNat := by omega
  rw [reread64_of_abs_le (by rw [abs_of_nonneg (by positivity)]; omega)]
  simp [UInt8.ofInt, hmod]

theorem reread64_word (c : UInt16) : UInt16.ofInt (reread64 c.toNat) = c := by
  have hlt : c.toNat < 65536 := c.toNat_lt
  have hmod : ((c.toNat : ℤ) % 65536).toNat = c.toNat := by omega
  rw [reread64_of_abs_le (by rw [abs_of_nonneg (by positivity)]; omega)]
  simp [UInt16.ofInt, hmod]

/-! ## Members -/

/-- A member of a mission: its key, the text of its value, and what reading it does. -/
structure Item where
  key : String
  text : Bytes
  set : MissionSyncEntry → MissionSyncEntry

/-- Reading the value of an item sets its field and ends behind it. -/
structure Item.Reads (i : Item) : Prop where
  key_plain : (ascii i.key).flatMap reparsed = ascii i.key ∧ jsonEscape (ascii i.key) = ascii i.key ∧
    (ascii i.key).length ≤ 31
  text_head : ∃ c r, i.text = c :: r ∧ isBlank c = false
  read : ∀ e t, EndsMember t → readValue (ascii i.key) e (i.text ++ t) = (i.set e, t)

/-- An item with a number of eight or sixteen bits, an integer, a `float`, or a string. -/
def natItem (key : String) (n : ℕ) : Item :=
  ⟨key, natText n, setNumber (ascii key) (Fp.ofRat double_pos n)⟩
@[inherit_doc natItem] def intItem (key : String) (z : ℤ) : Item :=
  ⟨key, intText z, setNumber (ascii key) (Fp.ofRat double_pos z)⟩
@[inherit_doc natItem] def floatItem (key : String) (x : Fp 24) : Item :=
  ⟨key, x.fmt 6, setNumber (ascii key) (x.decimal 6)⟩
@[inherit_doc natItem] def strItem (key : String) (s : Bytes) : Item :=
  ⟨key, quoted s, setString (ascii key) ((s.flatMap reparsed).take 511)⟩

section Items

variable {key : String}

/-- An item is read by the branch of its key. -/
theorem reads_nat (hk : (ascii key).flatMap reparsed = ascii key ∧
    jsonEscape (ascii key) = ascii key ∧ (ascii key).length ≤ 31) (n : ℕ) :
    (natItem key n).Reads where
  key_plain := hk
  text_head := by
    obtain ⟨c, r, h, -, hb⟩ := plain_natText n
    exact ⟨c, r, h, hb⟩
  read e t ht := readValue_number e (plain_natText n) (strtod_natText n ht.endsNumber)

@[inherit_doc reads_nat]
theorem reads_int (hk : (ascii key).flatMap reparsed = ascii key ∧
    jsonEscape (ascii key) = ascii key ∧ (ascii key).length ≤ 31) (z : ℤ) :
    (intItem key z).Reads where
  key_plain := hk
  text_head := by
    obtain ⟨c, r, h, -, hb⟩ := plain_intText z
    exact ⟨c, r, h, hb⟩
  read e t ht := readValue_number e (plain_intText z) (strtod_intText z ht.endsNumber)

@[inherit_doc reads_nat]
theorem reads_float (hk : (ascii key).flatMap reparsed = ascii key ∧
    jsonEscape (ascii key) = ascii key ∧ (ascii key).length ≤ 31) (x : Fp 24) :
    (floatItem key x).Reads where
  key_plain := hk
  text_head := by
    obtain ⟨c, r, h, -, hb⟩ := plain_fmt 6 x
    exact ⟨c, r, h, hb⟩
  read e t ht := readValue_number e (plain_fmt 6 x) (strtod_fmt (by norm_num) x ht.endsNumber)

@[inherit_doc reads_nat]
theorem reads_str (hk : (ascii key).flatMap reparsed = ascii key ∧
    jsonEscape (ascii key) = ascii key ∧ (ascii key).length ≤ 31) (s : Bytes) :
    (strItem key s).Reads where
  key_plain := hk
  text_head := ⟨quote, _, rfl, by decide⟩
  read e t _ := readValue_quoted s t e

end Items

/-- The items of a mission. -/
def missionItems (e : MissionSyncEntry) : List Item :=
  [natItem "state" e.state.toNat, natItem "op_index" e.op_index.toNat,
    natItem "rollover" e.rollover.toNat, natItem "year" e.year.toNat, strItem "code" e.code.str,
    intItem "start_utc" e.start_utc.toInt, intItem "end_utc" e.end_utc.toInt,
    strItem "started_by" e.started_by.str, strItem "station" e.station_name.str,
    strItem "host" e.host_name.str, floatItem "lat" e.lat, floatItem "lon" e.lon,
    strItem "sdr" e.sdr_kind.str, strItem "antenna" e.antenna.str]

theorem missionMembers_eq (e : MissionSyncEntry) :
    missionMembers e = (missionItems e).map fun i => (i.key, i.text) := rfl

/-- The keys of a mission are read as they are, and so is each of its values. -/
theorem reads_missionItems (e : MissionSyncEntry) : ∀ i ∈ missionItems e, i.Reads := by
  intro i hi
  simp only [missionItems, List.mem_cons, List.not_mem_nil, or_false] at hi
  rcases hi with rfl | rfl | rfl | rfl | rfl | rfl | rfl | rfl | rfl | rfl | rfl | rfl | rfl | rfl
  · exact reads_nat (by decide) _
  · exact reads_nat (by decide) _
  · exact reads_nat (by decide) _
  · exact reads_nat (by decide) _
  · exact reads_str (by decide) _
  · exact reads_int (by decide) _
  · exact reads_int (by decide) _
  · exact reads_str (by decide) _
  · exact reads_str (by decide) _
  · exact reads_str (by decide) _
  · exact reads_float (by decide) _
  · exact reads_float (by decide) _
  · exact reads_str (by decide) _
  · exact reads_str (by decide) _

/-- Reading all items of a mission sets all fields. -/
theorem foldl_missionItems (e : MissionSyncEntry) :
    (missionItems e).foldl (fun r i => i.set r) { valid := 1 } = reread e := by
  calc (missionItems e).foldl (fun r i => i.set r) { valid := 1 }
    _ = { reread e with
          state := UInt8.ofInt (reread64 e.state.toNat)
          op_index := UInt8.ofInt (reread64 e.op_index.toNat)
          rollover := UInt8.ofInt (reread64 e.rollover.toNat)
          year := UInt16.ofInt (reread64 e.year.toNat) } := rfl
    _ = reread e := by
      rw [reread64_byte, reread64_byte, reread64_byte, reread64_word]
      rfl

/-! ## Loops -/

theorem readFields_step {i : Item} (hi : i.Reads) (fuel : ℕ) (e : MissionSyncEntry) {t : Bytes}
    (ht : EndsMember t) :
    readFields (fuel + 1) e (member i.key i.text ++ t) = readFields fuel (i.set e) t := by
  obtain ⟨⟨hkey, hesc, hlen⟩, ⟨c, r, htext, hc⟩, hread⟩ := hi
  have htake : (ascii i.key).take 31 = ascii i.key := List.take_of_length_le hlen
  have hmember : member i.key i.text ++ t = quoted (ascii i.key) ++ colon :: (i.text ++ t) := by
    simp [member, quoted, hesc]
  have hsep : (quoted (ascii i.key) ++ colon :: (i.text ++ t)).dropWhile isSep =
      quoted (ascii i.key) ++ colon :: (i.text ++ t) := rfl
  have hblank : (i.text ++ t).dropWhile isBlank = i.text ++ t := by
    rw [htext, List.cons_append, List.dropWhile_cons, hc]
    rfl
  have hgap : t.dropWhile isGap = t := by
    obtain ⟨d, r, rfl, rfl | rfl⟩ := ht <;> rfl
  have hcolon : ∀ u : Bytes, (colon :: u).dropWhile (· ≠ colon) = colon :: u := fun u => rfl
  rw [hmember, readFields, hsep, if_neg (by simp [quoted, quote, closeBrace]),
    if_neg (by simp [quoted, quote, closeBrace]), parseStr_quoted, hkey, htake]
  simp only [hcolon, hblank, hread e t ht, hgap]

/-- The loop passes over a comma before a member. -/
theorem readFields_comma (fuel : ℕ) (e : MissionSyncEntry) (t : Bytes) :
    readFields (fuel + 1) e (comma :: quote :: t) = readFields (fuel + 1) e (quote :: t) := rfl

/-- The loop reads the members of a mission, one after the other. -/
theorem readFields_items (is : List Item) (h : ∀ i ∈ is, i.Reads) (t : Bytes) {fuel : ℕ}
    (hf : is.length < fuel) (e : MissionSyncEntry) :
    readFields fuel e
        (List.intercalate [comma] (is.map fun i => member i.key i.text) ++ closeBrace :: t) =
      (is.foldl (fun r i => i.set r) e, closeBrace :: t) := by
  induction is generalizing fuel e with
  | nil =>
    obtain ⟨n, rfl⟩ : ∃ n, fuel = n + 1 := ⟨fuel - 1, by simp at hf; omega⟩
    rfl
  | cons i is ih =>
    obtain ⟨n, rfl⟩ : ∃ n, fuel = n + 1 := ⟨fuel - 1, by simp at hf; omega⟩
    have hi := h i (by simp)
    have hlen : is.length < n := by simpa using hf
    have his := fun e => ih (fun i' hi' => h i' (List.mem_cons_of_mem _ hi')) hlen e
    cases is with
    | nil =>
      simp only [List.map_cons, List.map_nil, List.intercalate_singleton]
      rw [readFields_step hi n e ⟨closeBrace, t, rfl, Or.inr rfl⟩]
      exact his (i.set e)
    | cons j is =>
      obtain ⟨n, rfl⟩ : ∃ k, n = k + 1 := ⟨n - 1, by simp at hlen; omega⟩
      have hquote : ∃ u, List.intercalate [comma] ((j :: is).map fun i => member i.key i.text) ++
          closeBrace :: t = quote :: u := by
        cases is <;> exact ⟨_, rfl⟩
      obtain ⟨u, hu⟩ := hquote
      have hrest := his (i.set e)
      rw [hu] at hrest
      simp only [List.map_cons] at hu ⊢
      rw [List.intercalate_cons_cons, List.append_assoc, List.append_assoc, hu,
        List.singleton_append, readFields_step hi _ e ⟨comma, _, rfl, Or.inl rfl⟩, readFields_comma,
        hrest]
      rfl

/-- A mission is read back up to its closing brace. -/
theorem readFields_mission (e : MissionSyncEntry) (t : Bytes) {fuel : ℕ} (hf : 14 < fuel) :
    readFields fuel { valid := 1 }
        (List.intercalate [comma] ((missionMembers e).map fun m => member m.1 m.2) ++
          closeBrace :: t) =
      (reread e, closeBrace :: t) := by
  rw [missionMembers_eq, List.map_map, ← foldl_missionItems]
  exact readFields_items (missionItems e) (reads_missionItems e) t hf _

theorem length_missionEntry (e : MissionSyncEntry) :
    14 ≤ (List.intercalate [comma] ((missionMembers e).map fun m => member m.1 m.2)).length := by
  have hne : ∀ x ∈ (missionMembers e).map fun m => member m.1 m.2, x ≠ [] := by
    intro x hx
    obtain ⟨m, -, rfl⟩ := List.mem_map.1 hx
    simp [member]
  exact length_le_intercalate [comma] hne

theorem readMissions_step (fuel : ℕ) (s : Loading) (e : MissionSyncEntry) (t : Bytes) :
    readMissions (fuel + 1) s (missionEntryToJson e ++ t) =
      readMissions fuel (s.place (reread e)) t := by
  have hlen := length_missionEntry e
  have hobj : missionEntryToJson e ++ t =
      openBrace :: (List.intercalate [comma] ((missionMembers e).map fun m => member m.1 m.2) ++
        closeBrace :: t) := by
    simp [missionEntryToJson, object]
  have hsep : ∀ u : Bytes, (openBrace :: u).dropWhile isSep = openBrace :: u := fun u => rfl
  rw [hobj, readMissions, hsep]
  simp only [if_true]
  rw [readFields_mission e t (by simp; omega)]
  rfl

theorem readMissions_comma (fuel : ℕ) (s : Loading) (t : Bytes) :
    readMissions (fuel + 1) s (comma :: t) = readMissions (fuel + 1) s t := rfl

/-- The loop reads the missions of a station, up to the closing bracket. -/
theorem readMissions_missions (es : List MissionSyncEntry) (t : Bytes) {fuel : ℕ}
    (hf : es.length < fuel) (s : Loading) :
    readMissions fuel s
        (List.intercalate [comma] (es.map missionEntryToJson) ++ closeBracket :: t) =
      ((es.map reread).foldl Loading.place s, closeBracket :: t) := by
  induction es generalizing fuel s with
  | nil =>
    obtain ⟨n, rfl⟩ : ∃ n, fuel = n + 1 := ⟨fuel - 1, by simp at hf; omega⟩
    rfl
  | cons e es ih =>
    obtain ⟨n, rfl⟩ : ∃ n, fuel = n + 1 := ⟨fuel - 1, by simp at hf; omega⟩
    have hlen : es.length < n := by simpa using hf
    have hes := ih hlen (s.place (reread e))
    cases es with
    | nil =>
      simp only [List.map_cons, List.map_nil, List.intercalate_singleton]
      rw [readMissions_step]
      exact hes
    | cons e' es =>
      obtain ⟨n, rfl⟩ : ∃ k, n = k + 1 := ⟨n - 1, by simp at hlen; omega⟩
      simp only [List.map_cons] at hes ⊢
      rw [List.intercalate_cons_cons, List.append_assoc, List.append_assoc, List.singleton_append,
        readMissions_step, readMissions_comma, hes]
      rfl

/-! ## Stations -/

theorem length_le_of_strstr {pat t u : Bytes} (h : strstr pat t = some u) : u.length ≤ t.length := by
  induction t with
  | nil =>
    rw [strstr] at h
    split_ifs at h
    obtain rfl := Option.some.inj h
    rfl
  | cons c t ih =>
    rw [strstr] at h
    split_ifs at h
    · obtain rfl := Option.some.inj h
      rfl
    · exact (ih h).trans (Nat.le_succ _)

/-- The id that is read for a station whose key has been written. -/
def rereadId (sid : Bytes) : Bytes := ((cStr sid).flatMap reparsed).take 63

/-- The packet that is put together from the missions of a station. -/
def replaced (missions : List MissionSyncEntry) : Loading :=
  (missions.map reread).foldl Loading.place {}

/-- What one station adds to the map. -/
def restoreStation (m : MissionMap) (kp : Bytes × PktMissionSync) : MissionMap :=
  if (replaced kp.2.missions).missions = [] then m
  else m.store (rereadId kp.1) (replaced kp.2.missions).pkt

/-- The text of a station from the key of its id on. -/
def stationBody (kp : Bytes × PktMissionSync) (t : Bytes) : Bytes :=
  ascii "\"station_id\":" ++ quoted (cStr kp.1) ++ ascii ",\"missions\":[" ++
    List.intercalate [comma] (kp.2.missions.map missionEntryToJson) ++ closeBracket :: t

/-- One turn of the loop reads one station, up to the bracket behind its missions. -/
theorem readStations_step (fuel : ℕ) (m : MissionMap) (kp : Bytes × PktMissionSync) {t u : Bytes}
    (ht : strstr (ascii "\"station_id\"") t = some (stationBody kp u)) :
    readStations (fuel + 1) m t =
      readStations fuel (restoreStation m kp) (closeBracket :: u) := by
  obtain ⟨sid, p⟩ := kp
  -- behind the id stands the key of the missions, and no station between
  have hmk : ∀ v, strstr (ascii "\"missions\"") (ascii ",\"missions\":[" ++ v) =
      some (ascii "\"missions\":[" ++ v) := fun v => rfl
  have hnext : ∀ v, ((strstr (ascii "\"station_id\"") (ascii ",\"missions\":[" ++ v)).any
      fun n => (ascii "\"missions\":[" ++ v).length < n.length) = false := by
    intro v
    have hcomma : strstr (ascii "\"station_id\"") (ascii ",\"missions\":[" ++ v) =
        strstr (ascii "\"station_id\"") (ascii "\"missions\":[" ++ v) := rfl
    rw [hcomma]
    cases hs : strstr (ascii "\"station_id\"") (ascii "\"missions\":[" ++ v) with
    | none => rfl
    | some n => simpa using length_le_of_strstr hs
  have hparse : ∀ v, parseStr 64 ((ascii "\"station_id\":" ++ (quoted (cStr sid) ++ v)).drop 12) =
      (true, rereadId sid, v) := by
    intro v
    have hcolon : parseStr 64 ((ascii "\"station_id\":" ++ (quoted (cStr sid) ++ v)).drop 12) =
        parseStr 64 (quoted (cStr sid) ++ v) := rfl
    rw [hcolon, parseStr_quoted, rereadId]
  have hopen : ∀ v, ((ascii "\"missions\":[" ++ v).drop 10).dropWhile (· ≠ openBracket) =
      openBracket :: v := fun v => rfl
  have hlen : p.missions.length <
      (List.intercalate [comma] (p.missions.map missionEntryToJson) ++ closeBracket :: u).length +
        1 := by
    have hne : ∀ x ∈ p.missions.map missionEntryToJson, x ≠ [] := by
      intro x hx
      obtain ⟨e, -, rfl⟩ := List.mem_map.1 hx
      simp [missionEntryToJson, object]
    have hle := length_le_intercalate [comma] hne
    rw [List.length_map] at hle
    rw [List.length_append]
    omega
  rw [readStations, ht]
  simp only [stationBody, List.append_assoc, hparse, hmk, hnext, hopen, Bool.false_eq_true,
    if_false]
  rw [readMissions_missions p.missions u hlen]
  rfl

/-- The text of stations, of which the first is found where a station may begin. -/
theorem readStations_stations (kps : List (Bytes × PktMissionSync)) {gap : Bytes}
    (hgap : gap = openBrace :: ascii "\n  \"stations\": [\n" ∨
      gap = closeBracket :: closeBrace :: ascii ",\n")
    {fuel : ℕ} (hf : kps.length < fuel) (hne : kps ≠ []) (m : MissionMap) :
    readStations fuel m
        (gap ++ List.intercalate (ascii ",\n") (kps.map fun kp => stationText kp.1 kp.2.missions) ++
          (ascii "\n  ]\n" ++ closeBrace :: ascii "\n")) =
      kps.foldl restoreStation m := by
  induction kps generalizing fuel gap m with
  | nil => exact absurd rfl hne
  | cons kp kps ih =>
    obtain ⟨n, rfl⟩ : ∃ n, fuel = n + 1 := ⟨fuel - 1, by simp at hf; omega⟩
    have hlen : kps.length < n := by simpa using hf
    have hfind : ∀ u, strstr (ascii "\"station_id\"")
        (gap ++ (stationText kp.1 kp.2.missions ++ u)) =
          some (stationBody kp (closeBrace :: u)) := by
      intro u
      have htext : stationText kp.1 kp.2.missions ++ u =
          ascii "    " ++ openBrace :: stationBody kp (closeBrace :: u) := by
        simp [stationText, stationBody]
      rw [htext]
      rcases hgap with rfl | rfl <;> rfl
    cases kps with
    | nil =>
      obtain ⟨n, rfl⟩ : ∃ k, n = k + 1 := ⟨n - 1, by simp at hlen; omega⟩
      simp only [List.map_cons, List.map_nil, List.intercalate_singleton, List.append_assoc]
      rw [readStations_step (n + 1) m kp (hfind _)]
      rfl
    | cons kp' kps =>
      have hrest := @ih (closeBracket :: closeBrace :: ascii ",\n") (Or.inr rfl) n hlen
        (by simp) (restoreStation m kp)
      simp only [List.map_cons] at hrest ⊢
      rw [List.intercalate_cons_cons, List.append_assoc, List.append_assoc, List.append_assoc,
        readStations_step n m kp (hfind _)]
      simp only [List.append_assoc, List.cons_append] at hrest ⊢
      exact hrest

theorem zero_not_mem_quoted {s : Bytes} (h : (0 : UInt8) ∉ s) : (0 : UInt8) ∉ quoted s := by
  have hesc : (0 : UInt8) ∉ jsonEscape s := by
    intro h0
    obtain ⟨c, hc, h0⟩ := List.mem_flatMap.1 h0
    have hc0 : c ≠ 0 := fun h0 => h (h0 ▸ hc)
    unfold escapeChar at h0
    split_ifs at h0 <;>
      simp [backslash, EmitterDb.letterN, EmitterDb.letterR, hc0.symm] at h0
  simp [quoted, quote, hesc]

theorem zero_not_mem_natText (n : ℕ) : (0 : UInt8) ∉ natText n := fun h =>
  absurd (isDigit_of_mem_natText h) (by decide)

theorem zero_not_mem_intText (z : ℤ) : (0 : UInt8) ∉ intText z := fun h =>
  absurd (isNumByte_of_mem_intText h) (by decide)

theorem zero_not_mem_fmt {p : ℕ} (n : ℕ) (x : Fp p) : (0 : UInt8) ∉ x.fmt n := by
  have hsign : ∀ neg, (0 : UInt8) ∉ signText neg := by decide
  cases x with
  | fin q h =>
    intro h0
    rw [Fp.fmt, fmtFixed, List.mem_append, List.mem_append] at h0
    rcases h0 with (h0 | h0) | h0
    · exact hsign _ h0
    · exact zero_not_mem_natText _ h0
    · split_ifs at h0
      · simp at h0
      · rcases List.mem_cons.1 h0 with h0 | h0
        · exact absurd h0 (by decide)
        · exact absurd (isDigit_of_mem_padDigits h0) (by decide)
  | inf neg => simp [Fp.fmt, infText, hsign]
  | nan neg => simp [Fp.fmt, nanText, hsign]

theorem zero_not_mem_missionEntryToJson (e : MissionSyncEntry) :
    (0 : UInt8) ∉ missionEntryToJson e := by
  have hmem : ∀ x ∈ (missionMembers e).map fun m => member m.1 m.2, (0 : UInt8) ∉ x := by
    intro x hx
    obtain ⟨⟨k, v⟩, hkv, rfl⟩ := List.mem_map.1 hx
    have hk : (0 : UInt8) ∉ ascii k ∧ (0 : UInt8) ∉ v := by
      simp only [missionMembers, List.mem_cons, Prod.mk.injEq, List.not_mem_nil, or_false] at hkv
      rcases hkv with ⟨rfl, rfl⟩ | ⟨rfl, rfl⟩ | ⟨rfl, rfl⟩ | ⟨rfl, rfl⟩ | ⟨rfl, rfl⟩ | ⟨rfl, rfl⟩ |
        ⟨rfl, rfl⟩ | ⟨rfl, rfl⟩ | ⟨rfl, rfl⟩ | ⟨rfl, rfl⟩ | ⟨rfl, rfl⟩ | ⟨rfl, rfl⟩ | ⟨rfl, rfl⟩ |
        ⟨rfl, rfl⟩ <;>
        refine ⟨by decide, ?_⟩ <;>
        first
          | exact zero_not_mem_natText _
          | exact zero_not_mem_intText _
          | exact zero_not_mem_fmt _ _
          | exact zero_not_mem_quoted (zero_not_mem_cStr _)
    simp [member, quote, colon, hk.1, hk.2]
  have hjoin := not_mem_intercalate (show (0 : UInt8) ∉ [comma] by decide) hmem
  simp [missionEntryToJson, object, openBrace, closeBrace, hjoin]

theorem cStr_saveMissionsToJson (m : MissionMap) :
    cStr (saveMissionsToJson m) = saveMissionsToJson m := by
  have hstations : (0 : UInt8) ∉ List.intercalate (ascii ",\n") (m.list.filterMap fun kb =>
      kb.2.map fun p => stationText kb.1 p.missions) := by
    refine not_mem_intercalate (by decide) fun x hx => ?_
    obtain ⟨⟨k, b⟩, -, hb⟩ := List.mem_filterMap.1 hx
    obtain ⟨p, -, rfl⟩ := Option.map_eq_some_iff.1 hb
    have hid := zero_not_mem_quoted (zero_not_mem_cStr k)
    have hmissions : (0 : UInt8) ∉ List.intercalate [comma] (p.missions.map missionEntryToJson) := by
      refine not_mem_intercalate (by decide) fun y hy => ?_
      obtain ⟨e, -, rfl⟩ := List.mem_map.1 hy
      exact zero_not_mem_missionEntryToJson e
    have h1 : (0 : UInt8) ∉ ascii "    " := by decide
    have h2 : (0 : UInt8) ∉ ascii "\"station_id\":" := by decide
    have h3 : (0 : UInt8) ∉ ascii ",\"missions\":[" := by decide
    simp [stationText, openBrace, closeBrace, closeBracket, h1, h2, h3, hid, hmissions]
  have h0 : (0 : UInt8) ∉ saveMissionsToJson m := by
    have h1 : (0 : UInt8) ∉ ascii "\n  \"stations\": [\n" := by decide
    have h2 : (0 : UInt8) ∉ ascii "\n  ]\n" := by decide
    have h3 : (0 : UInt8) ∉ ascii "\n" := by decide
    simp [saveMissionsToJson, openBrace, closeBrace, h1, h2, h3, hstations]
  simpa using cStr_append_replicate h0 0

/-- After a restart there is what the text of each station adds. -/
theorem restart_eq (m : MissionMap) :
    m.restart = m.snapshots.foldl restoreStation StationMap.empty := by
  have htexts : (m.list.filterMap fun kb => kb.2.map fun p => stationText kb.1 p.missions) =
      m.snapshots.map fun kp => stationText kp.1 kp.2.missions := by
    rw [StationMap.snapshots, List.map_filterMap]
    congr 1
    funext kb
    rw [Option.map_map]
    rfl
  have hsave : saveMissionsToJson m =
      (openBrace :: ascii "\n  \"stations\": [\n") ++
        List.intercalate (ascii ",\n") (m.snapshots.map fun kp => stationText kp.1 kp.2.missions) ++
        (ascii "\n  ]\n" ++ closeBrace :: ascii "\n") := by
    rw [saveMissionsToJson, htexts]
    simp
  rw [MissionMap.restart, loadMissionsFromJson, cStr_saveMissionsToJson]
  cases hs : m.snapshots with
  | nil =>
    rw [hsave, hs]
    rfl
  | cons kp kps =>
    have hlen : (kp :: kps).length < (saveMissionsToJson m).length + 1 := by
      have hne : ∀ x ∈ (kp :: kps).map fun kp => stationText kp.1 kp.2.missions, x ≠ [] := by
        intro x hx
        obtain ⟨kp, -, rfl⟩ := List.mem_map.1 hx
        simp [stationText]
      have hle := length_le_intercalate (ascii ",\n") hne
      rw [List.length_map] at hle
      rw [hsave, hs]
      simp only [List.length_append]
      omega
    rw [hsave, hs] at hlen ⊢
    exact readStations_stations (kp :: kps) (Or.inl rfl) hlen (by simp) _

end Bewe.Saved
