import Bewe.HostBandPlan.Model

/-!
# Reading back the band plan

What `load_from_file` makes of the text that `save_to_file` writes. The text in `buf` is never cut.
Where the edges of all segments are numbers, each comes back as `PktBandEntry.reread` says, if it has
still some width then (`loadFromFile_saveToFile`).
-/

namespace Bewe.HostBandPlan

open Lib
open Saved (jsonEscape quoted rescanned toLongLong isSep reread64 reread64_byte)
open Saved.JScan (readKey consume skipWs)
open HostState (Item readItem readItems itemsText pushItem)
open EmitterDb (quote comma colon openBrace closeBrace openBracket closeBracket)

/-! ## The members of a segment -/

/-- A segment after it has been written and read, its edges numbers. -/
def PktBandEntry.reread (e : PktBandEntry) : PktBandEntry where
  valid := 1
  category := e.category
  freq_lo_mhz := e.freq_lo_mhz.reread 4
  freq_hi_mhz := e.freq_hi_mhz.reread 4
  label := copyText 23 (e.label.str.flatMap rescanned)
  description := copyText 127 (e.description.str.flatMap rescanned)

/-- The members of a segment before its description. -/
def bandItems (e : PktBandEntry) : List (Item PktBandEntry) :=
  [⟨ascii "freq_lo", e.freq_lo_mhz.fmt 4, fun r =>
      { r with freq_lo_mhz := e.freq_lo_mhz.reread 4 }⟩,
    ⟨ascii "freq_hi", e.freq_hi_mhz.fmt 4, fun r =>
      { r with freq_hi_mhz := e.freq_hi_mhz.reread 4 }⟩,
    ⟨ascii "category", natText e.category.toNat, fun r =>
      { r with category := UInt8.ofInt (toLongLong (strtod (natText e.category.toNat)).1) }⟩,
    ⟨ascii "label", quoted e.label.str, fun r =>
      { r with label := copyText 23 (e.label.str.flatMap rescanned) }⟩]

/-- The description of a segment. -/
def descriptionItem (e : PktBandEntry) : Item PktBandEntry :=
  ⟨ascii "description", quoted e.description.str, fun r =>
    { r with description := copyText 127 (e.description.str.flatMap rescanned) }⟩

/-- A segment whose edges are numbers. -/
structure PktBandEntry.Numbers (e : PktBandEntry) : Prop where
  freq_lo_mhz : e.freq_lo_mhz.value.isSome
  freq_hi_mhz : e.freq_hi_mhz.value.isSome

theorem reads_bandItems {e : PktBandEntry} (he : e.Numbers) :
    ∀ i ∈ bandItems e, i.Reads bandField := by
  intro i hi
  simp only [bandItems, List.mem_cons, List.not_mem_nil, or_false] at hi
  rcases hi with rfl | rfl | rfl | rfl
  · exact Item.reads_number (fun d (r : PktBandEntry) => { r with freq_lo_mhz := .ofDouble d }) (by decide)
      ((HostState.isNumber_fmt_iff 4 _).2 he.freq_lo_mhz) (Binary32.fmt_ne_nil 4 _) fun _ _ => rfl
  · exact Item.reads_number (fun d (r : PktBandEntry) => { r with freq_hi_mhz := .ofDouble d }) (by decide)
      ((HostState.isNumber_fmt_iff 4 _).2 he.freq_hi_mhz) (Binary32.fmt_ne_nil 4 _) fun _ _ => rfl
  · exact Item.reads_number (fun d (r : PktBandEntry) => { r with category := UInt8.ofInt (toLongLong d) }) (by decide)
      (HostState.isNumber_natText _) (natText_ne_nil _) fun _ _ => rfl
  · exact Item.reads_quoted (fun s (r : PktBandEntry) => { r with label := copyText 23 s }) (by decide) _ fun _ _ => rfl

theorem reads_descriptionItem (e : PktBandEntry) : (descriptionItem e).Reads bandField :=
  Item.reads_quoted (fun s (r : PktBandEntry) => { r with description := copyText 127 s }) (by decide) _ fun _ _ => rfl

/-- Reading all members of a segment sets all fields. -/
theorem set_bandItems (e : PktBandEntry) :
    (descriptionItem e).set ((bandItems e).foldl (fun r i => i.set r) { valid := 1 }) =
      e.reread := by
  have hcategory : UInt8.ofInt (toLongLong (strtod (natText e.category.toNat)).1) = e.category := by
    have hread := reread64_byte e.category
    rwa [reread64, Int.cast_natCast, ← HostState.strtod_natText'] at hread
  simp only [bandItems, List.foldl_cons, List.foldl_nil, hcategory]
  rfl

/-! ## The text of a segment -/

theorem inBuf_eq {t : Bytes} (h : t.length ≤ 511) : inBuf t = t := List.take_of_length_le h

theorem bandText_eq (e : PktBandEntry) (t : Bytes) :
    bandText e ++ t = ascii "    " ++ openBrace ::
      (itemsText (bandItems e) ++ ((descriptionItem e).member ++ closeBrace :: t)) := by
  have hlo := Binary32.length_fmt_le (n := 4) (by norm_num) e.freq_lo_mhz
  have hhi := Binary32.length_fmt_le (n := 4) (by norm_num) e.freq_hi_mhz
  have hcat : (natText e.category.toNat).length ≤ 3 :=
    length_natText_le (by norm_num) (lt_trans e.category.toNat_lt (by norm_num))
  have h1 : ascii "\"freq_lo\":" = quote :: (ascii "freq_lo" ++ [quote, colon]) := by decide
  have h2 : ascii ",\"freq_hi\":" = comma :: quote :: (ascii "freq_hi" ++ [quote, colon]) := by decide
  have h3 : ascii ",\"category\":" = comma :: quote :: (ascii "category" ++ [quote, colon]) := by
    decide
  have h4 : ascii ",\"label\":\"" = comma :: quote :: (ascii "label" ++ [quote, colon, quote]) := by
    decide
  have h5 : ascii "\",\"description\":\"" =
      quote :: comma :: quote :: (ascii "description" ++ [quote, colon, quote]) := by decide
  have l1 : (ascii "freq_lo").length = 7 := rfl
  have l2 : (ascii "freq_hi").length = 7 := rfl
  have l3 : (ascii "category").length = 8 := rfl
  have l4 : (ascii "label").length = 5 := rfl
  have l5 : (ascii "    ").length = 4 := rfl
  rw [bandText, inBuf_eq, h1, h2, h3, h4, h5]
  · simp [bandItems, itemsText, descriptionItem, Item.member, quoted]
  · rw [h1, h2, h3, h4]
    simp only [List.length_append, List.length_cons, List.length_nil, l1, l2, l3, l4, l5]
    omega

/-- A segment is read back up to its closing brace. -/
theorem readItem_band {e : PktBandEntry} (he : e.Numbers) (t : Bytes) {fuel : ℕ}
    (hf : (bandItems e).length < fuel) :
    readItem bandField fuel { valid := 1 }
        (itemsText (bandItems e) ++ ((descriptionItem e).member ++ closeBrace :: t)) =
      (e.reread, closeBrace :: t) := by
  obtain ⟨n, rfl⟩ : ∃ n, fuel = n + 1 + (bandItems e).length :=
    ⟨fuel - 1 - (bandItems e).length, by omega⟩
  obtain ⟨u, hu⟩ : ∃ u, (descriptionItem e).member ++ closeBrace :: t = quote :: u := ⟨_, rfl⟩
  rw [hu, HostState.readItem_items (reads_bandItems he), ← hu,
    HostState.readItem_last (reads_descriptionItem e), set_bandItems]

theorem readItems_band {e : PktBandEntry} (he : e.Numbers) (fuel : ℕ) (es : List PktBandEntry)
    (t : Bytes) :
    readItems bandField { valid := 1 } PktBandEntry.isWide MAX_BAND_SEGMENTS (fuel + 1) es
        (bandText e ++ t) =
      readItems bandField { valid := 1 } PktBandEntry.isWide MAX_BAND_SEGMENTS fuel
        (pushItem PktBandEntry.isWide MAX_BAND_SEGMENTS es e.reread) t := by
  have hlen := HostState.length_le_itemsText (bandItems e)
  rw [bandText_eq, HostState.readItems_object (by rw [List.length_append]; omega)
    fun _ hf => readItem_band he t hf, Saved.JScan.consume_cons (by decide)]

/-! ## The file -/

theorem planText_eq (bands : List Bytes) :
    planText bands = openBrace :: (ascii "\n  " ++ quote :: (ascii "bands" ++ quote :: colon ::
      (ascii " " ++ openBracket :: (ascii "\n" ++ (List.intercalate (ascii ",\n") bands ++
        (ascii "\n  ]" ++ (ascii "\n" ++ closeBrace :: ascii "\n"))))))) := by
  have hhead : ascii "\n  \"bands\": [\n" = ascii "\n  " ++ quote :: (ascii "bands" ++ quote :: colon ::
    (ascii " " ++ openBracket :: ascii "\n")) := by decide
  have htail : ascii "\n  ]\n" = ascii "\n  ]" ++ ascii "\n" := by decide
  rw [planText, hhead, htail]
  simp

/-- The segments of a file are read behind the key `bands`. -/
theorem loadFromFile_planText (bands : List Bytes) :
    loadFromFile (some (planText bands)) = readBands (ascii "\n" ++
      (List.intercalate (ascii ",\n") bands ++
        (ascii "\n  ]" ++ (ascii "\n" ++ closeBrace :: ascii "\n")))) := by
  have hsep : ∀ u, readKey (ascii "\n  " ++ u) = readKey u := fun u => HostState.readKey_congr rfl
  have hopen : ∀ u, consume openBracket (ascii " " ++ openBracket :: u) = (true, u) := fun u => rfl
  have hcons : ∀ u, loadFromFile (some (openBrace :: u)) =
      readPlan (u.length + 1) u := fun u => rfl
  rw [planText_eq, hcons]
  simp only [readPlan, hsep,
    HostState.readKey_of_unescaped (show HostState.Unescaped (ascii "bands") by decide), if_true,
    hopen]

/-- The plan that is loaded where segments whose edges are numbers were saved. -/
theorem loadFromFile_saveToFile {es : List PktBandEntry} (hlen : es.length ≤ MAX_BAND_SEGMENTS)
    (hvalid : ∀ e ∈ es, e.valid = 1) (h : ∀ e ∈ es, e.Numbers) :
    loadFromFile (some (saveToFile es)) =
      (es.map PktBandEntry.reread).filter PktBandEntry.isWide := by
  have hfilter : (es.filter fun e => e.valid ≠ 0) = es := by
    rw [List.filter_eq_self]
    intro e he
    simp [hvalid e he]
  have hfuel : es.length < (ascii "\n" ++ (List.intercalate (ascii ",\n") (es.map bandText) ++
      (ascii "\n  ]" ++ (ascii "\n" ++ closeBrace :: ascii "\n")))).length + 1 := by
    have hne : ∀ x ∈ es.map bandText, x ≠ [] := by
      intro x hx
      obtain ⟨e, -, rfl⟩ := List.mem_map.1 hx
      simp [bandText]
    have hle := length_le_intercalate (ascii ",\n") hne
    rw [List.length_map] at hle
    rw [List.length_append, List.length_append]
    omega
  have hgap : ∀ fuel es' u, readItems bandField { valid := 1 } PktBandEntry.isWide
      MAX_BAND_SEGMENTS (fuel + 1) es' (ascii "\n" ++ u) =
        readItems bandField { valid := 1 } PktBandEntry.isWide MAX_BAND_SEGMENTS (fuel + 1) es' u :=
    fun fuel es' u => HostState.readItems_sep (by decide) fuel es' u
  rw [saveToFile, hfilter, loadFromFile_planText, readBands, hgap,
    HostState.readItems_all bandText PktBandEntry.reread
      (fun e he fuel es' t => readItems_band (h e he) fuel es' t) _ hfuel,
    HostState.foldl_pushItem (by simpa using hlen), List.nil_append]

end Bewe.HostBandPlan
