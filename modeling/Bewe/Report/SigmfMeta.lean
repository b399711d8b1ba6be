import Bewe.Report.Values

/-!
# The sighting of a `.sigmf-meta`

The flat scan for a key passes over the names and the values that `write_meta` writes before it,
unless one of those values is the key or ends in a quote and the key (`Lost`). Then the scan goes on
from that value: a string is read as what stands between the name and the value of the next member,
a number as zero, and a time not at all. Otherwise what is read is what was written, so the sighting
has the values as they are, the numbers as they were printed, and neither the station nor the tags
(`sightingOf_writeMeta`).
-/

namespace Bewe.Report

open Lib
open EmitterDb (quote backslash colon openBrace lineFeed carriageReturn letterN letterR letterT tab)

/-! ## Strings -/

/-- `json_esc` writes a quote with a backslash, and uses no other byte to escape. -/
theorem escape_jsonEscByte : Escape quote backslash jsonEscByte where
  ne := by decide
  quote := rfl
  other := by
    intro c hc
    unfold jsonEscByte
    split_ifs <;> simp_all [quote, backslash, letterN, letterR, letterT]
    exact Ne.symm hc
  plain := by
    intro c
    unfold jsonEscByte
    split_ifs <;> simp

theorem readQuoted_backslash (d : UInt8) (t : Bytes) :
    readQuoted (backslash :: d :: t) = unescapeByte d :: readQuoted t := rfl

theorem readQuoted_jsonEsc (v t : Bytes) : readQuoted (jsonEsc v ++ quote :: t) = v := by
  induction v with
  | nil => cases t <;> rfl
  | cons c v ih =>
    have hcons : jsonEsc (c :: v) ++ quote :: t = jsonEscByte c ++ (jsonEsc v ++ quote :: t) := by
      simp [jsonEsc]
    have hpair : ∀ d, readQuoted ([backslash, d] ++ (jsonEsc v ++ quote :: t)) =
        unescapeByte d :: v := fun d => by
      rw [List.cons_append, List.singleton_append, readQuoted_backslash, ih]
    obtain ⟨d, u, hd⟩ := List.exists_cons_of_ne_nil (l := jsonEsc v ++ quote :: t) (by simp)
    rw [hcons]
    unfold jsonEscByte
    split_ifs with h1 h2 h3 h4 h5
    · rw [hpair, h1]; rfl
    · rw [hpair, h2]; rfl
    · rw [hpair, h3]; rfl
    · rw [hpair, h4]; rfl
    · rw [hpair, h5]; rfl
    · rw [hd, List.singleton_append, readQuoted, if_neg h1, if_neg h2, ← hd, ih]

theorem jsonEsc_isoText (tm : Tm) : jsonEsc (isoText tm) = isoText tm := by
  have hdigit : ∀ {c}, isDigit c = true → jsonEscByte c = [c] := by
    intro c hc
    obtain ⟨d, hd, rfl⟩ := exists_digitByte hc
    revert d
    decide
  have htwo : ∀ z, jsonEsc (twoDigits z) = twoDigits z := fun z =>
    (List.flatMap_congr fun c hc => hdigit (isDigit_of_mem_twoDigits hc)).trans
      (List.flatMap_singleton' _)
  have hyear : jsonEsc (natText tm.year.toNat) = natText tm.year.toNat :=
    (List.flatMap_congr fun c hc => hdigit (isDigit_of_mem_natText hc)).trans
      (List.flatMap_singleton' _)
  have happ : ∀ a b, jsonEsc (a ++ b) = jsonEsc a ++ jsonEsc b := fun a b => List.flatMap_append
  have hsep : jsonEsc (ascii "-") = ascii "-" ∧ jsonEsc (ascii "T") = ascii "T" ∧
      jsonEsc (ascii ":") = ascii ":" ∧ jsonEsc (ascii "Z") = ascii "Z" := by decide
  simp only [isoText, hmsText, happ, htwo, hyear, hsep]

/-! ## The scan -/

/-- The names of the strings that every file has. -/
def stringNames : List String :=
  ["bewe:station", "bewe:modulation", "bewe:operator", "bewe:target", "bewe:protocol",
    "bewe:signal_strength", "bewe:tags", "bewe:priority", "bewe:notes"]

/-- The keys that Central looks for. -/
def lookedFor : List String :=
  ["core:frequency", "bewe:bandwidth_hz", "bewe:duration_s", "bewe:modulation", "bewe:operator",
    "bewe:target", "bewe:protocol", "core:datetime"]

/-- The keys that `read_meta` looks for behind the sample rate. -/
def metaKeys : List String :=
  "core:frequency" :: "bewe:bandwidth_hz" :: "bewe:duration_s" :: "core:datetime" ::
    "core:recorder" :: stringNames

theorem mem_metaKeys {k : String} (hk : k ∈ lookedFor) : k ∈ metaKeys := by
  revert k
  decide

/-- The names of the members that may follow a string. -/
def nextNames : List String := "bewe:bandwidth_hz" :: stringNames

/-- The search for a key in quotes. -/
def find (k : String) (s : Bytes) : Option Bytes := findAfter (enclosed quote (ascii k)) s

/-- The members that are written before a key. -/
def Meta.before (m : Meta) (k : String) : List (String × Bytes) :=
  m.strings.takeWhile fun kv => kv.1 ≠ k

/-- Whether the scan for a key ends at a value that is written before it. -/
def Lost (m : Meta) (k : String) : Prop := ∃ kv ∈ m.before k, Mentions quote (ascii k) kv.2

instance (m : Meta) (k : String) : Decidable (Lost m k) :=
  inferInstanceAs (Decidable (∃ kv ∈ m.before k, Mentions quote (ascii k) kv.2))

theorem metaKeys_spec : ∀ k ∈ metaKeys,
    quote ∉ ascii k ∧ backslash ∉ ascii k ∧ (ascii k).flatMap jsonEscByte = ascii k := by
  decide

/-- The names of the members. -/
def memberNames : List String :=
  "core:recorder" :: "bewe:bandwidth_hz" :: "bewe:duration_s" :: "core:frequency" :: stringNames

/-- The head of a member is no other key's, and neither is what ends a value. -/
theorem clashes_kvHead : ∀ k ∈ metaKeys,
    (∀ n ∈ memberNames, n ≠ k → Clashes (enclosed quote (ascii k)) (kvHead n)) ∧
    Clashes (enclosed quote (ascii k)) (quote :: ascii ",\n") := by
  decide

/-- The keys are not in what `write_meta` writes before the strings. -/
theorem clashes_metaHead : ∀ k ∈ metaKeys,
    Clashes (enclosed quote (ascii k))
      (ascii "\x7b\n  \"global\": \x7b\n    \"core:datatype\": \"ci16_le\",\n    \"core:sample_rate\": ") ∧
    Clashes (enclosed quote (ascii k)) (ascii ",\n    \"core:version\": \"1.0.0\",\n") ∧
    Clashes (enclosed quote (ascii k))
      (ascii "  \x7d,\n  \"captures\": [\n    \x7b\n      \"core:sample_start\": 0,\n  ") := by
  decide

theorem find_kvHead (k : String) (t : Bytes) : find k (kvHead k ++ t) = some (ascii ": " ++ t) := by
  have hsplit : kvHead k ++ t = ascii "    " ++ (enclosed quote (ascii k) ++ (ascii ": " ++ t)) := by
    simp only [kvHead, enclosed, show ascii "    \"" = ascii "    " ++ [quote] from rfl,
      show ascii "\": " = quote :: ascii ": " from rfl, List.append_assoc, List.cons_append,
      List.nil_append]
  have hblank : quote ∉ ascii "    " := by decide
  rw [hsplit, find, enclosed, findAfter_append hblank]
  exact findAfter_self (enclosed quote (ascii k)) (ascii ": " ++ t)

section Scan

variable {k : String} (hk : k ∈ metaKeys)
include hk

theorem find_kvHead_of_ne {n : String} (hn : n ∈ memberNames) (hne : n ≠ k) (t : Bytes) :
    find k (kvHead n ++ t) = find k t :=
  findAfter_of_clashes ((clashes_kvHead k hk).1 n hn hne) t

omit hk in
theorem find_append {a : Bytes} (ha : quote ∉ a) (t : Bytes) : find k (a ++ t) = find k t :=
  findAfter_append ha _ t

/-- The search passes over another string, unless its value mentions the key. -/
theorem find_kvStr {n : String} (hn : n ∈ memberNames) (hne : n ≠ k) (v t : Bytes) :
    find k (kvStr n v ++ t) =
      if Mentions quote (ascii k) v then some (ascii ",\n" ++ t) else find k t := by
  obtain ⟨hq, he, hesc⟩ := metaKeys_spec k hk
  have hassoc : kvStr n v ++ t = kvHead n ++ (quote :: (v.flatMap jsonEscByte ++
      quote :: (ascii ",\n" ++ t))) := by
    simp [kvStr, jsonEsc]
  have hend := findAfter_of_clashes (clashes_kvHead k hk).2 t
  rw [List.cons_append] at hend
  rw [hassoc, find_kvHead_of_ne hk hn hne, find, findAfter_flatMap escape_jsonEscByte hesc hq he, hend,
    find]

/-- The search passes over other strings if no value mentions the key. -/
theorem find_strings {a : List (String × Bytes)}
    (hnames : ∀ kv ∈ a, kv.1 ∈ memberNames ∧ kv.1 ≠ k)
    (h : ¬ ∃ kv ∈ a, Mentions quote (ascii k) kv.2) (t : Bytes) :
    find k (a.flatMap (fun kv => kvStr kv.1 kv.2) ++ t) = find k t := by
  induction a with
  | nil => rfl
  | cons kv a ih =>
    obtain ⟨hn, hne⟩ := hnames kv (by simp)
    have hkv : ¬ Mentions quote (ascii k) kv.2 := fun hm => h ⟨kv, by simp, hm⟩
    have ha : ¬ ∃ kv ∈ a, Mentions quote (ascii k) kv.2 := fun ⟨kv', hmem, hm⟩ =>
      h ⟨kv', by simp [hmem], hm⟩
    rw [List.flatMap_cons, List.append_assoc, find_kvStr hk hn hne, if_neg hkv,
      ih (fun kv' hmem => hnames kv' (by simp [hmem])) ha]

/-- If a value mentions the key, the search ends behind it, before the next member. -/
theorem find_strings_of_mentions {a : List (String × Bytes)}
    (hnames : ∀ kv ∈ a, kv.1 ∈ memberNames ∧ kv.1 ≠ k) (htail : ∀ kv ∈ a.tail, kv.1 ∈ stringNames)
    (h : ∃ kv ∈ a, Mentions quote (ascii k) kv.2) {n : String} (hn : n ∈ nextNames) (u : Bytes) :
    ∃ n' ∈ nextNames, ∃ u', find k (a.flatMap (fun kv => kvStr kv.1 kv.2) ++ (kvHead n ++ u)) =
      some (ascii ",\n" ++ (kvHead n' ++ u')) ∧ (u.head? = some quote → u'.head? = some quote) := by
  induction a with
  | nil => obtain ⟨kv, hmem, -⟩ := h; cases hmem
  | cons kv a ih =>
    obtain ⟨hname, hne⟩ := hnames kv (by simp)
    rw [List.flatMap_cons, List.append_assoc, find_kvStr hk hname hne]
    split_ifs with hm
    · cases a with
      | nil => exact ⟨n, hn, u, rfl, id⟩
      | cons kv' a =>
        refine ⟨kv'.1, List.mem_cons_of_mem _ (htail kv' (by simp)),
          quote :: (jsonEsc kv'.2 ++ quote :: ascii ",\n") ++
            (a.flatMap (fun kv => kvStr kv.1 kv.2) ++ (kvHead n ++ u)), ?_, fun _ => rfl⟩
        rw [List.flatMap_cons, kvStr, List.append_assoc, List.append_assoc]
    · refine ih (fun kv' hmem => hnames kv' (by simp [hmem]))
        (fun kv' hmem => htail kv' (List.mem_of_mem_tail hmem)) ?_
      obtain ⟨kv', hmem, hm'⟩ := h
      rcases List.mem_cons.mp hmem with rfl | hmem
      · exact absurd hm' hm
      · exact ⟨kv', hmem, hm'⟩

omit hk in
/-- Between the end of a value and the next colon there is the first part of the next name. -/
theorem findAfter_colon_next {n : String} (hn : n ∈ nextNames) (u : Bytes) :
    findAfter [colon] (ascii ",\n" ++ (kvHead n ++ u)) =
      some ((ascii n).drop 5 ++ (quote :: (ascii ": " ++ u))) := by
  have hsplit : ∀ n ∈ nextNames, ascii ",\n" ++ kvHead n =
      ascii ",\n    \"bewe" ++ ([colon] ++ ((ascii n).drop 5 ++ quote :: ascii ": ")) := by
    decide
  have hcolon : colon ∉ ascii ",\n    \"bewe" := by decide
  have hassoc : ascii ",\n" ++ (kvHead n ++ u) = ascii ",\n    \"bewe" ++
      ([colon] ++ ((ascii n).drop 5 ++ quote :: (ascii ": " ++ u))) := by
    rw [← List.append_assoc, hsplit n hn]
    simp only [List.append_assoc, List.cons_append]
  rw [hassoc, findAfter_append hcolon, findAfter_self]

omit hk in
theorem atof_next {n : String} (hn : n ∈ nextNames) (t : Bytes) :
    atof ((ascii n).drop 5 ++ t) = 0 := by
  have hletters : ∀ n ∈ nextNames, ∃ c d w, (ascii n).drop 5 = c :: d :: w ∧ isSpace c = false ∧
      isDigit c = false ∧ (c ≠ minusByte ∧ c ≠ plusByte ∧ c ≠ dotByte) ∧ lowerLetter c ≠ 105 ∧
        (lowerLetter c ≠ 110 ∨ lowerLetter d ≠ 97) := by
    simp only [nextNames, stringNames, List.forall_mem_cons]
    refine ⟨?_, ?_, ?_, ?_, ?_, ?_, ?_, ?_, ?_, ?_, by simp⟩ <;>
      exact ⟨_, _, _, rfl, by decide, by decide, by decide, by decide, by decide⟩
  obtain ⟨c, d, w, hw, h1, h2, h3, h4, h5⟩ := hletters n hn
  rw [hw]
  exact atof_of_letter h1 h2 h3 h4 h5 (w ++ t)

omit hk in
theorem findAfter_quote_next {n : String} (hn : n ∈ nextNames) (u : Bytes) :
    findAfter [quote] ((ascii n).drop 5 ++ (quote :: (ascii ": " ++ u))) = some (ascii ": " ++ u) := by
  have hquote : ∀ n ∈ nextNames, quote ∉ (ascii n).drop 5 := by decide
  rw [findAfter_append (hquote n hn)]
  exact findAfter_self [quote] (ascii ": " ++ u)

omit hk in
theorem metaFindNum_of_find {s t : Bytes} (h : find k s = some (ascii ": " ++ t)) :
    metaFindNum s k = some (atof t) := by
  have hcolon : findAfter [colon] (ascii ": " ++ t) = some (32 :: t) :=
    findAfter_self [colon] (32 :: t)
  rw [find] at h
  simp only [metaFindNum, h, hcolon, Option.bind_eq_bind, Option.bind_some, atof_blank]

omit hk in
/-- Behind a value that mentions its key a number is read as zero. -/
theorem metaFindNum_of_next {s : Bytes} {n : String} (hn : n ∈ nextNames) {u : Bytes}
    (h : find k s = some (ascii ",\n" ++ (kvHead n ++ u))) : metaFindNum s k = some 0 := by
  rw [find] at h
  simp only [metaFindNum, h, findAfter_colon_next hn, Option.bind_eq_bind, Option.bind_some,
    atof_next hn]

omit hk in
theorem metaFindStr_of_find {s v t : Bytes}
    (h : find k s = some (ascii ": " ++ (quote :: (jsonEsc v ++ quote :: t)))) :
    metaFindStr s k = some v := by
  have hcolon : findAfter [colon] (ascii ": " ++ (quote :: (jsonEsc v ++ quote :: t))) =
      some (ascii " " ++ (quote :: (jsonEsc v ++ quote :: t))) :=
    findAfter_self [colon] (ascii " " ++ (quote :: (jsonEsc v ++ quote :: t)))
  have hblank : quote ∉ ascii " " := by decide
  have hquote : findAfter [quote] (ascii " " ++ (quote :: (jsonEsc v ++ quote :: t))) =
      some (jsonEsc v ++ quote :: t) := by
    rw [findAfter_append hblank]
    exact findAfter_self [quote] (jsonEsc v ++ quote :: t)
  rw [find] at h
  simp only [metaFindStr, h, hcolon, hquote, Option.bind_eq_bind, Option.bind_some,
    readQuoted_jsonEsc]

omit hk in
/-- Behind a value that mentions its key a string is read from the colon behind the next name on. -/
theorem metaFindStr_of_next {s : Bytes} {n : String} (hn : n ∈ nextNames) {u : Bytes}
    (h : find k s = some (ascii ",\n" ++ (kvHead n ++ u))) :
    metaFindStr s k = some (readQuoted (ascii ": " ++ u)) := by
  rw [find] at h
  simp only [metaFindStr, h, findAfter_colon_next hn, findAfter_quote_next hn, Option.bind_eq_bind,
    Option.bind_some]

/-! ## The file -/

omit hk in
theorem names_strings (m : Meta) :
    m.strings.map Prod.fst = stringNames ∨ m.strings.map Prod.fst = "core:recorder" :: stringNames := by
  unfold Meta.strings
  split_ifs
  · exact .inl rfl
  · exact .inr rfl

omit hk in
theorem mem_stringNames_of_mem_tail {m : Meta} {kv : String × Bytes} (h : kv ∈ m.strings.tail) :
    kv.1 ∈ stringNames := by
  have hmem : kv.1 ∈ (m.strings.map Prod.fst).tail := by
    rw [← List.map_tail]
    exact List.mem_map_of_mem h
  rcases names_strings m with hnames | hnames
  · rw [hnames] at hmem
    exact List.mem_of_mem_tail hmem
  · rw [hnames] at hmem
    exact hmem

omit hk in
theorem before_spec (m : Meta) (k : String) :
    (∀ kv ∈ m.before k, kv.1 ∈ memberNames ∧ kv.1 ≠ k) ∧
      ∀ kv ∈ (m.before k).tail, kv.1 ∈ stringNames := by
  have hbegin : m.before k <+: m.strings := List.takeWhile_prefix _
  refine ⟨fun kv hkv => ⟨?_, ?_⟩, fun kv hkv => ?_⟩
  · have hmem : kv.1 ∈ m.strings.map Prod.fst := List.mem_map_of_mem (hbegin.subset hkv)
    rcases names_strings m with hnames | hnames
    · rw [hnames] at hmem
      exact List.mem_cons_of_mem _ (List.mem_cons_of_mem _ (List.mem_cons_of_mem _
        (List.mem_cons_of_mem _ hmem)))
    · rw [hnames] at hmem
      rcases List.mem_cons.mp hmem with h | h
      · rw [h]
        exact List.mem_cons_self
      · exact List.mem_cons_of_mem _ (List.mem_cons_of_mem _ (List.mem_cons_of_mem _
          (List.mem_cons_of_mem _ h)))
  · exact of_decide_eq_true
      (List.mem_takeWhile_imp (p := fun kv : String × Bytes => decide (kv.1 ≠ k)) hkv)
  · exact mem_stringNames_of_mem_tail (hbegin.sublist.tail.subset hkv)

omit hk in
theorem exists_takeWhile_append {l : List (String × Bytes)} (hnodup : (l.map Prod.fst).Nodup)
    {v : Bytes} (h : (k, v) ∈ l) :
    ∃ rest, l = l.takeWhile (fun kv => decide (kv.1 ≠ k)) ++ (k, v) :: rest := by
  induction l with
  | nil => cases h
  | cons kv l ih =>
    rw [List.map_cons, List.nodup_cons] at hnodup
    rcases List.mem_cons.mp h with rfl | h
    · exact ⟨l, by simp⟩
    · have hne : kv.1 ≠ k := fun heq => hnodup.1 (heq ▸ List.mem_map_of_mem (f := Prod.fst) h)
      obtain ⟨rest, hrest⟩ := ih hnodup.2 h
      refine ⟨rest, ?_⟩
      rw [List.takeWhile_cons_of_pos (by simpa using hne), List.cons_append, ← hrest]

theorem find_metaHead (m : Meta) (t : Bytes) : find k (metaHead m ++ t) = find k t := by
  have hdigits : quote ∉ natText m.sample_rate.toNat := fun h =>
    absurd (isDigit_of_mem_natText h) (by decide)
  obtain ⟨h1, h2, -⟩ := clashes_metaHead k hk
  rw [metaHead, List.append_assoc, List.append_assoc, find, findAfter_of_clashes h1, ← find,
    find_append hdigits, find, findAfter_of_clashes h2, find]

theorem metaFindStr_writeMeta (m : Meta) (hname : k ∈ stringNames) {v : Bytes}
    (h : (k, v) ∈ m.strings) :
    metaFindStr (writeMeta m) k = some (if Lost m k then ascii ": " else v) := by
  obtain ⟨hnames, htail⟩ := before_spec m k
  have hnodup : (m.strings.map Prod.fst).Nodup := by
    rcases names_strings m with hn | hn <;> rw [hn] <;> decide
  obtain ⟨rest, hrest⟩ := exists_takeWhile_append hnodup h
  obtain ⟨t, htext⟩ : ∃ t, find k (writeMeta m) =
      find k ((m.before k).flatMap (fun kv => kvStr kv.1 kv.2) ++
        (kvHead k ++ (quote :: (jsonEsc v ++ quote :: t)))) := by
    refine ⟨ascii ",\n" ++ (rest.flatMap (fun kv => kvStr kv.1 kv.2) ++ metaTail m), ?_⟩
    rw [writeMeta, find_metaHead hk]
    nth_rewrite 1 [hrest]
    simp only [List.flatMap_append, List.flatMap_cons, kvStr, List.append_assoc, List.cons_append]
    rfl
  split_ifs with hlost
  · obtain ⟨n, hn, u, hfind, hhead⟩ := find_strings_of_mentions hk hnames htail hlost
      (List.mem_cons_of_mem _ hname) (quote :: (jsonEsc v ++ quote :: t))
    obtain ⟨w, rfl⟩ : ∃ w, u = quote :: w := by
      cases u with
      | nil => simp at hhead
      | cons c w =>
        obtain rfl : c = quote := by simpa using hhead
        exact ⟨w, rfl⟩
    have hread := readQuoted_jsonEsc (ascii ": ") w
    rw [show jsonEsc (ascii ": ") = ascii ": " by decide] at hread
    rw [metaFindStr_of_next hn (htext.trans hfind), hread]
  · rw [find_strings hk hnames hlost, find_kvHead] at htext
    exact metaFindStr_of_find htext

end Scan

/-! ## The numbers and the time -/

variable (r : Recording)

/-- What `write_meta` writes behind the name of the frequency. -/
def freqRest (m : Meta) : Bytes :=
  natText m.center_freq_hz.toNat ++ (ascii ",\n  " ++ (kvHead "core:datetime" ++
    (quote :: (jsonEsc (isoText (gmtime m.start_unix.toNat)) ++ quote :: (ascii "\n" ++
      ascii "    \x7d\n  ],\n  \"annotations\": []\n\x7d\n")))))

/-- What it writes behind the name of the duration. -/
def durRest (m : Meta) : Bytes :=
  fmtFixed 1 m.duration_s ++ (ascii "\n" ++
    (ascii "  \x7d,\n  \"captures\": [\n    \x7b\n      \"core:sample_start\": 0,\n  " ++
      (kvHead "core:frequency" ++ freqRest m)))

/-- What it writes behind the name of the bandwidth. -/
def bwRest (m : Meta) : Bytes :=
  fmtFixed 1 m.bandwidth_hz ++ (ascii ",\n" ++ (kvHead "bewe:duration_s" ++ durRest m))

theorem metaTail_eq : metaTail r.toMeta = kvHead "bewe:bandwidth_hz" ++ bwRest r.toMeta := by
  have hbw := length_fmtFixed_le (n := 1) (k := 41) (by norm_num) (by norm_num) r.bandwidth_nonneg
    (by linarith [r.bandwidth_lt])
  have hdur := length_fmtFixed_le (n := 1) (k := 41) (by norm_num) (by norm_num) r.duration_nonneg
    (by linarith [r.duration_lt])
  have h1 : (kvHead "bewe:bandwidth_hz" ++ (fmtFixed 1 r.bandwidth_hz ++ ascii ",\n")).length ≤ 79 := by
    have hhead : (kvHead "bewe:bandwidth_hz").length = 25 := rfl
    have hend : (ascii ",\n").length = 2 := rfl
    simp only [List.length_append, hhead, hend]
    omega
  have h2 : (kvHead "bewe:duration_s" ++ (fmtFixed 1 r.duration_s ++ ascii "\n")).length ≤ 79 := by
    have hhead : (kvHead "bewe:duration_s").length = 23 := rfl
    have hend : (ascii "\n").length = 1 := rfl
    simp only [List.length_append, hhead, hend]
    omega
  rw [metaTail, List.take_of_length_le h1, List.take_of_length_le h2, if_pos r.start_pos]
  simp only [bwRest, durRest, freqRest, jsonEsc_isoText, List.append_assoc, List.cons_append]

/-- The search for a key passes over the numbers behind the strings. -/
theorem find_rest {k : String} (hk : k ∈ metaKeys) (m : Meta) :
    find k (bwRest m) = find k (kvHead "bewe:duration_s" ++ durRest m) ∧
      find k (durRest m) = find k (kvHead "core:frequency" ++ freqRest m) ∧
      find k (freqRest m) = find k (kvHead "core:datetime" ++ (quote ::
        (jsonEsc (isoText (gmtime m.start_unix.toNat)) ++ quote :: (ascii "\n" ++
          ascii "    \x7d\n  ],\n  \"annotations\": []\n\x7d\n")))) := by
  have hnum : ∀ q, quote ∉ fmtFixed 1 q := fun q h =>
    absurd (isNumByte_of_mem_fmtFixed h) (by decide)
  have hdigits : quote ∉ natText m.center_freq_hz.toNat := fun h =>
    absurd (isDigit_of_mem_natText h) (by decide)
  have hsep : quote ∉ ascii ",\n" ∧ quote ∉ ascii "\n" ∧ quote ∉ ascii ",\n  " := by decide
  refine ⟨?_, ?_, ?_⟩
  · rw [bwRest, find_append (hnum _), find_append hsep.1]
  · rw [durRest, find_append (hnum _), find_append hsep.2.1, find,
      findAfter_of_clashes (clashes_metaHead k hk).2.2, find]
  · rw [freqRest, find_append hdigits, find_append hsep.2.2]

/-- The keys that stand behind the strings. -/
def restKeys : List String :=
  ["core:frequency", "bewe:bandwidth_hz", "bewe:duration_s", "core:datetime"]

theorem before_eq {k : String} (hk : k ∈ restKeys) (m : Meta) : m.before k = m.strings := by
  have hne : ∀ k ∈ restKeys, ∀ n ∈ "core:recorder" :: stringNames, n ≠ k := by decide
  refine List.takeWhile_eq_self_iff.mpr fun kv hkv => decide_eq_true (hne k hk kv.1 ?_)
  have hmem : kv.1 ∈ m.strings.map Prod.fst := List.mem_map_of_mem hkv
  rcases names_strings m with hn | hn
  · exact List.mem_cons_of_mem _ (hn ▸ hmem)
  · exact hn ▸ hmem

theorem mem_lookedFor {k : String} (hk : k ∈ restKeys) : k ∈ lookedFor := by
  revert k
  decide

/-- If such a key is not lost, the search goes on behind the strings. -/
theorem find_writeMeta {k : String} (hk : k ∈ restKeys) (hlost : ¬ Lost r.toMeta k) :
    find k (writeMeta r.toMeta) = find k (kvHead "bewe:bandwidth_hz" ++ bwRest r.toMeta) := by
  rw [writeMeta, find_metaHead (mem_metaKeys (mem_lookedFor hk)), ← before_eq hk,
    find_strings (mem_metaKeys (mem_lookedFor hk)) (before_spec _ k).1 hlost, metaTail_eq]

/-- If it is, the search ends before a member that follows a string. -/
theorem find_writeMeta_of_lost {k : String} (hk : k ∈ restKeys) (hlost : Lost r.toMeta k) :
    ∃ n ∈ nextNames, ∃ u, find k (writeMeta r.toMeta) = some (ascii ",\n" ++ (kvHead n ++ u)) := by
  obtain ⟨hnames, htail⟩ := before_spec r.toMeta k
  obtain ⟨n, hn, u, hfind, -⟩ := find_strings_of_mentions (mem_metaKeys (mem_lookedFor hk)) hnames htail hlost
    (n := "bewe:bandwidth_hz") (by decide) (bwRest r.toMeta)
  refine ⟨n, hn, u, ?_⟩
  rw [writeMeta, find_metaHead (mem_metaKeys (mem_lookedFor hk)), ← before_eq hk, metaTail_eq]
  exact hfind

/-- A number behind the strings is read as it was written, or as zero. -/
theorem metaFindNum_writeMeta {k : String} (hk : k ∈ restKeys) {t : Bytes}
    (h : find k (kvHead "bewe:bandwidth_hz" ++ bwRest r.toMeta) = some (ascii ": " ++ t)) :
    metaFindNum (writeMeta r.toMeta) k = some (if Lost r.toMeta k then 0 else atof t) := by
  split_ifs with hlost
  · obtain ⟨n, hn, u, hfind⟩ := find_writeMeta_of_lost r hk hlost
    exact metaFindNum_of_next hn hfind
  · exact metaFindNum_of_find ((find_writeMeta r hk hlost).trans h)

theorem metaFindNum_bandwidth :
    metaFindNum (writeMeta r.toMeta) "bewe:bandwidth_hz" =
      some (if Lost r.toMeta "bewe:bandwidth_hz" then 0 else double (roundFixed 1 r.bandwidth_hz)) := by
  have hends : EndsNumber (ascii ",\n" ++ (kvHead "bewe:duration_s" ++ durRest r.toMeta)) := by
    intro c hc
    obtain rfl : 44 = c := Option.some.inj hc
    decide
  rw [metaFindNum_writeMeta r (by decide) (find_kvHead _ _), bwRest, atof_fmtFixed one_pos _ hends]
  rfl

theorem metaFindNum_duration :
    metaFindNum (writeMeta r.toMeta) "bewe:duration_s" =
      some (if Lost r.toMeta "bewe:duration_s" then 0 else double (roundFixed 1 r.duration_s)) := by
  have hk : "bewe:duration_s" ∈ metaKeys := by decide
  have hfind : find "bewe:duration_s" (kvHead "bewe:bandwidth_hz" ++ bwRest r.toMeta) =
      some (ascii ": " ++ durRest r.toMeta) := by
    rw [find_kvHead_of_ne hk (by decide) (by decide), (find_rest hk _).1, find_kvHead]
  have hends : ∀ t, EndsNumber (ascii "\n" ++ t) := by
    intro t c hc
    obtain rfl : 10 = c := Option.some.inj hc
    decide
  rw [metaFindNum_writeMeta r (by decide) hfind, durRest, atof_fmtFixed one_pos _ (hends _)]
  rfl

theorem metaFindNum_frequency :
    metaFindNum (writeMeta r.toMeta) "core:frequency" =
      some (if Lost r.toMeta "core:frequency" then 0 else double r.center_freq_hz.toNat) := by
  have hk : "core:frequency" ∈ metaKeys := by decide
  have hfind : find "core:frequency" (kvHead "bewe:bandwidth_hz" ++ bwRest r.toMeta) =
      some (ascii ": " ++ freqRest r.toMeta) := by
    rw [find_kvHead_of_ne hk (by decide) (by decide), (find_rest hk _).1,
      find_kvHead_of_ne hk (by decide) (by decide), (find_rest hk _).2.1, find_kvHead]
  have hends : ∀ t, EndsNumber (ascii ",\n  " ++ t) := by
    intro t c hc
    obtain rfl : 44 = c := Option.some.inj hc
    decide
  rw [metaFindNum_writeMeta r (by decide) hfind, freqRest, atof_natText _ (hends _)]
  rfl

theorem strptimeIso_colon (s : Bytes) : strptimeIso (colon :: s) = none := by
  have hget : getNumber 0 9999 4 (colon :: s) = none := getNumber_eq_none (by decide) rfl
  rw [strptimeIso, hget]
  rfl

theorem strptimeIso_writeMeta :
    ((metaFindStr (writeMeta r.toMeta) "core:datetime").filter (· ≠ [])).bind strptimeIso =
      if Lost r.toMeta "core:datetime" ∨ 253402300800 ≤ r.start_unix then none
      else some (gmtime r.start_unix.toNat) := by
  have hpos := r.start_pos
  by_cases hlost : Lost r.toMeta "core:datetime"
  · obtain ⟨n, hn, u, hfind⟩ := find_writeMeta_of_lost r (by decide) hlost
    have hread : readQuoted (ascii ": " ++ u) = colon :: readQuoted (32 :: u) := rfl
    rw [if_pos (.inl hlost), metaFindStr_of_next hn hfind, hread]
    simp [Option.filter, strptimeIso_colon]
  · have hk : "core:datetime" ∈ metaKeys := by decide
    have hfind := find_writeMeta r (by decide) hlost
    rw [find_kvHead_of_ne hk (by decide) (by decide), (find_rest hk _).1,
      find_kvHead_of_ne hk (by decide) (by decide), (find_rest hk _).2.1,
      find_kvHead_of_ne hk (by decide) (by decide), (find_rest hk _).2.2, find_kvHead] at hfind
    have hne : isoText (gmtime r.start_unix.toNat) ≠ [] := by
      simp [isoText, natText_ne_nil]
    have hiff : r.start_unix.toNat < 253402300800 ↔ ¬ 253402300800 ≤ r.start_unix := by omega
    rw [metaFindStr_of_find hfind, Option.filter_some_pos (by simpa using hne), Option.bind_some,
      strptimeIso_isoText]
    simp only [hiff, hlost, false_or, ite_not]

/-! ## The fields -/

/-- The frequency of the sighting for the number that is read. -/
def mhzOf (d : ℚ) : ℚ := shown 6 (double (d / 10 ^ 6))

/-- The bandwidth of the sighting for the number that is read. -/
def khzOf (d : ℚ) : ℚ := shown 3 (double (d / 1000))

/-- What a lost string is read as. -/
def readStr (m : Meta) (k : String) (v : Bytes) : Bytes := if Lost m k then ascii ": " else v

/-- The number that is read, zero if it is lost. -/
def readNum (m : Meta) (k : String) (d : ℚ) : ℚ := if Lost m k then 0 else d

/-- A number of at most this size is printed into the buffer of `parse`. -/
theorem buf64_fmtFixed {n : ℕ} (hn : 0 < n) (hn6 : n ≤ 6) {q : ℚ} (hq : 0 ≤ q) (hlt : q ≤ 10 ^ 41)
    {u : Bytes} (hu : u.length ≤ 4) : buf64 (fmtFixed n q ++ u) = fmtFixed n q ++ u := by
  have hlen := length_fmtFixed_le (k := 42) hn (by norm_num) hq (by linarith)
  refine List.take_of_length_le ?_
  rw [List.length_append]
  omega

/-- The rounding of a `double` does not make a number much larger. -/
theorem double_le {q b : ℚ} (hq : 0 ≤ q) (hb : q ≤ b) : double q ≤ 2 * b := by
  have h := (abs_le.1 (abs_double_sub_le_mul hq)).2
  have hsmall : q / 2 ^ 53 ≤ q := div_le_self hq (by norm_num)
  linarith

theorem roundFixed_le (n : ℕ) (q : ℚ) : roundFixed n q ≤ q + 1 := by
  have h := (abs_le.1 (abs_roundFixed_sub_le n q)).2
  have hpow : (1 : ℚ) ≤ 10 ^ n := one_le_pow₀ (by norm_num)
  have hhalf : 1 / (2 * 10 ^ n : ℚ) ≤ 1 := by
    rw [div_le_one (by positivity)]
    linarith
  linarith

theorem readNum_mem (m : Meta) (k : String) {d b : ℚ} (h0 : 0 ≤ d) (hb : d ≤ b) :
    0 ≤ readNum m k d ∧ readNum m k d ≤ b := by
  unfold readNum
  split_ifs
  · exact ⟨le_rfl, h0.trans hb⟩
  · exact ⟨h0, hb⟩

theorem Kv.put_self (m : Kv) (k : String) (v : Option Bytes) (h : m (ascii k) = none) :
    m.put k v (ascii k) = v := by
  cases v with
  | none => simpa [Kv.put] using h
  | some v => simp [Kv.put]

theorem Kv.put_of_ne (m : Kv) {k : String} {a : Bytes} (h : a ≠ ascii k) (v : Option Bytes) :
    m.put k v a = m a := by
  cases v with
  | none => simp [Kv.put]
  | some v => simp [Kv.put, h]

theorem parseMeta_apply (text : Bytes) :
    parseMeta text (ascii "Location") = none ∧ parseMeta text (ascii "Tags") = none ∧
    parseMeta text (ascii "Frequency") = ((metaFindNum text "core:frequency").map fun d =>
      buf64 (fmtFixed 6 (double (d / 10 ^ 6)) ++ ascii " MHz")) ∧
    parseMeta text (ascii "Bandwidth") = ((metaFindNum text "bewe:bandwidth_hz").map fun d =>
      buf64 (fmtFixed 3 (double (d / 1000)) ++ ascii " kHz")) ∧
    parseMeta text (ascii "Duration") = ((metaFindNum text "bewe:duration_s").map fun d =>
      buf64 (fmtFixed 1 d ++ ascii " s")) ∧
    parseMeta text (ascii "Modulation") = metaFindStr text "bewe:modulation" ∧
    parseMeta text (ascii "Operator") = metaFindStr text "bewe:operator" ∧
    parseMeta text (ascii "Target") = metaFindStr text "bewe:target" ∧
    parseMeta text (ascii "Protocol") = metaFindStr text "bewe:protocol" ∧
    parseMeta text (ascii "Day") =
      (((metaFindStr text "core:datetime").filter (· ≠ [])).bind strptimeIso).map dayText ∧
    parseMeta text (ascii "Up Time") =
      (((metaFindStr text "core:datetime").filter (· ≠ [])).bind strptimeIso).map
        fun g => hmsText g ++ ascii " UTC+0" := by
  refine ⟨?_, ?_, ?_, ?_, ?_, ?_, ?_, ?_, ?_, ?_, ?_⟩ <;>
    simp (disch := first | decide | simp (disch := decide) only [Kv.put_of_ne]) only
      [parseMeta, Kv.put_of_ne, Kv.put_self]

theorem sightingOf_writeMeta (sightingIdFrom : Bytes → Bytes → Bytes) (filename reporter : Bytes) :
    sightingOf sightingIdFrom filename reporter (writeMeta r.toMeta) =
      { sighting_id := sightingIdFrom filename reporter
        filename
        reporter
        station := reporter
        freq_mhz := mhzOf (readNum r.toMeta "core:frequency" (double r.center_freq_hz.toNat))
        bw_khz := khzOf (readNum r.toMeta "bewe:bandwidth_hz" (double (roundFixed 1 r.bandwidth_hz)))
        modulation := readStr r.toMeta "bewe:modulation" r.modulation
        protocol := readStr r.toMeta "bewe:protocol" r.protocol
        target := readStr r.toMeta "bewe:target" r.target
        tags := []
        operator_name := readStr r.toMeta "bewe:operator" r.op
        start_utc :=
          if Lost r.toMeta "core:datetime" ∨ 253402300800 ≤ r.start_unix then 0 else r.start_unix
        duration_s :=
          wholeSeconds (readNum r.toMeta "bewe:duration_s" (double (roundFixed 1 r.duration_s))) } := by
  have hhead : ∃ t, writeMeta r.toMeta = openBrace :: t := by
    have hbrace : ∀ u, ∃ t, ascii
        "\x7b\n  \"global\": \x7b\n    \"core:datatype\": \"ci16_le\",\n    \"core:sample_rate\": " ++ u =
          openBrace :: t := fun u => ⟨_, rfl⟩
    rw [writeMeta, metaHead, List.append_assoc, List.append_assoc]
    exact hbrace _
  obtain ⟨t, hhead⟩ := hhead
  have hparse : parse (writeMeta r.toMeta) = parseMeta (writeMeta r.toMeta) := by
    rw [parse, if_pos]
    rw [hhead, List.dropWhile_cons_of_neg (by decide)]
    rfl
  have hne : writeMeta r.toMeta ≠ [] := by simp [hhead]
  obtain ⟨hloc, htags, hfreq, hbw, hdur, hmod, hop, htgt, hprot, hday, hup⟩ :=
    parseMeta_apply (writeMeta r.toMeta)
  have hstr : ∀ {k v}, k ∈ stringNames → k ∈ lookedFor → (k, v) ∈ r.strings →
      metaFindStr (writeMeta r.toMeta) k = some (readStr r.toMeta k v) :=
    fun hn hk h => metaFindStr_writeMeta (mem_metaKeys hk) r.toMeta hn h
  rw [hstr (v := r.modulation) (by decide) (by decide) (by simp [Meta.strings])] at hmod
  rw [hstr (v := r.op) (by decide) (by decide) (by simp [Meta.strings])] at hop
  rw [hstr (v := r.target) (by decide) (by decide) (by simp [Meta.strings])] at htgt
  rw [hstr (v := r.protocol) (by decide) (by decide) (by simp [Meta.strings])] at hprot
  rw [metaFindNum_frequency, ← readNum, Option.map_some] at hfreq
  rw [metaFindNum_bandwidth, ← readNum, Option.map_some] at hbw
  rw [metaFindNum_duration, ← readNum, Option.map_some] at hdur
  rw [strptimeIso_writeMeta] at hday hup
  have hstart : ((parse (writeMeta r.toMeta) (ascii "Day")).bind fun day =>
      (parse (writeMeta r.toMeta) (ascii "Up Time")).bind fun time =>
        extractStartUtc day time).getD 0 =
      if Lost r.toMeta "core:datetime" ∨ 253402300800 ≤ r.start_unix then 0 else r.start_unix := by
    rw [hparse, hday, hup]
    split_ifs
    · rfl
    · simp only [Option.map_some, Option.bind_some, extractStartUtc_utc, Option.getD_some,
        Int.toNat_of_nonneg r.start_pos.le]
  -- what is printed for `parse` fits its buffer
  have hhz : (r.center_freq_hz.toNat : ℚ) ≤ 2 ^ 64 := by
    exact_mod_cast r.center_freq_hz.toNat_lt.le
  obtain ⟨hf0, hf1⟩ := readNum_mem r.toMeta "core:frequency" (double_nonneg (by positivity))
    (double_le (by positivity) hhz)
  obtain ⟨hb0, hb1⟩ := readNum_mem r.toMeta "bewe:bandwidth_hz"
    (double_nonneg (roundFixed_nonneg 1 r.bandwidth_nonneg))
    (double_le (roundFixed_nonneg 1 r.bandwidth_nonneg)
      ((roundFixed_le 1 r.bandwidth_hz).trans (add_le_add_left r.bandwidth_lt.le 1)))
  obtain ⟨hd0, hd1⟩ := readNum_mem r.toMeta "bewe:duration_s"
    (double_nonneg (roundFixed_nonneg 1 r.duration_nonneg))
    (double_le (roundFixed_nonneg 1 r.duration_nonneg)
      ((roundFixed_le 1 r.duration_s).trans (add_le_add_left r.duration_lt.le 1)))
  generalize hdf : readNum r.toMeta "core:frequency" _ = df at *
  generalize hdb : readNum r.toMeta "bewe:bandwidth_hz" _ = db at *
  generalize hdd : readNum r.toMeta "bewe:duration_s" _ = dd at *
  have hf2 : 0 ≤ df / 10 ^ 6 := by positivity
  have hb2 : 0 ≤ db / 1000 := by positivity
  have hf3 : double (df / 10 ^ 6) ≤ 10 ^ 41 :=
    (double_le hf2 (b := 10 ^ 40) (by linarith)).trans (by norm_num)
  have hb3 : double (db / 1000) ≤ 10 ^ 41 :=
    (double_le hb2 (b := 10 ^ 40) (by linarith)).trans (by norm_num)
  rw [buf64_fmtFixed (by norm_num) (by norm_num) (double_nonneg hf2) hf3 (by decide)] at hfreq
  rw [buf64_fmtFixed (by norm_num) (by norm_num) (double_nonneg hb2) hb3 (by decide)] at hbw
  rw [buf64_fmtFixed (by norm_num) (by norm_num) hd0 (by linarith) (by decide)] at hdur
  simp only [sightingOf, if_neg hne, hstart]
  simp only [hparse, hloc, htags, hfreq, hbw, hdur, hmod, hop, htgt, hprot, Option.bind_some,
    extractFreqMhz_fmtFixed (n := 6) (by norm_num), extractBwKhz_fmtFixed (n := 3) (by norm_num),
    extractDurationS_fmtFixed hd0, Option.getD_some, Option.getD_none, Option.filter_none]
  rfl

end Bewe.Report
