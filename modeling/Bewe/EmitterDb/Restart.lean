import Bewe.EmitterDb.Index
import Bewe.EmitterDb.RoundTrip

/-!
# The signal library across a restart

A restart saves both maps and loads them again (`restart`). A line holds one record and no line
feed, so the loader sees the lines that were written, and every record comes back as its line keeps
it. What a line does not keep is the precision of a frequency: six significant digits, which is 1
kHz up to 1000 MHz and 10 kHz from there on. `preserved_restart_iff` compares that with the
tolerance of the matcher.
-/

namespace Bewe.EmitterDb

open Lib

/-! ## Lines -/

theorem lineFeed_not_mem_jsEscape (v : Bytes) : lineFeed ∉ jsEscape v := by
  have hhex : ∀ d < 16, hexByte d ≠ lineFeed := by decide
  have hbyte : ∀ c, lineFeed ∉ escapeByte c := by
    intro c hc
    unfold escapeByte at hc
    split_ifs at hc with h1 h2 h3 h4 h5 h6
    · exact absurd hc (by decide)
    · exact absurd hc (by decide)
    · exact absurd hc (by decide)
    · exact absurd hc (by decide)
    · exact absurd hc (by decide)
    · have hn : c.toNat < 32 := h6
      have hl := hhex (c.toNat % 16) (Nat.mod_lt _ (by norm_num))
      have hh := hhex (c.toNat / 16) (by omega)
      have h0 := hhex 0 (by norm_num)
      simp only [List.mem_cons, List.not_mem_nil, or_false] at hc
      rcases hc with h | h | h | h | h | h
      · exact absurd h (by decide)
      · exact absurd h (by decide)
      · exact h0 h.symm
      · exact h0 h.symm
      · exact hh h.symm
      · exact hl h.symm
    · exact h3 (List.mem_singleton.mp hc).symm
  intro h
  obtain ⟨c, -, hc⟩ := List.mem_flatMap.mp h
  exact hbyte c hc

theorem lineFeed_not_mem_strText (v : Bytes) : lineFeed ∉ strText v := by
  have hq : lineFeed ≠ quote := by decide
  simp [strText, lineFeed_not_mem_jsEscape v, hq]

theorem lineFeed_not_mem_arrText (vs : List Bytes) : lineFeed ∉ arrText vs := by
  have hb : lineFeed ≠ openBracket ∧ lineFeed ≠ closeBracket := by decide
  have hj := not_mem_intercalate (show lineFeed ∉ [comma] by decide)
    (show ∀ x ∈ vs.map strText, lineFeed ∉ x by simp [lineFeed_not_mem_strText])
  simp [arrText, hj, hb]

theorem lineFeed_not_mem_of_isNumByte {s : Bytes} (h : ∀ c ∈ s, isNumByte c = true) :
    lineFeed ∉ s := fun hl => absurd (h _ hl) (by decide)

theorem lineFeed_not_mem_fmtG (q : ℚ) : lineFeed ∉ fmtG 6 q :=
  lineFeed_not_mem_of_isNumByte (fmtG_text 6 q).1

theorem lineFeed_not_mem_intText (z : ℤ) : lineFeed ∉ intText z :=
  lineFeed_not_mem_of_isNumByte fun _ hc => isNumByte_of_mem_intText hc

theorem lineFeed_not_mem_member {k : String} (hk : lineFeed ∉ ascii k) {v : Bytes}
    (hv : lineFeed ∉ v) : lineFeed ∉ member k v := by
  have hq : lineFeed ≠ quote ∧ lineFeed ≠ colon := by decide
  simp [member, hk, hv, hq]

theorem lineFeed_not_mem_object {ms : List Bytes} (h : ∀ m ∈ ms, lineFeed ∉ m) :
    lineFeed ∉ object ms := by
  have hb : lineFeed ≠ openBrace ∧ lineFeed ≠ closeBrace := by decide
  simp [object, not_mem_intercalate (show lineFeed ∉ [comma] by decide) h, hb]

theorem lineFeed_not_mem_emitterToJsonl (e : Emitter) : lineFeed ∉ emitterToJsonl e := by
  refine lineFeed_not_mem_object ?_
  simp only [List.forall_mem_cons, List.not_mem_nil, false_implies, implies_true, and_true]
  refine ⟨?_, ?_, ?_, ?_, ?_, ?_, ?_, ?_, ?_, ?_, ?_, ?_, ?_, ?_, ?_, ?_⟩ <;>
    refine lineFeed_not_mem_member (by decide) ?_ <;>
    first
      | exact lineFeed_not_mem_strText _
      | exact lineFeed_not_mem_fmtG _
      | exact lineFeed_not_mem_intText _
      | exact lineFeed_not_mem_arrText _

theorem lineFeed_not_mem_sightingToJsonl (s : Sighting) : lineFeed ∉ sightingToJsonl s := by
  refine lineFeed_not_mem_object ?_
  simp only [List.forall_mem_cons, List.not_mem_nil, false_implies, implies_true, and_true]
  refine ⟨?_, ?_, ?_, ?_, ?_, ?_, ?_, ?_, ?_, ?_, ?_, ?_, ?_, ?_, ?_⟩ <;>
    refine lineFeed_not_mem_member (by decide) ?_ <;>
    first
      | exact lineFeed_not_mem_strText _
      | exact lineFeed_not_mem_fmtG _
      | exact lineFeed_not_mem_intText _

/-- The first line of a text ends at its first line feed. -/
theorem splitLines_append {l : Bytes} (h : lineFeed ∉ l) (t : Bytes) :
    splitLines (l ++ lineFeed :: t) = l :: splitLines t := by
  induction l with
  | nil => simp [splitLines]
  | cons c l ih =>
    have hc : c ≠ lineFeed := fun e => h (by simp [e])
    rw [List.cons_append, splitLines, if_neg hc, ih fun hl => h (List.mem_cons_of_mem _ hl)]

/-- The lines of a text written line by line. -/
theorem splitLines_flatMap {α : Type*} {line : α → Bytes} {as : List α}
    (h : ∀ a ∈ as, lineFeed ∉ line a) :
    splitLines (as.flatMap fun a => line a ++ [lineFeed]) = as.map line := by
  induction as with
  | nil => rfl
  | cons a as ih =>
    rw [List.flatMap_cons, List.append_assoc, List.singleton_append,
      splitLines_append (h a (by simp)), ih fun b hb => h b (by simp [hb]), List.map_cons]

/-! ## Maps -/

/-- Storing the entries of a list under their keys, some left out: a key leads to what its entry was
stored as. -/
theorem getElem?_foldl_insert {ρ : Type*} (keep : Bytes → Prop) [DecidablePred keep] (f : ρ → ρ)
    {l : List (Bytes × ρ)} (hl : l.Pairwise fun a b => a.1 ≠ b.1) (m : Std.TreeMap Bytes ρ)
    (k : Bytes) :
    (l.foldl (fun m kv => if keep kv.1 then m.insert kv.1 (f kv.2) else m) m)[k]? =
      if keep k then ((l.find? fun kv => kv.1 = k).map fun kv => f kv.2).or m[k]? else m[k]? := by
  induction l generalizing m with
  | nil => simp
  | cons kv l ih =>
    obtain ⟨hkv, hl⟩ := List.pairwise_cons.mp hl
    rw [List.foldl_cons, ih hl]
    by_cases hk : kv.1 = k
    · subst hk
      have hnone : l.find? (fun kv' => kv'.1 = kv.1) = none := by
        rw [List.find?_eq_none]
        intro kv' hm
        simpa using (hkv kv' hm).symm
      by_cases hkeep : keep kv.1
      · simp [hkeep, hnone]
      · simp [hkeep]
    · by_cases hkeep : keep kv.1
      · simp [hkeep, hk, Std.TreeMap.getElem?_insert]
      · simp [hkeep, hk]

/-- A saved and loaded map leads from a key to its record as the line keeps it, unless the key is
empty. -/
theorem getElem?_loadLines {ρ : Type*} {read : Bytes → Option ρ} {id : ρ → Bytes}
    {line : ρ → Bytes} (f : ρ → ρ) (hline : ∀ r, lineFeed ∉ line r) (hne : ∀ r, line r ≠ [])
    (hid : ∀ r, id (f r) = id r) {m : Std.TreeMap Bytes ρ}
    (hread : ∀ (k : Bytes) r, m[k]? = some r → read (line r) = if id r = [] then none else some (f r))
    (hkey : ∀ (k : Bytes) r, m[k]? = some r → id r = k) (k : Bytes) :
    (loadLines read id (m.toList.flatMap fun kv => line kv.2 ++ [lineFeed]))[k]? =
      if k ≠ [] then (m[k]?).map f else none := by
  have hstep : ∀ (l : List (Bytes × ρ)) (acc : Std.TreeMap Bytes ρ), (∀ kv ∈ l, kv ∈ m.toList) →
      (l.map fun kv => line kv.2).foldl (storeLine read id) acc =
      l.foldl (fun m kv => if kv.1 ≠ [] then m.insert kv.1 (f kv.2) else m) acc := by
    intro l
    induction l with
    | nil => exact fun _ _ => rfl
    | cons kv l ih =>
      intro acc hl
      have hmem := Std.TreeMap.mem_toList_iff_getElem?_eq_some.mp (hl kv (by simp))
      rw [List.map_cons, List.foldl_cons, List.foldl_cons, ih _ fun x hx => hl x (by simp [hx]),
        storeLine, if_neg (hne _), hread _ _ hmem, hkey _ _ hmem]
      by_cases hk : kv.1 = []
      · simp [hk]
      · simp [hk, hid, hkey _ _ hmem]
  have hpair : m.toList.Pairwise fun a b => a.1 ≠ b.1 := by
    refine Std.TreeMap.distinct_keys_toList.imp fun {a b} h e => h (by simp [e])
  have hfind : ((m.toList.find? fun kv => kv.1 = k).map fun kv => f kv.2) = (m[k]?).map f := by
    cases hm : m[k]? with
    | none =>
      have hn : m.toList.find? (fun kv => kv.1 = k) = none := by
        rw [List.find?_eq_none]
        rintro ⟨k', r⟩ hkr
        have := Std.TreeMap.mem_toList_iff_getElem?_eq_some.mp hkr
        simp only [decide_eq_true_eq]
        rintro rfl
        simp [hm] at this
      simp [hn]
    | some r =>
      cases hf : m.toList.find? (fun kv => kv.1 = k) with
      | none =>
        rw [List.find?_eq_none] at hf
        exact absurd (decide_eq_true rfl)
          (hf (k, r) (Std.TreeMap.mem_toList_iff_getElem?_eq_some.mpr hm))
      | some kv =>
        have hk : kv.1 = k := by simpa using List.find?_some hf
        have hmem := Std.TreeMap.mem_toList_iff_getElem?_eq_some.mp (List.mem_of_find?_eq_some hf)
        rw [hk, hm] at hmem
        simp [Option.some.inj hmem]
  have hlines : ∀ kv : Bytes × ρ, lineFeed ∉ line kv.2 := fun kv => hline kv.2
  rw [loadLines, splitLines_flatMap fun a _ => hlines a, hstep _ _ fun _ h => h,
    getElem?_foldl_insert (· ≠ []) f hpair, hfind]
  simp

/-! ## A restart -/

/-- The times of a database are integers that a `double` holds. -/
def Times (db : EmitterDb) : Prop :=
  (∀ (uid : Bytes) (e : Emitter), db.emitters[uid]? = some e → EmitterTimes e) ∧
  ∀ (sid : Bytes) (s : Sighting), db.sightings[sid]? = some s → |s.start_utc| ≤ 2 ^ 53

/-- After a restart there are the emitters that there were, as their lines keep them, and the
sightings that have an id. -/
theorem getElem?_restart {db : EmitterDb} (hk : db.Keyed) (ht : db.Times) :
    (∀ uid : Bytes, (restart db).emitters[uid]? = (db.emitters[uid]?).map printedEmitter) ∧
    ∀ sid : Bytes, (restart db).sightings[sid]? =
      if sid ≠ [] then (db.sightings[sid]?).map printedSighting else none := by
  have hobject : ∀ ms, object ms ≠ [] := by simp [object]
  refine ⟨fun uid => ?_, fun sid => ?_⟩
  · have h : (restart db).emitters[uid]? =
        if uid ≠ [] then (db.emitters[uid]?).map printedEmitter else none :=
      getElem?_loadLines printedEmitter lineFeed_not_mem_emitterToJsonl (fun _ => hobject _)
      (fun _ => rfl) (fun uid e he => emitterFromJsonl_emitterToJsonl (ht.1 uid e he))
      (fun uid e he => (hk.emitter uid e he).1) uid
    have hne : uid = [] → db.emitters[uid]? = none := by
      rintro rfl
      rw [Option.eq_none_iff_forall_ne_some]
      exact fun e he => (hk.emitter _ e he).2 rfl
    rw [h]
    by_cases hu : uid = []
    · rw [hne hu, Option.map_none, ite_self]
    · rw [if_pos hu]
  · exact getElem?_loadLines printedSighting lineFeed_not_mem_sightingToJsonl (fun _ => hobject _)
      (fun _ => rfl) (fun sid s hs => sightingFromJsonl_sightingToJsonl (ht.2 sid s hs))
      hk.sighting sid

/-- The tolerance that an emitter has unless told otherwise, in kHz. -/
def defaultTolerance : ℚ := ({} : Emitter).freq_tolerance_khz

/-- The records of `db` are those of `db'`, with the same strings, ids, counts, and times, and the
frequencies are closer than the tolerance that the matcher compares them with: an emitter's own, or
the default one for a sighting. -/
structure Preserved (db db' : EmitterDb) : Prop where
  emitter : ∀ (uid : Bytes) (e : Emitter), db.emitters[uid]? = some e →
    ∃ e', db'.emitters[uid]? = some e' ∧
      e' = { e with
        freq_center_mhz := e'.freq_center_mhz
        freq_tolerance_khz := e'.freq_tolerance_khz
        bw_khz := e'.bw_khz } ∧
      |e'.freq_center_mhz - e.freq_center_mhz| * 1000 < e.freq_tolerance_khz
  sighting : ∀ (sid : Bytes) (s : Sighting), db.sightings[sid]? = some s →
    ∃ s', db'.sightings[sid]? = some s' ∧
      s' = { s with freq_mhz := s'.freq_mhz, bw_khz := s'.bw_khz } ∧
      |s'.freq_mhz - s.freq_mhz| * 1000 < defaultTolerance
  no_emitter : ∀ uid : Bytes, db.emitters[uid]? = none → db'.emitters[uid]? = none
  no_sighting : ∀ sid : Bytes, db.sightings[sid]? = none → db'.sightings[sid]? = none

/-- Some number that `%.6g` prints near `f` is within a tolerance in kHz of `f`: a multiple of the
step `10^(⌊log₁₀ f⌋ - 5)` MHz. -/
def Printable (f tol : ℚ) : Prop := ∃ k : ℤ, |k * sigUnit 6 f - f| * 1000 < tol

/-- A frequency is printed within a tolerance exactly when some multiple of the step is. -/
theorem printable_iff {f : ℚ} (hf : 0 < f) (tol : ℚ) :
    Printable f tol ↔ |roundSig 6 f - f| * 1000 < tol := by
  have h := abs_roundSig_sub_lt_iff (by norm_num : 0 < 6) hf (tol / 1000)
  simp only [lt_div_iff₀ (by norm_num : (0 : ℚ) < 1000)] at h
  exact h.symm

/-- Below 1000 MHz every frequency is printed within 1 kHz. -/
theorem printable_of_lt {f : ℚ} (hf : 0 < f) (hlt : f < 1000) : Printable f 1 := by
  rw [printable_iff hf]
  have hlog : Int.log 10 f < 3 := by
    rw [← Int.lt_zpow_iff_log_lt (by norm_num) hf]
    norm_num
    exact hlt
  have hunit : sigUnit 6 f ≤ 1 / 1000 := by
    rw [sigUnit, abs_of_pos hf]
    calc (10 : ℚ) ^ (Int.log 10 f - ((6 : ℕ) - 1 : ℤ)) ≤ 10 ^ (-3 : ℤ) :=
          zpow_le_zpow_right₀ (by norm_num) (by push_cast; omega)
      _ = 1 / 1000 := by norm_num
  have hdist := abs_roundSig_sub_le (by norm_num : 0 < 6) hf
  linarith

/-- The frequencies of a database are positive. -/
def Tuned (db : EmitterDb) : Prop :=
  (∀ (uid : Bytes) (e : Emitter), db.emitters[uid]? = some e → 0 < e.freq_center_mhz) ∧
  ∀ (sid : Bytes) (s : Sighting), db.sightings[sid]? = some s → 0 < s.freq_mhz

/-- A restart preserves the records exactly when every frequency has a printed number within its
tolerance, and every sighting an id. -/
theorem preserved_restart_iff (db : EmitterDb) (hk : db.Keyed) (ht : db.Times) (hf : db.Tuned) :
    Preserved db (restart db) ↔
      (∀ (uid : Bytes) (e : Emitter), db.emitters[uid]? = some e →
        Printable e.freq_center_mhz e.freq_tolerance_khz) ∧
      ∀ (sid : Bytes) (s : Sighting), db.sightings[sid]? = some s →
        sid ≠ [] ∧ Printable s.freq_mhz defaultTolerance := by
  obtain ⟨hem, hsi⟩ := getElem?_restart hk ht
  constructor
  · intro h
    refine ⟨fun uid e he => ?_, fun sid s hs => ?_⟩
    · obtain ⟨e', he', -, hlt⟩ := h.emitter uid e he
      rw [hem, he, Option.map_some, Option.some.injEq] at he'
      rw [printable_iff (hf.1 uid e he)]
      rwa [← he'] at hlt
    · obtain ⟨s', hs', -, hlt⟩ := h.sighting sid s hs
      rw [hsi] at hs'
      split_ifs at hs' with hne
      rw [hs, Option.map_some, Option.some.injEq] at hs'
      rw [printable_iff (hf.2 sid s hs)]
      rw [← hs'] at hlt
      exact ⟨hne, hlt⟩
  · rintro ⟨h1, h2⟩
    refine ⟨fun uid e he => ?_, fun sid s hs => ?_, fun uid hn => ?_, fun sid hn => ?_⟩
    · refine ⟨printedEmitter e, by rw [hem, he, Option.map_some], rfl, ?_⟩
      exact (printable_iff (hf.1 uid e he) _).mp (h1 uid e he)
    · obtain ⟨hne, hp⟩ := h2 sid s hs
      refine ⟨printedSighting s, by rw [hsi, if_pos hne, hs, Option.map_some], rfl, ?_⟩
      exact (printable_iff (hf.2 sid s hs) _).mp hp
    · rw [hem, hn, Option.map_none]
    · rw [hsi, hn, Option.map_none, ite_self]

/-- A database of one emitter and one sighting. -/
def pair (e : Emitter) (s : Sighting) : EmitterDb where
  emitters := ({} : Std.TreeMap Bytes Emitter).insert e.emitter_uid e
  sightings := ({} : Std.TreeMap Bytes Sighting).insert s.sighting_id s

theorem pair_lookup (e : Emitter) (s : Sighting) :
    (∀ (uid : Bytes) (e' : Emitter), (pair e s).emitters[uid]? = some e' ↔
      e.emitter_uid = uid ∧ e = e') ∧
    ∀ (sid : Bytes) (s' : Sighting), (pair e s).sightings[sid]? = some s' ↔
      s.sighting_id = sid ∧ s = s' := by
  simp [pair, Std.TreeMap.getElem?_insert]

/-- What holds of the one emitter and of the one sighting holds of the database. -/
theorem pair_keyed {e : Emitter} (s : Sighting) (he : e.emitter_uid ≠ []) : (pair e s).Keyed := by
  obtain ⟨h1, h2⟩ := pair_lookup e s
  constructor
  · intro uid e' h
    obtain ⟨rfl, rfl⟩ := (h1 uid e').mp h
    exact ⟨rfl, he⟩
  · intro sid s' h
    obtain ⟨rfl, rfl⟩ := (h2 sid s').mp h
    rfl

@[inherit_doc pair_keyed] theorem pair_times {e : Emitter} {s : Sighting} (he : EmitterTimes e)
    (hs : |s.start_utc| ≤ 2 ^ 53) : (pair e s).Times := by
  obtain ⟨h1, h2⟩ := pair_lookup e s
  constructor
  · intro uid e' h
    exact ((h1 uid e').mp h).2 ▸ he
  · intro sid s' h
    exact ((h2 sid s').mp h).2 ▸ hs

/-- A beacon at 433.92 MHz, and a sighting of it a little beside. -/
def beacon : Emitter := { emitter_uid := ascii "e_1", freq_center_mhz := 43392 / 100 }

@[inherit_doc beacon] def beaconSighting : Sighting :=
  { sighting_id := ascii "a", freq_mhz := 4339203 / 10000, emitter_uid := ascii "e_1" }

theorem preserved_restart_beacon :
    Preserved (pair beacon beaconSighting) (restart (pair beacon beaconSighting)) := by
  obtain ⟨h1, h2⟩ := pair_lookup beacon beaconSighting
  refine (preserved_restart_iff (pair beacon beaconSighting) (pair_keyed _ (by decide))
    (pair_times (by simp [EmitterTimes, beacon]) (by simp [beaconSighting]))
    ⟨fun uid e he => ?_, fun sid s hs => ?_⟩).mpr ⟨fun uid e he => ?_, fun sid s hs => ?_⟩
  · obtain ⟨-, rfl⟩ := (h1 uid e).mp he
    norm_num [beacon]
  · obtain ⟨-, rfl⟩ := (h2 sid s).mp hs
    norm_num [beaconSighting]
  · obtain ⟨-, rfl⟩ := (h1 uid e).mp he
    exact printable_of_lt (by norm_num [beacon]) (by norm_num [beacon])
  · obtain ⟨rfl, rfl⟩ := (h2 sid s).mp hs
    exact ⟨by decide, printable_of_lt (by norm_num [beaconSighting]) (by norm_num [beaconSighting])⟩

/-- A database whose times a `double` holds and whose frequencies are from 1 MHz to 7.125 GHz, the
range of the receiver. -/
def InBand (db : EmitterDb) : Prop :=
  db.Keyed ∧ db.Times ∧
  (∀ (uid : Bytes) (e : Emitter), db.emitters[uid]? = some e →
    1 ≤ e.freq_center_mhz ∧ e.freq_center_mhz ≤ 7125) ∧
  ∀ (sid : Bytes) (s : Sighting), db.sightings[sid]? = some s → 1 ≤ s.freq_mhz ∧ s.freq_mhz ≤ 7125

theorem not_preserved_above_gigahertz : ¬∀ db : EmitterDb, InBand db → Preserved db (restart db) := by
  intro h
  let e : Emitter := { emitter_uid := ascii "e_1", freq_center_mhz := 12345678 / 10000 }
  let s : Sighting := { sighting_id := ascii "a", freq_mhz := 100 }
  have hl := pair_lookup e s
  have hdb : InBand (pair e s) := by
    refine ⟨pair_keyed s (by decide), pair_times (by simp [e, EmitterTimes]) (by simp [s]),
      fun uid e' he => ?_, fun sid s' hs => ?_⟩
    · rw [← ((hl.1 uid e').mp he).2]
      norm_num [e]
    · rw [← ((hl.2 sid s').mp hs).2]
      norm_num [s]
  obtain ⟨e', he', -, hlt⟩ := (h _ hdb).emitter (ascii "e_1") e ((hl.1 _ _).mpr ⟨rfl, rfl⟩)
  rw [(getElem?_restart hdb.1 hdb.2.1).1, (hl.1 _ _).mpr ⟨rfl, rfl⟩, Option.map_some,
    Option.some.injEq] at he'
  rw [← he'] at hlt
  exact absurd hlt (by decide +kernel)

end Bewe.EmitterDb
