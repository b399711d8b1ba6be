import Mathlib.Data.List.Forall2
import Bewe.Saved.MissionsRestart
import Bewe.Saved.SchedulesRead

/-!
# The schedules after a restart

When Central has every entry that is still pending again, whenever it restarts
(`schedules_restart_iff`). The file has no member for the mission of an entry, so an entry that
belongs to one comes back without it; the other fields come back up to the printed decimals, and
names without the control characters and cut to what the array holds.
-/

namespace Bewe.Saved

open Lib

/-! ## One entry -/

/-- The same entry with all of its fields. -/
structure SchedSyncEntry.Same (e e' : SchedSyncEntry) : Prop where
  status : e.status = e'.status
  op_index : e.op_index = e'.op_index
  start_time : e.start_time = e'.start_time
  duration_sec : e.duration_sec = e'.duration_sec
  freq_mhz : e.freq_mhz = e'.freq_mhz
  bw_khz : e.bw_khz = e'.bw_khz
  operator_name : e.operator_name.str = e'.operator_name.str
  target : e.target.str = e'.target.str
  mission_year : e.mission_year = e'.mission_year
  mission_code : e.mission_code.str = e'.mission_code.str
  sr_hz : e.sr_hz = e'.sr_hz

/-- A number that its text with `n` decimals denotes. -/
def IsDecimal (n : ℕ) (x : Fp 24) : Prop := IsFinite x ∧ x = (x.decimal n).cast float_pos

/-- A name that is shorter than its array and has no control characters but the ends of lines. -/
def IsName (a : Chars 32) : Prop := a.str.length ≤ 31 ∧ ∀ c ∈ a.str, isLost c = false

/-- An entry of no mission, with names and numbers that the file holds. -/
structure SchedSyncEntry.Clean (e : SchedSyncEntry) : Prop where
  start_time : IsDouble e.start_time
  duration_sec : IsDecimal 3 e.duration_sec
  freq_mhz : IsDecimal 6 e.freq_mhz
  bw_khz : IsDecimal 3 e.bw_khz
  operator_name : IsName e.operator_name
  target : IsName e.target
  mission_year : e.mission_year = 0
  mission_code : e.mission_code.str = []

theorem str_copyName_eq_iff (a : Chars 32) :
    a.str = (copyName (a.str.flatMap rescanned)).str ↔ IsName a := a.str_copied_eq_iff

namespace SchedSyncEntry

/-- An entry with finite numbers comes back exactly if it is clean. -/
theorem same_reread_iff {e : SchedSyncEntry} (he : e.Finite) : e.Same e.reread ↔ e.Clean := by
  constructor
  · intro h
    exact
      { start_time := (time_reread_iff _).1 h.start_time
        duration_sec := ⟨he.duration_sec, h.duration_sec⟩
        freq_mhz := ⟨he.freq_mhz, h.freq_mhz⟩
        bw_khz := ⟨he.bw_khz, h.bw_khz⟩
        operator_name := (str_copyName_eq_iff _).1 h.operator_name
        target := (str_copyName_eq_iff _).1 h.target
        mission_year := h.mission_year
        mission_code := h.mission_code }
  · intro h
    exact
      { status := rfl
        op_index := rfl
        start_time := (time_reread_iff _).2 h.start_time
        duration_sec := h.duration_sec.2
        freq_mhz := h.freq_mhz.2
        bw_khz := h.bw_khz.2
        operator_name := (str_copyName_eq_iff _).2 h.operator_name
        target := (str_copyName_eq_iff _).2 h.target
        mission_year := h.mission_year
        mission_code := h.mission_code
        sr_hz := rfl }

theorem Clean.finite {e : SchedSyncEntry} (h : e.Clean) : e.Finite :=
  ⟨h.duration_sec.1, h.freq_mhz.1, h.bw_khz.1⟩

theorem Same.finite {e e' : SchedSyncEntry} (h : e.Same e') (he : e'.Finite) : e.Finite :=
  ⟨h.duration_sec ▸ he.duration_sec, h.freq_mhz ▸ he.freq_mhz, h.bw_khz ▸ he.bw_khz⟩

theorem Same.isPast {e e' : SchedSyncEntry} (h : e.Same e') (now : ℤ) :
    e.isPast now = e'.isPast now := by
  rw [SchedSyncEntry.isPast, SchedSyncEntry.isPast, h.start_time, h.duration_sec]

end SchedSyncEntry

theorem le_toLongLong (x : Fp 53) : -2 ^ 63 ≤ toLongLong x := by
  unfold toLongLong
  split
  · split_ifs with h
    · exact h.1
    · exact le_rfl
  · exact le_rfl

/-- No end is past at a time before all that an entry can hold. -/
theorem isPast_least (e : SchedSyncEntry) : e.isPast (-2 ^ 64) = false := by
  have hstart := e.start_time.le_toInt
  have hwhole : -2 ^ 63 ≤ wholeSeconds e.duration_sec := by
    unfold wholeSeconds
    split
    · exact le_toLongLong _
    · exact le_rfl
  simp only [SchedSyncEntry.isPast, decide_eq_false_iff_not]
  omega

/-! ## Packets -/

theorem PktSchedSync.length_kept_le (p : PktSchedSync) : p.kept.length ≤ MAX_SCHED_ENTRIES := by
  calc p.kept.length
    _ ≤ p.counted.length := List.length_filter_le _ _
    _ ≤ min p.count.toNat MAX_SCHED_ENTRIES := List.length_take_le _ _
    _ ≤ MAX_SCHED_ENTRIES := Nat.min_le_right _ _

theorem kept_pktSchedSyncFromEntries {es : List SchedSyncEntry}
    (hlen : es.length ≤ MAX_SCHED_ENTRIES) (h : ∀ e ∈ es, e.valid ≠ 0 ∧ e.status = 0) :
    (pktSchedSyncFromEntries es).kept = es := by
  have hmax : MAX_SCHED_ENTRIES = 32 := rfl
  have hcount : (pktSchedSyncFromEntries es).count.toNat = es.length := by
    simp only [pktSchedSyncFromEntries, Nat.min_eq_left hlen, UInt8.toNat_ofNat']
    exact Nat.mod_eq_of_lt (by omega)
  have hcounted : (pktSchedSyncFromEntries es).counted = es := by
    rw [PktSchedSync.counted, hcount, Nat.min_eq_left hlen]
    simp only [pktSchedSyncFromEntries, List.take_take, Nat.min_eq_left hlen]
    exact List.take_left
  rw [PktSchedSync.kept, hcounted, List.filter_eq_self]
  intro e he
  simpa using h e he

theorem SchedMap.mem_saved_iff (m : SchedMap) {k : Bytes} {es : List SchedSyncEntry} :
    (k, es) ∈ m.saved ↔ m.entriesAt k = es ∧ es ≠ [] := by
  have hentries : ∀ p, (k, p) ∈ m.snapshots → m.entriesAt k = p.kept := by
    intro p hp
    have hfind := m.find_eq_some_iff.2 ((lookup_eq_some_iff_mem m.nodup_snapshots).2 hp)
    rw [SchedMap.entriesAt, hfind]
  constructor
  · intro h
    obtain ⟨hmem, hne⟩ := List.mem_filter.1 h
    obtain ⟨⟨k', p⟩, hp, heq⟩ := List.mem_map.1 hmem
    obtain ⟨rfl, rfl⟩ := Prod.mk.inj heq
    exact ⟨hentries p hp, by simpa using hne⟩
  · rintro ⟨rfl, hne⟩
    unfold SchedMap.entriesAt at hne
    split at hne
    · rename_i p hfind
      have hp := (lookup_eq_some_iff_mem m.nodup_snapshots).1 (m.find_eq_some_iff.1 hfind)
      rw [hentries p hp] at *
      exact List.mem_filter.2 ⟨List.mem_map.2 ⟨(k, p), hp, rfl⟩, by simpa using hne⟩
    · exact absurd rfl hne

theorem SchedMap.saved_spec (m : SchedMap) {ke : Bytes × List SchedSyncEntry} (h : ke ∈ m.saved) :
    ke.2.length ≤ MAX_SCHED_ENTRIES ∧ ∀ e ∈ ke.2, e.status = 0 := by
  obtain ⟨hmem, -⟩ := List.mem_filter.1 h
  obtain ⟨kp, -, rfl⟩ := List.mem_map.1 hmem
  refine ⟨kp.2.length_kept_le, fun e he => ?_⟩
  have hkept := (List.mem_filter.1 he).2
  simp only [Bool.decide_and, Bool.and_eq_true, decide_eq_true_eq] at hkept
  exact hkept.2

/-! ## All stations -/

theorem find_keep (m : SchedMap) (s : Station) (k : Bytes) :
    (m.keep s).find k =
      if k = s.sid ∧ s.sid ≠ [] ∧ s.entries ≠ [] then
        some (some (pktSchedSyncFromEntries s.entries))
      else m.find k := by
  unfold SchedMap.keep
  by_cases h : s.sid ≠ [] ∧ s.entries ≠ []
  · rw [if_pos h, StationMap.find_set]
    simp only [h, and_true, not_false_eq_true, ne_eq]
  · rw [if_neg h, if_neg fun hk => h hk.2]

theorem find_foldl_keep_cases (ss : List Station) (m : SchedMap) (k : Bytes) :
    (ss.foldl SchedMap.keep m).find k = m.find k ∨
      ∃ s ∈ ss, k = s.sid ∧ s.sid ≠ [] ∧ s.entries ≠ [] ∧
        (ss.foldl SchedMap.keep m).find k = some (some (pktSchedSyncFromEntries s.entries)) := by
  induction ss generalizing m with
  | nil => exact Or.inl rfl
  | cons s ss ih =>
    rw [List.foldl_cons]
    rcases ih (m.keep s) with h | ⟨s', hs', h⟩
    · rw [h, find_keep]
      split_ifs with hk
      · exact Or.inr ⟨s, List.mem_cons_self, hk.1, hk.2.1, hk.2.2, rfl⟩
      · exact Or.inl rfl
    · exact Or.inr ⟨s', List.mem_cons_of_mem _ hs', h⟩

theorem find_foldl_keep {ss : List Station} (hnodup : (ss.map Station.sid).Nodup) {s : Station}
    (hs : s ∈ ss) (hid : s.sid ≠ []) (hne : s.entries ≠ []) (m : SchedMap) :
    (ss.foldl SchedMap.keep m).find s.sid = some (some (pktSchedSyncFromEntries s.entries)) := by
  induction ss generalizing m with
  | nil => simp at hs
  | cons s₁ ss ih =>
    rw [List.map_cons, List.nodup_cons] at hnodup
    rw [List.foldl_cons]
    rcases List.mem_cons.1 hs with rfl | hs
    · rcases find_foldl_keep_cases ss (m.keep s) s.sid with h | ⟨s', hs', h, -⟩
      · rw [h, find_keep, if_pos ⟨rfl, hid, hne⟩]
      · exact absurd (List.mem_map.2 ⟨s', hs', h.symm⟩) hnodup.1
    · exact ih hnodup.2 hs _

/-- A station whose entries come back: it has an id without control characters but the ends of
lines, and each entry is clean. -/
structure SchedRestorable (ke : Bytes × List SchedSyncEntry) : Prop where
  sid : ke.1 ≠ []
  kept : ∀ c ∈ ke.1, isLost c = false
  clean : ∀ e ∈ ke.2, e.Clean

/-- The entries that are still pending at a time. -/
def pending (now : ℤ) (es : List SchedSyncEntry) : List SchedSyncEntry :=
  es.filter fun e => !e.isPast now

/-- Whenever Central restarts, every station has each entry again that is still pending. -/
def SchedMap.Survives (m : SchedMap) : Prop :=
  ∀ now k, List.SublistForall₂ SchedSyncEntry.Same (pending now (m.entriesAt k))
    ((m.restart now).entriesAt k)

theorem rescanId_eq {k : Bytes} (h : ∀ c ∈ k, isLost c = false) : rescanId k = k := by
  have h0 : (0 : UInt8) ∉ k := fun h0 => absurd (h 0 h0) (by decide)
  rw [rescanId, cStr_eq_self h0, (flatMap_rescanned_eq_iff k).2 h]

theorem pending_least (es : List SchedSyncEntry) : pending (-2 ^ 64) es = es :=
  List.filter_eq_self.2 fun e _ => by rw [isPast_least]; rfl

theorem kept_rereadStation {m : SchedMap} {ke : Bytes × List SchedSyncEntry} (h : ke ∈ m.saved)
    (now : ℤ) :
    (pktSchedSyncFromEntries (rereadStation now ke).entries).kept =
      pending now (ke.2.map SchedSyncEntry.reread) := by
  obtain ⟨hlen, hstatus⟩ := m.saved_spec h
  refine kept_pktSchedSyncFromEntries ?_ fun e he => ?_
  · calc (rereadStation now ke).entries.length
      _ ≤ (ke.2.map SchedSyncEntry.reread).length := List.length_filter_le _ _
      _ = ke.2.length := List.length_map ..
      _ ≤ MAX_SCHED_ENTRIES := hlen
  · obtain ⟨e', he', rfl⟩ := List.mem_map.1 (List.mem_filter.1 he).1
    exact ⟨show (1 : UInt8) ≠ 0 by decide, hstatus e' he'⟩

section Survives

variable {m : SchedMap}

/-- An entry that is there again is among those that were loaded. -/
theorem exists_same_of_survives (h : m.Survives) {ke : Bytes × List SchedSyncEntry}
    (hke : ke ∈ m.saved) {e : SchedSyncEntry} (he : e ∈ ke.2) :
    ∃ e' ∈ (m.restart (-2 ^ 64)).entriesAt ke.1, e.Same e' := by
  have hsub := h (-2 ^ 64) ke.1
  rw [pending_least, (m.mem_saved_iff.1 hke).1] at hsub
  obtain ⟨l, hl, hsub⟩ := List.sublistForall₂_iff.1 hsub
  obtain ⟨i, hi, rfl⟩ := List.getElem_of_mem he
  have hi' : i < l.length := hl.length_eq ▸ hi
  exact ⟨l[i], hsub.subset (List.getElem_mem hi'), hl.get hi hi'⟩

/-- If all entries are there again, their numbers were finite. -/
theorem finite_of_survives (h : m.Survives) : ∀ ke ∈ m.saved, ∀ e ∈ ke.2, e.Finite := by
  intro ke hke e he
  obtain ⟨e', he', hsame⟩ := exists_same_of_survives h hke he
  refine hsame.finite ?_
  unfold SchedMap.entriesAt at he'
  split at he'
  · rename_i p hfind
    have hcounted := (List.mem_filter.1 he').1
    exact finiteMap_load _ _ _ _ hfind e' (List.mem_of_mem_take hcounted)
  · simp at he'

/-- If all entries are there again, those under a key were read from a station whose key is read as
that one. -/
theorem exists_saved_of_survives (h : m.Survives) {ke : Bytes × List SchedSyncEntry}
    (hke : ke ∈ m.saved) :
    ke.1 ≠ [] ∧ ∃ ke' ∈ m.saved, rescanId ke'.1 = ke.1 ∧
      (m.restart (-2 ^ 64)).entriesAt ke.1 = ke'.2.map SchedSyncEntry.reread := by
  have hne := (m.mem_saved_iff.1 hke).2
  obtain ⟨e, he⟩ := List.exists_mem_of_ne_nil _ hne
  obtain ⟨e', he', -⟩ := exists_same_of_survives h hke he
  have hrestart := SchedMap.restart_eq (-2 ^ 64) (finite_of_survives h)
  rcases find_foldl_keep_cases (m.saved.map (rereadStation (-2 ^ 64))) StationMap.empty ke.1 with
    hfind | ⟨s, hs, hid, hsid, -, hfind⟩
  · rw [SchedMap.entriesAt, hrestart, hfind] at he'
    simp at he'
  · obtain ⟨ke', hke', rfl⟩ := List.mem_map.1 hs
    refine ⟨hid ▸ hsid, ke', hke', hid.symm, ?_⟩
    rw [SchedMap.entriesAt, hrestart, hfind]
    simp only [kept_rereadStation hke', pending_least]

/-- If all entries are there again, they were such that they come back. -/
theorem schedRestorable_of_survives (h : m.Survives) {ke : Bytes × List SchedSyncEntry}
    (hke : ke ∈ m.saved) : SchedRestorable ke := by
  have hkept : ∀ ke ∈ m.saved, ∀ c ∈ ke.1, isLost c = false := by
    intro ke hke c hc
    obtain ⟨-, ke', -, hid, -⟩ := exists_saved_of_survives h hke
    rw [← hid] at hc
    exact isLost_of_mem_flatMap hc
  obtain ⟨hne, ke', hke', hid, hentries⟩ := exists_saved_of_survives h hke
  -- no other key is read as this one, since it would be read as itself
  have hkey : ke'.1 = ke.1 := by rw [← hid, rescanId_eq (hkept ke' hke')]
  have hes : ke'.2 = ke.2 := by
    have h1 := (m.mem_saved_iff.1 hke').1
    have h2 := (m.mem_saved_iff.1 hke).1
    rw [← h1, ← h2, hkey]
  have hsub := h (-2 ^ 64) ke.1
  rw [pending_least, (m.mem_saved_iff.1 hke).1, hentries, hes] at hsub
  obtain ⟨l, hl, hsub⟩ := List.sublistForall₂_iff.1 hsub
  have hlen : l.length = (ke.2.map SchedSyncEntry.reread).length := by
    rw [List.length_map, hl.length_eq]
  rw [hsub.eq_of_length hlen] at hl
  refine ⟨hne, hkept ke hke, fun e he => ?_⟩
  rw [List.forall₂_map_right_iff, List.forall₂_same] at hl
  exact (SchedSyncEntry.same_reread_iff (finite_of_survives h ke hke e he)).1 (hl e he)

/-- If all entries are such that they come back, they are there again. -/
theorem survives_of_schedRestorable (h : ∀ ke ∈ m.saved, SchedRestorable ke) : m.Survives := by
  intro now k
  have hfinite : ∀ ke ∈ m.saved, ∀ e ∈ ke.2, e.Finite := fun ke hke e he =>
    ((h ke hke).clean e he).finite
  by_cases hpending : pending now (m.entriesAt k) = []
  · rw [hpending]
    exact List.SublistForall₂.nil
  · have hne : m.entriesAt k ≠ [] := by
      intro hnil
      rw [hnil] at hpending
      exact hpending rfl
    have hke : (k, m.entriesAt k) ∈ m.saved := m.mem_saved_iff.2 ⟨rfl, hne⟩
    have hr := h _ hke
    -- entries that come back are pending as they were
    have hsame : List.Forall₂ SchedSyncEntry.Same (pending now (m.entriesAt k))
        (pending now ((m.entriesAt k).map SchedSyncEntry.reread)) := by
      have hall := hr.clean
      generalize m.entriesAt k = es at hall
      induction es with
      | nil => exact List.Forall₂.nil
      | cons e es ih =>
        rw [List.forall_mem_cons] at hall
        have hes := ih hall.2
        have he := (SchedSyncEntry.same_reread_iff hall.1.finite).2 hall.1
        have hpast := he.isPast now
        unfold pending at hes ⊢
        rw [List.map_cons, List.filter_cons, List.filter_cons, ← hpast]
        split_ifs
        · exact List.Forall₂.cons he hes
        · exact hes
    have hid : ∀ ke ∈ m.saved, (rereadStation now ke).sid = ke.1 := fun ke hke =>
      rescanId_eq (h ke hke).kept
    have hnodup : ((m.saved.map (rereadStation now)).map Station.sid).Nodup := by
      have hkeys : (m.saved.map (rereadStation now)).map Station.sid = m.saved.map Prod.fst := by
        rw [List.map_map]
        exact List.map_congr_left hid
      rw [hkeys]
      have hsub : (m.saved.map Prod.fst).Sublist (m.snapshots.map Prod.fst) := by
        have hfilter := (List.filter_sublist (p := fun ke : Bytes × List SchedSyncEntry => ke.2 ≠ [])
          (l := m.snapshots.map fun kp => (kp.1, kp.2.kept))).map Prod.fst
        rwa [List.map_map] at hfilter
      exact m.nodup_snapshots.sublist hsub
    have hentries : (rereadStation now (k, m.entriesAt k)).entries ≠ [] := by
      intro hnil
      have hnil' : pending now ((m.entriesAt k).map SchedSyncEntry.reread) = [] := hnil
      rw [hnil', List.forall₂_nil_right_iff] at hsame
      exact hpending hsame
    have hfind := find_foldl_keep hnodup (List.mem_map.2 ⟨_, hke, rfl⟩)
      (by rw [hid _ hke]; exact hr.sid) hentries StationMap.empty
    rw [hid _ hke] at hfind
    have hrestart : (m.restart now).entriesAt k =
        pending now ((m.entriesAt k).map SchedSyncEntry.reread) := by
      rw [SchedMap.entriesAt, SchedMap.restart_eq now hfinite, hfind]
      exact kept_rereadStation hke now
    rw [hrestart]
    exact List.sublistForall₂_iff.2 ⟨_, hsame, List.Sublist.refl _⟩

end Survives

/-- Every pending entry is there again, whenever Central restarts, exactly if every station that has
been saved is one whose entries come back. -/
theorem schedules_restart_iff (m : SchedMap) : m.Survives ↔ ∀ ke ∈ m.saved, SchedRestorable ke :=
  ⟨fun h _ hke => schedRestorable_of_survives h hke, survives_of_schedRestorable⟩

/-- The packet of a HOST with one entry. -/
def oneEntry (e : SchedSyncEntry) : PktSchedSync where
  count := 1
  entries := e :: List.replicate 31 {}
  size := by rw [List.length_cons, List.length_replicate, MAX_SCHED_ENTRIES]

/-- An hour on the air that belongs to mission A03 of 2025. -/
def ofMission : SchedSyncEntry where
  valid := 1
  start_time := 1750000000
  duration_sec := .ofRat float_pos 3600
  freq_mhz := .ofRat float_pos 100
  bw_khz := .ofRat float_pos 200
  operator_name := .ofStr 32 (ascii "op")
  target := .ofStr 32 (ascii "sat")
  mission_year := 2025
  mission_code := .ofStr 8 (ascii "A03")
  sr_hz := 2000000

/-- An entry of a mission is not there again as such. -/
theorem not_survives_ofMission :
    ¬ SchedMap.Survives ⟨[(ascii "DGS_sw", some (oneEntry ofMission))], by decide⟩ := by
  intro h
  have hmem : (ascii "DGS_sw", [ofMission]) ∈
      SchedMap.saved ⟨[(ascii "DGS_sw", some (oneEntry ofMission))], by decide⟩ :=
    (SchedMap.mem_saved_iff _).2 ⟨by rfl, by simp⟩
  have hyear := ((schedRestorable_of_survives h hmem).clean ofMission (by simp)).mission_year
  exact absurd hyear (by decide)

end Bewe.Saved
