import Bewe.HostMission.RemoveDir

/-!
# Deleting a mission

`mission_delete` looks up the station of a mission after the mission has left the history, so that
no station is found and the directory that goes is always one of `_unknown_`. `deletes_iff` says
when this is what it should be: the mission's own directory, and nothing else.
-/

namespace Bewe.HostMission

open Lib

/-! ## `mission_delete` -/

/-- Whether a mission has a year and a code. -/
def isMission (year : Int32) (code : CString) (e : MissionEntry) : Bool :=
  e.year = year && e.code.bytes = code.bytes

/-- `strncmp(a, b, 8) == 0`. -/
def strncmp8 (a b : Bytes) : Bool := (a ++ [0]).take 8 = (b ++ [0]).take 8

section

-- `KST::to_tm`, and the place of the directory with the recordings
variable (toTm : Int64 → Tm) (recordings : List Bytes)

/-- The history without the missions that have a year and a code. -/
def Host.erase (h : Host) (year : Int32) (code : CString) : Host :=
  { h with mission_history := h.mission_history.filter fun e => !isMission year code e }

/-- `mission_delete` at a time. -/
def missionDelete (now : Int64) (h : Host) (year : Int32) (code : CString) : Bool × Host :=
  if code.bytes = [] ∨ year ≤ 0 then (false, h)
  else if slash ∈ code.bytes then (false, h)
  else
    let h :=
      if h.mission_state = .active ∧ h.mission.year = year ∧
          h.mission.code.bytes = code.bytes then h
      else h.erase year code
    let h :=
      if h.mission_state = .active ∧ h.mission.year = year ∧
          strncmp8 h.mission.code.bytes code.bytes then
        (missionEnd toTm recordings now h).2.erase year code
      else h
    let station :=
      match h.mission_history.find? (isMission year code) with
      | some e => e.station_name.bytes
      | none => []
    let station := if station = [] then unknownStation else station
    let dir := missionDir recordings station year code.bytes
    (true, saveMetaToDisk toTm recordings
      { h with disk := rmRfDir (h.disk.height + 1) h.disk dir })

/-- Whether the request is carried out. -/
def accepted (year : Int32) (code : CString) : Bool :=
  code.bytes ≠ [] && 0 < year && slash ∉ code.bytes

/-- A code of a mission is compared whole. -/
theorem strncmp8_iff (a : Str 8) (b : CString) :
    strncmp8 a.bytes b.bytes = true ↔ a.bytes = b.bytes := by
  rw [strncmp8, decide_eq_true_iff]
  constructor
  · intro h
    have ha : (a.bytes ++ [0]).take 8 = a.bytes ++ [0] :=
      List.take_of_length_le (by simpa using a.fits)
    have hcut : cStr ((b.bytes ++ [0]).take 8) = b.bytes.take 8 := by
      have hb : (0 : UInt8) ∉ b.bytes.take 8 := fun h0 => b.no_nul (List.mem_of_mem_take h0)
      rw [List.take_append]
      have hzero : List.take (8 - b.bytes.length) [(0 : UInt8)] =
          List.replicate (min (8 - b.bytes.length) 1) 0 := by
        rw [← List.replicate_one, List.take_replicate]
      rw [hzero]
      exact Saved.cStr_append_replicate hb _
    have hstr : cStr (a.bytes ++ [0]) = a.bytes := by
      simpa using Saved.cStr_append_replicate a.no_nul 1
    have heq : a.bytes = b.bytes.take 8 := by rw [← hstr, ← ha, h, hcut]
    have hlen := congrArg List.length heq
    rw [List.length_take] at hlen
    have hfits := a.fits
    rw [heq]
    exact List.take_of_length_le (by omega)
  · intro h
    rw [h]

/-- Whether the active mission is the one that is deleted. -/
def Host.ends (h : Host) (year : Int32) (code : CString) : Bool :=
  h.active.any (isMission year code)

theorem ends_iff {h : Host} {year : Int32} {code : CString} :
    h.ends year code = true ↔
      h.mission_state = .active ∧ h.mission.year = year ∧ h.mission.code.bytes = code.bytes := by
  unfold Host.ends Host.active
  split_ifs with hactive
  · simp [isMission, hactive]
  · simp [hactive]

/-- A host without a mission has none in its history. -/
theorem find_filter_not (es : List MissionEntry) (p : MissionEntry → Bool) :
    (es.filter fun e => !p e).find? p = none := by
  rw [List.find?_eq_none]
  intro e he
  simpa using (List.mem_filter.1 he).2

/-- Before the directory goes: the mission has left the history, and has ended if it was active. -/
def Host.left (now : Int64) (h : Host) (year : Int32) (code : CString) : Host :=
  if h.ends year code then (missionEnd toTm recordings now h).2.erase year code
  else h.erase year code

theorem missionDelete_eq (now : Int64) (h : Host) {year : Int32} {code : CString}
    (hacc : accepted year code = true) :
    missionDelete toTm recordings now h year code =
      (true, saveMetaToDisk toTm recordings
        { h.left toTm recordings now year code with
          disk := rmRfDir ((h.left toTm recordings now year code).disk.height + 1)
            (h.left toTm recordings now year code).disk
            (missionDir recordings unknownStation year code.bytes) }) := by
  simp only [accepted, Bool.and_eq_true, decide_eq_true_eq, decide_not, Bool.not_eq_true',
    decide_eq_false_iff_not] at hacc
  obtain ⟨⟨hne, hyear⟩, hslash⟩ := hacc
  have hreject : ¬(code.bytes = [] ∨ year ≤ 0) := by
    rintro (h | h)
    · exact hne h
    · exact absurd hyear (Int32.not_lt.2 h)
  have hstation : ∀ g : Host,
      (match (g.erase year code).mission_history.find? (isMission year code) with
        | some e => e.station_name.bytes
        | none => []) = [] := by
    intro g
    rw [Host.erase, find_filter_not]
  unfold missionDelete Host.left
  rw [if_neg hreject, if_neg hslash]
  by_cases hends : h.ends year code = true
  · obtain ⟨hactive, hy, hc⟩ := ends_iff.1 hends
    have hsame : h.mission_state = .active ∧ h.mission.year = year ∧
        h.mission.code.bytes = code.bytes := ⟨hactive, hy, hc⟩
    have hcmp : h.mission_state = .active ∧ h.mission.year = year ∧
        strncmp8 h.mission.code.bytes code.bytes = true := ⟨hactive, hy, (strncmp8_iff _ _).2 hc⟩
    simp only [if_pos hsame, if_pos hcmp, if_pos hends, hstation, if_true]
  · have hcmp : ¬(h.mission_state = .active ∧ h.mission.year = year ∧
        strncmp8 h.mission.code.bytes code.bytes = true) := by
      rw [strncmp8_iff]
      exact fun hh => hends (ends_iff.2 hh)
    have hcmp' : ¬((h.erase year code).mission_state = .active ∧
        (h.erase year code).mission.year = year ∧
        strncmp8 (h.erase year code).mission.code.bytes code.bytes = true) := hcmp
    have hnot : ¬(h.mission_state = .active ∧ h.mission.year = year ∧
        h.mission.code.bytes = code.bytes) := fun hh => hends (ends_iff.2 hh)
    simp only [if_neg hnot, if_neg hcmp', if_neg hends, hstation, if_true]

/-! ## What saving changes -/

/-- Saving the list changes nothing but the root of the missions and `missions.json`. -/
theorem get_saveJson (h : Host) {r : List Bytes} (hroot : r ≠ missionsRoot recordings)
    (hjson : r ≠ missionsRoot recordings ++ [ascii "missions.json"]) :
    (saveJson recordings h).get r = h.disk.get r := by
  rw [saveJson, Tree.get_write, if_neg, Tree.get_mkdir, if_neg]
  · intro hmade
    obtain ⟨p, hp, -, -, rfl⟩ := Tree.made_eq_some_iff.1 hmade
    have hwalk := (Tree.find_some hp).1
    rw [PathStep.walk_names, List.nil_append] at hwalk
    exact hroot (by rw [hwalk, missionsRoot])
  · intro hwritten
    obtain ⟨p, hp, -, -, rfl⟩ := Tree.written_eq_some_iff.1 hwritten
    have hwalk := (Tree.find_some hp).1
    rw [PathStep.walk_names, List.nil_append] at hwalk
    exact hjson (by rw [hwalk])

theorem isDir_saveJson {h : Host} {r : List Bytes} (hdir : h.disk.isDir r = true) :
    (saveJson recordings h).isDir r = true := by
  have hmkdir : (h.disk.mkdir (recordings.map .name) (ascii "missions")).isDir r = true := by
    rw [Tree.isDir_iff, Tree.get_mkdir]
    split_ifs
    · rfl
    · exact Tree.isDir_iff.1 hdir
  rw [saveJson, Tree.isDir_iff, Tree.get_write, if_neg]
  · exact Tree.isDir_iff.1 hmkdir
  · intro hwritten
    rw [Tree.not_isDir_of_written hwritten] at hmkdir
    exact Bool.noConfusion hmkdir

/-- Disks that have the same at every place have it after saving. -/
theorem get_saveJson_congr {h h' : Host} (hdisk : ∀ r, h.disk.get r = h'.disk.get r)
    (hactive : h.active = h'.active) (hhist : h.mission_history = h'.mission_history)
    (r : List Bytes) : (saveJson recordings h).get r = (saveJson recordings h').get r := by
  have hmkdir : ∀ r, (h.disk.mkdir (recordings.map .name) (ascii "missions")).get r =
      (h'.disk.mkdir (recordings.map .name) (ascii "missions")).get r := by
    intro r
    rw [Tree.get_mkdir, Tree.get_mkdir, Tree.made_congr hdisk, hdisk]
  rw [saveJson, saveJson, Tree.get_write, Tree.get_write, Tree.written_congr hmkdir, hmkdir,
    hactive, hhist]

/-- Saving the list changes none of the directories of stations. -/
theorem takenDirs_saveJson (h : Host) (year : Int32) (code : Bytes) :
    takenDirs recordings (saveJson recordings h) year code =
      takenDirs recordings h.disk year code := by
  have hlen : (missionsRoot recordings).length = recordings.length + 1 := by
    simp [missionsRoot]
  have hentries : ∀ q : List Bytes, (missionsRoot recordings).length < q.length →
      (saveJson recordings h).entries q = h.disk.entries q := by
    intro q hq
    rw [saveJson, Tree.entries_write_of_ne, Tree.entries_mkdir_of_ne]
    · intro p hp heq
      have hwalk := (Tree.find_some hp).1
      rw [PathStep.walk_names, List.nil_append] at hwalk
      rw [heq, hwalk] at hq
      omega
    · intro p hp heq
      have hwalk := (Tree.find_some hp).1
      rw [PathStep.walk_names, List.nil_append] at hwalk
      rw [heq, hwalk] at hq
      omega
  have hisDir : ∀ q : List Bytes, (missionsRoot recordings).length + 2 ≤ q.length →
      (saveJson recordings h).isDir q = h.disk.isDir q := by
    intro q hq
    refine Tree.isDir_congr (get_saveJson recordings h ?_ ?_)
    · rintro rfl
      omega
    · rintro rfl
      simp at hq
  unfold takenDirs
  rw [hentries _ (by simp [unknownYear, unknownDir]), hentries _ (by simp [unknownDir]),
    hisDir _ (by simp [unknownYear, unknownDir]), hisDir _ (by simp [unknownYear, unknownDir])]

/-- What is taken away lies in the directory of a year or of a station. -/
theorem Taken.length_le {t : Tree Bytes Bytes} {year : Int32} {code : Bytes} {r : List Bytes}
    (h : Taken recordings t year code r) :
    (missionsRoot recordings).length + 2 ≤ r.length := by
  obtain ⟨d, hd, hpre⟩ := h
  refine le_trans ?_ hpre.length_le
  unfold takenDirs at hd
  split_ifs at hd
  · obtain ⟨n, -, rfl⟩ := List.mem_map.1 hd
    simp [unknownYear, unknownDir]
  · obtain ⟨n, -, rfl⟩ := List.mem_map.1 hd
    simp [unknownDir]
  · exact absurd hd List.not_mem_nil
  · rw [List.mem_singleton.1 hd]
    simp [unknownYear, unknownDir]
  · exact absurd hd List.not_mem_nil

/-! ## What a deletion should do, and when it does -/

/-- A place in the directory of a mission: three levels below the root of the missions or more. -/
def Deep (r : List Bytes) : Prop :=
  missionsRoot recordings <+: r ∧ (missionsRoot recordings).length + 3 ≤ r.length

/-- The stations of the missions with a year and a code; that of missions without one, if there are
no such missions. -/
def Host.stations (h : Host) (year : Int32) (code : CString) : List Bytes :=
  match h.missions.filter (isMission year code) with
  | [] => [unknownStation]
  | es => es.map stationOf

/-- A directory of the mission under its own station. -/
def OwnDir (h : Host) (year : Int32) (code : CString) (p : List Bytes) : Prop :=
  ∃ st ∈ h.stations year code,
    h.disk.find (missionDir recordings st year code.bytes) = some p ∧ h.disk.isDir p = true

/-- A place in a directory of the mission. -/
def Own (h : Host) (year : Int32) (code : CString) (r : List Bytes) : Prop :=
  ∃ p, OwnDir recordings h year code p ∧ p <+: r

/-- What should have become of a host when it has deleted a mission: the directory of the mission is
gone, no mission has the year and the code, and all other missions and the directories of missions
are what they were. -/
structure Deleted (h : Host) (year : Int32) (code : CString) (h' : Host) : Prop where
  gone : ∀ p, OwnDir recordings h year code p → h'.disk.get p = none
  no_entry : ∀ e ∈ h'.missions, isMission year code e = false
  history : h'.mission_history = h.mission_history.filter fun e => !isMission year code e
  active : h'.active = h.active.filter fun e => !isMission year code e
  dirs : ∀ r, Deep recordings r → ¬Own recordings h year code r → h'.disk.get r = h.disk.get r

/-- The place where the active mission has its `mission.info` written when the directory that is
looked up is gone. -/
def InfoWritten (h : Host) (year : Int32) (code : CString) (r : List Bytes) : Prop :=
  (h.mission_state = .active ∧ h.ends year code = false ∧ h.mission.code.bytes ≠ []) ∧
    ∀ t : Tree Bytes Bytes,
      (∀ q, t.get q = if Taken recordings h.disk year code.bytes q then none else h.disk.get q) →
      (saveJson recordings { h.erase year code with disk := t }).written (h.mission.dir recordings)
        (ascii "mission.info") = some r

/-- What is taken away are the directories of the mission, and nothing else that belongs to
missions; and another active mission has its `mission.info` as it is written again. -/
structure Meets (h : Host) (year : Int32) (code : CString) : Prop where
  own_taken : ∀ p, OwnDir recordings h year code p →
    Taken recordings h.disk year code.bytes p ∧ ¬InfoWritten recordings h year code p
  taken_own : ∀ r, Deep recordings r → Taken recordings h.disk year code.bytes r →
    h.disk.get r ≠ none → Own recordings h year code r ∨ InfoWritten recordings h year code r
  info : ∀ r, Deep recordings r → InfoWritten recordings h year code r →
    Own recordings h year code r ∨ h.disk.get r = some (.file (missionInfo toTm h.mission))

/-! ## What a deletion does -/

/-- Before the directory goes, the history is without the missions, the active one is not one of
them, and the disk has what it had but for the list. -/
theorem left_spec (now : Int64) (h : Host) (year : Int32) (code : CString) :
    (h.left toTm recordings now year code).mission_history =
        h.mission_history.filter (fun e => !isMission year code e) ∧
      (h.left toTm recordings now year code).active =
        h.active.filter (fun e => !isMission year code e) ∧
      takenDirs recordings (h.left toTm recordings now year code).disk year code.bytes =
        takenDirs recordings h.disk year code.bytes ∧
      (∀ r, r ≠ missionsRoot recordings → r ≠ missionsRoot recordings ++ [ascii "missions.json"] →
        (h.left toTm recordings now year code).disk.get r = h.disk.get r) ∧
      ∀ r, h.disk.isDir r = true → (h.left toTm recordings now year code).disk.isDir r = true := by
  unfold Host.left
  by_cases hends : h.ends year code = true
  · obtain ⟨hactive, hyear, hcode⟩ := ends_iff.1 hends
    have hmission : isMission year code h.mission = true := by simp [isMission, hyear, hcode]
    -- the mission ends, and there is no active one
    have hend : (missionEnd toTm recordings now h).2 =
        { mission_state := .idle
          mission := {}
          mission_history := h.mission_history ++ [{ h.mission with end_utc := now, rollover := 0 }]
          disk := saveJson recordings
            { h with
              mission_state := .idle
              mission := {}
              mission_history :=
                h.mission_history ++ [{ h.mission with end_utc := now, rollover := 0 }] } } := by
      rw [missionEnd, if_neg (not_not.2 hactive), saveMetaToDisk, if_neg (by simp)]
    have hdone : isMission year code { h.mission with end_utc := now, rollover := 0 } = true :=
      hmission
    rw [if_pos hends, hend]
    refine ⟨?_, ?_, takenDirs_saveJson _ _ _ _, fun r h1 h2 => get_saveJson _ _ h1 h2,
      fun r hr => isDir_saveJson _ hr⟩
    · rw [Host.erase, List.filter_append]
      simp [hdone]
    · have hidle : ∀ g : Host, g.mission_state = .idle → g.active = none := by
        intro g hg
        rw [Host.active, if_neg (by rw [hg]; decide)]
      rw [hidle _ rfl, Host.active, if_pos hactive]
      simp [Option.filter, hmission]
  · rw [if_neg hends]
    refine ⟨rfl, ?_, rfl, fun _ _ _ => rfl, fun _ hr => hr⟩
    have hsame : (h.erase year code).active = h.active := rfl
    rw [hsame]
    cases ha : h.active with
    | none => rfl
    | some e =>
      have he : isMission year code e = false := by
        simpa [Host.ends, ha] using hends
      simp [Option.filter, he]

/-- The host when its directory is gone, before it is saved. -/
def Host.cleared (now : Int64) (h : Host) (year : Int32) (code : CString) : Host :=
  { h.left toTm recordings now year code with
    disk := rmRfDir ((h.left toTm recordings now year code).disk.height + 1)
      (h.left toTm recordings now year code).disk
      (missionDir recordings unknownStation year code.bytes) }

theorem get_cleared (now : Int64) (h : Host) {year : Int32} {code : CString}
    (hacc : accepted year code = true) (r : List Bytes) :
    (h.cleared toTm recordings now year code).disk.get r =
      if Taken recordings h.disk year code.bytes r then none
      else (h.left toTm recordings now year code).disk.get r := by
  simp only [accepted, Bool.and_eq_true, decide_eq_true_eq, decide_not, Bool.not_eq_true',
    decide_eq_false_iff_not] at hacc
  obtain ⟨⟨hne, hyear⟩, hslash⟩ := hacc
  have htaken : Taken recordings (h.left toTm recordings now year code).disk year code.bytes r ↔
      Taken recordings h.disk year code.bytes r := by
    rw [Taken, Taken, (left_spec toTm recordings now h year code).2.2.1]
  rw [Host.cleared, get_rmRfDir_unknown recordings _ hyear hne hslash]
  exact if_congr htaken rfl rfl

/-- The disk after a deletion: `mission.info` of another active mission is there, and of the rest
what is taken away is gone. -/
theorem get_missionDelete (now : Int64) (h : Host) {year : Int32} {code : CString}
    (hacc : accepted year code = true) (r : List Bytes) :
    (InfoWritten recordings h year code r →
        (missionDelete toTm recordings now h year code).2.disk.get r =
          some (.file (missionInfo toTm h.mission))) ∧
      (¬InfoWritten recordings h year code r → r ≠ missionsRoot recordings →
        r ≠ missionsRoot recordings ++ [ascii "missions.json"] →
        (missionDelete toTm recordings now h year code).2.disk.get r =
          if Taken recordings h.disk year code.bytes r then none else h.disk.get r) ∧
      (h.disk.isDir r = true → ¬Taken recordings h.disk year code.bytes r →
        (missionDelete toTm recordings now h year code).2.disk.isDir r = true) := by
  have hcleared := get_cleared toTm recordings now h hacc
  obtain ⟨-, -, -, hget, hdirs⟩ := left_spec toTm recordings now h year code
  have heq := missionDelete_eq toTm recordings now h hacc
  generalize hg : h.cleared toTm recordings now year code = g at hcleared
  have hdel : (missionDelete toTm recordings now h year code).2 =
      saveMetaToDisk toTm recordings g := by
    rw [heq, ← hg]
    rfl
  have hjson : r ≠ missionsRoot recordings →
      r ≠ missionsRoot recordings ++ [ascii "missions.json"] →
      (saveJson recordings g).get r =
        if Taken recordings h.disk year code.bytes r then none else h.disk.get r := by
    intro h1 h2
    rw [get_saveJson _ _ h1 h2, hcleared, hget r h1 h2]
  have hstays : h.disk.isDir r = true → ¬Taken recordings h.disk year code.bytes r →
      (saveJson recordings g).isDir r = true := by
    intro hdir hnot
    refine isDir_saveJson _ ?_
    rw [Tree.isDir_iff, hcleared, if_neg hnot]
    exact Tree.isDir_iff.1 (hdirs r hdir)
  rw [hdel, saveMetaToDisk]
  by_cases hinfo : h.mission_state = .active ∧ h.ends year code = false ∧
      h.mission.code.bytes ≠ []
  · -- another mission stays active, and its `mission.info` is written once more
    obtain ⟨hactive, hends, hcode⟩ := hinfo
    have hleft : h.left toTm recordings now year code = h.erase year code := by
      rw [Host.left, hends, if_neg Bool.false_ne_true]
    have hmission : g.mission = h.mission ∧ g.mission_state = .active ∧
        g.active = (h.erase year code).active ∧
        g.mission_history = (h.erase year code).mission_history := by
      rw [← hg, Host.cleared, hleft]
      exact ⟨rfl, hactive, rfl, rfl⟩
    have hdisk : ∀ q, g.disk.get q =
        if Taken recordings h.disk year code.bytes q then none else h.disk.get q := by
      intro q
      rw [hcleared, hleft]
      rfl
    have hwritten : ∀ p, InfoWritten recordings h year code p ↔
        (saveJson recordings g).written (h.mission.dir recordings) (ascii "mission.info") =
          some p := by
      intro p
      have hsame : ∀ t : Tree Bytes Bytes, (∀ q, t.get q =
          if Taken recordings h.disk year code.bytes q then none else h.disk.get q) →
          (saveJson recordings { h.erase year code with disk := t }).written
              (h.mission.dir recordings) (ascii "mission.info") =
            (saveJson recordings g).written (h.mission.dir recordings) (ascii "mission.info") := by
        intro t ht
        have hget : ∀ q, (saveJson recordings { h.erase year code with disk := t }).get q =
            (saveJson recordings g).get q :=
          get_saveJson_congr recordings (fun q => (ht q).trans (hdisk q).symm)
            hmission.2.2.1.symm hmission.2.2.2.symm
        exact Tree.written_congr hget _ _
      constructor
      · rintro ⟨-, hall⟩
        rw [← hsame g.disk hdisk]
        exact hall g.disk hdisk
      · intro hw
        exact ⟨⟨hactive, hends, hcode⟩, fun t ht => (hsame t ht).trans hw⟩
    rw [hmission.1, if_pos ⟨hmission.2.1, hcode⟩]
    refine ⟨fun hw => ?_, fun hw h1 h2 => ?_, fun hdir hnot => ?_⟩
    · rw [Tree.get_write, if_pos ((hwritten r).1 hw)]
    · rw [Tree.get_write, if_neg fun hw' => hw ((hwritten r).2 hw')]
      exact hjson h1 h2
    · have hd := hstays hdir hnot
      rw [Tree.isDir_iff, Tree.get_write, if_neg]
      · exact Tree.isDir_iff.1 hd
      · intro hw
        rw [Tree.not_isDir_of_written hw] at hd
        exact Bool.noConfusion hd
  · -- no mission with a code is active then, so no `mission.info` is written
    have hstate : ¬(g.mission_state = .active ∧ g.mission.code.bytes ≠ []) := by
      rintro ⟨hactive, hcode⟩
      by_cases hends : h.ends year code = true
      · have hidle : g.active = none := by
          have hfilter := (left_spec toTm recordings now h year code).2.1
          rw [← hg]
          refine hfilter.trans ?_
          obtain ⟨hh, hy, hc⟩ := ends_iff.1 hends
          rw [Host.active, if_pos hh]
          simp [Option.filter, isMission, hy, hc]
        rw [Host.active, if_pos hactive] at hidle
        cases hidle
      · rw [Bool.not_eq_true] at hends
        have hleft : h.left toTm recordings now year code = h.erase year code := by
          rw [Host.left, hends, if_neg Bool.false_ne_true]
        rw [← hg, Host.cleared, hleft] at hactive hcode
        exact hinfo ⟨hactive, hends, hcode⟩
    rw [if_neg hstate]
    exact ⟨fun hw => absurd hw.1 hinfo, fun _ h1 h2 => hjson h1 h2, hstays⟩

/-- The missions that are left. -/
theorem missions_missionDelete (now : Int64) (h : Host) {year : Int32} {code : CString}
    (hacc : accepted year code = true) :
    (missionDelete toTm recordings now h year code).2.mission_history =
        h.mission_history.filter (fun e => !isMission year code e) ∧
      (missionDelete toTm recordings now h year code).2.active =
        h.active.filter (fun e => !isMission year code e) := by
  obtain ⟨hhist, hactive, -⟩ := left_spec toTm recordings now h year code
  have hsave : ∀ g : Host, (saveMetaToDisk toTm recordings g).mission_history = g.mission_history ∧
      (saveMetaToDisk toTm recordings g).active = g.active := by
    intro g
    unfold saveMetaToDisk
    split_ifs
    · exact ⟨rfl, rfl⟩
    · exact ⟨rfl, rfl⟩
  rw [missionDelete_eq toTm recordings now h hacc]
  exact ⟨(hsave _).1.trans hhist, (hsave _).2.trans hactive⟩

theorem missionDelete_fst (now : Int64) (h : Host) (year : Int32) (code : CString) :
    (missionDelete toTm recordings now h year code).1 = accepted year code := by
  cases hacc : accepted year code with
  | true => rw [missionDelete_eq toTm recordings now h hacc]
  | false =>
    have hreject : code.bytes = [] ∨ year ≤ 0 ∨ slash ∈ code.bytes := by
      simp only [accepted, Bool.and_eq_false_iff, decide_eq_false_iff_not, ne_eq,
        not_not, Int32.not_lt] at hacc
      rcases hacc with (h | h) | h
      · exact Or.inl h
      · exact Or.inr (Or.inl h)
      · exact Or.inr (Or.inr h)
    unfold missionDelete
    split_ifs with h1 h2
    · rfl
    · rfl
    · rcases hreject with h | h | h
      · exact absurd (Or.inl h) h1
      · exact absurd (Or.inr h) h1
      · exact absurd h h2

/-- The missions that are left do not have the year and the code. -/
theorem no_entry_of_filter {h h' : Host} {year : Int32} {code : CString}
    (hhist : h'.mission_history = h.mission_history.filter fun e => !isMission year code e)
    (hactive : h'.active = h.active.filter fun e => !isMission year code e) :
    ∀ e ∈ h'.missions, isMission year code e = false := by
  intro e he
  rcases List.mem_append.1 he with he | he
  · rw [hactive, Option.mem_toList, Option.filter_eq_some_iff] at he
    simpa using he.2
  · rw [hhist] at he
    simpa using (List.mem_filter.1 he).2

/-- A mission that is deleted is gone, and nothing else is, exactly if what is taken away is what
belongs to the mission. -/
theorem deletes_iff (now : Int64) (h : Host) (year : Int32) (code : CString) :
    ((missionDelete toTm recordings now h year code).1 = true →
        Deleted recordings h year code (missionDelete toTm recordings now h year code).2) ↔
      (accepted year code = true → Meets toTm recordings h year code) := by
  rw [missionDelete_fst]
  refine forall_congr' fun hacc => ?_
  obtain ⟨hhist, hactive⟩ := missions_missionDelete toTm recordings now h hacc
  have hget := get_missionDelete toTm recordings now h hacc
  generalize (missionDelete toTm recordings now h year code).2 = h' at hhist hactive hget
  -- a place of a mission is neither the root nor the list
  have hdeep : ∀ r, Deep recordings r → r ≠ missionsRoot recordings ∧
      r ≠ missionsRoot recordings ++ [ascii "missions.json"] := by
    rintro r ⟨-, hlen⟩
    constructor
    · rintro rfl
      omega
    · rintro rfl
      simp at hlen
  constructor
  · intro hdel
    refine ⟨fun p hp => ?_, fun r hr htaken hnone => ?_, fun r hr hinfo => ?_⟩
    · have hgone := hdel.gone p hp
      have hinfo : ¬InfoWritten recordings h year code p := by
        intro hw
        rw [(hget p).1 hw] at hgone
        cases hgone
      refine ⟨?_, hinfo⟩
      by_contra hnot
      have hdir := (hget p).2.2 (Exists.elim hp fun _ hst => hst.2.2) hnot
      rw [Tree.isDir_iff, hgone] at hdir
      cases hdir
    · by_cases hown : Own recordings h year code r
      · exact Or.inl hown
      · right
        by_contra hinfo
        have hsame := hdel.dirs r hr hown
        rw [(hget r).2.1 hinfo (hdeep r hr).1 (hdeep r hr).2, if_pos htaken] at hsame
        exact hnone hsame.symm
    · by_cases hown : Own recordings h year code r
      · exact Or.inl hown
      · right
        rw [← hdel.dirs r hr hown, (hget r).1 hinfo]
  · intro hmeets
    refine ⟨fun p hp => ?_, no_entry_of_filter hhist hactive, hhist, hactive, fun r hr hown => ?_⟩
    · obtain ⟨htaken, hinfo⟩ := hmeets.own_taken p hp
      have hlen := htaken.length_le
      rw [(hget p).2.1 hinfo ?_ ?_, if_pos htaken]
      · rintro rfl
        omega
      · rintro rfl
        simp at hlen
    · by_cases hinfo : InfoWritten recordings h year code r
      · rw [(hget r).1 hinfo, (hmeets.info r hr hinfo).resolve_left hown]
      · rw [(hget r).2.1 hinfo (hdeep r hr).1 (hdeep r hr).2]
        split_ifs with htaken
        · by_contra hne
          rcases hmeets.taken_own r hr htaken (Ne.symm hne) with h1 | h1
          · exact hown h1
          · exact hinfo h1
        · rfl

end

/-- A mission of a station `DGS` that has ended, with its directory. -/
def endedOfDgs : Host where
  mission_state := .idle
  mission := {}
  mission_history :=
    [{ year := 2025
       code := .copy 8 code_room (ascii "A03")
       start_utc := 1735862400
       end_utc := 1735866000
       station_name := .copy 64 station_room (ascii "DGS") }]
  disk :=
    (((Tree.empty.mkdir [] (ascii "missions")).mkdir [.name (ascii "missions")]
      (ascii "DGS")).mkdir [.name (ascii "missions"), .name (ascii "DGS")] (ascii "2025")).mkdir
      [.name (ascii "missions"), .name (ascii "DGS"), .name (ascii "2025")] (ascii "A03")

/-- Its directory stays. -/
theorem not_deleted_endedOfDgs :
    ¬∀ (toTm : Int64 → Tm) (recordings : List Bytes) (now : Int64) (h : Host) (year : Int32)
      (code : CString), (missionDelete toTm recordings now h year code).1 = true →
        Deleted recordings h year code (missionDelete toTm recordings now h year code).2 := by
  intro hclaim
  have hgone := (hclaim (fun _ => ⟨0, 0, 0, 0, 0, 0⟩) [] 0 endedOfDgs 2025
    ⟨ascii "A03", by decide⟩ (by decide)).gone
    [ascii "missions", ascii "DGS", ascii "2025", ascii "A03"]
    ⟨ascii "DGS", by decide, by decide, by decide⟩
  exact absurd hgone (by decide)

end Bewe.HostMission
