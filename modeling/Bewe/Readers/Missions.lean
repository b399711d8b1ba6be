import Bewe.HostMission.Load
import Bewe.Readers.Scan

/-!
# The loops of the readers of missions

`mission_load_history` of HOST and `load_missions_from_json` of Central as they are executed. They
have the same loops over the missions of a list and over the members of a mission, and differ in what
they do with a value; a value that neither understands leaves the cursor where it is, but by then the
quote of its key and the colon are behind it. What the loops of Central load is what
`loadMissionsFromJson` says (`loadMissions_eq`).
-/

namespace Bewe.Readers

open Lib
open Saved (isSep isBlank isGap strstr Loading MissionMap MissionSyncEntry)
open HostMission (MissionEntry startsNumber)
open EmitterDb (quote colon openBrace closeBrace openBracket)

/-! ## Missions and their members -/

section

variable {E S : Type} (value : ℕ → Bytes → E → Bytes → Option (E × Bytes))

/-- A turn of the loop over the members of a mission. -/
def memberTurn (limit : ℕ) : E × Bytes → Option (Turn (E × Bytes) (E × Bytes))
  | (e, t) =>
    if t = [] ∨ t.head? = some closeBrace then some (.leave (e, t))
    else do
      let t ← skip isSep limit t
      if t.head? = some closeBrace then some (.leave (e, t))
      else
        match ← parseStr limit 32 t with
        | (false, _, t) => some (.leave (e, t))
        | (true, key, t) =>
          match ← skip (· ≠ colon) limit t with
          | [] => some (.leave (e, []))
          | _ :: t =>
            let t ← skip isBlank limit t
            let r ← value limit key e t
            let u ← skip isGap limit r.2
            some (.again (r.1, u))

/-- A turn of the loop over the missions, each of which begins as `start` and is put away by `place`. -/
def missionTurn (start : E) (place : S → E → S) (limit : ℕ) :
    S × Bytes → Option (Turn (S × Bytes) (S × Bytes))
  | (s, t) =>
    if t = [] then some (.leave (s, []))
    else do
      match ← skip isSep limit t with
      | [] => some (.leave (s, []))
      | c :: r =>
        if c = openBrace then
          let m ← loop (memberTurn value) limit (start, r)
          some (.again (place s m.1, if m.2.head? = some closeBrace then m.2.tail else m.2))
        else some (.leave (s, c :: r))

/-- A value is read, and nothing is put back. -/
def ReadsOn : Prop :=
  ∀ limit key e t, t.length < limit →
    ∃ r, value limit key e t = some r ∧ r.2.length ≤ t.length

variable {value}

theorem length_parseChars_le : ∀ t : Bytes, (Saved.parseChars t).2.length ≤ t.length
  | [] => le_rfl
  | [c] => by
    rw [Saved.parseChars]
    split_ifs
    · exact Nat.le_refl _
    · exact Nat.zero_le _
  | c :: d :: t => by
    have hrest := (length_parseChars_le t).trans ((Nat.le_succ _).trans (Nat.le_succ _))
    rw [Saved.parseChars]
    split_ifs
    · exact Nat.le_refl _
    · exact hrest
    · exact (length_parseChars_le (d :: t)).trans (Nat.le_succ _)

/-- Of a text with no string in it nothing is left. -/
theorem length_parseStr_le (cap : ℕ) (t : Bytes) :
    (Saved.parseStr cap t).2.2.length ≤ t.length ∧
      ((Saved.parseStr cap t).1 = true → (Saved.parseStr cap t).2.2.length < t.length) := by
  have hskip := (List.dropWhile_suffix (l := t) (· ≠ quote)).length_le
  unfold Saved.parseStr
  cases hs : t.dropWhile (· ≠ quote) with
  | nil => exact ⟨Nat.zero_le _, fun h => absurd h Bool.false_ne_true⟩
  | cons c u =>
    rw [hs, List.length_cons] at hskip
    have hchars := length_parseChars_le u
    dsimp only
    cases hr : (Saved.parseChars u).2 with
    | nil => exact ⟨Nat.zero_le _, fun h => absurd h Bool.false_ne_true⟩
    | cons d r =>
      rw [hr, List.length_cons] at hchars
      exact ⟨by dsimp only; omega, fun _ => by dsimp only; omega⟩

theorem shrinks_member (hvalue : ReadsOn value) :
    Shrinks (fun s => s.2.length) (memberTurn value) fun r => r.2.length := by
  rintro limit ⟨e, t⟩ (h : t.length < limit)
  unfold memberTurn
  dsimp only
  split_ifs with hend
  · exact ⟨_, rfl, Nat.le_refl _⟩
  · have hsep := (List.dropWhile_suffix (l := t) isSep).length_le
    simp only [skip_eq _ h, Option.bind_eq_bind, Option.bind_some]
    generalize t.dropWhile isSep = t1 at hsep
    split_ifs
    · exact ⟨_, rfl, hsep⟩
    · have hkey := length_parseStr_le 32 t1
      simp only [parseStr_eq 32 (hsep.trans_lt h), Option.bind_some]
      generalize Saved.parseStr 32 t1 = p at hkey
      obtain ⟨found, key, t2⟩ := p
      cases found with
      | false => exact ⟨_, rfl, hkey.1.trans hsep⟩
      | true =>
        -- from here on the quote of the key is consumed, and nothing is put back
        have ht2 : t2.length < t.length := (hkey.2 rfl).trans_le hsep
        have hcolon := (List.dropWhile_suffix (l := t2) (· ≠ colon)).length_le
        simp only [skip_eq _ (ht2.trans h), Option.bind_some]
        cases hs : t2.dropWhile (· ≠ colon) with
        | nil => exact ⟨_, rfl, Nat.zero_le _⟩
        | cons c t3 =>
          rw [hs, List.length_cons] at hcolon
          have hblank := (List.dropWhile_suffix (l := t3) isBlank).length_le
          obtain ⟨r, hr, hrle⟩ := hvalue limit key e (t3.dropWhile isBlank) (by omega)
          have hgap := (List.dropWhile_suffix (l := r.2) isGap).length_le
          simp only [skip_eq isBlank (show t3.length < limit by omega), Option.bind_some, hr,
            skip_eq isGap (show r.2.length < limit by omega)]
          refine ⟨_, rfl, ?_⟩
          change (r.2.dropWhile isGap).length < t.length
          omega

theorem shrinks_mission (hvalue : ReadsOn value) (start : E) (place : S → E → S) :
    Shrinks (fun s => s.2.length) (missionTurn value start place) fun r => r.2.length := by
  rintro limit ⟨s, t⟩ (h : t.length < limit)
  unfold missionTurn
  dsimp only
  split_ifs with hend
  · exact ⟨_, rfl, Nat.zero_le _⟩
  · have hsep := (List.dropWhile_suffix (l := t) isSep).length_le
    simp only [skip_eq _ h, Option.bind_eq_bind, Option.bind_some]
    cases hs : t.dropWhile isSep with
    | nil => exact ⟨_, rfl, Nat.zero_le _⟩
    | cons c r =>
      rw [hs, List.length_cons] at hsep
      dsimp only
      split_ifs with hopen
      · obtain ⟨m, hm, hle⟩ := (shrinks_member hvalue).exists_run (s := (start, r))
          (show r.length < limit by omega)
        simp only [hm, Option.bind_some]
        refine ⟨_, rfl, ?_⟩
        change List.length (if m.2.head? = some closeBrace then m.2.tail else m.2) < t.length
        have htail := (List.tail_suffix m.2).length_le
        dsimp only at hle
        split_ifs <;> omega
      · exact ⟨_, rfl, hsep⟩

end

/-! ## `mission_load_history` -/

/-- A value in the file of HOST. -/
def hostValue (limit : ℕ) (key : Bytes) (e : MissionEntry) (t : Bytes) :
    Option (MissionEntry × Bytes) := do
  if t.head? = some quote then
    let s ← parseStr limit 256 t
    some (HostMission.setString key s.2.1 e, s.2.2)
  else if t.head?.any startsNumber then
    if key = ascii "lat" ∨ key = ascii "lon" then
      some (HostMission.setDouble key (strtod t).1 e, (strtod t).2)
    else some (HostMission.setInteger key (strtoll t).1 e, (strtoll t).2)
  else some (e, t)

/-- A turn of the loop over the missions of HOST at a time. -/
def historyTurn (now : Int64) :=
  missionTurn hostValue {} fun es e => es ++ [HostMission.closed now e]

/-- `mission_load_history` of the bytes of the file. -/
def loadHistory (now : Int64) (limit : ℕ) (file : Bytes) :
    Option (List MissionEntry) := do
  match strstr (ascii "\"missions\"") (cStr file) with
  | none => some []
  | some t =>
    match ← skip (· ≠ openBracket) limit t with
    | [] => some []
    | _ :: t =>
      let r ← loop (historyTurn now) limit ([], t)
      some r.1

theorem hostValue_readsOn : ReadsOn hostValue := by
  intro limit key e t h
  unfold hostValue
  split_ifs
  · simp only [parseStr_eq 256 h, Option.bind_eq_bind, Option.bind_some]
    exact ⟨_, rfl, (length_parseStr_le 256 t).1⟩
  · exact ⟨_, rfl, (strtod_suffix t).length_le⟩
  · exact ⟨_, rfl, (strtoll_suffix t).length_le⟩
  · exact ⟨_, rfl, Nat.le_refl _⟩

theorem length_cStr_le (file : Bytes) : (cStr file).length ≤ file.length :=
  (List.takeWhile_prefix _).length_le

theorem exists_loadHistory (now : Int64) {limit : ℕ} {file : Bytes}
    (h : file.length < limit) : ∃ es, loadHistory now limit file = some es := by
  have hfile := (length_cStr_le file).trans_lt h
  unfold loadHistory
  cases hfound : strstr (ascii "\"missions\"") (cStr file) with
  | none => exact ⟨_, rfl⟩
  | some t =>
    have ht := (Saved.length_le_of_strstr hfound).trans_lt hfile
    have hopen := (List.dropWhile_suffix (l := t) (· ≠ openBracket)).length_le
    simp only [skip_eq _ ht, Option.bind_eq_bind, Option.bind_some]
    cases hs : t.dropWhile (· ≠ openBracket) with
    | nil => exact ⟨_, rfl⟩
    | cons c u =>
      rw [hs, List.length_cons] at hopen
      obtain ⟨r, hr, -⟩ := (shrinks_mission hostValue_readsOn {}
        fun es e => es ++ [HostMission.closed now e]).exists_run (s := ([], u))
          (show u.length < limit by omega)
      exact ⟨r.1, by simp only [historyTurn, hr, Option.bind_some]⟩

/-! ## `load_missions_from_json` -/

/-- A value in the file of Central. -/
def centralValue (limit : ℕ) (key : Bytes) (e : MissionSyncEntry) (t : Bytes) :
    Option (MissionSyncEntry × Bytes) := do
  if t.head? = some quote then
    let s ← parseStr limit 512 t
    some (Saved.setString key s.2.1 e, s.2.2)
  else some (Saved.setNumber key (strtod t).1 e, (strtod t).2)

/-- A turn of the loop over the missions of a station. -/
def stationMissionTurn := missionTurn centralValue { valid := 1 } Loading.place

/-- A turn of the loop over the stations. -/
def stationTurn (limit : ℕ) :
    MissionMap × Bytes → Option (Turn (MissionMap × Bytes) MissionMap)
  | (m, t) => do
    match strstr (ascii "\"station_id\"") t with
    | none => some (.leave m)
    | some t =>
      match ← parseStr limit 64 (t.drop 12) with
      | (false, _, _) => some (.leave m)
      | (true, sid, t) =>
        match strstr (ascii "\"missions\"") t with
        | none => some (.again (m, t))
        | some missions_key =>
          -- the key belongs to a station further on
          if (strstr (ascii "\"station_id\"") t).any fun n => missions_key.length < n.length then
            some (.again (m, t))
          else
            match ← skip (· ≠ openBracket) limit (missions_key.drop 10) with
            | [] => some (.leave m)
            | _ :: t =>
              let r ← loop stationMissionTurn limit ({}, t)
              some (.again (if r.1.missions = [] then m else m.store sid r.1.pkt, r.2))

/-- `load_missions_from_json` of the bytes of the file. -/
def loadMissions (limit : ℕ) (file : Bytes) : Option MissionMap :=
  loop stationTurn limit (Saved.StationMap.empty, cStr file)

/-! ## What `load_missions_from_json` loads -/

theorem centralValue_eq (key : Bytes) (e : MissionSyncEntry) {limit : ℕ} {t : Bytes}
    (h : t.length < limit) : centralValue limit key e t = some (Saved.readValue key e t) := by
  unfold centralValue Saved.readValue
  split_ifs
  · simp only [parseStr_eq 512 h, Option.bind_eq_bind, Option.bind_some]
  · rfl

theorem centralValue_readsOn : ReadsOn centralValue := by
  intro limit key e t h
  refine ⟨_, centralValue_eq key e h, ?_⟩
  unfold Saved.readValue
  split_ifs
  · exact (length_parseStr_le 512 t).1
  · exact (strtod_suffix t).length_le

theorem follows_centralMember : Follows (fun s => s.2.length) (memberTurn centralValue)
    fun n s => Saved.readFields n s.1 s.2 := by
  rintro limit ⟨e, t⟩ (h : t.length < limit)
  obtain ⟨turn, hturn, hwithin⟩ := shrinks_member centralValue_readsOn limit (e, t) h
  refine ⟨turn, hturn, ?_⟩
  unfold memberTurn at hturn
  dsimp only at hturn
  have hsep := (List.dropWhile_suffix (l := t) isSep).length_le
  simp only [skip_eq _ h, Option.bind_eq_bind, Option.bind_some] at hturn
  split_ifs at hturn with hend hclose
  · obtain rfl := Option.some.inj hturn
    exact fun n => by simp only [Saved.readFields, if_pos hend]
  · obtain rfl := Option.some.inj hturn
    exact fun n => by simp only [Saved.readFields, if_neg hend, if_pos hclose]
  · have hkey := length_parseStr_le 32 (t.dropWhile isSep)
    rw [parseStr_eq 32 (hsep.trans_lt h), Option.bind_some] at hturn
    cases hp : Saved.parseStr 32 (t.dropWhile isSep) with
    | mk found r =>
      obtain ⟨key, u⟩ := r
      rw [hp] at hkey hturn
      cases found with
      | false =>
        obtain rfl := Option.some.inj hturn
        exact fun n => by simp only [Saved.readFields, if_neg hend, if_neg hclose, hp]
      | true =>
        dsimp only at hkey hturn
        have hcolon := (List.dropWhile_suffix (l := u) (· ≠ colon)).length_le
        rw [skip_eq _ (show u.length < limit by omega), Option.bind_some] at hturn
        cases hs : u.dropWhile (· ≠ colon) with
        | nil =>
          rw [hs] at hturn
          obtain rfl := Option.some.inj hturn
          exact fun n => by simp only [Saved.readFields, if_neg hend, if_neg hclose, hp, hs]
        | cons c v =>
          rw [hs, List.length_cons] at hcolon
          have hblank := (List.dropWhile_suffix (l := v) isBlank).length_le
          have hv : (v.dropWhile isBlank).length < limit := by omega
          obtain ⟨r, hr, hrle⟩ := centralValue_readsOn limit key e _ hv
          rw [centralValue_eq key e hv] at hr
          obtain rfl := Option.some.inj hr
          simp only [hs, skip_eq isBlank (show v.length < limit by omega), Option.bind_some,
            centralValue_eq key e hv,
            skip_eq isGap (show (Saved.readValue key e (v.dropWhile isBlank)).2.length < limit by omega)]
            at hturn
          obtain rfl := Option.some.inj hturn
          exact ⟨hwithin, fun n _ => by
            simp only [Saved.readFields, if_neg hend, if_neg hclose, hp, hs]⟩

theorem follows_stationMission : Follows (fun s => s.2.length) stationMissionTurn
    fun n s => Saved.readMissions n s.1 s.2 := by
  rintro limit ⟨s, t⟩ (h : t.length < limit)
  obtain ⟨turn, hturn, hwithin⟩ :=
    shrinks_mission centralValue_readsOn { valid := 1 } Loading.place limit (s, t) h
  refine ⟨turn, hturn, ?_⟩
  unfold missionTurn at hturn
  dsimp only at hturn
  have hsep := (List.dropWhile_suffix (l := t) isSep).length_le
  simp only [skip_eq _ h, Option.bind_eq_bind, Option.bind_some] at hturn
  split_ifs at hturn with hend
  · obtain rfl := Option.some.inj hturn
    exact fun n => by simp only [Saved.readMissions, hend, List.dropWhile_nil]
  · cases hs : t.dropWhile isSep with
    | nil =>
      rw [hs] at hturn
      obtain rfl := Option.some.inj hturn
      exact fun n => by simp only [Saved.readMissions, hs]
    | cons c r =>
      rw [hs, List.length_cons] at hsep
      simp only [hs] at hturn
      split_ifs at hturn with hopen
      · rw [follows_centralMember.run (s := ({ valid := 1 }, r)) (n := r.length + 1)
          (show r.length < limit by omega) (Nat.lt_succ_self _), Option.bind_some] at hturn
        obtain rfl := Option.some.inj hturn
        exact ⟨hwithin, fun n _ => by simp only [Saved.readMissions, hs, if_pos hopen]⟩
      · obtain rfl := Option.some.inj hturn
        exact fun n => by simp only [Saved.readMissions, hs, if_neg hopen]

theorem follows_station : Follows (fun s => s.2.length) stationTurn
    fun n s => Saved.readStations n s.1 s.2 := by
  rintro limit ⟨m, t⟩ (h : t.length < limit)
  unfold stationTurn
  dsimp only
  cases hfound : strstr (ascii "\"station_id\"") t with
  | none => exact ⟨_, rfl, fun n => by simp only [Saved.readStations, hfound]⟩
  | some u =>
    have hu := Saved.length_le_of_strstr hfound
    have hdrop := (List.drop_suffix 12 u).length_le
    have hid := length_parseStr_le 64 (u.drop 12)
    simp only [parseStr_eq 64 ((hdrop.trans hu).trans_lt h), Option.bind_eq_bind, Option.bind_some]
    cases hp : Saved.parseStr 64 (u.drop 12) with
    | mk found p =>
      obtain ⟨sid, t1⟩ := p
      rw [hp] at hid
      cases found with
      | false => exact ⟨_, rfl, fun n => by simp only [Saved.readStations, hfound, hp]⟩
      | true =>
        -- the name of the station is consumed: what is left is shorter in every branch below
        have ht1 : t1.length < t.length := (hid.2 rfl).trans_le (hdrop.trans hu)
        dsimp only
        cases hkey : strstr (ascii "\"missions\"") t1 with
        | none => exact ⟨_, rfl, ht1, fun n _ => by simp only [Saved.readStations, hfound, hp, hkey]⟩
        | some missions_key =>
          have hk := Saved.length_le_of_strstr hkey
          have hkdrop := (List.drop_suffix 10 missions_key).length_le
          have hopen :=
            (List.dropWhile_suffix (l := missions_key.drop 10) (· ≠ openBracket)).length_le
          dsimp only
          split_ifs with hnext
          · exact ⟨_, rfl, ht1, fun n _ => by
              simp only [Saved.readStations, hfound, hp, hkey, if_pos hnext]⟩
          · simp only [skip_eq _ (show (missions_key.drop 10).length < limit by omega),
              Option.bind_some]
            cases hs : (missions_key.drop 10).dropWhile (· ≠ openBracket) with
            | nil => exact ⟨_, rfl, fun n => by
                simp only [Saved.readStations, hfound, hp, hkey, if_neg hnext, hs]⟩
            | cons c t2 =>
              rw [hs, List.length_cons] at hopen
              have ht2 : t2.length < limit := by omega
              obtain ⟨r, hr, hle⟩ := (shrinks_mission centralValue_readsOn { valid := 1 }
                Loading.place).exists_run (s := ({}, t2)) ht2
              have hrun := follows_stationMission.run (s := ({}, t2)) (n := t2.length + 1) ht2
                (Nat.lt_succ_self _)
              obtain rfl := Option.some.inj (hr.symm.trans hrun)
              simp only [hrun, Option.bind_some]
              exact ⟨_, rfl, hle.trans_lt (show t2.length < t.length by omega), fun n _ => by
                simp only [Saved.readStations, hfound, hp, hkey, if_neg hnext, hs]⟩

/-- The missions are loaded as they are said to be, whatever the bytes of the file are. -/
theorem loadMissions_eq {limit : ℕ} {file : Bytes} (h : file.length < limit) :
    loadMissions limit file = some (Saved.loadMissionsFromJson file) :=
  follows_station.run (s := (Saved.StationMap.empty, cStr file))
    ((length_cStr_le file).trans_lt h) (Nat.lt_succ_self _)

end Bewe.Readers
