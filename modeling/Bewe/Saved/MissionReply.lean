import Mathlib.Data.List.Sort
import Bewe.Lib.Latest
import Bewe.Saved.MissionsRestart

/-!
# The missions of a station

The reply to a client that asks for the missions of a station (`handle_mission_sync_req`). Central
goes through all the packets that it keeps, in the order of the map, and puts together what they say
of the station: of the records with one year and code the first of the latest, and one active
mission, unless the record that is kept says that it ended. `missions_reply` says when the reply is
well defined: where no different records tie it is the same whatever the order, and an active mission
is rightly one exactly if no record of its end has lost its place to another.
-/

namespace Bewe.Saved

open Lib

/-! ## The reply -/

/-- `match`: an entry of the station `st`. -/
def isMatch (st : Bytes) (e : MissionSyncEntry) : Bool := e.valid ≠ 0 && e.station_name.str = st

/-- The year and the code of a mission. -/
def missionKey (e : MissionSyncEntry) : UInt16 × Bytes := (e.year, e.code.str)

/-- `push_hist`. -/
def pushHist : List MissionSyncEntry → MissionSyncEntry → List MissionSyncEntry
  | [], e => [e]
  | h :: t, e =>
    if h.year = e.year ∧ h.code.str = e.code.str then
      (if h.start_utc < e.start_utc then e else h) :: t
    else h :: pushHist t e

/-- The active mission that has been found, and `hist`. -/
structure Merging where
  active : Option MissionSyncEntry := none
  hist : List MissionSyncEntry := []

/-- An active mission takes the place of one that started earlier. -/
def pickActive (active : Option MissionSyncEntry) (e : MissionSyncEntry) :
    Option MissionSyncEntry :=
  match active with
  | none => some e
  | some a => if a.start_utc < e.start_utc then some e else some a

/-- What one packet adds: its active mission if it is `authoritative`, its history, and its active
mission if that is over. -/
def Merging.add (st : Bytes) (authoritative : Bool) (s : Merging) (p : PktMissionSync) :
    Merging where
  active :=
    if authoritative ∧ p.active_valid ≠ 0 ∧ isMatch st p.active ∧ p.active.state = 1 then
      pickActive s.active p.active
    else s.active
  hist :=
    let hist := (p.history.filter (isMatch st)).foldl pushHist s.hist
    if p.active_valid ≠ 0 ∧ isMatch st p.active ∧ p.active.state ≠ 1 then pushHist hist p.active
    else hist

/-- `own_s`: the station's own packet, if it is kept in full. -/
def MissionMap.own (m : MissionMap) (st : Bytes) : Option PktMissionSync :=
  match m.find st with
  | some (some p) => some p
  | _ => none

/-- Whether the packet under a key may say that the station's mission is active. -/
def MissionMap.authoritative (m : MissionMap) (st k : Bytes) : Bool :=
  (m.own st).isNone || k = st

/-- The loop over all packets. -/
def MissionMap.merge (m : MissionMap) (st : Bytes) : Merging :=
  m.snapshots.foldl (fun s kp => s.add st (m.authoritative st kp.1) kp.2) {}

/-- An active mission is none if there is a record of its end. -/
def Merging.cancel (s : Merging) : Merging :=
  if s.active.any fun a => s.hist.any fun h =>
      (h.year = a.year ∧ h.code.str = a.code.str ∧ h.start_utc = a.start_utc) ∧ h.end_utc ≠ 0 then
    { s with active := none }
  else s

/-- `PktMissionSyncFor`. -/
structure PktMissionSyncFor where
  station : Chars 64
  found : UInt8
  sync : PktMissionSync
  deriving DecidableEq

/-- The order in which `hist` is sorted. -/
def startsLater (a b : MissionSyncEntry) : Prop := a.start_utc > b.start_utc

/-- `handle_mission_sync_req`, of a request that names a station, none if it is too short to. -/
def handleMissionSyncReq (S : StdSort MissionSyncEntry startsLater) (m : MissionMap) :
    Option (Chars 64) → Option PktMissionSyncFor
  | none => none
  | some station =>
    if station.str = [] then none
    else
      let s := (m.merge station.str).cancel
      let hist := S.sort s.hist
      let n := min hist.length MAX_MISSION_HISTORY_PER_PKT
      some {
        station := .ofStr 64 (station.str.take 63)
        found := if s.active.isSome ∨ 0 < n then 1 else 0
        sync :=
          { active_valid := if s.active.isSome then 1 else 0
            history_count := UInt16.ofNat n
            active := s.active.getD {}
            entries := (hist ++ List.replicate MAX_MISSION_HISTORY_PER_PKT ({} : MissionSyncEntry)).take
              MAX_MISSION_HISTORY_PER_PKT
            size := by simp } }

/-- The active mission of a reply. -/
def PktMissionSyncFor.active (reply : PktMissionSyncFor) : Option MissionSyncEntry :=
  if reply.sync.active_valid ≠ 0 then some reply.sync.active else none

/-! ## What the packets say -/

/-- The records of a packet on a station. -/
def PktMissionSync.records (p : PktMissionSync) (st : Bytes) : List MissionSyncEntry :=
  p.history.filter (isMatch st) ++
    if p.active_valid ≠ 0 ∧ isMatch st p.active ∧ p.active.state ≠ 1 then [p.active] else []

/-- All records on a station. -/
def MissionMap.records (m : MissionMap) (st : Bytes) : List MissionSyncEntry :=
  m.snapshots.flatMap fun kp => kp.2.records st

/-- The active missions of the station that count. -/
def MissionMap.candidates (m : MissionMap) (st : Bytes) : List MissionSyncEntry :=
  (m.snapshots.filter fun kp => m.authoritative st kp.1 ∧ kp.2.active_valid ≠ 0 ∧
    isMatch st kp.2.active ∧ kp.2.active.state = 1).map fun kp => kp.2.active

theorem pushHist_eq (l : List MissionSyncEntry) (e : MissionSyncEntry) :
    pushHist l e = pushLatest missionKey (fun e => e.start_utc.toInt) l e := by
  induction l with
  | nil => rfl
  | cons h t ih =>
    simp only [pushHist, pushLatest, missionKey, Prod.mk.injEq, Int64.lt_iff_toInt_lt, ih]

theorem toList_pickActive (active : Option MissionSyncEntry) (e : MissionSyncEntry) :
    (pickActive active e).toList =
      pushLatest (fun _ => ()) (fun e => e.start_utc.toInt) active.toList e := by
  cases active with
  | none => rfl
  | some a =>
    simp only [pickActive, Option.toList_some, pushLatest, if_true, Int64.lt_iff_toInt_lt]
    split_ifs <;> rfl

theorem merge_spec (m : MissionMap) (st : Bytes) :
    (m.merge st).hist = latest missionKey (fun e => e.start_utc.toInt) (m.records st) ∧
      (m.merge st).active.toList =
        latest (fun _ => ()) (fun e => e.start_utc.toInt) (m.candidates st) := by
  have hpush : pushHist = pushLatest missionKey fun e => e.start_utc.toInt :=
    funext fun l => funext fun e => pushHist_eq l e
  have hfold : ∀ (kps : List (Bytes × PktMissionSync)) (s : Merging),
      (kps.foldl (fun s kp => s.add st (m.authoritative st kp.1) kp.2) s).hist =
          (kps.flatMap fun kp => kp.2.records st).foldl
            (pushLatest missionKey fun e => e.start_utc.toInt) s.hist ∧
        (kps.foldl (fun s kp => s.add st (m.authoritative st kp.1) kp.2) s).active.toList =
          ((kps.filter fun kp => m.authoritative st kp.1 ∧ kp.2.active_valid ≠ 0 ∧
            isMatch st kp.2.active ∧ kp.2.active.state = 1).map fun kp => kp.2.active).foldl
              (pushLatest (fun _ => ()) fun e => e.start_utc.toInt) s.active.toList := by
    intro kps
    induction kps with
    | nil => exact fun s => ⟨rfl, rfl⟩
    | cons kp kps ih =>
      intro s
      obtain ⟨h1, h2⟩ := ih (s.add st (m.authoritative st kp.1) kp.2)
      refine ⟨?_, ?_⟩
      · rw [List.foldl_cons, h1, List.flatMap_cons, List.foldl_append, ← hpush]
        simp only [Merging.add, PktMissionSync.records, List.foldl_append]
        split_ifs <;> rfl
      · rw [List.foldl_cons, h2, List.filter_cons]
        simp only [Merging.add, decide_eq_true_eq]
        split_ifs
        · rw [List.map_cons, List.foldl_cons, toList_pickActive]
        · rfl
  exact hfold m.snapshots {}

theorem Merging.cancel_hist (s : Merging) : s.cancel.hist = s.hist := by
  unfold Merging.cancel
  split_ifs <;> rfl

/-- Two records of one mission. -/
def SameMission (r a : MissionSyncEntry) : Prop :=
  missionKey r = missionKey a ∧ r.start_utc = a.start_utc

theorem Merging.cancel_active_iff {s : Merging} {a : MissionSyncEntry} :
    s.cancel.active = some a ↔
      s.active = some a ∧ ∀ r ∈ s.hist, SameMission r a → r.end_utc = 0 := by
  have hended : (s.active.any fun a => s.hist.any fun h => decide
      ((h.year = a.year ∧ h.code.str = a.code.str ∧ h.start_utc = a.start_utc) ∧ h.end_utc ≠ 0)) =
        true ↔ ∃ a ∈ s.active, ∃ r ∈ s.hist, SameMission r a ∧ r.end_utc ≠ 0 := by
    simp only [Option.any_eq_true, List.any_eq_true, decide_eq_true_eq, SameMission, missionKey,
      Prod.mk.injEq, and_assoc, Option.mem_def]
  unfold Merging.cancel
  split_ifs with hany
  · obtain ⟨b, hb, r, hr, hsame, hend⟩ := hended.1 hany
    refine ⟨fun h => h.elim, fun ⟨ha, hopen⟩ => ?_⟩
    obtain rfl : b = a := Option.some.inj (hb.symm.trans ha)
    exact absurd (hopen r hr hsame) hend
  · refine ⟨fun h => ⟨h, fun r hr hsame => ?_⟩, And.left⟩
    by_contra hend
    exact hany (hended.2 ⟨a, h, r, hr, hsame, hend⟩)

section Reply

variable {S : StdSort MissionSyncEntry startsLater} {m : MissionMap} {station : Chars 64}
  {reply : PktMissionSyncFor}

theorem reply_spec (h : handleMissionSyncReq S m (some station) = some reply) :
    reply.sync.history =
        (S.sort (m.merge station.str).hist).take MAX_MISSION_HISTORY_PER_PKT ∧
      reply.active = (m.merge station.str).cancel.active := by
  rw [handleMissionSyncReq] at h
  split_ifs at h
  obtain rfl := Option.some.inj h
  refine ⟨?_, ?_⟩
  · simp only [PktMissionSync.history, Merging.cancel_hist]
    generalize S.sort (m.merge station.str).hist = hist
    have hmax : MAX_MISSION_HISTORY_PER_PKT = 32 := rfl
    have hcount : (UInt16.ofNat (min hist.length MAX_MISSION_HISTORY_PER_PKT)).toNat =
        min hist.length MAX_MISSION_HISTORY_PER_PKT := by
      rw [UInt16.toNat_ofNat']
      exact Nat.mod_eq_of_lt (by omega)
    rw [hcount, Nat.min_eq_left (Nat.min_le_right _ _), List.take_take,
      Nat.min_eq_left (Nat.min_le_right _ _), List.take_append_of_le_length (Nat.min_le_left _ _),
      List.take_eq_take_iff]
    omega
  · simp only [PktMissionSyncFor.active]
    cases (m.merge station.str).cancel.active <;> rfl

theorem history_merged (h : handleMissionSyncReq S m (some station) = some reply) :
    reply.sync.history.Pairwise (fun e e' => missionKey e ≠ missionKey e') ∧
      ∀ e ∈ reply.sync.history, e ∈ m.records station.str ∧
        ∀ r ∈ m.records station.str, missionKey r = missionKey e → r.start_utc ≤ e.start_utc := by
  have hhist := (merge_spec m station.str).1
  have hsub := List.take_sublist MAX_MISSION_HISTORY_PER_PKT (S.sort (m.merge station.str).hist)
  have hperm := S.perm (m.merge station.str).hist
  rw [← (reply_spec h).1] at hsub
  refine ⟨?_, fun e he => ?_⟩
  · refine List.Pairwise.sublist hsub (hperm.symm.pairwise ?_ fun hne => Ne.symm hne)
    rw [hhist]
    exact pairwise_latest _ _ _
  · have hmem := hperm.mem_iff.1 (hsub.subset he)
    rw [hhist] at hmem
    obtain ⟨h1, h2⟩ := isLatest_of_mem_latest hmem
    exact ⟨h1, fun r hr hkey => Int64.le_iff_toInt_le.2 (h2 r hr hkey)⟩

/-- A mission is active in the reply only if the station's own packet says so and no packet has a
record of its end. -/
def ActiveOwn (S : StdSort MissionSyncEntry startsLater) (m : MissionMap) (station : Chars 64) :
    Prop :=
  ∀ reply a, handleMissionSyncReq S m (some station) = some reply → reply.active = some a →
    (∃ p, m.own station.str = some p ∧ p.active_valid ≠ 0 ∧ p.active = a) ∧
      ∀ r ∈ m.records station.str, SameMission r a → r.end_utc = 0

/-- What the packets say of the first of the latest active missions that count: if there are records
of its end, the first of the latest records of its year and code is one; if there are none, it stands
in the station's own packet. -/
def Told (m : MissionMap) (st : Bytes) : Prop :=
  ∀ a, IsFirstLatest (fun _ => ()) (fun e => e.start_utc.toInt) (m.candidates st) a →
    ((∃ r ∈ m.records st, SameMission r a ∧ r.end_utc ≠ 0) →
      ∃ r, IsFirstLatest missionKey (fun e => e.start_utc.toInt) (m.records st) r ∧
        SameMission r a ∧ r.end_utc ≠ 0) ∧
    ((∀ r ∈ m.records st, SameMission r a → r.end_utc = 0) →
      ∃ p, m.own st = some p ∧ p.active_valid ≠ 0 ∧ p.active = a)

theorem merge_active_iff {st : Bytes} {a : MissionSyncEntry} : (m.merge st).active = some a ↔
    IsFirstLatest (fun _ => ()) (fun e => e.start_utc.toInt) (m.candidates st) a := by
  rw [← mem_latest_iff_isFirstLatest, ← (merge_spec m st).2, Option.mem_toList]

theorem mem_merge_hist_iff {st : Bytes} {r : MissionSyncEntry} : r ∈ (m.merge st).hist ↔
    IsFirstLatest missionKey (fun e => e.start_utc.toInt) (m.records st) r := by
  rw [← mem_latest_iff_isFirstLatest, (merge_spec m st).1]

theorem exists_reply (hst : station.str ≠ []) :
    ∃ reply, handleMissionSyncReq S m (some station) = some reply := by
  rw [handleMissionSyncReq, if_neg hst]
  exact ⟨_, rfl⟩

/-- A mission is rightly active in the reply exactly if Central is told so. -/
theorem activeOwn_iff : ActiveOwn S m station ↔ (station.str ≠ [] → Told m station.str) := by
  constructor
  · intro hown hst a ha
    obtain ⟨reply, hreply⟩ := exists_reply (S := S) (m := m) hst
    have hmerged := merge_active_iff.2 ha
    refine ⟨fun ⟨r, hr, hsame, hend⟩ => ?_, fun hopen => ?_⟩
    · by_contra hkept
      have hactive : reply.active = some a := by
        rw [(reply_spec hreply).2, Merging.cancel_active_iff]
        refine ⟨hmerged, fun r hr hsame => ?_⟩
        by_contra hend
        exact hkept ⟨r, mem_merge_hist_iff.1 hr, hsame, hend⟩
      exact hend ((hown reply a hreply hactive).2 r hr hsame)
    · have hactive : reply.active = some a := by
        rw [(reply_spec hreply).2, Merging.cancel_active_iff]
        refine ⟨hmerged, fun r hr hsame => hopen r ?_ hsame⟩
        rw [(merge_spec m station.str).1] at hr
        exact mem_of_mem_latest hr
      exact (hown reply a hreply hactive).1
  · intro htold reply a hreply ha
    have hst : station.str ≠ [] := fun hnil => by
      rw [handleMissionSyncReq, if_pos hnil] at hreply
      cases hreply
    rw [(reply_spec hreply).2, Merging.cancel_active_iff] at ha
    obtain ⟨hended, hopen⟩ := htold hst a (merge_active_iff.1 ha.1)
    have hno : ∀ r ∈ m.records station.str, SameMission r a → r.end_utc = 0 := by
      intro r hr hsame
      by_contra hend
      obtain ⟨r', hr', hsame', hend'⟩ := hended ⟨r, hr, hsame, hend⟩
      exact hend' (ha.2 r' (mem_merge_hist_iff.2 hr') hsame')
    exact ⟨hopen hno, hno⟩

end Reply

/-! ## The order of the map -/

/-- No two different records tie: two that are each the latest of its year and code start at
different times, and so do active missions that count, the latest of them. -/
structure NoTies (m : MissionMap) (st : Bytes) : Prop where
  records : ∀ r r', IsLatest missionKey (fun e => e.start_utc.toInt) (m.records st) r →
    IsLatest missionKey (fun e => e.start_utc.toInt) (m.records st) r' →
    r.start_utc = r'.start_utc → r = r'
  candidates : ∀ a a', IsLatest (fun _ => ()) (fun e => e.start_utc.toInt) (m.candidates st) a →
    IsLatest (fun _ => ()) (fun e => e.start_utc.toInt) (m.candidates st) a' → a = a'

/-- A packet has a record of the station, or an active mission of it. -/
def PktMissionSync.Speaks (p : PktMissionSync) (st : Bytes) : Prop :=
  p.records st ≠ [] ∨ p.active_valid ≠ 0 ∧ isMatch st p.active = true

instance (p : PktMissionSync) (st : Bytes) : Decidable (p.Speaks st) :=
  inferInstanceAs (Decidable (_ ∨ _))

/-- One packet alone speaks of the station. -/
def Alone (m : MissionMap) (st : Bytes) : Prop :=
  ∀ kp ∈ m.snapshots, ∀ kp' ∈ m.snapshots, kp.2.Speaks st → kp'.2.Speaks st → kp = kp'

/-- The reply is the same in whatever order the map is gone through. -/
def OrderFree (S : StdSort MissionSyncEntry startsLater) (m : MissionMap) (station : Chars 64) :
    Prop :=
  ∀ m' : MissionMap, m'.list.Perm m.list →
    handleMissionSyncReq S m' (some station) = handleMissionSyncReq S m (some station)

section Order

variable {m m' : MissionMap} {st : Bytes}

theorem authoritative_eq_of_perm (h : m'.list.Perm m.list) (st k : Bytes) :
    m'.authoritative st k = m.authoritative st k := by
  rw [MissionMap.authoritative, MissionMap.authoritative, MissionMap.own, MissionMap.own,
    StationMap.find_eq_of_perm h]

theorem snapshots_perm (h : m'.list.Perm m.list) : m'.snapshots.Perm m.snapshots := by
  exact h.filterMap _

theorem records_perm (h : m'.list.Perm m.list) (st : Bytes) :
    (m'.records st).Perm (m.records st) :=
  (snapshots_perm h).flatMap_right _

theorem candidates_perm (h : m'.list.Perm m.list) (st : Bytes) :
    (m'.candidates st).Perm (m.candidates st) := by
  unfold MissionMap.candidates
  simp only [authoritative_eq_of_perm h]
  exact ((snapshots_perm h).filter _).map _

theorem eq_of_toList_perm {α : Type*} {a b : Option α} (h : a.toList.Perm b.toList) : a = b := by
  cases a with
  | none => cases b with
    | none => rfl
    | some b => simpa using h.length_eq
  | some a => cases b with
    | none => simpa using h.length_eq
    | some b => simpa using h

theorem NoTies.merge_perm (hties : NoTies m st) (h : m'.list.Perm m.list) :
    (m'.merge st).hist.Perm (m.merge st).hist ∧ (m'.merge st).active = (m.merge st).active := by
  obtain ⟨hhist, hactive⟩ := merge_spec m st
  obtain ⟨hhist', hactive'⟩ := merge_spec m' st
  refine ⟨?_, eq_of_toList_perm ?_⟩
  · rw [hhist, hhist']
    refine (perm_latest (records_perm h st).symm fun x y hx hy hkey => ?_).symm
    have hxy := hx.2 y hy.1 hkey.symm
    have hyx := hy.2 x hx.1 hkey
    exact hties.records x y hx hy (Int64.toInt_inj.1 (le_antisymm hyx hxy))
  · rw [hactive, hactive']
    exact (perm_latest (candidates_perm h st).symm fun x y hx hy _ =>
      hties.candidates x y hx hy).symm

theorem cancel_active_eq_of_perm {s s' : Merging} (hhist : s'.hist.Perm s.hist)
    (hactive : s'.active = s.active) : s'.cancel.active = s.cancel.active := by
  have hany : ∀ p : MissionSyncEntry → Bool, s'.hist.any p = s.hist.any p := fun p => by
    rw [Bool.eq_iff_iff, List.any_eq_true, List.any_eq_true]
    simp only [hhist.mem_iff]
  unfold Merging.cancel
  simp only [hactive, hany]
  split_ifs
  · rfl
  · exact hactive

theorem NoTies.orderFree {station : Chars 64} (hties : NoTies m station.str)
    (S : StdSort MissionSyncEntry startsLater) : OrderFree S m station := by
  intro m' h
  obtain ⟨hhist, hactive⟩ := hties.merge_perm h
  have hsort : S.sort (m'.merge station.str).hist = S.sort (m.merge station.str).hist := by
    refine (S.sort_eq S hhist.symm fun a ha b hb hab hba => ?_).symm
    rw [(merge_spec m station.str).1] at ha hb
    refine hties.records a b (isLatest_of_mem_latest ha) (isLatest_of_mem_latest hb) ?_
    exact Int64.toInt_inj.1 (le_antisymm (not_lt.1 fun hlt => hab (Int64.lt_iff_toInt_lt.2 hlt))
      (not_lt.1 fun hlt => hba (Int64.lt_iff_toInt_lt.2 hlt)))
  simp only [handleMissionSyncReq, Merging.cancel_hist, hsort,
    cancel_active_eq_of_perm hhist hactive]

theorem filter_eq_of_perm {α : Type*} {l l' : List α} (h : l'.Perm l) (hnd : l.Nodup) {P : α → Bool}
    (hone : ∀ x ∈ l, ∀ y ∈ l, P x = true → P y = true → x = y) : l'.filter P = l.filter P := by
  have hperm := h.filter P
  cases hl : l.filter P with
  | nil => rwa [hl, List.perm_nil] at hperm
  | cons x t =>
    have ht : t = [] := by
      refine List.eq_nil_iff_forall_not_mem.2 fun y hy => ?_
      have hx := List.mem_filter.1 (hl ▸ List.mem_cons_self : x ∈ l.filter P)
      have hy' := List.mem_filter.1 (hl ▸ List.mem_cons_of_mem x hy : y ∈ l.filter P)
      have hnd' := hnd.filter P
      rw [hl, List.nodup_cons] at hnd'
      exact hnd'.1 (hone x hx.1 y hy'.1 hx.2 hy'.2 ▸ hy)
    rwa [hl, ht, List.perm_singleton, ← ht] at hperm

theorem flatMap_filter_ne_nil {α β : Type*} (f : α → List β) (P : α → Bool)
    (hP : ∀ x, P x = false → f x = []) (l : List α) : l.flatMap f = (l.filter P).flatMap f := by
  induction l with
  | nil => rfl
  | cons x l ih =>
    cases hx : P x with
    | true => rw [List.filter_cons_of_pos hx, List.flatMap_cons, List.flatMap_cons, ih]
    | false =>
      rw [List.filter_cons_of_neg (by rw [hx]; exact Bool.false_ne_true), List.flatMap_cons, hP x hx, ih,
        List.nil_append]

theorem Alone.merge_eq (halone : Alone m st) (h : m'.list.Perm m.list) : m'.merge st = m.merge st := by
  have hspeaks : m'.snapshots.filter (fun kp => decide (kp.2.Speaks st)) =
      m.snapshots.filter fun kp => decide (kp.2.Speaks st) :=
    filter_eq_of_perm (snapshots_perm h) m.nodup_snapshots.of_map fun kp hkp kp' hkp' hs hs' =>
      halone kp hkp kp' hkp' (of_decide_eq_true hs) (of_decide_eq_true hs')
  have hrecords : m'.records st = m.records st := by
    have hnone : ∀ kp : Bytes × PktMissionSync, decide (kp.2.Speaks st) = false →
        kp.2.records st = [] := fun kp hkp => by
      by_contra hne
      exact of_decide_eq_false hkp (Or.inl hne)
    unfold MissionMap.records
    rw [flatMap_filter_ne_nil _ _ hnone m'.snapshots, flatMap_filter_ne_nil _ _ hnone m.snapshots,
      hspeaks]
  have hcandidates : ∀ m : MissionMap, m.candidates st =
      ((m.snapshots.filter fun kp => decide (kp.2.Speaks st)).filter fun kp =>
        m.authoritative st kp.1 ∧ kp.2.active_valid ≠ 0 ∧ isMatch st kp.2.active ∧
          kp.2.active.state = 1).map fun kp => kp.2.active := fun m => by
    rw [List.filter_filter]
    refine congrArg (List.map _) (List.filter_congr fun kp _ => ?_)
    rw [← Bool.decide_and]
    exact decide_eq_decide.2 ⟨fun hc => ⟨hc, Or.inr ⟨hc.2.1, hc.2.2.1⟩⟩, And.left⟩
  obtain ⟨hhist, hactive⟩ := merge_spec m st
  obtain ⟨hhist', hactive'⟩ := merge_spec m' st
  have hcand : m'.candidates st = m.candidates st := by
    rw [hcandidates m', hcandidates m, hspeaks]
    simp only [authoritative_eq_of_perm h]
  rw [hrecords, ← hhist] at hhist'
  rw [hcand, ← hactive] at hactive'
  have ha : (m'.merge st).active = (m.merge st).active :=
    eq_of_toList_perm (by rw [hactive'])
  calc m'.merge st = ⟨(m'.merge st).active, (m'.merge st).hist⟩ := rfl
    _ = ⟨(m.merge st).active, (m.merge st).hist⟩ := by rw [ha, hhist']

theorem Alone.orderFree {station : Chars 64} (halone : Alone m station.str)
    (S : StdSort MissionSyncEntry startsLater) : OrderFree S m station := by
  intro m' h
  simp only [handleMissionSyncReq, halone.merge_eq h]

end Order

/-- The reply is well defined. -/
structure WellDefined (S : StdSort MissionSyncEntry startsLater) (m : MissionMap)
    (station : Chars 64) : Prop where
  /-- It does not depend on the order of the map. -/
  orderFree : OrderFree S m station
  /-- Of each year and code it has one record at most, and no packet has a later one. -/
  merged : ∀ reply, handleMissionSyncReq S m (some station) = some reply →
    reply.sync.history.Pairwise (fun e e' => missionKey e ≠ missionKey e') ∧
      ∀ e ∈ reply.sync.history, e ∈ m.records station.str ∧
        ∀ r ∈ m.records station.str, missionKey r = missionKey e → r.start_utc ≤ e.start_utc
  /-- A mission is active in it only if the station's own packet says so and none says that it ended. -/
  active : ActiveOwn S m station

/-- The reply is well defined where no different records tie, or one packet alone speaks of the
station, and Central is told of the end of an active mission; and it is well defined only if Central
is told. -/
theorem missions_reply (S : StdSort MissionSyncEntry startsLater) (m : MissionMap)
    (station : Chars 64) :
    (Alone m station.str ∨ NoTies m station.str → (station.str ≠ [] → Told m station.str) →
      WellDefined S m station) ∧
    (WellDefined S m station → station.str ≠ [] → Told m station.str) :=
  ⟨fun hsettled htold =>
    ⟨hsettled.elim (fun halone => halone.orderFree S) fun hties => hties.orderFree S,
      fun _ h => history_merged h, activeOwn_iff.2 htold⟩,
    fun h => activeOwn_iff.1 h.active⟩

/-- Sorting by insertion. -/
def insertionSort : StdSort MissionSyncEntry startsLater where
  sort := List.insertionSort fun a b => b.start_utc ≤ a.start_utc
  perm := List.perm_insertionSort _
  sorted l := by
    have htotal : Std.Total fun a b : MissionSyncEntry => b.start_utc ≤ a.start_utc :=
      ⟨fun a b => Int64.le_total b.start_utc a.start_utc⟩
    have htrans : IsTrans MissionSyncEntry fun a b => b.start_utc ≤ a.start_utc :=
      ⟨fun _ _ _ hab hbc => Int64.le_trans hbc hab⟩
    exact (List.pairwise_insertionSort _ l).imp fun hab hba => Int64.not_le.2 hba hab

/-- The mission A03 of the station `DGS`, as started by the operator `op_index`. -/
def startedBy (op_index : UInt8) : MissionSyncEntry where
  valid := 1
  state := 1
  op_index := op_index
  year := 2025
  code := .ofStr 8 (ascii "A03")
  start_utc := 1750000000
  station_name := .ofStr 64 (ascii "DGS")

/-- The packet of a HOST of another station, in which there is a record of `DGS`. -/
def seenPacket (name : Bytes) (e : MissionSyncEntry) : PktMissionSync where
  active_valid := 1
  history_count := 1
  active := { startedBy 0 with station_name := .ofStr 64 name }
  entries := e :: List.replicate 31 {}
  size := by rw [List.length_cons, List.length_replicate, MAX_MISSION_HISTORY_PER_PKT]

/-- The station `DGS` has a mission, and another one has seen an earlier one of it. -/
def ownAndSeen : MissionMap :=
  ⟨[(ascii "DGS", some (onePacket (startedBy 0))),
      (ascii "X", some (seenPacket (ascii "X")
        { startedBy 0 with start_utc := 1740000000, end_utc := 1740003600, state := 0 }))],
    by decide⟩

/-- The reply on `DGS` is well defined, and has the mission as active. -/
theorem wellDefined_ownAndSeen : WellDefined insertionSort ownAndSeen (.ofStr 64 (ascii "DGS")) := by
  have hrecords : ownAndSeen.records (Chars.ofStr 64 (ascii "DGS")).str =
      [{ startedBy 0 with start_utc := 1740000000, end_utc := 1740003600, state := 0 }] := by rfl
  have hcandidates : ownAndSeen.candidates (Chars.ofStr 64 (ascii "DGS")).str = [startedBy 0] := by rfl
  have hown : ownAndSeen.own (Chars.ofStr 64 (ascii "DGS")).str = some (onePacket (startedBy 0)) := by
    rfl
  refine (missions_reply insertionSort ownAndSeen (.ofStr 64 (ascii "DGS"))).1
    (Or.inr ⟨fun r r' hr hr' _ => ?_, fun a a' ha ha' => ?_⟩) fun _ a ha => ⟨?_, fun _ => ?_⟩
  · have h1 := hr.1
    have h2 := hr'.1
    rw [hrecords, List.mem_singleton] at h1 h2
    rw [h1, h2]
  · have h1 := ha.1
    have h2 := ha'.1
    rw [hcandidates, List.mem_singleton] at h1 h2
    rw [h1, h2]
  · have h1 := mem_of_mem_latest (mem_latest_iff_isFirstLatest.2 ha)
    rw [hcandidates, List.mem_singleton] at h1
    rintro ⟨r, hr, hsame, -⟩
    rw [hrecords, List.mem_singleton] at hr
    rw [hr, h1] at hsame
    exact absurd hsame.2 (by decide)
  · have h1 := mem_of_mem_latest (mem_latest_iff_isFirstLatest.2 ha)
    rw [hcandidates, List.mem_singleton] at h1
    exact ⟨_, hown, by decide, h1.symm⟩

/-- Two other stations have seen the mission of `DGS`: the one a record without an end of it, and the
other one the record of its end. -/
def twoCopies : MissionMap :=
  ⟨[(ascii "DGS", some (onePacket (startedBy 0))),
      (ascii "X", some (seenPacket (ascii "X") { startedBy 0 with state := 0 })),
      (ascii "Y", some (seenPacket (ascii "Y") { startedBy 0 with state := 0, end_utc := 1750003600 }))],
    by decide⟩

/-- All three packets lie under the names of their stations, and the first copy hides the record of the
end: the mission is still active, and in the other order of the map it is not. -/
theorem not_wellDefined_twoCopies :
    (∀ kp ∈ twoCopies.snapshots, kp.1 = missionSyncStationKey [] (some kp.2)) ∧
      ¬ OrderFree insertionSort twoCopies (.ofStr 64 (ascii "DGS")) ∧
      ¬ ActiveOwn insertionSort twoCopies (.ofStr 64 (ascii "DGS")) := by
  refine ⟨by decide, fun h => ?_, fun h => ?_⟩
  · have hswap := h ⟨twoCopies.list.reverse, by decide⟩ (List.reverse_perm _)
    have hvalid := congrArg (fun r => r.map fun r => r.sync.active_valid) hswap
    exact absurd hvalid (by decide)
  · obtain ⟨-, hopen⟩ := h _ (startedBy 0) rfl (by decide)
    have hended := hopen { startedBy 0 with state := 0, end_utc := 1750003600 } (by decide)
      ⟨rfl, rfl⟩
    exact absurd hended (by decide)

end Bewe.Saved
