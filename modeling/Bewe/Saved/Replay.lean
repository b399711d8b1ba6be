import Bewe.Saved.MissionsRestart

/-!
# The snapshot that a HOST gets back

Central keeps the MISSION_SYNC of a room under a key that it takes from the packet, and looks for
the id of the room when a HOST opens it. `Central` is what it keeps, in memory and in
`missions.json`, and `Ledger` is what a HOST may expect: the latest packet of its own room, after a
restart as it comes back from the file. `replay_iff` says of which histories they agree.
-/

namespace Bewe.Saved

/-- What happens to what Central keeps. -/
inductive Event
  | hostOpen (station_id : Bytes)
  | missionSync (station_id : Bytes) (bewe_pkt : Blob)
  | restart

/-! ## Central -/

/-- `missions_by_station_`, and the bytes of `missions.json`, none before it is there. -/
structure Central where
  missions : MissionMap := StationMap.empty
  file : Bytes := []

/-- What an event leaves. A HOST that opens its room changes nothing of it. -/
def Central.step (c : Central) : Event → Central
  | .hostOpen _ => c
  | .missionSync station_id bewe_pkt =>
    let missions := c.missions.set (missionSyncStationKey station_id bewe_pkt) bewe_pkt
    ⟨missions, saveMissionsToJson missions⟩
  | .restart => { c with missions := loadMissionsFromJson c.file }

/-- What a HOST that opens a room is sent. -/
def Central.replay (c : Central) (station_id : Bytes) : Option Blob := c.missions.find station_id

/-! ## What a HOST expects -/

/-- A packet as it comes back from the file: a short one or one without missions does not. -/
def restored : Blob → Option Blob
  | none => none
  | some p => if p.missions = [] then none else some (some (replaced p.missions).pkt)

/-- The latest packet of each room, and those that the file has. -/
structure Ledger where
  latest : Bytes → Option Blob := fun _ => none
  filed : Bytes → Option Blob := fun _ => none

/-- What an event does to the packets of the rooms. -/
def Ledger.step (l : Ledger) : Event → Ledger
  | .hostOpen _ => l
  | .missionSync station_id bewe_pkt =>
    let latest := fun k => if k = station_id then some bewe_pkt else l.latest k
    ⟨latest, latest⟩
  | .restart => { l with latest := fun k => (l.filed k).bind restored }

/-- Central and what is expected of it, after a history. -/
def after (es : List Event) : Central × Ledger :=
  es.foldl (fun s e => (s.1.step e, s.2.step e)) ({}, {})

/-- Whichever HOST opens its room, it is sent its own latest packet. -/
def ReplaysOwn (s : Central × Ledger) : Prop := ∀ id, s.1.replay id = s.2.latest id

/-- A packet names the room that it comes from, or none: itself, and as it comes back. -/
def Agrees (station_id : Bytes) (bewe_pkt : Blob) : Prop :=
  missionSyncStationKey station_id bewe_pkt = station_id ∧
    ∀ p, bewe_pkt = some p → p.missions ≠ [] → KeyKept station_id (replaced p.missions).missions

/-! ## Keys -/

/-- Every packet stands under a key that agrees with it. -/
def KeysAgree (m : MissionMap) : Prop := ∀ k b, m.find k = some b → Agrees k b

theorem keysAgree_empty : KeysAgree StationMap.empty := fun k b h => by simp at h

theorem KeysAgree.set {m : MissionMap} (h : KeysAgree m) {k : Bytes} {b : Blob} (hb : Agrees k b) :
    KeysAgree (m.set k b) := by
  intro k' b' hk'
  rw [StationMap.find_set] at hk'
  split_ifs at hk' with heq
  · obtain rfl := Option.some.inj hk'
    rwa [heq]
  · exact h k' b' hk'

theorem Placed.keyKept_replaced {s : Loading} (h : Placed s) {k : Bytes}
    (hk : KeyKept k s.missions) : KeyKept k (replaced s.missions).missions := by
  have hsame := same_map_reread fun e he => (h.clean e he).1
  rwa [h.inPlace.missions_replaced, KeyKept, ← findSome?_of_forall₂ hsame]

theorem keysAgree_restart (m : MissionMap) : KeysAgree m.restart := by
  intro k b hb
  obtain ⟨s, hs, rfl, hk⟩ := loaded_restart m k b hb
  refine ⟨?_, ?_⟩
  · rw [hs.stationKey_pkt k]
    unfold KeyKept at hk
    cases hn : s.missions.findSome? stationName with
    | none => rfl
    | some n =>
      rw [hn] at hk
      exact hk.symm
  · rintro p hp -
    obtain rfl := Option.some.inj hp
    rw [hs.missions_pkt]
    exact hs.keyKept_replaced hk

theorem KeysAgree.find_restart {m : MissionMap} (h : KeysAgree m) (k : Bytes) :
    m.restart.find k = (m.find k).bind restored := by
  have hkeys : ∀ kp ∈ m.snapshots, kp.2.missions ≠ [] →
      storeKey (rereadId kp.1) (replaced kp.2.missions).pkt = kp.1 := by
    intro kp hkp hne
    have hfind := m.find_eq_some_iff.2 ((lookup_eq_some_iff_mem m.nodup_snapshots).2 hkp)
    exact (placed_replaced _).storeKey_eq ((h _ _ hfind).2 _ rfl hne)
  rw [restart_eq, find_foldl_restoreStation m.snapshots m.nodup_snapshots hkeys StationMap.empty
    (fun _ _ => rfl) k]
  cases hl : m.snapshots.lookup k with
  | some p => rw [m.find_eq_some_iff.2 hl]; rfl
  | none =>
    cases hf : m.find k with
    | none => rfl
    | some b =>
      cases b with
      | none => rfl
      | some p => rw [m.find_eq_some_iff.1 hf] at hl; cases hl

theorem keyKept_of_find_restart {m : MissionMap} {k : Bytes} {missions : List MissionSyncEntry}
    (h : m.restart.find k = some (some (replaced missions).pkt)) :
    KeyKept k (replaced missions).missions := by
  obtain ⟨s, hs, hpkt, hk⟩ := loaded_restart m k _ h
  have hmissions : (replaced missions).missions = s.missions := by
    rw [← (placed_replaced missions).missions_pkt, ← hs.missions_pkt, Option.some.inj hpkt]
  rwa [hmissions]

/-! ## Histories -/

/-- Central keeps what is expected, under keys that agree, and so does the map that the file is
of. -/
structure Kept (s : Central × Ledger) : Prop where
  own : ReplaysOwn s
  keys : KeysAgree s.1.missions
  filed : ∃ m : MissionMap, loadMissionsFromJson s.1.file = m.restart ∧
    (∀ k, m.find k = s.2.filed k) ∧ KeysAgree m

theorem kept_nil : Kept (after []) where
  own _ := rfl
  keys := keysAgree_empty
  filed := ⟨StationMap.empty, rfl, fun _ => rfl, keysAgree_empty⟩

theorem after_concat (es : List Event) (e : Event) :
    after (es ++ [e]) = ((after es).1.step e, (after es).2.step e) := by
  simp [after]

theorem Kept.hostOpen {es : List Event} (h : Kept (after es)) (id : Bytes) :
    Kept (after (es ++ [.hostOpen id])) := by
  rw [after_concat]
  exact h

theorem Kept.restart {es : List Event} (h : Kept (after es)) :
    Kept (after (es ++ [.restart])) := by
  obtain ⟨m, hload, hfind, hm⟩ := h.filed
  rw [after_concat]
  refine ⟨fun id => ?_, ?_, m, hload, hfind, hm⟩
  · calc (loadMissionsFromJson (after es).1.file).find id
      _ = m.restart.find id := by rw [hload]
      _ = (m.find id).bind restored := hm.find_restart id
      _ = ((after es).2.filed id).bind restored := by rw [hfind]
  · simp only [Central.step, hload]
    exact keysAgree_restart m

theorem Kept.missionSync {es : List Event} (h : Kept (after es)) {id : Bytes} {b : Blob}
    (hb : Agrees id b) : Kept (after (es ++ [.missionSync id b])) := by
  have hset := h.keys.set hb
  have hown : ∀ k, ((after es).1.missions.set id b).find k =
      if k = id then some b else (after es).2.latest k := by
    intro k
    rw [StationMap.find_set]
    split_ifs
    · rfl
    · exact h.own k
  rw [after_concat]
  simp only [Central.step, Ledger.step, hb.1]
  exact ⟨hown, hset, _, rfl, hown, hset⟩

/-- If a HOST gets its own packet right after it has sent it, and after a restart, the packet agrees
with its room. -/
theorem agrees_of_replaysOwn {es : List Event} (h : Kept (after es)) {id : Bytes} {b : Blob}
    (hnow : ReplaysOwn (after (es ++ [.missionSync id b])))
    (hlater : ReplaysOwn (after (es ++ [.missionSync id b] ++ [.restart]))) : Agrees id b := by
  have hfind := hnow id
  rw [after_concat] at hfind
  simp only [Central.replay, Central.step, Ledger.step, if_true, StationMap.find_set] at hfind
  have hkey : missionSyncStationKey id b = id := by
    by_contra hne
    -- the packet stands elsewhere, so the room must have had the same one before, under its key
    rw [if_neg (Ne.symm hne)] at hfind
    exact hne (h.keys id b hfind).1
  refine ⟨hkey, ?_⟩
  rintro p rfl hp
  have hback := hlater id
  rw [after_concat, after_concat] at hback
  simp only [Central.replay, Central.step, Ledger.step, if_true, Option.bind_some, restored,
    if_neg hp] at hback
  exact keyKept_of_find_restart hback

/-- At every moment of a history each HOST would get its own latest packet, also after a restart,
exactly if each packet agrees with the room that it comes from. -/
theorem replay_iff (es : List Event) :
    (∀ es', es' <+: es → ReplaysOwn (after es') ∧ ReplaysOwn (after (es' ++ [.restart]))) ↔
      ∀ id b, .missionSync id b ∈ es → Agrees id b := by
  have hkept : ∀ es : List Event, (∀ id b, .missionSync id b ∈ es → Agrees id b) →
      Kept (after es) := by
    intro es
    induction es using List.reverseRecOn with
    | nil => exact fun _ => kept_nil
    | append_singleton es e ih =>
      intro h
      have hes := ih fun id b hb => h id b (List.mem_append_left _ hb)
      cases e with
      | hostOpen id => exact hes.hostOpen id
      | missionSync id b => exact hes.missionSync (h id b (by simp))
      | restart => exact hes.restart
  constructor
  · intro h
    induction es using List.reverseRecOn with
    | nil => simp
    | append_singleton es e ih =>
      have hes := ih fun es' hpre => h es' (hpre.trans (List.prefix_append _ _))
      intro id b hb
      rcases List.mem_append.1 hb with hb | hb
      · exact hes id b hb
      · obtain rfl := List.mem_singleton.1 hb
        have hlast := h _ (List.prefix_refl _)
        exact agrees_of_replaysOwn (hkept es hes) hlast.1 hlast.2
  · intro h es' hpre
    have hes' := hkept es' fun id b hb => h id b (hpre.subset hb)
    exact ⟨hes'.own, hes'.restart.own⟩

/-- A mission that runs at the station `DGS`. -/
def running : MissionSyncEntry where
  valid := 1
  state := 1
  year := 2025
  code := .ofStr 8 (ascii "A03")
  start_utc := 1750000000
  station_name := .ofStr 64 (ascii "DGS")

/-- The HOST of `DGS` with the login `sw` does not get its mission back. -/
theorem not_replaysOwn_reopened :
    ¬ ReplaysOwn (after [.hostOpen (ascii "DGS_sw"),
      .missionSync (ascii "DGS_sw") (some (onePacket running)), .hostOpen (ascii "DGS_sw")]) := by
  intro h
  exact absurd (h (ascii "DGS_sw")) (by decide)

end Bewe.Saved
