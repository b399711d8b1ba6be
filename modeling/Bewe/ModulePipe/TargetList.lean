import Bewe.ModulePipe.Owners

/-!
# The list of decoder targets

HOST sends, for each module, the mask of the channels on which it decodes, 64 bits wide
(`host_send_state`), and all its channels (`broadcast_channel_sync`). Central keeps the last of each
for every room and answers a JOIN's `CH_LIST_REQ` from them (`handle_join_module_pipe`): an entry
for each active channel of each live room, with the mask's bit in `decode_on`. Central's copy of the
mask has 32 bits, and shifting it by 32 or more is undefined, so the answer is a function of what
the program does there (`oob`).

`targets` is what the list is for: the HOSTs' channels with the HOSTs' own masks. The answer is that
list, whatever an out-of-range shift does, exactly if no live room has an active channel from 32 on
(`chList_eq_targets_iff`).

Channel ranges, modes and counters are passed through and are kept as the bits they have in the
packet. The display number and the tuning of the station are not modelled.
-/

namespace Bewe.ModulePipe

/-! ## HOST -/

/-- The bit of a STATE mask that says that the module can run at the station. -/
def MOD_AVAIL_BIT : ℕ := 63

/-- What a channel of HOST contributes to CHANNEL_SYNC and to the target list. -/
structure HostChannel where
  filter_active : Bool
  s : BitVec 32
  e : BitVec 32
  mode : BitVec 8
  dem_paused : Bool
  det_state : BitVec 8
  dec_count : BitVec 32
  dec_runtime_s : BitVec 32
  deriving DecidableEq

/-- The fields of `ChSyncEntry` that the target list reads. -/
structure ChSyncEntry extends HostChannel where
  idx : ℕ
  deriving DecidableEq

/-- The entries that `broadcast_channel_sync` sends, one for each slot. -/
def channelSync (channels : ℕ → HostChannel) : List ChSyncEntry :=
  (List.range MAX_CHANNELS).map fun i => { channels i with idx := i }

/-- The mask that `host_send_state` sends. -/
def stateMask (host_mask : BitVec 64) (avail : Bool) : BitVec 64 :=
  if avail then setBit host_mask MOD_AVAIL_BIT else host_mask

/-- A HOST with what it last sent: its channels, and the mask of each module. -/
structure Peer where
  station_id : String
  alive : Bool
  channels : Option (ℕ → HostChannel)
  sent : String → Option (BitVec 64)

/-! ## Central -/

/-- The room of a HOST on Central: the last CHANNEL_SYNC and `mod_mask`. -/
structure HostRoom where
  station_id : String
  alive : Bool
  cached_ch_sync : Option (List ChSyncEntry)
  mod_mask : String → Option (BitVec 32)

/-- The fields of `MpChEntry` that are modelled. -/
structure MpChEntry extends HostChannel where
  station : String
  ch : ℕ
  decode_on : Bool
  deriving DecidableEq

/-- What a shift by the width of the mask or more gives: its low bit, for a mask and a distance. -/
abbrev Oob := BitVec 32 → ℕ → Bool

/-- `(mmask >> idx) & 1` on 32 bits. -/
def shiftedBit (oob : Oob) (mmask : BitVec 32) (idx : ℕ) : Bool :=
  if idx < 32 then mmask.getLsbD idx else oob mmask idx

/-- The station's name as it fits into the entry, with a byte left for the terminator. -/
def stationField (station_id : String) : String :=
  String.ofList (station_id.toList.take 23)

/-- The entry of one channel. -/
def chEntry (oob : Oob) (station_id : String) (mmask : BitVec 32) (ent : ChSyncEntry) : MpChEntry :=
  { ent.toHostChannel with
    station := stationField station_id, ch := ent.idx, decode_on := shiftedBit oob mmask ent.idx }

/-- The answer to `CH_LIST_REQ`. -/
def chList (oob : Oob) (rooms : List HostRoom) (mod : String) : List MpChEntry :=
  rooms.flatMap fun r =>
    if r.alive then
      match r.cached_ch_sync with
      | some sync =>
        (sync.filter fun ent => ent.filter_active).map
          (chEntry oob r.station_id ((r.mod_mask mod).getD 0))
      | none => []
    else []

/-! ## What can happen -/

/-- The HOSTs and Central. -/
structure Fleet where
  hosts : List Peer
  rooms : List HostRoom

/-- A HOST opens its room, sends the mask of a module, sends its channels, or goes. -/
inductive FleetEvent
  | open (station_id : String)
  | state (i : ℕ) (mod : String) (host_mask : BitVec 64) (avail : Bool)
  | sync (i : ℕ) (channels : ℕ → HostChannel)
  | close (i : ℕ)

/-- `handle_host_module_pipe` for STATE: the mask is stored in 32 bits. -/
def HostRoom.onState (r : HostRoom) (mod : String) (mask : BitVec 64) : HostRoom :=
  { r with mod_mask := Function.update r.mod_mask mod (some (mask.setWidth 32)) }

/-- What an event does on both sides. -/
def FleetEvent.apply : FleetEvent → Fleet → Fleet
  | .open station_id, f =>
    { hosts := f.hosts ++ [⟨station_id, true, none, fun _ => none⟩]
      rooms := f.rooms ++ [⟨station_id, true, none, fun _ => none⟩] }
  | .state i mod host_mask avail, f =>
    let mask := stateMask host_mask avail
    { hosts := f.hosts.modify i fun h => { h with sent := Function.update h.sent mod (some mask) }
      rooms := f.rooms.modify i fun r => r.onState mod mask }
  | .sync i channels, f =>
    { hosts := f.hosts.modify i fun h => { h with channels := some channels }
      rooms := f.rooms.modify i fun r => { r with cached_ch_sync := some (channelSync channels) } }
  | .close i, f =>
    { hosts := f.hosts.modify i fun h => { h with alive := false }
      rooms := f.rooms.modify i fun r => { r with alive := false } }

/-- The fleet after a run of events, from Central without rooms. -/
def Fleet.after (es : List FleetEvent) : Fleet :=
  es.foldl (fun f e => e.apply f) ⟨[], []⟩

/-! ## The target list -/

/-- The active channels of a live HOST, as far as it has sent them. -/
def Peer.active (h : Peer) : List (HostChannel × ℕ) :=
  if h.alive then
    match h.channels with
    | some channels =>
      ((List.range MAX_CHANNELS).filter fun i => (channels i).filter_active).map
        fun i => (channels i, i)
    | none => []
  else []

/-- The active channels of all live HOSTs. -/
def activeChannels (hosts : List Peer) : List (Peer × HostChannel × ℕ) :=
  hosts.flatMap fun h => h.active.map fun c => (h, c)

/-- HOST's own mask of the module, as last sent. -/
def Peer.mask (h : Peer) (mod : String) : BitVec 64 :=
  (h.sent mod).getD 0

/-- What the list is to be: one entry for each active channel of each live HOST, with HOST's bit. -/
def targets (hosts : List Peer) (mod : String) : List MpChEntry :=
  (activeChannels hosts).map fun (h, c, i) =>
    { c with station := stationField h.station_id, ch := i, decode_on := (h.mask mod).getLsbD i }

/-! ## Central's copy -/

/-- What Central holds of a HOST. -/
def roomOf (h : Peer) : HostRoom where
  station_id := h.station_id
  alive := h.alive
  cached_ch_sync := h.channels.map channelSync
  mod_mask := fun mod => (h.sent mod).map (BitVec.setWidth 32)

theorem map_modify {α β : Type*} (f : α → β) (g : α → α) (g' : β → β) (h : ∀ a, f (g a) = g' (f a))
    (l : List α) (i : ℕ) : (l.modify i g).map f = (l.map f).modify i g' := by
  induction l generalizing i with
  | nil => simp
  | cons a l ih =>
    cases i with
    | zero => simp [h]
    | succ i => simp [ih]

theorem rooms_of_apply (f : Fleet) (e : FleetEvent) (hf : f.rooms = f.hosts.map roomOf) :
    (e.apply f).rooms = (e.apply f).hosts.map roomOf := by
  cases e with
  | «open» station_id =>
    simp only [FleetEvent.apply, hf, List.map_append]
    rfl
  | state i mod host_mask avail =>
    simp only [FleetEvent.apply, hf]
    refine (map_modify _ _ _ (fun h => ?_) _ _).symm
    unfold roomOf HostRoom.onState
    congr 1
    funext mod'
    by_cases hmod : mod' = mod <;> simp [hmod, Function.update_of_ne]
  | sync i channels =>
    simp only [FleetEvent.apply, hf]
    exact (map_modify roomOf _ _ (fun h => rfl) _ _).symm
  | close i =>
    simp only [FleetEvent.apply, hf]
    exact (map_modify roomOf _ _ (fun h => rfl) _ _).symm

theorem rooms_after (es : List FleetEvent) :
    (Fleet.after es).rooms = (Fleet.after es).hosts.map roomOf := by
  have hrun : ∀ (es : List FleetEvent) (f : Fleet), f.rooms = f.hosts.map roomOf →
      (es.foldl (fun f e => e.apply f) f).rooms
        = (es.foldl (fun f e => e.apply f) f).hosts.map roomOf := by
    intro es
    induction es with
    | nil => exact fun f hf => hf
    | cons e es ih => exact fun f hf => ih _ (rooms_of_apply f e hf)
  exact hrun es _ rfl

/-- The entries of a room are those of the active channels of its HOST, with the bit of the narrow
mask. -/
theorem chList_eq (oob : Oob) (hosts : List Peer) (mod : String) :
    chList oob (hosts.map roomOf) mod =
      (activeChannels hosts).map fun (h, c, i) =>
        { c with station := stationField h.station_id, ch := i
                 decode_on := shiftedBit oob ((h.mask mod).setWidth 32) i } := by
  unfold chList activeChannels
  rw [List.flatMap_map, List.map_flatMap]
  congr 1
  funext h
  unfold Peer.active roomOf
  by_cases halive : h.alive
  · cases hc : h.channels with
    | none => simp [halive]
    | some channels =>
      have hmask : ((h.sent mod).map (BitVec.setWidth 32)).getD 0 = (h.mask mod).setWidth 32 := by
        unfold Peer.mask
        cases h.sent mod <;> rfl
      simp only [halive, if_true, Option.map_some, hmask, channelSync, List.filter_map, List.map_map]
      rfl
  · simp [halive]

theorem shiftedBit_of_lt (oob : Oob) (mask : BitVec 64) (i : ℕ) (hi : i < 32) :
    shiftedBit oob (mask.setWidth 32) i = mask.getLsbD i := by
  rw [shiftedBit, if_pos hi, BitVec.getLsbD_setWidth]
  simp [hi]

theorem mem_activeChannels (hosts : List Peer) (h : Peer) (c : HostChannel) (i : ℕ) :
    (h, c, i) ∈ activeChannels hosts ↔
      h ∈ hosts ∧ h.alive = true ∧ ∃ channels, h.channels = some channels ∧
        i < MAX_CHANNELS ∧ (channels i).filter_active = true ∧ channels i = c := by
  have hactive : (c, i) ∈ h.active ↔ h.alive = true ∧ ∃ channels, h.channels = some channels ∧
      i < MAX_CHANNELS ∧ (channels i).filter_active = true ∧ channels i = c := by
    unfold Peer.active
    by_cases halive : h.alive
    · cases hc : h.channels with
      | none => simp [halive]
      | some channels =>
        simp only [halive, if_true, List.mem_map, List.mem_filter, List.mem_range, Prod.mk.injEq,
          Option.some.injEq, exists_eq_left', true_and]
        constructor
        · rintro ⟨j, ⟨hj, hact⟩, hcj, rfl⟩
          exact ⟨hj, hact, hcj⟩
        · rintro ⟨hi, hact, hci⟩
          exact ⟨i, ⟨hi, hact⟩, hci, rfl⟩
    · simp [halive]
  rw [← hactive]
  simp [activeChannels]

/-- The answer to `CH_LIST_REQ` is the list of the HOSTs' active channels with the HOSTs' own bits,
whatever a shift out of range gives, exactly if no active channel of a live HOST is numbered 32 or
more. -/
theorem chList_eq_targets_iff (es : List FleetEvent) (mod : String) :
    (∀ oob, chList oob (Fleet.after es).rooms mod = targets (Fleet.after es).hosts mod) ↔
      ∀ h ∈ (Fleet.after es).hosts, h.alive = true → ∀ channels, h.channels = some channels →
        ∀ i < MAX_CHANNELS, (channels i).filter_active = true → i < 32 := by
  rw [rooms_after]
  set hosts := (Fleet.after es).hosts
  constructor
  · intro hall h hh halive channels hc i hi hact
    by_contra hge
    -- a shift that gives the opposite of HOST's bit
    have heq := hall fun _ _ => !(h.mask mod).getLsbD i
    rw [chList_eq, targets, List.map_inj_left] at heq
    have hmem : (h, channels i, i) ∈ activeChannels hosts :=
      (mem_activeChannels hosts h _ i).mpr ⟨hh, halive, channels, hc, hi, hact, rfl⟩
    have hbit := congrArg MpChEntry.decode_on (heq _ hmem)
    simp only at hbit
    rw [shiftedBit, if_neg hge] at hbit
    simp at hbit
  · intro hlow oob
    rw [chList_eq, targets, List.map_inj_left]
    rintro ⟨h, c, i⟩ hmem
    obtain ⟨hh, halive, channels, hc, hi, hact, -⟩ := (mem_activeChannels hosts h c i).mp hmem
    have hlt := hlow h hh halive channels hc i hi hact
    simp only
    rw [shiftedBit_of_lt oob _ i hlt]

/-- One active channel, number 40. -/
def channel40 (i : ℕ) : HostChannel :=
  ⟨decide (i = 40), 0, 0, 0, false, 0, 0, 0⟩

/-- A station with that channel that has sent a mask for a module. -/
def station40 (mask : BitVec 64) : List FleetEvent :=
  [.open "DGS-2", .sync 0 channel40, .state 0 "ais" mask true]

theorem decode_on_station40 (oob : Oob) (mask : BitVec 64)
    (h : chList oob (Fleet.after (station40 mask)).rooms "ais"
      = targets (Fleet.after (station40 mask)).hosts "ais") :
    oob ((stateMask mask true).setWidth 32) 40 = (stateMask mask true).getLsbD 40 := by
  set peer : Peer := ⟨"DGS-2", true, some channel40,
    Function.update (fun _ => none) "ais" (some (stateMask mask true))⟩ with hpeer
  have hhosts : (Fleet.after (station40 mask)).hosts = [peer] := rfl
  have hmem : (peer, channel40 40, 40) ∈ activeChannels [peer] :=
    (mem_activeChannels _ _ _ _).mpr
      ⟨List.mem_singleton_self _, rfl, channel40, rfl, by decide, rfl, rfl⟩
  rw [rooms_after, hhosts, chList_eq, targets, List.map_inj_left] at h
  exact congrArg MpChEntry.decode_on (h _ hmem)

/-- Channel 40 of a station is decoded, or not: Central's copy of the mask is the same, so no shift
gives the right answer for both. -/
theorem chList_ne_targets_channel40 :
    ¬ ∃ oob, ∀ (es : List FleetEvent) (mod : String),
      chList oob (Fleet.after es).rooms mod = targets (Fleet.after es).hosts mod := by
  rintro ⟨oob, hall⟩
  have hon := decode_on_station40 oob (1#64 <<< 40) (hall _ "ais")
  have hoff := decode_on_station40 oob 0 (hall _ "ais")
  have hmask : (stateMask (1#64 <<< 40) true).setWidth 32 = (stateMask 0 true).setWidth 32 := by
    decide
  rw [hmask, hoff] at hon
  exact absurd hon (by decide)

end Bewe.ModulePipe
