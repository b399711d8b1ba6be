import Bewe.Saved.MissionsRead

/-!
# The missions after a restart

When Central has the missions of every station again after it has saved and loaded them
(`missions_restart_iff`). What is loaded is always such that it comes back once more: its strings
have no control characters, its times fit a `double`, and an active mission comes first
(`Loaded`). So a station has its missions again only if they were like that before, and if they
were, nothing is lost and no two stations fall together.
-/

namespace Bewe.Saved

open Lib
open EmitterDb (truncate)

/-! ## One mission -/

/-- The same mission, latitude and longitude up to the printed precision. -/
structure Same (e e' : MissionSyncEntry) : Prop where
  state : e.state = e'.state
  op_index : e.op_index = e'.op_index
  rollover : e.rollover = e'.rollover
  year : e.year = e'.year
  code : e.code.str = e'.code.str
  start_utc : e.start_utc = e'.start_utc
  end_utc : e.end_utc = e'.end_utc
  started_by : e.started_by.str = e'.started_by.str
  station_name : e.station_name.str = e'.station_name.str
  host_name : e.host_name.str = e'.host_name.str
  lat : Fp.Within (1 / 1000000) e.lat e'.lat
  lon : Fp.Within (1 / 1000000) e.lon e'.lon
  sdr_kind : e.sdr_kind.str = e'.sdr_kind.str
  antenna : e.antenna.str = e'.antenna.str

/-- A string without control characters. -/
def Printable (s : Bytes) : Prop := ∀ c ∈ s, isControl c = false

/-- A time that a `double` holds. -/
def IsDouble (t : Int64) : Prop := roundBits 53 (t.toInt : ℚ) = t.toInt

/-- A mission whose strings have no control characters and whose times are those of `double`s. -/
structure Clean (e : MissionSyncEntry) : Prop where
  code : Printable e.code.str
  start_utc : IsDouble e.start_utc
  end_utc : IsDouble e.end_utc
  started_by : Printable e.started_by.str
  station_name : Printable e.station_name.str
  host_name : Printable e.host_name.str
  sdr_kind : Printable e.sdr_kind.str
  antenna : Printable e.antenna.str

theorem Clean.of_same {e e' : MissionSyncEntry} (h : Same e e') (hc : Clean e') : Clean e where
  code := h.code ▸ hc.code
  start_utc := h.start_utc ▸ hc.start_utc
  end_utc := h.end_utc ▸ hc.end_utc
  started_by := h.started_by ▸ hc.started_by
  station_name := h.station_name ▸ hc.station_name
  host_name := h.host_name ▸ hc.host_name
  sdr_kind := h.sdr_kind ▸ hc.sdr_kind
  antenna := h.antenna ▸ hc.antenna

theorem length_flatMap_reparsed_le (s : Bytes) : (s.flatMap reparsed).length ≤ s.length := by
  induction s with
  | nil => rfl
  | cons c s ih =>
    have hc : (reparsed c).length ≤ 1 := by
      unfold reparsed
      split_ifs <;> simp
    rw [List.flatMap_cons, List.length_append, List.length_cons]
    omega

theorem zero_not_mem_reparsed (s : Bytes) : (0 : UInt8) ∉ s.flatMap reparsed := by
  intro h
  obtain ⟨c, -, hc⟩ := List.mem_flatMap.1 h
  exact absurd (isControl_of_mem_reparsed hc) (by decide)

theorem str_rereadChars {n : ℕ} (hn : n ≤ 511) (a : Chars n) :
    (rereadChars a).str = a.str.flatMap reparsed := by
  have hlen : (a.str.flatMap reparsed).length ≤ n :=
    (length_flatMap_reparsed_le _).trans a.str_length_le
  rw [rereadChars, List.take_of_length_le (hlen.trans hn),
    Chars.str_ofStr (zero_not_mem_reparsed _), List.take_of_length_le hlen]

theorem str_rereadChars_eq_iff {n : ℕ} (hn : n ≤ 511) (a : Chars n) :
    a.str = (rereadChars a).str ↔ Printable a.str := by
  rw [str_rereadChars hn, eq_comm, flatMap_reparsed_eq_iff, Printable]

theorem printable_rereadChars {n : ℕ} (hn : n ≤ 511) (a : Chars n) :
    Printable (rereadChars a).str := by
  rw [str_rereadChars hn]
  intro c hc
  obtain ⟨d, -, hd⟩ := List.mem_flatMap.1 hc
  exact isControl_of_mem_reparsed hd

/-- An integer rounded to the bits of a `double` is an integer. -/
theorem exists_roundBits_eq (z : ℤ) : ∃ w : ℤ, roundBits 53 (z : ℚ) = w := by
  rcases le_or_gt |z| (2 ^ 53) with h | h
  · exact ⟨z, roundBits_intCast (by norm_num) h⟩
  · have hz : (z : ℚ) ≠ 0 := by
      rintro h0
      have : z = 0 := by exact_mod_cast h0
      simp [this] at h
    have habs : (2 : ℚ) ^ (53 : ℤ) ≤ |(z : ℚ)| := by
      calc (2 : ℚ) ^ (53 : ℤ)
        _ = ((2 ^ 53 : ℤ) : ℚ) := by norm_num
        _ ≤ ((|z| : ℤ) : ℚ) := by exact_mod_cast h.le
        _ = |(z : ℚ)| := Int.cast_abs
    have hlog : 53 ≤ Int.log 2 |(z : ℚ)| :=
      (Int.zpow_le_iff_le_log (by norm_num) (abs_pos.2 hz)).1 (by exact_mod_cast habs)
    obtain ⟨k, hk⟩ := Int.eq_ofNat_of_zero_le (show 0 ≤ Int.log 2 |(z : ℚ)| - 52 by omega)
    refine ⟨(if z < 0 then -1 else 1) * (roundHalfEven (|(z : ℚ)| / ulp 53 z) * 2 ^ k), ?_⟩
    have hulp : ulp 53 (z : ℚ) = 2 ^ k := by
      rw [ulp, ← zpow_natCast]
      exact congrArg (fun e : ℤ => (2 : ℚ) ^ e) hk
    have hsign : ((z : ℚ) < 0) ↔ z < 0 := by simp
    rw [roundBits_eq hz, hulp]
    simp only [hsign]
    push_cast
    rfl

/-- The time that is read back is that of a `double`, and in the range. -/
theorem reread64_spec (z : ℤ) :
    roundBits 53 (reread64 z : ℚ) = reread64 z ∧ -2 ^ 63 ≤ reread64 z ∧ reread64 z < 2 ^ 63 := by
  obtain ⟨w, hw⟩ := exists_roundBits_eq z
  simp only [reread64, Fp.ofRat, toLongLong, hw, truncate_intCast]
  split_ifs with h
  · exact ⟨by rw [← hw, roundBits_idem (by norm_num)], h⟩
  · refine ⟨?_, by norm_num, by norm_num⟩
    have hpow : ((-2 ^ 63 : ℤ) : ℚ) = (-1 : ℤ) * 2 ^ (63 : ℤ) := by norm_num
    rw [hpow, roundBits_mul_zpow, roundBits_intCast (by norm_num) (by norm_num)]

/-- A time comes back exactly if a `double` holds it. -/
theorem reread64_eq_iff {z : ℤ} (hlo : -2 ^ 63 ≤ z) (hhi : z < 2 ^ 63) :
    reread64 z = z ↔ roundBits 53 (z : ℚ) = z := by
  constructor
  · intro h
    rw [← h]
    exact (reread64_spec z).1
  · intro h
    simp only [reread64, Fp.ofRat, toLongLong, h, truncate_intCast, hlo, hhi, and_self, if_true]

theorem reread64_eq_zero_iff (z : ℤ) : reread64 z = 0 ↔ z = 0 := by
  constructor
  · intro h
    by_contra hz
    have hround := abs_roundBits_sub_le_mul 53 (z : ℚ)
    obtain ⟨w, hw⟩ := exists_roundBits_eq z
    have hw0 : w = 0 := by
      simp only [reread64, Fp.ofRat, toLongLong, hw, truncate_intCast] at h
      split_ifs at h
      · exact h
      · norm_num at h
    have hpos : 0 < |(z : ℚ)| := abs_pos.2 (by exact_mod_cast hz)
    rw [hw, hw0, Int.cast_zero, zero_sub, abs_neg] at hround
    have hsmall : (2 : ℚ) ^ (-((53 : ℕ) : ℤ)) * |(z : ℚ)| < 1 * |(z : ℚ)| :=
      mul_lt_mul_of_pos_right (by norm_num) hpos
    linarith
  · rintro rfl
    exact reread64_of_abs_le (by norm_num)

theorem toInt_ofInt_reread64 (z : ℤ) : (Int64.ofInt (reread64 z)).toInt = reread64 z := by
  obtain ⟨-, hlo, hhi⟩ := reread64_spec z
  rw [Int64.toInt_ofInt_of_le hlo (by omega)]

/-- A time of a mission comes back exactly if a `double` holds it. -/
theorem time_reread_iff (t : Int64) : t = Int64.ofInt (reread64 t.toInt) ↔ IsDouble t := by
  rw [IsDouble, ← reread64_eq_iff t.le_toInt t.toInt_lt, ← Int64.toInt_inj, toInt_ofInt_reread64,
    eq_comm]

theorem same_reread_iff (e : MissionSyncEntry) : Same e (reread e) ↔ Clean e := by
  have h8 : (8 : ℕ) ≤ 511 := by norm_num
  have h24 : (24 : ℕ) ≤ 511 := by norm_num
  have h32 : (32 : ℕ) ≤ 511 := by norm_num
  have h64 : (64 : ℕ) ≤ 511 := by norm_num
  constructor
  · intro h
    exact
      { code := (str_rereadChars_eq_iff h8 _).1 h.code
        start_utc := (time_reread_iff _).1 h.start_utc
        end_utc := (time_reread_iff _).1 h.end_utc
        started_by := (str_rereadChars_eq_iff h32 _).1 h.started_by
        station_name := (str_rereadChars_eq_iff h64 _).1 h.station_name
        host_name := (str_rereadChars_eq_iff h32 _).1 h.host_name
        sdr_kind := (str_rereadChars_eq_iff h24 _).1 h.sdr_kind
        antenna := (str_rereadChars_eq_iff h64 _).1 h.antenna }
  · intro h
    exact
      { state := rfl
        op_index := rfl
        rollover := rfl
        year := rfl
        code := (str_rereadChars_eq_iff h8 _).2 h.code
        start_utc := (time_reread_iff _).2 h.start_utc
        end_utc := (time_reread_iff _).2 h.end_utc
        started_by := (str_rereadChars_eq_iff h32 _).2 h.started_by
        station_name := (str_rereadChars_eq_iff h64 _).2 h.station_name
        host_name := (str_rereadChars_eq_iff h32 _).2 h.host_name
        lat := e.lat.within_decimal
        lon := e.lon.within_decimal
        sdr_kind := (str_rereadChars_eq_iff h24 _).2 h.sdr_kind
        antenna := (str_rereadChars_eq_iff h64 _).2 h.antenna }

theorem clean_reread (e : MissionSyncEntry) : Clean (reread e) := by
  have htime : ∀ t : Int64, IsDouble (Int64.ofInt (reread64 t.toInt)) := by
    intro t
    rw [IsDouble, toInt_ofInt_reread64]
    exact (reread64_spec _).1
  exact
    { code := printable_rereadChars (by norm_num) _
      start_utc := htime _
      end_utc := htime _
      started_by := printable_rereadChars (by norm_num) _
      station_name := printable_rereadChars (by norm_num) _
      host_name := printable_rereadChars (by norm_num) _
      sdr_kind := printable_rereadChars (by norm_num) _
      antenna := printable_rereadChars (by norm_num) _ }

/-! ## The missions of a station -/

/-- The name of a mission's station, if it has one. -/
def stationName (e : MissionSyncEntry) : Option Bytes :=
  if e.station_name.str ≠ [] then some e.station_name.str else none

/-- The key belongs to the missions: it is the first name of a station among them, or if there is
none, it is short and has no control characters. -/
def KeyKept (k : Bytes) (missions : List MissionSyncEntry) : Prop :=
  match missions.findSome? stationName with
  | some n => k = n
  | none => k.length ≤ 63 ∧ Printable k

/-- The missions are in the order of a packet: an active one comes first or not at all, and the
others are not more than the history holds. -/
def InPlace (missions : List MissionSyncEntry) : Prop :=
  ((missions.head?.any (·.isActive)) = true ∧
      missions.length ≤ MAX_MISSION_HISTORY_PER_PKT + 1) ∨
    ((∀ e ∈ missions, e.isActive = false) ∧ missions.length ≤ MAX_MISSION_HISTORY_PER_PKT)

theorem Same.isActive {e e' : MissionSyncEntry} (h : Same e e') : e.isActive = e'.isActive := by
  rw [MissionSyncEntry.isActive, MissionSyncEntry.isActive, h.state, h.end_utc]

theorem Same.stationName {e e' : MissionSyncEntry} (h : Same e e') :
    stationName e = stationName e' := by
  rw [Saved.stationName, Saved.stationName, h.station_name]

theorem findSome?_of_forall₂ {es es' : List MissionSyncEntry} (h : List.Forall₂ Same es es') :
    es.findSome? stationName = es'.findSome? stationName := by
  induction h with
  | nil => rfl
  | cons he _ ih => rw [List.findSome?_cons, List.findSome?_cons, he.stationName, ih]

theorem InPlace.of_forall₂ {es es' : List MissionSyncEntry} (h : List.Forall₂ Same es es')
    (hp : InPlace es') : InPlace es := by
  rcases hp with ⟨hhead, hlen⟩ | ⟨hall, hlen⟩
  · refine Or.inl ⟨?_, h.length_eq.trans_le hlen⟩
    cases h with
    | nil => exact hhead
    | cons he _ => simpa [he.isActive] using hhead
  · refine Or.inr ⟨?_, h.length_eq.trans_le hlen⟩
    clear hlen
    induction h with
    | nil => simp
    | cons he _ ih =>
      rw [List.forall_mem_cons] at hall ⊢
      exact ⟨he.isActive.trans hall.1, ih hall.2⟩

/-- Reading a mission back does not change whether it is active. -/
theorem isActive_reread (e : MissionSyncEntry) : (reread e).isActive = e.isActive := by
  have hend : (reread e).end_utc = 0 ↔ e.end_utc = 0 := by
    rw [← Int64.toInt_inj, ← Int64.toInt_inj, reread, toInt_ofInt_reread64]
    exact reread64_eq_zero_iff _
  simp only [MissionSyncEntry.isActive, hend]
  rfl

/-- The packet that is put together has an active mission in its slot and no other, and what has
been read back in it. -/
structure Placed (s : Loading) : Prop where
  active : ∀ e ∈ s.active, e.isActive = true
  hist : s.active = none → ∀ e ∈ s.hist, e.isActive = false
  clean : ∀ e ∈ s.missions, Clean e ∧ e.valid = 1

theorem placed_place {s : Loading} (h : Placed s) (e : MissionSyncEntry) :
    Placed (s.place (reread e)) := by
  have hnew : Clean (reread e) ∧ (reread e).valid = 1 := ⟨clean_reread e, rfl⟩
  unfold Loading.place
  split_ifs with hact hlen
  · rw [Bool.and_eq_true, Option.isNone_iff_eq_none] at hact
    refine ⟨?_, by simp, ?_⟩
    · rintro x hx
      obtain rfl := Option.mem_some_iff.1 hx
      exact hact.1
    · intro x hx
      rcases List.mem_cons.1 hx with rfl | hx
      · exact hnew
      · exact h.clean x (List.mem_append_right _ hx)
  · refine ⟨h.active, ?_, ?_⟩
    · intro hnone x hx
      have hx' : x ∈ s.hist ++ [reread e] := hx
      have hnone' : s.active = none := hnone
      rcases List.mem_append.1 hx' with hx | hx
      · exact h.hist hnone' x hx
      · rw [List.mem_singleton.1 hx]
        simpa [hnone'] using hact
    · intro x hx
      have hx' : x ∈ s.active.toList ++ (s.hist ++ [reread e]) := hx
      rw [← List.append_assoc] at hx'
      rcases List.mem_append.1 hx' with hx | hx
      · exact h.clean x hx
      · rw [List.mem_singleton.1 hx]
        exact hnew
  · exact h

theorem placed_replaced (missions : List MissionSyncEntry) : Placed (replaced missions) := by
  have hfold : ∀ (es : List MissionSyncEntry) (s : Loading), Placed s →
      Placed ((es.map reread).foldl Loading.place s) := by
    intro es
    induction es with
    | nil => exact fun s h => h
    | cons e es ih => exact fun s h => ih _ (placed_place h e)
  exact hfold missions {} ⟨by simp, by simp, by simp [Loading.missions]⟩

theorem Placed.inPlace {s : Loading} (h : Placed s) : InPlace s.missions := by
  have hsize := s.size
  cases ha : s.active with
  | none =>
    refine Or.inr ⟨fun e he => h.hist ha e ?_, ?_⟩
    · simpa [Loading.missions, ha] using he
    · simpa [Loading.missions, ha] using hsize
  | some a =>
    refine Or.inl ⟨?_, ?_⟩
    · simpa [Loading.missions, ha] using h.active a (by simp [ha])
    · simp only [Loading.missions, ha, Option.toList_some, List.length_append,
        List.length_singleton]
      omega

/-- The history of the packet is what was put behind it. -/
theorem history_pkt (s : Loading) : s.pkt.history = s.hist := by
  have hsize := s.size
  have hcount : s.pkt.history_count.toNat = s.hist.length := by
    have hlt : s.hist.length < 65536 := by
      have h32 : MAX_MISSION_HISTORY_PER_PKT = 32 := rfl
      omega
    simp only [Loading.pkt, UInt16.toNat_ofNat']
    exact Nat.mod_eq_of_lt hlt
  rw [PktMissionSync.history, hcount, Nat.min_eq_left hsize]
  exact List.take_left

/-- The packet has the missions that were put together. -/
theorem Placed.missions_pkt {s : Loading} (h : Placed s) : s.pkt.missions = s.missions := by
  have hvalid : s.hist.filter (fun e => decide (e.valid ≠ 0)) = s.hist := by
    refine List.filter_eq_self.2 fun e he => ?_
    rw [(h.clean e (List.mem_append_right _ he)).2]
    rfl
  rw [PktMissionSync.missions, history_pkt, hvalid, Loading.missions]
  cases ha : s.active <;> simp [Loading.pkt, ha]

/-- The key of the packet is the first name among its missions, or the id of the room. -/
theorem Placed.stationKey_pkt {s : Loading} (h : Placed s) (room_id : Bytes) :
    missionSyncStationKey room_id (some s.pkt) =
      (s.missions.findSome? stationName).getD room_id := by
  have hname : ∀ e ∈ s.missions, nameOf e = stationName e := by
    intro e he
    have hvalid : e.valid ≠ 0 := by
      rw [(h.clean e he).2]
      decide
    simp [nameOf, stationName, hvalid]
  have hhist : ∀ es : List MissionSyncEntry, (∀ e ∈ es, nameOf e = stationName e) →
      es.findSome? nameOf = es.findSome? stationName := by
    intro es hes
    induction es with
    | nil => rfl
    | cons e es ih =>
      rw [List.forall_mem_cons] at hes
      rw [List.findSome?_cons, List.findSome?_cons, hes.1, ih hes.2]
  have hhist := hhist s.hist fun e he => hname e (List.mem_append_right _ he)
  rw [missionSyncStationKey, history_pkt, hhist]
  cases ha : s.active with
  | none => simp [Loading.pkt, Loading.missions, ha]
  | some a =>
    have hna := hname a (by simp [Loading.missions, ha])
    cases hn : stationName a with
    | none => simp [Loading.pkt, Loading.missions, ha, hna, hn]
    | some n => simp [Loading.pkt, Loading.missions, ha, hna, hn]

/-- Missions that are in place are put together as they come. -/
theorem foldl_place (es : List MissionSyncEntry) (s : Loading)
    (hact : ∀ e ∈ es, e.isActive = false ∨ s.active.isSome = true)
    (hlen : s.hist.length + es.length ≤ MAX_MISSION_HISTORY_PER_PKT) :
    (es.foldl Loading.place s).active = s.active ∧
      (es.foldl Loading.place s).hist = s.hist ++ es := by
  induction es generalizing s with
  | nil => simp
  | cons e es ih =>
    rw [List.forall_mem_cons] at hact
    rw [List.length_cons] at hlen
    have hskip : (e.isActive && s.active.isNone) = false := by
      rcases hact.1 with h | h
      · simp [h]
      · simp [Option.isNone_eq_false_iff.2 h]
    have hlt : s.hist.length < MAX_MISSION_HISTORY_PER_PKT := by omega
    have hplace : (s.place e).active = s.active ∧ (s.place e).hist = s.hist ++ [e] := by
      unfold Loading.place
      rw [hskip, if_neg (by simp), dif_pos hlt]
      exact ⟨rfl, rfl⟩
    obtain ⟨h1, h2⟩ := ih (s.place e) (by rw [hplace.1]; exact hact.2) (by
      rw [hplace.2, List.length_append, List.length_singleton]
      omega)
    rw [List.foldl_cons, h1, h2, hplace.1, hplace.2]
    simp

theorem InPlace.missions_foldl {es : List MissionSyncEntry} (h : InPlace es) :
    (es.foldl Loading.place {}).missions = es := by
  rcases h with ⟨hhead, hlen⟩ | ⟨hall, hlen⟩
  · cases es with
    | nil => rfl
    | cons a es =>
      have ha : a.isActive = true := by simpa using hhead
      have hplace : (({} : Loading).place a).active = some a ∧ (({} : Loading).place a).hist = [] := by
        simp [Loading.place, ha]
      obtain ⟨h1, h2⟩ := foldl_place es (({} : Loading).place a)
        (fun e _ => Or.inr (by rw [hplace.1]; rfl)) (by
          rw [hplace.2]
          simpa using hlen)
      rw [List.foldl_cons, Loading.missions, h1, h2, hplace.1, hplace.2]
      rfl
  · obtain ⟨h1, h2⟩ := foldl_place es {} (fun e he => Or.inl (hall e he)) (by simpa using hlen)
    rw [Loading.missions, h1, h2]
    rfl

/-- The missions of a station come back if they are in place. -/
theorem InPlace.missions_replaced {es : List MissionSyncEntry} (h : InPlace es) :
    (replaced es).missions = es.map reread := by
  refine InPlace.missions_foldl ?_
  have hact : (fun e => (reread e).isActive) = MissionSyncEntry.isActive :=
    funext isActive_reread
  simpa [InPlace, isActive_reread, Option.any_map, Function.comp_def, hact] using h

/-! ## All stations -/

/-- What a map that has been loaded holds: packets that have been put together, under the keys of
their missions. -/
def Loaded (m : MissionMap) : Prop :=
  ∀ k b, m.find k = some b → ∃ s : Loading, Placed s ∧ b = some s.pkt ∧ KeyKept k s.missions

/-- The key under which a packet is put belongs to its missions. -/
theorem keyKept_storeKey {s : Loading} (hs : Placed s) (sid : Bytes) :
    KeyKept (storeKey (rereadId sid) s.pkt) s.missions := by
  rw [storeKey, hs.stationKey_pkt [], KeyKept]
  cases hn : s.missions.findSome? stationName with
  | none =>
    refine ⟨?_, ?_⟩
    · simp only [Option.getD_none, if_true, rereadId, List.length_take]
      omega
    · intro c hc
      simp only [Option.getD_none, if_true] at hc
      obtain ⟨d, -, hd⟩ := List.mem_flatMap.1 (List.mem_of_mem_take hc)
      exact isControl_of_mem_reparsed hd
  | some n =>
    obtain ⟨e, -, he⟩ := List.exists_of_findSome?_eq_some hn
    have hne : n ≠ [] := by
      unfold stationName at he
      split_ifs at he with h
      rwa [← Option.some.inj he]
    simp [hne]

theorem loaded_restoreStation {m : MissionMap} (h : Loaded m) (kp : Bytes × PktMissionSync) :
    Loaded (restoreStation m kp) := by
  have hs := placed_replaced kp.2.missions
  have hset : Loaded (m.set (storeKey (rereadId kp.1) (replaced kp.2.missions).pkt)
      (some (replaced kp.2.missions).pkt)) := by
    intro k b hk
    rw [StationMap.find_set] at hk
    split_ifs at hk with heq
    · obtain rfl := Option.some.inj hk
      exact ⟨_, hs, rfl, heq ▸ keyKept_storeKey hs kp.1⟩
    · exact h k b hk
  unfold restoreStation MissionMap.store
  split_ifs
  · exact h
  · split
    · split_ifs
      · exact h
      · exact hset
    · exact hset

/-- After a restart there are only packets that have been put together. -/
theorem loaded_restart (m : MissionMap) : Loaded m.restart := by
  have hfold : ∀ (kps : List (Bytes × PktMissionSync)) (m : MissionMap), Loaded m →
      Loaded (kps.foldl restoreStation m) := by
    intro kps
    induction kps with
    | nil => exact fun m h => h
    | cons kp kps ih => exact fun m h => ih _ (loaded_restoreStation h kp)
  rw [restart_eq]
  exact hfold _ _ fun k b h => by simp at h

/-- A station whose missions come back: its key belongs to them, they are in place, and each is
clean. -/
structure Restorable (k : Bytes) (missions : List MissionSyncEntry) : Prop where
  key : KeyKept k missions
  inPlace : InPlace missions
  clean : ∀ e ∈ missions, Clean e

theorem same_map_reread {es : List MissionSyncEntry} (h : ∀ e ∈ es, Clean e) :
    List.Forall₂ Same es (es.map reread) := by
  induction es with
  | nil => exact List.Forall₂.nil
  | cons e es ih =>
    rw [List.forall_mem_cons] at h
    exact List.Forall₂.cons ((same_reread_iff e).2 h.1) (ih h.2)

theorem rereadId_eq {k : Bytes} (hlen : k.length ≤ 63) (hk : Printable k) : rereadId k = k := by
  have h0 : (0 : UInt8) ∉ k := fun h => absurd (hk 0 h) (by decide)
  have hstr : cStr k = k := by simpa using cStr_append_replicate h0 0
  rw [rereadId, hstr, (flatMap_reparsed_eq_iff k).2 hk, List.take_of_length_le hlen]

/-- A packet is put under the key that belongs to its missions. -/
theorem Placed.storeKey_eq {s : Loading} (h : Placed s) {k : Bytes} (hk : KeyKept k s.missions) :
    Saved.storeKey (rereadId k) s.pkt = k := by
  rw [Saved.storeKey, h.stationKey_pkt []]
  unfold KeyKept at hk
  cases hn : s.missions.findSome? stationName with
  | none =>
    rw [hn] at hk
    simpa using rereadId_eq hk.1 hk.2
  | some n =>
    rw [hn] at hk
    obtain rfl : k = n := hk
    obtain ⟨e, -, he⟩ := List.exists_of_findSome?_eq_some hn
    unfold stationName at he
    split_ifs at he with hne
    obtain rfl := Option.some.inj he
    simp [hne]

/-- The packet of a station whose missions come back is put under its key again. -/
theorem Restorable.storeKey {k : Bytes} {missions : List MissionSyncEntry}
    (h : Restorable k missions) :
    Saved.storeKey (rereadId k) (replaced missions).pkt = k := by
  have hname := findSome?_of_forall₂ (same_map_reread h.clean)
  have hkey := h.key
  refine (placed_replaced missions).storeKey_eq ?_
  rwa [KeyKept, h.inPlace.missions_replaced, ← hname]

theorem Loading.place_missions_ne_nil (s : Loading) (e : MissionSyncEntry) :
    (s.place e).missions ≠ [] := by
  unfold Loading.place
  split_ifs with hact hlen
  · simp [Loading.missions]
  · simp [Loading.missions]
  · intro hnil
    have hhist : s.hist = [] := (List.append_eq_nil_iff.1 hnil).2
    rw [hhist] at hlen
    exact hlen (by decide)

theorem replaced_missions_ne_nil {missions : List MissionSyncEntry} (h : missions ≠ []) :
    (replaced missions).missions ≠ [] := by
  obtain ⟨es, e, rfl⟩ := List.eq_nil_or_concat missions |>.resolve_left h
  rw [replaced, List.concat_eq_append, List.map_append, List.foldl_append]
  exact Loading.place_missions_ne_nil _ _

theorem restoreStation_of_storeKey {m : MissionMap} {kp : Bytes × PktMissionSync}
    (hne : kp.2.missions ≠ [])
    (h : storeKey (rereadId kp.1) (replaced kp.2.missions).pkt = kp.1)
    (hnew : m.find kp.1 = none) :
    restoreStation m kp = m.set kp.1 (some (replaced kp.2.missions).pkt) := by
  rw [restoreStation, if_neg (replaced_missions_ne_nil hne), MissionMap.store, h, hnew]

/-- Stations that are put under their keys again are all there. -/
theorem find_foldl_restoreStation (kps : List (Bytes × PktMissionSync))
    (hnodup : (kps.map Prod.fst).Nodup)
    (h : ∀ kp ∈ kps, kp.2.missions ≠ [] →
      storeKey (rereadId kp.1) (replaced kp.2.missions).pkt = kp.1)
    (m : MissionMap) (hnew : ∀ kp ∈ kps, m.find kp.1 = none) (k : Bytes) :
    (kps.foldl restoreStation m).find k =
      match kps.lookup k with
      | some p => if p.missions = [] then none else some (some (replaced p.missions).pkt)
      | none => m.find k := by
  induction kps generalizing m with
  | nil => rfl
  | cons kp kps ih =>
    obtain ⟨k₁, p⟩ := kp
    rw [List.map_cons, List.nodup_cons] at hnodup
    rw [List.forall_mem_cons] at h hnew
    have hlookup : kps.lookup k₁ = none := by
      rw [List.lookup_eq_none_iff]
      intro kp hkp
      simpa using fun heq : k₁ = kp.1 => hnodup.1 (List.mem_map.2 ⟨kp, hkp, heq.symm⟩)
    have hempty : p.missions = [] → restoreStation m (k₁, p) = m := by
      intro hp
      have hnil : (replaced p.missions).missions = [] := by rw [hp]; rfl
      rw [restoreStation, if_pos hnil]
    have hnext : ∀ kp ∈ kps, (restoreStation m (k₁, p)).find kp.1 = none := by
      intro kp hkp
      by_cases hp : p.missions = []
      · rw [hempty hp]
        exact hnew.2 kp hkp
      · have hne : kp.1 ≠ k₁ := fun heq => hnodup.1 (List.mem_map.2 ⟨kp, hkp, heq⟩)
        rw [restoreStation_of_storeKey hp (h.1 hp) hnew.1, StationMap.find_set, if_neg hne]
        exact hnew.2 kp hkp
    rw [List.foldl_cons, ih hnodup.2 h.2 _ hnext, List.lookup_cons]
    by_cases hk : k = k₁
    · subst hk
      rw [hlookup]
      simp only [beq_self_eq_true]
      by_cases hp : p.missions = []
      · rw [hempty hp, if_pos hp]
        exact hnew.1
      · rw [restoreStation_of_storeKey hp (h.1 hp) hnew.1, StationMap.find_set, if_pos rfl,
          if_neg hp]
    · have hbeq : (k == k₁) = false := by simpa using hk
      rw [hbeq]
      cases kps.lookup k with
      | some q => rfl
      | none =>
        by_cases hp : p.missions = []
        · rw [hempty hp]
        · simp only [restoreStation_of_storeKey hp (h.1 hp) hnew.1, StationMap.find_set, if_neg hk]

/-- The missions under a key are those of its packet. -/
theorem missionsAt_eq (m : MissionMap) (k : Bytes) :
    m.missionsAt k = ((m.snapshots.lookup k).map PktMissionSync.missions).getD [] := by
  unfold MissionMap.missionsAt
  cases hl : m.snapshots.lookup k with
  | some p => rw [m.find_eq_some_iff.2 hl]; rfl
  | none =>
    cases hf : m.find k with
    | none => rfl
    | some b =>
      cases b with
      | none => rfl
      | some p => rw [m.find_eq_some_iff.1 hf] at hl; cases hl

theorem exists_same_of_mem {es es' : List MissionSyncEntry} (h : List.Forall₂ Same es es')
    {e : MissionSyncEntry} (he : e ∈ es) : ∃ e' ∈ es', Same e e' := by
  induction h with
  | nil => simp at he
  | cons hee' _ ih =>
    rcases List.mem_cons.1 he with rfl | he
    · exact ⟨_, List.mem_cons_self, hee'⟩
    · obtain ⟨e', he', hsame⟩ := ih he
      exact ⟨e', List.mem_cons_of_mem _ he', hsame⟩

/-- Every station has the same missions as before. -/
def Survives (m m' : MissionMap) : Prop :=
  ∀ k, List.Forall₂ Same (m.missionsAt k) (m'.missionsAt k)

/-- What is there again has been loaded, and so has all that is asked for. -/
theorem restorable_of_survives {m : MissionMap} (h : Survives m m.restart)
    {kp : Bytes × PktMissionSync} (hkp : kp ∈ m.snapshots) (hne : kp.2.missions ≠ []) :
    Restorable kp.1 kp.2.missions := by
  have hlookup := (lookup_eq_some_iff_mem m.nodup_snapshots).2 hkp
  have hsame := h kp.1
  rw [missionsAt_eq m, hlookup] at hsame
  simp only [Option.map_some, Option.getD_some] at hsame
  unfold MissionMap.missionsAt at hsame
  cases hf : m.restart.find kp.1 with
  | none =>
    rw [hf] at hsame
    exact absurd (List.forall₂_nil_right_iff.1 hsame) hne
  | some b =>
    obtain ⟨s, hs, rfl, hkey⟩ := loaded_restart m kp.1 b hf
    rw [hf] at hsame
    simp only [hs.missions_pkt] at hsame
    refine ⟨?_, hs.inPlace.of_forall₂ hsame, ?_⟩
    · rwa [KeyKept, findSome?_of_forall₂ hsame]
    · intro e he
      obtain ⟨e', he', hee'⟩ := exists_same_of_mem hsame he
      exact (hs.clean e' he').1.of_same hee'

/-- Stations whose missions come back have them again. -/
theorem survives_of_restorable {m : MissionMap}
    (h : ∀ kp ∈ m.snapshots, kp.2.missions ≠ [] → Restorable kp.1 kp.2.missions) :
    Survives m m.restart := by
  intro k
  have hfind := find_foldl_restoreStation m.snapshots m.nodup_snapshots
    (fun kp hkp hne => (h kp hkp hne).storeKey) StationMap.empty (fun _ _ => rfl) k
  rw [missionsAt_eq m, MissionMap.missionsAt, restart_eq, hfind]
  cases hl : m.snapshots.lookup k with
  | none => exact List.Forall₂.nil
  | some p =>
    have hmem := (lookup_eq_some_iff_mem m.nodup_snapshots).1 hl
    by_cases hp : p.missions = []
    · simp [hp]
    · have hr := h (k, p) hmem hp
      simp only [if_neg hp, (placed_replaced _).missions_pkt,
        hr.inPlace.missions_replaced]
      exact same_map_reread hr.clean

/-- All missions are there again after a restart exactly if every station with missions is one whose
missions come back. -/
theorem missions_restart_iff (m : MissionMap) :
    Survives m m.restart ↔
      ∀ kp ∈ m.snapshots, kp.2.missions ≠ [] → Restorable kp.1 kp.2.missions :=
  ⟨fun h _ hkp hne => restorable_of_survives h hkp hne, survives_of_restorable⟩

/-- The packet of a HOST with one active mission. -/
def onePacket (e : MissionSyncEntry) : PktMissionSync where
  active_valid := 1
  history_count := 0
  active := e
  entries := List.replicate MAX_MISSION_HISTORY_PER_PKT {}
  size := List.length_replicate

/-- A mission of a station `DGS`, started by an operator who writes his name on two lines. -/
def twoLines : MissionSyncEntry where
  valid := 1
  state := 1
  year := 2025
  code := .ofStr 8 (ascii "A03")
  start_utc := 1750000000
  started_by := .ofStr 32 (ascii "a\nb")
  station_name := .ofStr 64 (ascii "DGS")

/-- A name on two lines is not there again. -/
theorem not_survives_twoLines :
    ¬ Survives ⟨[(ascii "DGS", some (onePacket twoLines))], by decide⟩
      (MissionMap.restart ⟨[(ascii "DGS", some (onePacket twoLines))], by decide⟩) := by
  intro h
  have hmem : (ascii "DGS", onePacket twoLines) ∈
      StationMap.snapshots ⟨[(ascii "DGS", some (onePacket twoLines))], by decide⟩ := by decide
  have hr := restorable_of_survives h hmem (by decide)
  have hclean := (hr.clean twoLines (by decide)).started_by
  exact absurd (hclean 10 (by decide)) (by decide)

end Bewe.Saved
