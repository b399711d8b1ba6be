import Bewe.Hist.Format
import Bewe.Lib.MaxBy
import Bewe.Lib.OrdMap
import Mathlib.Data.Set.Finite.Lemmas
import Mathlib.Data.Set.Finite.List

/-!
# The AIS summary of a day

A viewer that subscribes to AIS gets a summary of the file of the day (`ais_build_summary` of
`central_server.cpp`): of every MMSI the first record, the one of the latest position, the one of the
latest static data, and all of the last ten minutes. They are merged through a map by their times,
in milliseconds, in which records of the same time compete for one place.

`slot` says which record has the place of a time, and `faithful_iff` when the summary is what it
should be: no two different records of the last ten minutes have the same time, and the older ones
that count are not displaced from their places.
-/

namespace Bewe.Ais

open Lib

/-! ## Records -/

/-- `sizeof(MpData)`. -/
def sizeofMpData : ℕ := 24

/-- `sizeof(AisWireMsg)`. -/
def sizeofAisWireMsg : ℕ := 162

/-- A stored record: the bytes of its `MpData` and of its `AisWireMsg`. -/
structure AisRB where
  md : Bytes
  w : Bytes
  md_length : md.length = sizeofMpData
  w_length : w.length = sizeofAisWireMsg
  deriving DecidableEq

namespace AisRB

/-- Fields of the `AisWireMsg`, at their offsets. -/
def t_ms (rb : AisRB) : ℤ := (leNat (slice 0 8 rb.w) : ℤ).bmod (2 ^ 64)
@[inherit_doc t_ms] def mmsi (rb : AisRB) : ℕ := leNat (slice 21 4 rb.w)
@[inherit_doc t_ms] def has_pos (rb : AisRB) : Bool := leNat (slice 25 1 rb.w) ≠ 0
@[inherit_doc t_ms] def has_name (rb : AisRB) : Bool := leNat (slice 58 1 rb.w) ≠ 0
@[inherit_doc t_ms] def rx_cnt (rb : AisRB) : ℕ := leNat (slice 91 4 rb.w)

/-- `rb.w.rx_cnt = cnt`. -/
def stamp (cnt : ℕ) (rb : AisRB) : AisRB where
  md := rb.md
  w := splice 91 (leBytes 4 cnt) rb.w
  md_length := rb.md_length
  w_length := by
    rw [splice_length, rb.w_length]
    rw [leBytes_length, rb.w_length]
    decide

end AisRB

/-- `ais_parse`: a record of the file, cut or filled up with zeros to the size of `AisWireMsg`. -/
def aisParse (rec : Bytes) : Option AisRB :=
  if h : rec.length < sizeofMpData then none
  else some
    { md := rec.take sizeofMpData
      w := Hist.charArray sizeofAisWireMsg (rec.drop sizeofMpData)
      md_length := by
        rw [List.length_take]
        omega
      w_length := by
        rw [Hist.charArray, List.length_take, List.length_append, List.length_replicate]
        omega }

/-- `ais_emit`. -/
def aisEmit (rb : AisRB) : Bytes :=
  leBytes 4 (sizeofMpData + sizeofAisWireMsg) ++ rb.md ++ rb.w

/-- The loop of `ais_foreach`, from what is left of the file, with as many rounds as it has bytes. -/
def aisForeachFrom : ℕ → Bytes → List AisRB
  | 0, _ => []
  | n + 1, body =>
    if 4 ≤ body.length then
      let rl := leNat (body.take 4)
      let rest := body.drop 4
      if rest.length < rl then []
      else (aisParse (rest.take rl)).toList.filter (fun rb => rb.mmsi ≠ 0) ++
        aisForeachFrom n (rest.drop rl)
    else []

/-- `ais_foreach`: the records of a file that it hands on. -/
def aisForeach (body : Bytes) : List AisRB := aisForeachFrom body.length body

/-! ## The summary -/

/-- `int64_t cutoff`: ten minutes before now. -/
def cutoff (now : ℤ) : ℤ := (now * 1000 - 10 * 60 * 1000).bmod (2 ^ 64)

/-- What is collected of an MMSI. A record that there is not yet stands for `has_first`, `has_pos`
or `has_static` not set. -/
structure Agg where
  win : OrdMap ℤ AisRB
  first : Option AisRB
  lastPos : Option AisRB
  lastStatic : Option AisRB
  firstT : ℤ
  lastPosT : ℤ
  lastStaticT : ℤ
  cnt : ℕ

/-- Before the first record. -/
def Agg.init : Agg := ⟨OrdMap.empty, none, none, none, 2 ^ 63 - 1, -1, -1, 0⟩

/-- A record of an MMSI. -/
def Agg.step (cutoff : ℤ) (a : Agg) (rb : AisRB) : Agg :=
  let t := rb.t_ms
  { win := if cutoff ≤ t then a.win.assign t rb else a.win
    first := if t < a.firstT then some rb else a.first
    lastPos := if rb.has_pos = true ∧ a.lastPosT < t then some rb else a.lastPos
    lastStatic := if rb.has_name = true ∧ a.lastStaticT < t then some rb else a.lastStatic
    firstT := if t < a.firstT then t else a.firstT
    lastPosT := if rb.has_pos = true ∧ a.lastPosT < t then t else a.lastPosT
    lastStaticT := if rb.has_name = true ∧ a.lastStaticT < t then t else a.lastStaticT
    cnt := (a.cnt + 1) % 2 ^ 32 }

/-- `if(has) em.emplace(t, rb);` -/
def emplaceIf (em : OrdMap ℤ AisRB) (t : ℤ) (rb : Option AisRB) : OrdMap ℤ AisRB :=
  rb.elim em (em.emplace t)

/-- The map of what is sent of an MMSI. -/
def Agg.em (a : Agg) : OrdMap ℤ AisRB :=
  emplaceIf (emplaceIf (emplaceIf a.win a.firstT a.first) a.lastPosT a.lastPos) a.lastStaticT
    a.lastStatic

/-- What is sent of an MMSI. -/
def Agg.sent (a : Agg) : List AisRB :=
  match a.em.entries with
  | [] => []
  | e :: es => e.2.stamp a.cnt :: es.map Prod.snd

/-- The map of the MMSIs of a file. -/
def perMmsi (now : ℤ) (body : Bytes) : OrdMap ℕ Agg :=
  OrdMap.group AisRB.mmsi (Agg.step (cutoff now)) Agg.init (aisForeach body)

/-- `ais_build_summary`. -/
def aisBuildSummary (now : ℤ) (body : Bytes) : Bytes :=
  (perMmsi now body).entries.flatMap fun kv => kv.2.sent.flatMap aisEmit

/-! ## What a summary is for -/

/-- The records of an MMSI in a file. -/
def recordsOf (mmsi : ℕ) (body : Bytes) : List AisRB :=
  (aisForeach body).filter fun rb => rb.mmsi = mmsi

/-- The same record, whatever count it carries. -/
def AisRB.Alike (a b : AisRB) : Prop := a.stamp 0 = b.stamp 0

instance (a b : AisRB) : Decidable (a.Alike b) := inferInstanceAs (Decidable (_ = _))

/-- A time is the smallest of some records. -/
def IsFirst (rs : List AisRB) (k : ℤ) : Prop := (∃ r ∈ rs, r.t_ms = k) ∧ ∀ r ∈ rs, k ≤ r.t_ms

/-- A time is the latest of the records of a kind. -/
def IsLatest (p : AisRB → Bool) (rs : List AisRB) (k : ℤ) : Prop :=
  (∃ r ∈ rs.filter p, r.t_ms = k) ∧ ∀ r ∈ rs.filter p, r.t_ms ≤ k

instance (rs : List AisRB) (k : ℤ) : Decidable (IsFirst rs k) :=
  inferInstanceAs (Decidable (_ ∧ _))

instance (p : AisRB → Bool) (rs : List AisRB) (k : ℤ) : Decidable (IsLatest p rs k) :=
  inferInstanceAs (Decidable (_ ∧ _))

/-- What is sent of an MMSI is a summary of its records: a record of the smallest time, records of
the latest position and of the latest static data, all records of the last ten minutes, and nothing
else, in the order of time and with the number of the records in the first. -/
structure Faithful (cutoff : ℤ) (rs sent : List AisRB) : Prop where
  first : ∀ k, IsFirst rs k → ∃ e ∈ sent, ∃ r ∈ rs, e.Alike r ∧ r.t_ms = k
  position : ∀ k, IsLatest AisRB.has_pos rs k →
    ∃ e ∈ sent, ∃ r ∈ rs, e.Alike r ∧ r.has_pos = true ∧ r.t_ms = k
  static : ∀ k, IsLatest AisRB.has_name rs k →
    ∃ e ∈ sent, ∃ r ∈ rs, e.Alike r ∧ r.has_name = true ∧ r.t_ms = k
  recent : ∀ r ∈ rs, cutoff ≤ r.t_ms → ∃ e ∈ sent, e.Alike r
  records : ∀ e ∈ sent, ∃ r ∈ rs, e.Alike r
  unchanged : ∀ e ∈ sent.tail, e ∈ rs
  order : sent.Pairwise fun e e' => e.t_ms < e'.t_ms
  count : ∀ e, sent.head? = some e → e.rx_cnt = rs.length

/-- The records of an MMSI of which a summary can be made with a place for each time. Two records of
the last ten minutes have the same time only if they are the same. The older ones: where the time of
the latest position is the smallest of all, the first record in the file with that time has a
position, and otherwise the time is not negative. Likewise for the latest static data, and where its
time is also that of the latest position, the first record with a position and that time has static
data too. -/
structure Unrivalled (cutoff : ℤ) (rs : List AisRB) : Prop where
  few : rs.length < 2 ^ 32
  recent : ∀ r ∈ rs, ∀ r' ∈ rs, cutoff ≤ r.t_ms → r.t_ms = r'.t_ms → r.Alike r'
  position : ∀ k < cutoff, IsLatest AisRB.has_pos rs k →
    if IsFirst rs k then ∃ f, rs.find? (fun r => r.t_ms = k) = some f ∧ f.has_pos = true
    else 0 ≤ k
  static : ∀ k < cutoff, IsLatest AisRB.has_name rs k →
    if IsFirst rs k then ∃ f, rs.find? (fun r => r.t_ms = k) = some f ∧ f.has_name = true
    else 0 ≤ k ∧ (IsLatest AisRB.has_pos rs k →
      ∃ f, (rs.filter AisRB.has_pos).find? (fun r => r.t_ms = k) = some f ∧ f.has_name = true)

/-! ## Fields -/

namespace AisRB

variable (rb : AisRB) (n : ℕ)

theorem le_w_length : 91 ≤ rb.w.length := by
  rw [rb.w_length, sizeofAisWireMsg]
  omega

theorem slice_stamp_of_le {off len : ℕ} (h : off + len ≤ 91) :
    slice off len (rb.stamp n).w = slice off len rb.w :=
  slice_splice_of_le h rb.le_w_length

@[simp] theorem t_ms_stamp : (rb.stamp n).t_ms = rb.t_ms :=
  congrArg (fun b => (leNat b : ℤ).bmod (2 ^ 64)) (slice_stamp_of_le rb n (by decide))

@[simp] theorem mmsi_stamp : (rb.stamp n).mmsi = rb.mmsi := by
  rw [mmsi, slice_stamp_of_le _ _ (by decide), mmsi]

@[simp] theorem has_pos_stamp : (rb.stamp n).has_pos = rb.has_pos := by
  rw [has_pos, slice_stamp_of_le _ _ (by decide), has_pos]

@[simp] theorem has_name_stamp : (rb.stamp n).has_name = rb.has_name := by
  rw [has_name, slice_stamp_of_le _ _ (by decide), has_name]

theorem rx_cnt_stamp : (rb.stamp n).rx_cnt = n % 2 ^ 32 := by
  have hself := slice_splice_self (v := leBytes 4 n) rb.le_w_length
  rw [leBytes_length] at hself
  rw [rx_cnt, stamp, hself, leNat_leBytes_mod]
  norm_num

theorem stamp_stamp (k : ℕ) : (rb.stamp k).stamp n = rb.stamp n := by
  have hsplice : splice 91 (leBytes 4 n) (splice 91 (leBytes 4 k) rb.w) =
      splice 91 (leBytes 4 n) rb.w := by
    refine List.ext_getElem? fun i => ?_
    have hstamped : 91 ≤ (splice 91 (leBytes 4 k) rb.w).length := (rb.stamp k).le_w_length
    rw [getElem?_splice hstamped, getElem?_splice rb.le_w_length, getElem?_splice rb.le_w_length]
    simp only [leBytes_length]
    split_ifs <;> rfl
  rw [stamp, AisRB.mk.injEq]
  exact ⟨rfl, hsplice⟩

variable {rb} {a b c : AisRB}

theorem Alike.symm (h : a.Alike b) : b.Alike a := Eq.symm h

theorem Alike.trans (h : a.Alike b) (h' : b.Alike c) : a.Alike c := Eq.trans h h'

theorem stamp_alike : (rb.stamp n).Alike rb := stamp_stamp rb 0 n

theorem Alike.t_ms (h : a.Alike b) : a.t_ms = b.t_ms := by
  rw [← t_ms_stamp a 0, ← t_ms_stamp b 0, show a.stamp 0 = b.stamp 0 from h]

theorem Alike.mmsi (h : a.Alike b) : a.mmsi = b.mmsi := by
  rw [← mmsi_stamp a 0, ← mmsi_stamp b 0, show a.stamp 0 = b.stamp 0 from h]

theorem Alike.has_pos (h : a.Alike b) : a.has_pos = b.has_pos := by
  rw [← has_pos_stamp a 0, ← has_pos_stamp b 0, show a.stamp 0 = b.stamp 0 from h]

theorem Alike.has_name (h : a.Alike b) : a.has_name = b.has_name := by
  rw [← has_name_stamp a 0, ← has_name_stamp b 0, show a.stamp 0 = b.stamp 0 from h]

end AisRB

theorem cutoff_lt (now : ℤ) : cutoff now < 2 ^ 63 := by
  have h := Int.bmod_lt (x := now * 1000 - 10 * 60 * 1000) (m := 2 ^ 64) (by decide)
  unfold cutoff
  omega

/-! ## What is read back -/

theorem aisParse_append (rb : AisRB) : aisParse (rb.md ++ rb.w) = some rb := by
  have hlen : (rb.md ++ rb.w).length = sizeofMpData + sizeofAisWireMsg := by
    rw [List.length_append, rb.md_length, rb.w_length]
  have hmd : (rb.md ++ rb.w).take sizeofMpData = rb.md := List.take_left' rb.md_length
  have hw : (rb.md ++ rb.w).drop sizeofMpData = rb.w := List.drop_left' rb.md_length
  have hfull : Hist.charArray sizeofAisWireMsg rb.w = rb.w := List.take_left' rb.w_length
  rw [aisParse, dif_neg (by rw [hlen]; decide), Option.some.injEq]
  cases rb
  simp only [AisRB.mk.injEq]
  exact ⟨hmd, by rw [hw, hfull]⟩

theorem aisEmit_length (rb : AisRB) : (aisEmit rb).length = 190 := by
  rw [aisEmit, List.length_append, List.length_append, leBytes_length, rb.md_length, rb.w_length]
  rfl

theorem aisForeachFrom_flatMap (l : List AisRB) {n : ℕ} (h : l.length < n) :
    aisForeachFrom n (l.flatMap aisEmit) = l.filter fun rb => rb.mmsi ≠ 0 := by
  induction l generalizing n with
  | nil =>
    cases n with
    | zero => cases h
    | succ n => rfl
  | cons rb l ih =>
    obtain ⟨n, rfl⟩ : ∃ m, n = m + 1 := ⟨n - 1, by simp at h; omega⟩
    have hlen : (leBytes 4 (sizeofMpData + sizeofAisWireMsg)).length = 4 := leBytes_length _ _
    have hrl : leNat (leBytes 4 (sizeofMpData + sizeofAisWireMsg)) = 186 := by decide
    have hrec : (rb.md ++ rb.w).length = 186 := by
      rw [List.length_append, rb.md_length, rb.w_length]
      rfl
    have hsplit : (rb :: l).flatMap aisEmit = leBytes 4 (sizeofMpData + sizeofAisWireMsg) ++
        (rb.md ++ rb.w ++ l.flatMap aisEmit) := by
      rw [List.flatMap_cons, aisEmit]
      simp only [List.append_assoc]
    rw [hsplit, aisForeachFrom, List.take_left' hlen, List.drop_left' hlen, hrl,
      if_pos (by simp only [List.length_append, hlen]; omega)]
    dsimp only
    rw [if_neg (by simp only [List.length_append] at hrec ⊢; omega), List.take_left' hrec,
      List.drop_left' hrec, aisParse_append, ih (Nat.lt_of_succ_lt_succ h)]
    exact (List.filter_append [rb] l).symm

theorem ne_zero_of_mem_aisForeach {body : Bytes} {rb : AisRB} (h : rb ∈ aisForeach body) :
    rb.mmsi ≠ 0 := by
  have hfrom : ∀ (n : ℕ) (body : Bytes), rb ∈ aisForeachFrom n body → rb.mmsi ≠ 0 := by
    intro n
    induction n with
    | zero =>
      intro body h
      cases h
    | succ n ih =>
      intro body h
      rw [aisForeachFrom] at h
      dsimp only at h
      split_ifs at h
      · cases h
      · rcases List.mem_append.1 h with h | h
        · simpa using (List.mem_filter.1 h).2
        · exact ih _ h
      · cases h
  exact hfrom _ _ h

theorem aisForeach_flatMap (l : List AisRB) :
    aisForeach (l.flatMap aisEmit) = l.filter fun rb => rb.mmsi ≠ 0 := by
  cases l with
  | nil => rfl
  | cons rb l =>
    refine aisForeachFrom_flatMap _ ?_
    have hlen : ((rb :: l).flatMap aisEmit).length = (rb :: l).length * 190 := by
      rw [List.length_flatMap, List.map_congr_left fun rb _ => aisEmit_length rb,
        List.map_const', List.sum_replicate, smul_eq_mul]
    rw [hlen, List.length_cons]
    omega

/-! ## What is collected -/

/-- What is collected of the records of an MMSI. -/
def collected (cutoff : ℤ) (rs : List AisRB) : Agg := rs.foldl (Agg.step cutoff) Agg.init

section

variable (c : ℤ) (rs : List AisRB)

theorem collected_concat (rb : AisRB) :
    collected c (rs ++ [rb]) = (collected c rs).step c rb := by
  rw [collected, List.foldl_append, List.foldl_cons, List.foldl_nil, ← collected]

theorem cnt_collected : (collected c rs).cnt = rs.length % 2 ^ 32 := by
  induction rs using List.reverseRecOn with
  | nil => rfl
  | append_singleton rs rb ih =>
    rw [collected_concat, Agg.step, List.length_append, List.length_singleton]
    dsimp only
    rw [ih, Nat.mod_add_mod]

theorem win_collected (k : ℤ) : (collected c rs).win.find k =
    if c ≤ k then (rs.filter fun r => r.t_ms = k).getLast? else none := by
  induction rs using List.reverseRecOn with
  | nil => exact (ite_self _).symm
  | append_singleton rs rb ih =>
    rw [collected_concat, Agg.step, List.filter_append]
    dsimp only
    by_cases hk : rb.t_ms = k
    · have hlast : [rb].filter (fun r => r.t_ms = k) = [rb] := by simp [hk]
      rw [hlast, List.getLast?_concat, hk]
      split_ifs with hc
      · rw [OrdMap.find_assign, if_pos rfl]
      · rw [ih, if_neg hc]
    · have hnil : [rb].filter (fun r => r.t_ms = k) = [] := by simp [hk]
      rw [hnil, List.append_nil, ← ih]
      split_ifs
      · rw [OrdMap.find_assign, if_neg (Ne.symm hk)]
      · rfl

theorem first_collected : (OrderDual.toDual (collected c rs).firstT, (collected c rs).first) =
    rs.foldl (keepFirst fun r => OrderDual.toDual r.t_ms) (OrderDual.toDual (2 ^ 63 - 1), none) := by
  induction rs using List.reverseRecOn with
  | nil => rfl
  | append_singleton rs rb ih =>
    rw [collected_concat, List.foldl_append, List.foldl_cons, List.foldl_nil, ← ih, keepFirst,
      Agg.step]
    dsimp only
    by_cases hlt : rb.t_ms < (collected c rs).firstT
    · rw [if_pos hlt, if_pos hlt, if_pos (OrderDual.toDual_lt_toDual.2 hlt)]
    · rw [if_neg hlt, if_neg hlt, if_neg (fun h => hlt (OrderDual.toDual_lt_toDual.1 h))]

theorem foldl_keepFirst_singleton (p : AisRB → Bool) (rb : AisRB) (t : ℤ) (kept : Option AisRB) :
    ([rb].filter p).foldl (keepFirst AisRB.t_ms) (t, kept) =
      (if p rb = true ∧ t < rb.t_ms then rb.t_ms else t,
        if p rb = true ∧ t < rb.t_ms then some rb else kept) := by
  cases hp : p rb with
  | true =>
    rw [List.filter_cons_of_pos hp, List.filter_nil, List.foldl_cons, List.foldl_nil, keepFirst]
    simp only [true_and]
    split_ifs
    · rfl
    · rfl
  | false =>
    rw [List.filter_cons_of_neg (by rw [hp]; exact Bool.false_ne_true), List.filter_nil,
      List.foldl_nil]
    simp

/-- The latest position is that of the first of the latest records with a position. -/
theorem lastPos_collected : ((collected c rs).lastPosT, (collected c rs).lastPos) =
    (rs.filter AisRB.has_pos).foldl (keepFirst AisRB.t_ms) (-1, none) := by
  induction rs using List.reverseRecOn with
  | nil => rfl
  | append_singleton rs rb ih =>
    rw [collected_concat, List.filter_append, List.foldl_append, ← ih, foldl_keepFirst_singleton]
    rfl

/-- Likewise the latest static data. -/
theorem lastStatic_collected : ((collected c rs).lastStaticT, (collected c rs).lastStatic) =
    (rs.filter AisRB.has_name).foldl (keepFirst AisRB.t_ms) (-1, none) := by
  induction rs using List.reverseRecOn with
  | nil => rfl
  | append_singleton rs rb ih =>
    rw [collected_concat, List.filter_append, List.foldl_append, ← ih, foldl_keepFirst_singleton]
    rfl

/-! ## Who has the place of a time -/

/-- The record with which a time of the last ten minutes is taken. -/
def recentAt (k : ℤ) : Option AisRB :=
  if c ≤ k then (rs.filter fun r => r.t_ms = k).getLast? else none

/-- The record with which the smallest time is taken. -/
def firstAt (k : ℤ) : Option AisRB :=
  if IsFirst rs k ∧ k < 2 ^ 63 - 1 then rs.find? fun r => r.t_ms = k else none

/-- The record with which the latest time of a kind is taken. -/
def latestAt (p : AisRB → Bool) (k : ℤ) : Option AisRB :=
  if IsLatest p rs k ∧ 0 ≤ k then (rs.filter p).find? fun r => r.t_ms = k else none

/-- The record that has the place of a time, if one has. -/
def slot (k : ℤ) : Option AisRB :=
  (((recentAt c rs k).or (firstAt rs k)).or (latestAt rs AisRB.has_pos k)).or
    (latestAt rs AisRB.has_name k)

theorem find_emplaceIf (em : OrdMap ℤ AisRB) (t : ℤ) (rb : Option AisRB) (k : ℤ) :
    (emplaceIf em t rb).find k = (em.find k).or (if k = t then rb else none) := by
  cases rb with
  | none =>
    rw [emplaceIf, Option.elim_none, ite_self, Option.or_none]
  | some rb =>
    rw [emplaceIf, Option.elim_some, OrdMap.find_emplace]
    split_ifs with hk
    · rw [hk]
      cases em.find t <;> rfl
    · rw [Option.or_none]

/-- What `keepFirst` kept under its key is what has the latest time of a kind. -/
theorem ite_latest {p : AisRB → Bool} {b : ℤ × Option AisRB}
    (hb : b = (rs.filter p).foldl (keepFirst AisRB.t_ms) (-1, none)) (k : ℤ) :
    (if k = b.1 then b.2 else none) = latestAt rs p k := by
  rw [latestAt]
  rcases foldl_keepFirst AisRB.t_ms (-1) (rs.filter p) with ⟨heq, hle⟩ | ⟨y, heq, hlt, hle, hfirst⟩
  · rw [← hb] at heq
    rw [heq, ite_self, if_neg]
    rintro ⟨⟨⟨r, hr, rfl⟩, -⟩, hk⟩
    have := hle r hr
    omega
  · rw [← hb] at heq
    rw [show b.1 = y.t_ms by rw [heq], show b.2 = some y by rw [heq]]
    have hy := List.mem_of_find?_eq_some hfirst
    have hiff : k = y.t_ms ↔ IsLatest p rs k ∧ 0 ≤ k := by
      constructor
      · intro hk
        rw [hk]
        exact ⟨⟨⟨y, hy, rfl⟩, hle⟩, by omega⟩
      · rintro ⟨⟨⟨r, hr, hrk⟩, hlatest⟩, -⟩
        rw [← hrk] at hlatest ⊢
        exact le_antisymm (hle r hr) (hlatest y hy)
    refine if_ctx_congr hiff (fun hk => ?_) (fun _ => rfl)
    rw [hiff.2 hk, ← hfirst]

theorem find_em (k : ℤ) : (collected c rs).em.find k = slot c rs k := by
  have hfirst : (if k = (collected c rs).firstT then (collected c rs).first else none) =
      firstAt rs k := by
    have hb := first_collected c rs
    rw [firstAt]
    rcases foldl_keepFirst (fun r : AisRB => OrderDual.toDual r.t_ms)
      (OrderDual.toDual (2 ^ 63 - 1)) rs with ⟨heq, hle⟩ | ⟨y, heq, hlt, hle, hfirst⟩
    · rw [← hb, Prod.mk.injEq] at heq
      rw [heq.2, ite_self, if_neg]
      rintro ⟨⟨⟨r, hr, rfl⟩, -⟩, hk⟩
      exact absurd hk (not_lt.2 (OrderDual.toDual_le_toDual.1 (hle r hr)))
    · rw [← hb, Prod.mk.injEq, OrderDual.toDual_inj] at heq
      have hy := List.mem_of_find?_eq_some hfirst
      rw [heq.1, heq.2]
      have hiff : k = y.t_ms ↔ IsFirst rs k ∧ k < 2 ^ 63 - 1 := by
        constructor
        · intro hk
          rw [hk]
          exact ⟨⟨⟨y, hy, rfl⟩, fun r hr => OrderDual.toDual_le_toDual.1 (hle r hr)⟩,
            OrderDual.toDual_lt_toDual.1 hlt⟩
        · rintro ⟨⟨⟨r, hr, hrk⟩, hleast⟩, -⟩
          rw [← hrk] at hleast ⊢
          exact le_antisymm (hleast y hy) (OrderDual.toDual_le_toDual.1 (hle r hr))
      refine if_ctx_congr hiff (fun hk => ?_) (fun _ => rfl)
      rw [hiff.2 hk, ← hfirst]
      simp only [OrderDual.toDual_inj]
  rw [Agg.em, find_emplaceIf, find_emplaceIf, find_emplaceIf, win_collected, hfirst,
    ite_latest rs (lastPos_collected c rs), ite_latest rs (lastStatic_collected c rs)]
  rfl

variable {c rs}

theorem slot_mem {k : ℤ} {v : AisRB} (h : slot c rs k = some v) : v ∈ rs ∧ v.t_ms = k := by
  have hfind : ∀ {l : List AisRB} {o : Option AisRB} (b : Prop) [Decidable b], (∀ x ∈ l, x ∈ rs) →
      (o = l.find? fun r => r.t_ms = k) → (if b then o else none) = some v →
        v ∈ rs ∧ v.t_ms = k := by
    intro l o b _ hl ho hv
    split_ifs at hv
    rw [ho] at hv
    exact ⟨hl v (List.mem_of_find?_eq_some hv), by simpa using List.find?_some hv⟩
  simp only [slot, Option.or_eq_some_iff] at h
  rcases h with ((h | ⟨-, h⟩) | ⟨-, h⟩) | ⟨-, h⟩
  · rw [recentAt] at h
    split_ifs at h
    have hv := List.mem_filter.1 (List.mem_of_getLast? h)
    exact ⟨hv.1, by simpa using hv.2⟩
  · exact hfind _ (fun x hx => hx) rfl h
  · exact hfind _ (fun x hx => (List.mem_filter.1 hx).1) rfl h
  · exact hfind _ (fun x hx => (List.mem_filter.1 hx).1) rfl h

theorem slot_recent {r : AisRB} (hr : r ∈ rs) (hc : c ≤ r.t_ms) :
    ∃ v, slot c rs r.t_ms = some v := by
  have hne : rs.filter (fun x => x.t_ms = r.t_ms) ≠ [] :=
    List.ne_nil_of_mem (List.mem_filter.2 ⟨hr, by simp⟩)
  exact ⟨_, by rw [slot, recentAt, if_pos hc, List.getLast?_eq_some_getLast hne, Option.some_or,
    Option.some_or, Option.some_or]⟩

theorem slot_first {k : ℤ} (hc : c < 2 ^ 63) (hk : k < c) (hfirst : IsFirst rs k) :
    slot c rs k = rs.find? fun r => r.t_ms = k := by
  obtain ⟨v, hv⟩ : ∃ v, rs.find? (fun r => r.t_ms = k) = some v := by
    obtain ⟨r, hr, hrk⟩ := hfirst.1
    exact Option.isSome_iff_exists.1 (List.find?_isSome.2 ⟨r, hr, by simpa using hrk⟩)
  rw [slot, recentAt, if_neg (not_le.2 hk), firstAt, if_pos ⟨hfirst, by omega⟩, hv, Option.none_or,
    Option.some_or, Option.some_or]

/-- An older time that is not the smallest has the first record in the file with a position and that
time, if it is that of the latest position; or else that with static data, likewise. -/
theorem slot_later {k : ℤ} (hk : k < c) (hfirst : ¬ IsFirst rs k) :
    slot c rs k = (latestAt rs AisRB.has_pos k).or (latestAt rs AisRB.has_name k) := by
  rw [slot, recentAt, if_neg (not_le.2 hk), firstAt, if_neg (fun h => hfirst h.1), Option.none_or,
    Option.none_or]

theorem latestAt_of_isLatest {p : AisRB → Bool} {k : ℤ} (hk : 0 ≤ k) (h : IsLatest p rs k) :
    ∃ v, (rs.filter p).find? (fun r => r.t_ms = k) = some v ∧ latestAt rs p k = some v ∧
      p v = true := by
  obtain ⟨r, hr, hrk⟩ := h.1
  obtain ⟨v, hv⟩ := Option.isSome_iff_exists.1
    (List.find?_isSome.2 ⟨r, hr, by simpa using hrk⟩ :
      ((rs.filter p).find? fun r => r.t_ms = k).isSome)
  exact ⟨v, hv, by rw [latestAt, if_pos ⟨h, hk⟩, hv],
    (List.mem_filter.1 (List.mem_of_find?_eq_some hv)).2⟩

theorem latestAt_neg {p : AisRB → Bool} {k : ℤ} (hk : k < 0) : latestAt rs p k = none :=
  if_neg fun h => absurd h.2 (not_le.2 hk)

/-! ## What is sent -/

variable (c rs) in
theorem mem_em_entries {k : ℤ} {v : AisRB} :
    (k, v) ∈ (collected c rs).em.entries ↔ slot c rs k = some v := by
  rw [OrdMap.mem_entries_iff, find_em]

/-- Every record that is sent is that of a time. -/
theorem exists_slot_of_mem_sent {e : AisRB} (h : e ∈ (collected c rs).sent) :
    ∃ v, slot c rs v.t_ms = some v ∧ e.Alike v := by
  have hslot : ∀ x ∈ (collected c rs).em.entries, slot c rs x.2.t_ms = some x.2 := by
    intro x hx
    have hx := (mem_em_entries c rs).1 hx
    rwa [← (slot_mem hx).2] at hx
  rw [Agg.sent] at h
  split at h
  · cases h
  · next x es hem =>
    rcases List.mem_cons.1 h with rfl | h
    · exact ⟨x.2, hslot x (by rw [hem]; exact List.mem_cons_self), AisRB.stamp_alike _⟩
    · obtain ⟨y, hy, rfl⟩ := List.mem_map.1 h
      exact ⟨y.2, hslot y (by rw [hem]; exact List.mem_cons_of_mem _ hy), rfl⟩

/-- The record of every time is sent. -/
theorem exists_sent_of_slot {k : ℤ} {v : AisRB} (h : slot c rs k = some v) :
    ∃ e ∈ (collected c rs).sent, e.Alike v := by
  have hv := (mem_em_entries c rs).2 h
  rw [Agg.sent]
  split
  · next hem =>
    rw [hem] at hv
    cases hv
  · next x es hem =>
    rw [hem] at hv
    rcases List.mem_cons.1 hv with rfl | hv
    · exact ⟨_, List.mem_cons_self, AisRB.stamp_alike _⟩
    · exact ⟨v, List.mem_cons_of_mem _ (List.mem_map.2 ⟨_, hv, rfl⟩), rfl⟩

theorem sent_iff {r : AisRB} : (∃ e ∈ (collected c rs).sent, e.Alike r) ↔
    ∃ v, slot c rs r.t_ms = some v ∧ v.Alike r := by
  constructor
  · rintro ⟨e, he, her⟩
    obtain ⟨v, hv, hev⟩ := exists_slot_of_mem_sent he
    have hvr := hev.symm.trans her
    rw [hvr.t_ms] at hv
    exact ⟨v, hv, hvr⟩
  · rintro ⟨v, hv, hvr⟩
    obtain ⟨e, he, hev⟩ := exists_sent_of_slot hv
    exact ⟨e, he, hev.trans hvr⟩

variable (c rs)

theorem map_t_ms_sent :
    (collected c rs).sent.map AisRB.t_ms = (collected c rs).em.entries.map Prod.fst := by
  have htime : ∀ x ∈ (collected c rs).em.entries, x.2.t_ms = x.1 := fun x hx =>
    (slot_mem ((mem_em_entries c rs).1 hx)).2
  rw [Agg.sent]
  split
  · next hem => rw [hem, List.map_nil, List.map_nil]
  · next x es hem =>
    rw [hem] at htime ⊢
    have htail : (es.map Prod.snd).map AisRB.t_ms = es.map Prod.fst := by
      rw [List.map_map]
      refine List.map_congr_left fun y hy => ?_
      rw [Function.comp_apply, htime y (List.mem_cons_of_mem _ hy)]
    rw [List.map_cons, List.map_cons, AisRB.t_ms_stamp, htime x List.mem_cons_self, htail]

theorem pairwise_sent :
    (collected c rs).sent.Pairwise fun e e' => e.t_ms < e'.t_ms := by
  have hsorted := (collected c rs).em.sorted
  rw [← List.pairwise_map (f := AisRB.t_ms) (R := fun a b => a < b), map_t_ms_sent,
    List.pairwise_map]
  exact hsorted

theorem rx_cnt_sent {e : AisRB} (h : (collected c rs).sent.head? = some e) :
    e.rx_cnt = rs.length % 2 ^ 32 := by
  rw [Agg.sent] at h
  split at h
  · cases h
  · rw [List.head?_cons, Option.some.injEq] at h
    rw [← h, AisRB.rx_cnt_stamp, cnt_collected]
    exact Nat.mod_mod _ _

theorem mem_of_mem_tail_sent {e : AisRB} (h : e ∈ (collected c rs).sent.tail) : e ∈ rs := by
  rw [Agg.sent] at h
  split at h
  · cases h
  · next x es hem =>
    obtain ⟨y, hy, rfl⟩ := List.mem_map.1 h
    exact (slot_mem ((mem_em_entries c rs).1 (by rw [hem]; exact List.mem_cons_of_mem _ hy))).1

variable {c rs}

theorem exists_find?_of_isFirst {k : ℤ} (h : IsFirst rs k) :
    ∃ f, rs.find? (fun r => r.t_ms = k) = some f ∧ f ∈ rs ∧ f.t_ms = k := by
  obtain ⟨r, hr, hrk⟩ := h.1
  obtain ⟨f, hf⟩ := Option.isSome_iff_exists.1
    (List.find?_isSome.2 ⟨r, hr, by simpa using hrk⟩ : (rs.find? fun r => r.t_ms = k).isSome)
  exact ⟨f, hf, List.mem_of_find?_eq_some hf, by simpa using List.find?_some hf⟩

theorem exists_slot_of_isFirst (hc : c < 2 ^ 63) {k : ℤ} (h : IsFirst rs k) :
    ∃ v, slot c rs k = some v := by
  rcases le_or_gt c k with hk | hk
  · obtain ⟨r, hr, rfl⟩ := h.1
    exact slot_recent hr hk
  · obtain ⟨f, hf, -, -⟩ := exists_find?_of_isFirst h
    exact ⟨f, by rw [slot_first hc hk h, hf]⟩

theorem exists_head_sent (hne : rs ≠ []) (hc : c < 2 ^ 63) :
    ∃ e, (collected c rs).sent.head? = some e := by
  obtain ⟨r, hr, hleast⟩ := Set.exists_min_image {r | r ∈ rs} AisRB.t_ms rs.finite_toSet
    (List.exists_mem_of_ne_nil rs hne)
  obtain ⟨v, hv⟩ := exists_slot_of_isFirst hc ⟨⟨r, hr, rfl⟩, hleast⟩
  obtain ⟨e, he, -⟩ := exists_sent_of_slot hv
  exact Option.isSome_iff_exists.1 (List.isSome_head?.2 (List.ne_nil_of_mem he))

/-- A record of some kind and time is sent exactly if one of that kind has the place. -/
theorem sent_kind_iff {p : AisRB → Bool} (hp : ∀ {a b : AisRB}, a.Alike b → p a = p b) {k : ℤ} :
    (∃ e ∈ (collected c rs).sent, ∃ r ∈ rs, e.Alike r ∧ p r = true ∧ r.t_ms = k) ↔
      ∃ v, slot c rs k = some v ∧ p v = true := by
  constructor
  · rintro ⟨e, he, r, -, her, hpr, rfl⟩
    obtain ⟨v, hv, hvr⟩ := sent_iff.1 ⟨e, he, her⟩
    exact ⟨v, hv, (hp hvr).trans hpr⟩
  · rintro ⟨v, hv, hpv⟩
    obtain ⟨e, he, hev⟩ := exists_sent_of_slot hv
    obtain ⟨hmem, htime⟩ := slot_mem hv
    exact ⟨e, he, v, hmem, hev, hpv, htime⟩

/-- Who has the place of the latest time of a kind, if it is of the last ten minutes and they are
alike. -/
theorem slot_kind_recent {p : AisRB → Bool} (hp : ∀ {a b : AisRB}, a.Alike b → p a = p b) {k : ℤ}
    (halike : ∀ r ∈ rs, ∀ r' ∈ rs, c ≤ r.t_ms → r.t_ms = r'.t_ms → r.Alike r') (hk : c ≤ k)
    (h : IsLatest p rs k) : ∃ v, slot c rs k = some v ∧ p v = true := by
  obtain ⟨r, hr, rfl⟩ := h.1
  obtain ⟨hmem, hpr⟩ := List.mem_filter.1 hr
  obtain ⟨v, hv⟩ := slot_recent hmem hk
  obtain ⟨hvmem, htime⟩ := slot_mem hv
  exact ⟨v, hv, (hp (halike r hmem v hvmem hk htime.symm)).symm.trans hpr⟩

/-- The records that are sent of an MMSI are a summary of its records exactly if these leave each
other their places. -/
theorem faithful_sent_iff (hc : c < 2 ^ 63) :
    Faithful c rs (collected c rs).sent ↔ Unrivalled c rs := by
  have hpos : ∀ {a b : AisRB}, a.Alike b → a.has_pos = b.has_pos := AisRB.Alike.has_pos
  have hname : ∀ {a b : AisRB}, a.Alike b → a.has_name = b.has_name := AisRB.Alike.has_name
  constructor
  · intro h
    refine ⟨?_, fun r hr r' hr' hcr htime => ?_, fun k hk hlatest => ?_, fun k hk hlatest => ?_⟩
    · rcases eq_or_ne rs [] with rfl | hne
      · decide
      · obtain ⟨e, he⟩ := exists_head_sent (c := c) hne hc
        rw [← h.count e he, rx_cnt_sent c rs he]
        exact Nat.mod_lt _ (by decide)
    · obtain ⟨v, hv, hvr⟩ := sent_iff.1 (h.recent r hr hcr)
      obtain ⟨v', hv', hvr'⟩ := sent_iff.1 (h.recent r' hr' (htime ▸ hcr))
      rw [← htime, hv, Option.some.injEq] at hv'
      rw [← hv'] at hvr'
      exact hvr.symm.trans hvr'
    · obtain ⟨v, hv, hpv⟩ := (sent_kind_iff hpos).1 (h.position k hlatest)
      split_ifs with hfirst
      · exact ⟨v, by rw [← slot_first hc hk hfirst, hv], hpv⟩
      · by_contra hneg
        rw [slot_later hk hfirst, latestAt_neg (not_le.1 hneg), latestAt_neg (not_le.1 hneg)] at hv
        cases hv
    · obtain ⟨v, hv, hpv⟩ := (sent_kind_iff hname).1 (h.static k hlatest)
      split_ifs with hfirst
      · exact ⟨v, by rw [← slot_first hc hk hfirst, hv], hpv⟩
      · rw [slot_later hk hfirst] at hv
        have hk0 : 0 ≤ k := by
          by_contra hneg
          rw [latestAt_neg (not_le.1 hneg), latestAt_neg (not_le.1 hneg)] at hv
          cases hv
        refine ⟨hk0, fun hposk => ?_⟩
        obtain ⟨w, hfind, hat, -⟩ := latestAt_of_isLatest hk0 hposk
        rw [hat, Option.some_or, Option.some.injEq] at hv
        exact ⟨w, hfind, by rw [hv]; exact hpv⟩
  · intro h
    refine ⟨fun k hfirst => ?_, fun k hlatest => ?_, fun k hlatest => ?_, fun r hr hcr => ?_,
      fun e he => ?_, fun e he => mem_of_mem_tail_sent c rs he, pairwise_sent c rs, fun e he => ?_⟩
    · obtain ⟨v, hv⟩ := exists_slot_of_isFirst hc hfirst
      obtain ⟨e, he, hev⟩ := exists_sent_of_slot hv
      exact ⟨e, he, v, (slot_mem hv).1, hev, (slot_mem hv).2⟩
    · refine (sent_kind_iff hpos).2 ?_
      rcases le_or_gt c k with hk | hk
      · exact slot_kind_recent hpos h.recent hk hlatest
      · have hplace := h.position k hk hlatest
        split_ifs at hplace with hfirst
        · obtain ⟨f, hf, hpf⟩ := hplace
          exact ⟨f, by rw [slot_first hc hk hfirst, hf], hpf⟩
        · obtain ⟨v, -, hat, hpv⟩ := latestAt_of_isLatest hplace hlatest
          exact ⟨v, by rw [slot_later hk hfirst, hat, Option.some_or], hpv⟩
    · refine (sent_kind_iff hname).2 ?_
      rcases le_or_gt c k with hk | hk
      · exact slot_kind_recent hname h.recent hk hlatest
      · have hplace := h.static k hk hlatest
        split_ifs at hplace with hfirst
        · obtain ⟨f, hf, hpf⟩ := hplace
          exact ⟨f, by rw [slot_first hc hk hfirst, hf], hpf⟩
        · obtain ⟨hk0, hboth⟩ := hplace
          obtain ⟨v, -, hat, hpv⟩ := latestAt_of_isLatest hk0 hlatest
          rw [slot_later hk hfirst]
          by_cases hposk : IsLatest AisRB.has_pos rs k
          · obtain ⟨w, hfind, hat', -⟩ := latestAt_of_isLatest hk0 hposk
            obtain ⟨f, hf, hpf⟩ := hboth hposk
            rw [hfind, Option.some.injEq] at hf
            exact ⟨w, by rw [hat', Option.some_or], by rw [hf]; exact hpf⟩
          · refine ⟨v, ?_, hpv⟩
            rw [show latestAt rs AisRB.has_pos k = none from if_neg fun hat => hposk hat.1, hat]
            rfl
    · obtain ⟨v, hv⟩ := slot_recent hr hcr
      obtain ⟨hvmem, htime⟩ := slot_mem hv
      exact sent_iff.2 ⟨v, hv, (h.recent r hr v hvmem hcr htime.symm).symm⟩
    · obtain ⟨v, hv, hev⟩ := exists_slot_of_mem_sent he
      exact ⟨v, (slot_mem hv).1, hev⟩
    · rw [rx_cnt_sent c rs he, Nat.mod_eq_of_lt h.few]

end

/-! ## The file -/

theorem find_perMmsi (now : ℤ) (body : Bytes) (mmsi : ℕ) : (perMmsi now body).find mmsi =
    if recordsOf mmsi body = [] then none
    else some (collected (cutoff now) (recordsOf mmsi body)) :=
  OrdMap.find_group _ _ _ _ _

theorem recordsOf_summary (now : ℤ) (body : Bytes) (mmsi : ℕ) :
    recordsOf mmsi (aisBuildSummary now body) =
      (collected (cutoff now) (recordsOf mmsi body)).sent := by
  have hmmsi : ∀ kv ∈ (perMmsi now body).entries, ∀ rb ∈ kv.2.sent,
      rb.mmsi = kv.1 ∧ rb.mmsi ≠ 0 := by
    intro kv hkv rb hrb
    have hfind := ((perMmsi now body).mem_entries_iff (k := kv.1) (v := kv.2)).1 hkv
    rw [find_perMmsi] at hfind
    split_ifs at hfind
    rw [← Option.some.inj hfind] at hrb
    obtain ⟨v, hv, halike⟩ := exists_slot_of_mem_sent hrb
    obtain ⟨hv, hkey⟩ := List.mem_filter.1 (slot_mem hv).1
    rw [halike.mmsi]
    exact ⟨by simpa using hkey, ne_zero_of_mem_aisForeach hv⟩
  have hsent : aisForeach (aisBuildSummary now body) =
      (perMmsi now body).entries.flatMap fun kv => kv.2.sent := by
    rw [aisBuildSummary, ← List.flatMap_assoc, aisForeach_flatMap]
    refine List.filter_eq_self.2 fun rb hrb => ?_
    obtain ⟨kv, hkv, hrb⟩ := List.mem_flatMap.1 hrb
    simpa using (hmmsi kv hkv rb hrb).2
  rw [recordsOf, hsent, OrdMap.filter_flatMap _ AisRB.mmsi (fun kv => kv.2.sent)
    (fun kv hkv rb hrb => (hmmsi kv hkv rb hrb).1), find_perMmsi]
  split_ifs with hnil
  · rw [hnil]
    rfl
  · rfl

/-- A summary of a file is faithful for every MMSI exactly if the records of each leave each other
their places. -/
theorem faithful_iff (now : ℤ) (body : Bytes) :
    (∀ mmsi, Faithful (cutoff now) (recordsOf mmsi body)
      (recordsOf mmsi (aisBuildSummary now body))) ↔
        ∀ mmsi, Unrivalled (cutoff now) (recordsOf mmsi body) := by
  refine forall_congr' fun mmsi => ?_
  rw [recordsOf_summary, faithful_sent_iff (cutoff_lt now)]

/-- A record of a vessel at a time, with the bytes of `has_pos` and of `name[0]`. -/
def recordAt (t has_pos name : ℕ) : AisRB where
  md := Hist.charArray sizeofMpData (ascii "DGS-1_DGS-1")
  w := leBytes 8 t ++ List.replicate 13 0 ++ leBytes 4 440123000 ++ leBytes 1 has_pos ++
    List.replicate 32 0 ++ leBytes 1 name ++ List.replicate 103 0
  md_length := by decide
  w_length := by
    simp only [List.length_append, leBytes_length, List.length_replicate]
    decide

/-- A position and a name that two stations hear of in one millisecond: the position is not in the
summary. -/
theorem sameTime_position_lost : ¬ ∀ now body mmsi,
    Faithful (cutoff now) (recordsOf mmsi body) (recordsOf mmsi (aisBuildSummary now body)) := by
  intro h
  have hposition := (h 1785081600 ([recordAt 1785081590000 1 0,
    recordAt 1785081590000 0 65].flatMap aisEmit) 440123000).position 1785081590000
  revert hposition
  decide +kernel

end Bewe.Ais
