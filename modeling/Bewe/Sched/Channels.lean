import Bewe.Sched.Exclusive
import Bewe.Sched.Radio

/-!
# Channels of the scheduler and of the operators

The scheduler knows the channel of a recording by the number of its slot. While it is the only one
that touches the slots it has taken, the channel there is the one that it made, and no channel of an
operator is recorded, stopped or reset by it. `on_create_ch` and `on_delete_ch` take whatever slot
they are given: `undisturbed_run_iff` says that a run goes well exactly if no operator makes or
deletes a channel in the slot of an entry that is armed or records.
-/

namespace Bewe.Sched

open Lib
open Saved (Chars)

/-- The channel in a slot is the one that `sched_arm_entry` made for an entry. -/
structure Owned (r : Radio) (e : SchedEntry) (k : Slot) : Prop where
  maker : (r.channels k).maker = .scheduler
  filter_active : (r.channels k).filter_active = true
  low : (r.channels k).s = e.range.1
  high : (r.channels k).e = e.range.2
  force_all : (r.channels k).iq_rec_force_all = true

/-- The entry is armed or records in a channel. -/
def SchedEntry.Holds (e : SchedEntry) : Prop := e.Busy ∧ e.sr_hz = 0

/-- Every entry that is armed or records in a channel has the channel that was made for it, and no
tick changes a channel of an operator. -/
structure Undisturbed (s : RadioState) : Prop where
  owned : ∀ e ∈ s.base.sched_entries, e.Holds →
    ∃ k, slotOf e.temp_ch_idx = some k ∧ Owned s.radio e k
  harmless : ∀ env k, (s.radio.channels k).maker = .operator →
    (serve env s).radio.channels k = s.radio.channels k ∧
      (arm env s).radio.channels k = s.radio.channels k

/-- What else holds in a run: a channel of an operator is active, and no two entries hold one slot.
-/
structure SlotsSound (s : RadioState) : Prop where
  operator : ∀ k, (s.radio.channels k).maker = .operator →
    (s.radio.channels k).filter_active = true
  distinct : s.base.sched_entries.Pairwise fun e f => e.Holds → f.Holds →
    ∀ k, slotOf e.temp_ch_idx = some k → slotOf f.temp_ch_idx ≠ some k

/-! ## Frames -/

@[simp] theorem setChannel_self (r : Radio) (k : Slot) (ch : Channel) :
    (r.setChannel k ch).channels k = ch := by
  simp [Radio.setChannel]

theorem setChannel_of_ne {j k : Slot} (h : j ≠ k) (r : Radio) (ch : Channel) :
    (r.setChannel k ch).channels j = r.channels j := by
  simp [Radio.setChannel, h]

@[simp] theorem setFrequency_channels (cf_mhz : Fp 24) (r : Radio) :
    (setFrequency cf_mhz r).channels = r.channels := rfl

@[simp] theorem schedRestoreSdr_channels (r : Radio) :
    (schedRestoreSdr r).channels = r.channels := by
  simp only [schedRestoreSdr, setFrequency_channels]
  split_ifs <;> rfl

theorem slotOf_coe (k : Slot) : slotOf ((k : ℕ) : ℤ) = some k := by
  have hk : (0 : ℤ) ≤ ((k : ℕ) : ℤ) ∧ ((k : ℕ) : ℤ) < MAX_CHANNELS := ⟨by omega, by omega⟩
  rw [slotOf, dif_pos hk]
  simp

/-- `start_iq_rec` touches its own slot. -/
theorem startIqRec_of_ne {j k : Slot} (h : j ≠ k) (env : StartEnv) (r : Radio) :
    (startIqRec env k r).channels j = r.channels j := by
  simp only [startIqRec]
  split_ifs <;> first | rfl | exact setChannel_of_ne h _ _

/-- In its own slot it starts the recorder at most. -/
theorem startIqRec_self (env : StartEnv) (k : Slot) (r : Radio) :
    (startIqRec env k r).channels k = r.channels k ∨
      (startIqRec env k r).channels k = { r.channels k with iq_rec_on := true } := by
  simp only [startIqRec]
  split_ifs <;> first | exact Or.inl rfl | exact Or.inr (setChannel_self _ _ _)

/-- `sched_begin_rec` touches the slot of its entry. -/
theorem beginRadio_of_ne {env : RadioEnv} {e : SchedEntry} {r : Radio} {j : Slot}
    (h : e.sr_hz = 0 → slotOf e.temp_ch_idx ≠ some j) :
    (beginRadio env e r).channels j = r.channels j := by
  simp only [beginRadio]
  split_ifs with hsr hrec
  · simp
  · rfl
  · have hzero : e.sr_hz = 0 := by simpa [UInt32.pos_iff_ne_zero] using hsr
    cases hk : slotOf e.temp_ch_idx with
    | none => rfl
    | some k =>
      have hne : j ≠ k := fun heq => h hzero (heq ▸ hk)
      simp only
      split_ifs
      · rw [startIqRec_of_ne hne]
      · rw [setFrequency_channels, setChannel_of_ne hne, startIqRec_of_ne hne]

/-- `sched_stop_entry` touches the slot of its entry. -/
theorem stopRadio_of_ne {e : SchedEntry} {r : Radio} {j : Slot}
    (h : e.sr_hz = 0 → slotOf e.temp_ch_idx ≠ some j) :
    (stopRadio e r).channels j = r.channels j := by
  rw [stopRadio, schedRestoreSdr_channels]
  split_ifs with hsr
  · rfl
  · have hzero : e.sr_hz = 0 := by simpa [UInt32.pos_iff_ne_zero] using hsr
    cases hk : slotOf e.temp_ch_idx with
    | none => rfl
    | some k =>
      have hne : j ≠ k := fun heq => h hzero (heq ▸ hk)
      simp only [stopIqRec]
      rw [setChannel_of_ne hne]
      exact setChannel_of_ne hne _ _

/-- The first part of a tick touches the slot of the active entry. -/
theorem serveRadio_of_ne {env : RadioEnv} {e : SchedEntry} {r : Radio} {j : Slot}
    (h : e.Holds → slotOf e.temp_ch_idx ≠ some j) :
    (serveRadio env e r).channels j = r.channels j := by
  unfold serveRadio
  cases hstatus : e.status with
  | armed =>
    simp only
    split_ifs
    · exact beginRadio_of_ne fun hsr => h ⟨Or.inl hstatus, hsr⟩
    · rfl
  | recording =>
    simp only
    split_ifs
    · exact stopRadio_of_ne fun hsr => h ⟨Or.inr hstatus, hsr⟩
    · rfl
  | waiting => rfl
  | done => rfl
  | failed => rfl
  | other b => rfl

theorem freeSlot_free {r : Radio} {k : Slot} (h : r.freeSlot = some k) :
    (r.channels k).filter_active = false := by
  simpa using List.find?_some h

/-- `sched_arm_entry` leaves the slots that a channel is in. -/
theorem armRadio_of_active {env : RadioEnv} {e : SchedEntry} {r : Radio} {j : Slot}
    (h : (r.channels j).filter_active = true) :
    (armRadio env e r).channels j = r.channels j := by
  unfold armRadio
  split_ifs
  · rfl
  · simp only [armFullBand]
    split_ifs <;> rfl
  · simp only [armChannel]
    split
    · rfl
    · rename_i k hk
      have hfree : (r.channels k).filter_active = false := freeSlot_free hk
      have hne : j ≠ k := by
        rintro rfl
        rw [h] at hfree
        exact Bool.noConfusion hfree
      exact setChannel_of_ne hne _ _
  · rfl

/-! ## Ticks -/

/-- A channel that was made for an entry stays its own where the slot keeps it. -/
theorem Owned.congr {r r' : Radio} {e : SchedEntry} {k : Slot} (h : Owned r e k)
    (hk : r'.channels k = r.channels k) : Owned r' e k :=
  ⟨hk ▸ h.maker, hk ▸ h.filter_active, hk ▸ h.low, hk ▸ h.high, hk ▸ h.force_all⟩

/-- An entry with the range of another has its channel. -/
theorem Owned.of_range {r : Radio} {e f : SchedEntry} {k : Slot} (h : Owned r e k)
    (hr : f.range = e.range) : Owned r f k :=
  ⟨h.maker, h.filter_active, hr ▸ h.low, hr ▸ h.high, h.force_all⟩

/-- Where all entries have their channels, a tick changes none of an operator. -/
theorem harmless_of_owned {s : RadioState}
    (howned : ∀ e ∈ s.base.sched_entries, e.Holds →
      ∃ k, slotOf e.temp_ch_idx = some k ∧ Owned s.radio e k)
    (hactive : ∀ k, (s.radio.channels k).maker = .operator →
      (s.radio.channels k).filter_active = true)
    (env : RadioEnv) (k : Slot) (hk : (s.radio.channels k).maker = .operator) :
    (serve env s).radio.channels k = s.radio.channels k ∧
      (arm env s).radio.channels k = s.radio.channels k := by
  constructor
  · cases he : s.base.active with
    | none => simp only [serve, he]
    | some e =>
      simp only [serve, he]
      refine serveRadio_of_ne fun hb hslot => ?_
      obtain ⟨j, hj, hown⟩ := howned e (mem_of_active he) hb
      -- the slot of the entry has the channel of the scheduler
      rw [hslot, Option.some.injEq] at hj
      subst hj
      rw [hown.maker] at hk
      exact Maker.noConfusion hk
  · simp only [arm]
    split_ifs
    · cases armTarget env.now s.base.sched_entries with
      | none => rfl
      | some e => exact armRadio_of_active (hactive k hk)
    · rfl

/-- A tick leaves the channels of the operators active. -/
theorem SlotsSound.operator_of_harmless {s t : RadioState} (h : SlotsSound s)
    (hmaker : ∀ k, (t.radio.channels k).maker = .operator →
      t.radio.channels k = s.radio.channels k) (k : Slot)
    (hk : (t.radio.channels k).maker = .operator) :
    (t.radio.channels k).filter_active = true := by
  have heq := hmaker k hk
  rw [heq] at hk ⊢
  exact h.operator k hk

/-- Two entries that hold a slot hold different ones. -/
theorem SlotsSound.ne {s : RadioState} (h : SlotsSound s) {i j : ℕ} {e f : SchedEntry}
    (hi : s.base.sched_entries[i]? = some e) (hj : s.base.sched_entries[j]? = some f)
    (hij : i ≠ j) (he : e.Holds) (hf : f.Holds) {k : Slot} (hk : slotOf e.temp_ch_idx = some k) :
    slotOf f.temp_ch_idx ≠ some k := by
  obtain ⟨hi', rfl⟩ := List.getElem?_eq_some_iff.1 hi
  obtain ⟨hj', rfl⟩ := List.getElem?_eq_some_iff.1 hj
  have hpair := List.pairwise_iff_getElem.1 h.distinct
  rcases Nat.lt_or_gt_of_ne hij with hlt | hlt
  · exact hpair i j hi' hj' hlt he hf k hk
  · exact fun hk' => hpair j i hj' hi' hlt hf he k hk' hk

/-- A recorder that starts in a channel leaves the channel as it was but for the recorder. -/
theorem owned_beginRadio {env : RadioEnv} {e : SchedEntry} {r : Radio} {k : Slot}
    (hsr : e.sr_hz = 0) (hk : slotOf e.temp_ch_idx = some k) (hok : startOk env e r = true)
    (h : Owned r e k) : Owned (beginRadio env e r) e k := by
  have hnot : ¬e.sr_hz > 0 := by simp [hsr]
  simp only [startOk, if_neg hnot, hk] at hok
  simp only [beginRadio, if_neg hnot, hk, hok, not_true, if_false]
  rcases startIqRec_self env.start k { r with pending_sched_meta := e.meta } with heq | heq
  · exact h.congr heq
  · exact ⟨by rw [heq]; exact h.maker, by rw [heq]; exact h.filter_active, by rw [heq]; exact h.low,
      by rw [heq]; exact h.high, by rw [heq]; exact h.force_all⟩

/-- What the first part of a tick leaves of an entry that is armed or records: the entry, and the
radio with it if it is the active one, or the active entry whose recorder has started. -/
theorem serve_cases {env : RadioEnv} {s : RadioState} {j : ℕ} {f : SchedEntry}
    (hj : (serve env s).base.sched_entries[j]? = some f) (hb : f.Busy) :
    (s.base.sched_entries[j]? = some f ∧
        (s.base.sched_active_idx = some j → (serve env s).radio = s.radio)) ∨
      ∃ e, s.base.sched_entries[j]? = some e ∧ s.base.sched_active_idx = some j ∧
        e.status = .armed ∧ e.start_time ≤ env.now ∧ startOk env e s.radio = true ∧
          f = (schedBeginRec (env.tick true s.radio) e).1 ∧
            (serve env s).radio = beginRadio env e s.radio := by
  cases he : s.base.active with
  | none =>
    have hsame : serve env s = s := by simp only [serve, he]
    rw [hsame] at hj ⊢
    exact Or.inl ⟨hj, fun _ => rfl⟩
  | some e =>
    obtain ⟨i, hi, hie⟩ := active_eq_some.1 he
    have hlt : i < s.base.sched_entries.length := (List.getElem?_eq_some_iff.1 hie).1
    have hserve : serve env s = ⟨serveEntry (env.tick (startOk env e s.radio) s.radio) i e s.base,
        serveRadio env e s.radio⟩ := by
      simp only [serve, he, serveActive_eq hi hie]
    rw [hserve] at hj ⊢
    simp only at hj ⊢
    -- the entry at another index is as it was
    have hset : ∀ e' : SchedEntry, (s.base.sched_entries.set i e')[j]? = some f → j ≠ i →
        s.base.sched_entries[j]? = some f ∧
          (s.base.sched_active_idx = some j → serveRadio env e s.radio = s.radio) := by
      intro e' hj' hne
      rw [List.getElem?_set_ne (Ne.symm hne)] at hj'
      exact ⟨hj', fun hact => absurd (Option.some.inj (hi.symm.trans hact)).symm hne⟩
    cases hstatus : e.status with
    | armed =>
      by_cases hdue : e.start_time ≤ env.now
      · have hdue' : e.start_time ≤ (env.tick (startOk env e s.radio) s.radio).now := hdue
        have hentries : (serveEntry (env.tick (startOk env e s.radio) s.radio) i e
            s.base).sched_entries = s.base.sched_entries.set i
              (schedBeginRec (env.tick (startOk env e s.radio) s.radio) e).1 := by
          simp only [serveEntry, hstatus, if_pos hdue']
          rcases schedBeginRec (env.tick (startOk env e s.radio) s.radio) e with ⟨e', o⟩
          cases o <;> rfl
        rw [hentries] at hj
        by_cases hne : j = i
        · subst hne
          rw [List.getElem?_set_self hlt, Option.some.injEq] at hj
          have hok : startOk env e s.radio = true := by
            by_contra hno
            have hfalse : startOk env e s.radio = false := by simpa using hno
            rw [hfalse] at hj
            rw [← hj] at hb
            simp only [schedBeginRec, RadioEnv.tick, Bool.false_eq_true, not_false_eq_true,
              if_true] at hb
            split_ifs at hb <;> simp [SchedEntry.Busy] at hb
          rw [hok] at hj
          refine Or.inr ⟨e, hie, hi, hstatus, hdue, hok, hj.symm, ?_⟩
          simp [serveRadio, hstatus, hdue]
        · exact Or.inl (hset _ hj hne)
      · have hdue' : ¬e.start_time ≤ (env.tick (startOk env e s.radio) s.radio).now := hdue
        simp only [serveEntry, hstatus, if_neg hdue'] at hj
        exact Or.inl ⟨hj, fun _ => by simp [serveRadio, hstatus, hdue]⟩
    | recording =>
      by_cases hpast : e.duration_sec.le ((env.tick true s.radio).elapsed e) = true
      · have hpast' : e.duration_sec.le ((env.tick (startOk env e s.radio) s.radio).elapsed e) =
            true := hpast
        simp only [serveEntry, hstatus, if_pos hpast', schedStopEntry] at hj
        by_cases hne : j = i
        · subst hne
          rw [List.getElem?_set_self hlt, Option.some.injEq] at hj
          rw [← hj] at hb
          simp [SchedEntry.Busy] at hb
        · exact Or.inl (hset _ hj hne)
      · have hpast' : ¬e.duration_sec.le ((env.tick (startOk env e s.radio) s.radio).elapsed e) =
            true := hpast
        simp only [serveEntry, hstatus, if_neg hpast'] at hj
        exact Or.inl ⟨hj, fun _ => by simp [serveRadio, hstatus, hpast]⟩
    | waiting =>
      simp only [serveEntry, hstatus] at hj
      exact Or.inl ⟨hj, fun _ => by simp [serveRadio, hstatus]⟩
    | done =>
      simp only [serveEntry, hstatus] at hj
      exact Or.inl ⟨hj, fun _ => by simp [serveRadio, hstatus]⟩
    | failed =>
      simp only [serveEntry, hstatus] at hj
      exact Or.inl ⟨hj, fun _ => by simp [serveRadio, hstatus]⟩
    | other b =>
      simp only [serveEntry, hstatus] at hj
      exact Or.inl ⟨hj, fun _ => by simp [serveRadio, hstatus]⟩

/-- `sched_begin_rec` leaves the slot, the sample rate and the range of an entry. -/
theorem schedBeginRec_same (env : TickEnv) (e : SchedEntry) :
    (schedBeginRec env e).1.temp_ch_idx = e.temp_ch_idx ∧
      (schedBeginRec env e).1.sr_hz = e.sr_hz ∧ (schedBeginRec env e).1.range = e.range := by
  unfold schedBeginRec
  split_ifs <;> exact ⟨rfl, rfl, rfl⟩

/-- An entry that holds a slot after the first part of a tick has held it before. -/
theorem serve_held {env : RadioEnv} {s : RadioState} {j : ℕ} {f : SchedEntry}
    (hj : (serve env s).base.sched_entries[j]? = some f) (hf : f.Holds) :
    ∃ e, s.base.sched_entries[j]? = some e ∧ e.Holds ∧ e.temp_ch_idx = f.temp_ch_idx := by
  rcases serve_cases hj hf.1 with ⟨hold, -⟩ | ⟨e, he, -, harmed, -, -, rfl, -⟩
  · exact ⟨f, hold, hf, rfl⟩
  · obtain ⟨htemp, hsr, -⟩ := schedBeginRec_same (env.tick true s.radio) e
    exact ⟨e, he, ⟨Or.inl harmed, hsr ▸ hf.2⟩, htemp.symm⟩

/-- The first part of a tick keeps the channels of the entries. -/
theorem owned_serve {s : RadioState} (hs : SlotsSound s) (hu : Undisturbed s) (env : RadioEnv) :
    ∀ f ∈ (serve env s).base.sched_entries, f.Holds →
      ∃ k, slotOf f.temp_ch_idx = some k ∧ Owned (serve env s).radio f k := by
  intro f hmem hf
  obtain ⟨j, hj⟩ := List.mem_iff_getElem?.1 hmem
  rcases serve_cases hj hf.1 with ⟨hold, hradio⟩ | ⟨e, he, hact, harmed, -, hok, rfl, hradio⟩
  · obtain ⟨k, hk, hown⟩ := hu.owned f (List.mem_of_getElem? hold) hf
    refine ⟨k, hk, hown.congr ?_⟩
    by_cases hjact : s.base.sched_active_idx = some j
    · rw [hradio hjact]
    · cases ha : s.base.active with
      | none => simp only [serve, ha]
      | some a =>
        obtain ⟨i, hi, hia⟩ := active_eq_some.1 ha
        simp only [serve, ha]
        refine serveRadio_of_ne fun hb hslot => ?_
        have hij : i ≠ j := fun h => hjact (h ▸ hi)
        exact hs.ne hia hold hij hb hf hslot hk
  · obtain ⟨htemp, hsr, hrange⟩ := schedBeginRec_same (env.tick true s.radio) e
    have hzero : e.sr_hz = 0 := hsr ▸ hf.2
    obtain ⟨k, hk, hown⟩ := hu.owned e (List.mem_of_getElem? he) ⟨Or.inl harmed, hzero⟩
    refine ⟨k, htemp ▸ hk, ?_⟩
    rw [hradio]
    exact (owned_beginRadio hzero hk hok hown).of_range hrange

/-- What the loop over the waiting entries leaves: what was armed or recorded before, or the entry
that it arms. -/
theorem armNext_busy (env : TickEnv) (es : List SchedEntry) (i : ℕ) {j : ℕ} {f : SchedEntry}
    (hj : (armNext env i es).1[j]? = some f) (hb : f.Busy) :
    es[j]? = some f ∨
      ∃ e, armTarget env.now es = some e ∧ f = (schedArmEntry env (i + j) e).1 ∧
        (armNext env i es).2 = some (i + j) := by
  induction es generalizing i j with
  | nil => simp [armNext] at hj
  | cons e es ih =>
    simp only [armNext] at hj ⊢
    split_ifs at hj ⊢ with h₁ h₂ h₃
    · -- the entry does not wait
      have htarget : armTarget env.now (e :: es) = armTarget env.now es :=
        List.find?_cons_of_neg (by simp [h₁])
      cases j with
      | zero => exact Or.inl hj
      | succ j =>
        rw [htarget, ← Nat.add_assoc, Nat.add_right_comm]
        exact ih (i + 1) hj
    · -- it is missed
      have htarget : armTarget env.now (e :: es) = armTarget env.now es :=
        List.find?_cons_of_neg (by simp [h₂])
      cases j with
      | zero =>
        rw [← Option.some.inj hj] at hb
        simp [SchedEntry.Busy] at hb
      | succ j =>
        rw [htarget, ← Nat.add_assoc, Nat.add_right_comm]
        exact ih (i + 1) hj
    · -- it is handed to `sched_arm_entry`
      have htarget : armTarget env.now (e :: es) = some e :=
        List.find?_cons_of_pos (by simp [not_not.1 h₁, not_lt.1 h₂, h₃])
      cases j with
      | zero =>
        have hf : (schedArmEntry env i e).1 = f := Option.some.inj hj
        refine Or.inr ⟨e, htarget, hf.symm, ?_⟩
        obtain ⟨-, -, ⟨-, hidx⟩ | ⟨hstatus, -⟩⟩ := schedArmEntry_cases env i e
        · exact hidx
        · rw [← hf] at hb
          simp [SchedEntry.Busy, hstatus] at hb
      | succ j => exact Or.inl hj
    · -- its time has not come
      have htarget : armTarget env.now (e :: es) = armTarget env.now es :=
        List.find?_cons_of_neg (by simp [h₃])
      cases j with
      | zero => exact Or.inl hj
      | succ j =>
        rw [htarget, ← Nat.add_assoc, Nat.add_right_comm]
        exact ih (i + 1) hj

/-- What the second part of a tick leaves of the entries that are armed or record. -/
theorem arm_cases {env : RadioEnv} {s : RadioState} {j : ℕ} {f : SchedEntry}
    (hj : (arm env s).base.sched_entries[j]? = some f) (hb : f.Busy) :
    s.base.sched_entries[j]? = some f ∨
      s.base.sched_active_idx = none ∧ (arm env s).base.sched_active_idx = some j ∧
        ∃ e, armTarget env.now s.base.sched_entries = some e ∧
          f = (schedArmEntry (env.tick true s.radio) j e).1 := by
  cases hi : s.base.sched_active_idx with
  | some i =>
    simp only [arm, armIdle, hi] at hj
    exact Or.inl hj
  | none =>
    simp only [arm, armIdle, hi] at hj ⊢
    rcases armNext_busy _ _ 0 hj hb with hold | ⟨e, htarget, hf, hidx⟩
    · exact Or.inl hold
    · rw [Nat.zero_add] at hf hidx
      exact Or.inr ⟨trivial, hidx, e, htarget, hf⟩

/-- An entry that is armed in a channel gets a free slot and the channel that is made for it. -/
theorem owned_armRadio {env : RadioEnv} {r : Radio} {j : ℕ} {e : SchedEntry}
    (hb : (schedArmEntry (env.tick true r) j e).1.Holds) :
    ∃ k, slotOf (schedArmEntry (env.tick true r) j e).1.temp_ch_idx = some k ∧
      r.freeSlot = some k ∧
        Owned (armRadio env e r) (schedArmEntry (env.tick true r) j e).1 k := by
  have hfailed : ∀ f : SchedEntry, f.status = .failed → ¬f.Holds := by
    intro f hf h
    rcases h.1 with h | h <;> simp [hf] at h
  cases hmode : env.remote_mode with
  | true => simp [schedArmEntry, RadioEnv.tick, hmode, hfailed] at hb
  | false =>
    cases hsdr : env.sdr_ok with
    | false => simp [schedArmEntry, RadioEnv.tick, hmode, hsdr, hfailed] at hb
    | true =>
      by_cases hsr : e.sr_hz > 0
      · -- an entry of the whole band holds no slot
        have hsr' : (schedArmEntry (env.tick true r) j e).1.sr_hz = e.sr_hz := by
          unfold schedArmEntry
          split_ifs <;> rfl
        have hzero := hb.2
        rw [hsr'] at hzero
        simp [hzero] at hsr
      · cases hk : r.freeSlot with
        | none => simp [schedArmEntry, RadioEnv.tick, hmode, hsdr, hsr, hk, hfailed] at hb
        | some k =>
          have hentry : (schedArmEntry (env.tick true r) j e).1 =
              { e with temp_ch_idx := ((k : ℕ) : ℤ), status := .armed } := by
            simp [schedArmEntry, RadioEnv.tick, hmode, hsdr, hsr, hk]
          have hchannel : (armRadio env e r).channels k = e.channel (r.channels k) := by
            have hfree : ∀ (cf : Fp 24) (saved : Fp 24 × Fp 24), (setFrequency cf
                { r with
                  sched_saved_cf := saved.1, sched_saved_sr_msps := saved.2 }).freeSlot = some k :=
              fun _ _ => hk
            simp only [armRadio, hmode, hsdr, hsr, Bool.false_eq_true, if_false, not_true,
              armChannel, hfree _ (_, _)]
            exact setChannel_self _ _ _
          rw [hentry]
          refine ⟨k, slotOf_coe k, rfl, ?_, ?_, ?_, ?_, ?_⟩ <;> rw [hchannel] <;> rfl

/-- The second part of a tick keeps the channels of the entries. -/
theorem owned_arm {s : RadioState} (hu : Undisturbed s) (env : RadioEnv) :
    ∀ f ∈ (arm env s).base.sched_entries, f.Holds →
      ∃ k, slotOf f.temp_ch_idx = some k ∧ Owned (arm env s).radio f k := by
  intro f hmem hf
  obtain ⟨j, hj⟩ := List.mem_iff_getElem?.1 hmem
  rcases arm_cases hj hf.1 with hold | ⟨hidle, -, e, htarget, rfl⟩
  · obtain ⟨k, hk, hown⟩ := hu.owned f (List.mem_of_getElem? hold) hf
    refine ⟨k, hk, hown.congr ?_⟩
    simp only [arm]
    split_ifs
    · cases armTarget env.now s.base.sched_entries with
      | none => rfl
      | some e => exact armRadio_of_active hown.filter_active
    · rfl
  · obtain ⟨k, hk, -, hown⟩ := owned_armRadio hf
    refine ⟨k, hk, ?_⟩
    simp only [arm, hidle, if_true, htarget]
    exact hown

/-- What a list keeps where each entry that holds a slot has held it before. -/
theorem SlotsSound.distinct_of_held {s : RadioState} (h : SlotsSound s) {es : List SchedEntry}
    (hheld : ∀ (j : ℕ) (f : SchedEntry), es[j]? = some f → f.Holds →
      ∃ e, s.base.sched_entries[j]? = some e ∧ e.Holds ∧ e.temp_ch_idx = f.temp_ch_idx) :
    es.Pairwise fun e f => e.Holds → f.Holds →
      ∀ k, slotOf e.temp_ch_idx = some k → slotOf f.temp_ch_idx ≠ some k := by
  refine List.pairwise_iff_getElem.2 fun i j hi hj hlt he hf k hk hk' => ?_
  obtain ⟨e, hie, heh, hetemp⟩ := hheld i _ (List.getElem?_eq_getElem hi) he
  obtain ⟨f, hjf, hfh, hftemp⟩ := hheld j _ (List.getElem?_eq_getElem hj) hf
  exact h.ne hie hjf hlt.ne heh hfh (hetemp ▸ hk) (hftemp ▸ hk')

/-- The entry that is armed gets a slot that no other holds. -/
theorem distinct_arm {s : RadioState} (hs : SlotsSound s) (hu : Undisturbed s) (env : RadioEnv) :
    (arm env s).base.sched_entries.Pairwise fun e f => e.Holds → f.Holds →
      ∀ k, slotOf e.temp_ch_idx = some k → slotOf f.temp_ch_idx ≠ some k := by
  -- an entry that was armed before has an active channel, and the free slot has none
  have hnew : ∀ (j : ℕ) (e f : SchedEntry) (k : Slot), f ∈ s.base.sched_entries → f.Holds →
      slotOf f.temp_ch_idx = some k → (schedArmEntry (env.tick true s.radio) j e).1.Holds →
        slotOf (schedArmEntry (env.tick true s.radio) j e).1.temp_ch_idx ≠ some k := by
    intro j e f k hmem hf hk he hk'
    obtain ⟨k₁, hk₁, hown⟩ := hu.owned f hmem hf
    obtain ⟨k₂, hk₂, hfree, -⟩ := owned_armRadio he
    obtain rfl : k = k₁ := Option.some.inj (hk.symm.trans hk₁)
    obtain rfl : k = k₂ := Option.some.inj (hk'.symm.trans hk₂)
    have := hown.filter_active
    rw [freeSlot_free hfree] at this
    exact Bool.noConfusion this
  refine List.pairwise_iff_getElem.2 fun i j hi hj hlt he hf k hk hk' => ?_
  rcases arm_cases (List.getElem?_eq_getElem hi) he.1 with hold | ⟨-, hidx, e, -, heq⟩ <;>
    rcases arm_cases (List.getElem?_eq_getElem hj) hf.1 with hold' | ⟨-, hidx', e', -, heq'⟩
  · exact hs.ne hold hold' hlt.ne he hf hk hk'
  · rw [heq'] at hf hk'
    exact hnew j e' _ k (List.mem_of_getElem? hold) he hk hf hk'
  · rw [heq] at he hk
    exact hnew i e _ k (List.mem_of_getElem? hold') hf hk' he hk
  · have : i = j := Option.some.inj (hidx.symm.trans hidx')
    omega

/-- No part of a tick makes a channel of an operator. -/
theorem maker_serveRadio {env : RadioEnv} {e : SchedEntry} {r : Radio} {j : Slot}
    (h : ((serveRadio env e r).channels j).maker = .operator) :
    (r.channels j).maker = .operator := by
  by_cases hslot : e.Holds → slotOf e.temp_ch_idx ≠ some j
  · rwa [serveRadio_of_ne hslot] at h
  obtain ⟨hb, hj⟩ := Classical.not_imp.1 hslot
  have hj' : slotOf e.temp_ch_idx = some j := not_not.1 hj
  have hnot : ¬e.sr_hz > 0 := by simp [hb.2]
  have hreset : ∀ ch : Channel, ch.resetSlot.maker ≠ .operator := by
    intro ch
    simp [Channel.resetSlot]
  rcases hb.1 with hstatus | hstatus
  · simp only [serveRadio, hstatus] at h
    split_ifs at h
    · simp only [beginRadio, if_neg hnot, hj'] at h
      have hself := startIqRec_self env.start j { r with pending_sched_meta := e.meta }
      split_ifs at h
      · rcases hself with heq | heq <;> rw [heq] at h <;> exact h
      · rw [setFrequency_channels, setChannel_self] at h
        exact absurd h (hreset _)
    · exact h
  · simp only [serveRadio, hstatus] at h
    split_ifs at h
    · rw [stopRadio, schedRestoreSdr_channels, if_neg hnot] at h
      simp only [hj'] at h
      rw [setChannel_self] at h
      exact absurd h (hreset _)
    · exact h

@[inherit_doc maker_serveRadio]
theorem maker_armRadio {env : RadioEnv} {e : SchedEntry} {r : Radio} {j : Slot}
    (h : ((armRadio env e r).channels j).maker = .operator) : (r.channels j).maker = .operator := by
  unfold armRadio at h
  split_ifs at h
  · exact h
  · simp only [armFullBand] at h
    split_ifs at h <;> exact h
  · simp only [armChannel] at h
    split at h
    · exact h
    · rename_i k hk
      by_cases hjk : j = k
      · subst hjk
        have hself := congrArg Channel.maker (setChannel_self (setFrequency
          (e.freq_mhz.add (by norm_num) (dcOffset e.bw_khz env.sample_rate))
            { r with
              sched_saved_cf := env.cfMhz, sched_saved_sr_msps := .ofRat (by norm_num) 0 }) j
            (e.channel (r.channels j)))
        exact Maker.noConfusion (hself.symm.trans h)
      · have hframe := setChannel_of_ne hjk (setFrequency
          (e.freq_mhz.add (by norm_num) (dcOffset e.bw_khz env.sample_rate))
            { r with
              sched_saved_cf := env.cfMhz, sched_saved_sr_msps := .ofRat (by norm_num) 0 })
            (e.channel (r.channels k))
        exact (congrArg Channel.maker hframe).symm.trans h
  · exact h

/-- A channel that is an operator's after a tick was so before, and is as it was. -/
theorem Undisturbed.same_of_serve {s : RadioState} (hu : Undisturbed s) {env : RadioEnv} {k : Slot}
    (hk : ((serve env s).radio.channels k).maker = .operator) :
    (serve env s).radio.channels k = s.radio.channels k := by
  refine (hu.harmless env k ?_).1
  revert hk
  simp only [serve]
  cases s.base.active with
  | none => exact id
  | some e => exact maker_serveRadio

@[inherit_doc Undisturbed.same_of_serve]
theorem Undisturbed.same_of_arm {s : RadioState} (hu : Undisturbed s) {env : RadioEnv} {k : Slot}
    (hk : ((arm env s).radio.channels k).maker = .operator) :
    (arm env s).radio.channels k = s.radio.channels k := by
  refine (hu.harmless env k ?_).2
  revert hk
  simp only [arm]
  split_ifs
  · cases armTarget env.now s.base.sched_entries with
    | none => exact id
    | some e => exact maker_armRadio
  · exact id

/-! ## Turns -/

/-- A list of entries of which each that holds a slot was there before leaves all in order. -/
theorem Undisturbed.of_base {s : RadioState} (hs : SlotsSound s) (hu : Undisturbed s) {b : State}
    (hsub : ∀ f ∈ b.sched_entries, f.Holds → f ∈ s.base.sched_entries) :
    Undisturbed { s with base := b } := by
  have howned : ∀ f ∈ b.sched_entries, f.Holds →
      ∃ k, slotOf f.temp_ch_idx = some k ∧ Owned s.radio f k :=
    fun f hf hb => hu.owned f (hsub f hf hb) hb
  exact ⟨howned, harmless_of_owned (s := { s with base := b }) howned hs.operator⟩

/-- An entry that waits is added to those that hold their slots. -/
theorem held_push {es : List SchedEntry} {e : SchedEntry} (he : e.status = .waiting) :
    ∀ f ∈ es ++ [e], f.Holds → f ∈ es := by
  intro f hf hb
  rcases List.mem_append.1 hf with hf | hf
  · exact hf
  · rw [List.mem_singleton.1 hf] at hb
    rcases hb.1 with h | h <;> simp [he] at h

theorem distinct_push {es : List SchedEntry} {e : SchedEntry} (he : e.status = .waiting)
    (h : es.Pairwise fun e f => e.Holds → f.Holds →
      ∀ k, slotOf e.temp_ch_idx = some k → slotOf f.temp_ch_idx ≠ some k) :
    (es ++ [e]).Pairwise fun e f => e.Holds → f.Holds →
      ∀ k, slotOf e.temp_ch_idx = some k → slotOf f.temp_ch_idx ≠ some k := by
  refine List.pairwise_append.2 ⟨h, List.pairwise_singleton _ _, fun f _ g hg _ hgh => ?_⟩
  rw [List.mem_singleton.1 hg] at hgh
  rcases hgh.1 with h | h <;> simp [he] at h

/-- A step of the scheduler on its list. -/
theorem Undisturbed.sched {s : RadioState} (hs : SlotsSound s) (hu : Undisturbed s)
    (x : SchedStep) : Undisturbed (x.next s) := by
  cases x with
  | add now q =>
    refine Undisturbed.of_base hs hu fun f hf hb => ?_
    simp only [onAddSched] at hf
    split at hf
    · exact hf
    · exact held_push rfl f hf hb
  | remove start_time freq_mhz =>
    exact Undisturbed.of_base hs hu fun f hf _ =>
      (onRemoveSched_sublist start_time freq_mhz s.base).subset hf
  | clean now rules =>
    exact Undisturbed.of_base hs hu fun f hf _ => (satClean_sublist now rules s.base).subset hf
  | fill r p =>
    refine Undisturbed.of_base hs hu fun f hf hb => ?_
    simp only [satFill] at hf
    split at hf
    · exact hf
    · exact held_push rfl f hf hb
  | serve env =>
    have howned := owned_serve hs hu env
    exact ⟨howned,
      harmless_of_owned howned (hs.operator_of_harmless fun k hk => hu.same_of_serve hk)⟩
  | arm env =>
    have howned := owned_arm hu env
    exact ⟨howned, harmless_of_owned howned (hs.operator_of_harmless fun k hk => hu.same_of_arm hk)⟩

theorem SlotsSound.sched {s : RadioState} (hs : SlotsSound s) (hu : Undisturbed s)
    (x : SchedStep) : SlotsSound (x.next s) := by
  cases x with
  | add now q =>
    refine ⟨hs.operator, ?_⟩
    simp only [SchedStep.next, onAddSched]
    split
    · exact hs.distinct
    · exact distinct_push rfl hs.distinct
  | remove start_time freq_mhz =>
    exact ⟨hs.operator, hs.distinct.sublist (onRemoveSched_sublist start_time freq_mhz s.base)⟩
  | clean now rules =>
    exact ⟨hs.operator, hs.distinct.sublist (satClean_sublist now rules s.base)⟩
  | fill r p =>
    refine ⟨hs.operator, ?_⟩
    simp only [SchedStep.next, satFill]
    split
    · exact hs.distinct
    · exact distinct_push rfl hs.distinct
  | serve env =>
    exact ⟨hs.operator_of_harmless fun k hk => hu.same_of_serve hk,
      hs.distinct_of_held fun j f hj hf => serve_held hj hf⟩
  | arm env =>
    exact ⟨hs.operator_of_harmless fun k hk => hu.same_of_arm hk, distinct_arm hs hu env⟩

/-- The command makes or deletes no channel in the slot of an entry that is armed or records. -/
def CommandKeeps (s : RadioState) : ChannelCommand → Prop
  | .create idx _ _ _ => ∀ e ∈ s.base.sched_entries, e.Holds → slotOf e.temp_ch_idx ≠ slotOf idx
  | .delete idx => ∀ e ∈ s.base.sched_entries, e.Holds → slotOf e.temp_ch_idx ≠ slotOf idx
  | .setMode _ _ => True

/-- The turns that keep the channels apart. -/
def TurnKeeps (s : RadioState) : Turn → Prop
  | .sched _ => True
  | .command c => CommandKeeps s c

/-- A slot that another channel is put in is no longer that of an entry. -/
theorem undisturbed_setChannel_iff {s : RadioState} (hs : SlotsSound s) (hu : Undisturbed s)
    {k : Slot} {ch : Channel} (hmaker : ch.maker ≠ .scheduler)
    (hactive : ch.maker = .operator → ch.filter_active = true) :
    Undisturbed { s with radio := s.radio.setChannel k ch } ↔
      ∀ e ∈ s.base.sched_entries, e.Holds → slotOf e.temp_ch_idx ≠ some k := by
  constructor
  · intro ht e he hb hk
    obtain ⟨k', hk', hown⟩ := ht.owned e he hb
    obtain rfl : k = k' := Option.some.inj (hk.symm.trans hk')
    have hm := hown.maker
    rw [setChannel_self] at hm
    exact hmaker hm
  · intro hfree
    have howned : ∀ e ∈ s.base.sched_entries, e.Holds →
        ∃ k', slotOf e.temp_ch_idx = some k' ∧ Owned (s.radio.setChannel k ch) e k' := by
      intro e he hb
      obtain ⟨k', hk', hown⟩ := hu.owned e he hb
      have hne : k' ≠ k := fun heq => hfree e he hb (heq ▸ hk')
      exact ⟨k', hk', hown.congr (setChannel_of_ne hne _ _)⟩
    refine ⟨howned, harmless_of_owned (s := { s with radio := s.radio.setChannel k ch }) howned ?_⟩
    intro j hj
    by_cases hjk : j = k
    · subst hjk
      simp only [setChannel_self] at hj ⊢
      exact hactive hj
    · simp only [setChannel_of_ne hjk] at hj ⊢
      exact hs.operator j hj

/-- A command keeps the channels apart exactly if it touches no slot of an entry. -/
theorem Undisturbed.command_iff {s : RadioState} (hs : SlotsSound s) (hu : Undisturbed s)
    (c : ChannelCommand) :
    Undisturbed { s with radio := c.next s.radio } ↔ CommandKeeps s c := by
  -- an entry that holds a slot holds one that there is
  have hsome : ∀ e ∈ s.base.sched_entries, e.Holds → slotOf e.temp_ch_idx ≠ none := by
    intro e he hb hnone
    obtain ⟨k, hk, -⟩ := hu.owned e he hb
    rw [hnone] at hk
    simp at hk
  cases c with
  | create idx lo hi creator =>
    cases hk : slotOf idx with
    | none =>
      simp only [ChannelCommand.next, CommandKeeps, hk]
      exact iff_of_true hu hsome
    | some k =>
      simp only [ChannelCommand.next, CommandKeeps, hk]
      exact undisturbed_setChannel_iff hs hu Maker.noConfusion fun _ => rfl
  | delete idx =>
    cases hk : slotOf idx with
    | none =>
      simp only [ChannelCommand.next, CommandKeeps, hk]
      exact iff_of_true hu hsome
    | some k =>
      simp only [ChannelCommand.next, CommandKeeps, hk]
      exact undisturbed_setChannel_iff hs hu Maker.noConfusion Maker.noConfusion
  | setMode idx mode =>
    refine iff_of_true ?_ trivial
    simp only [ChannelCommand.next]
    split
    · rename_i k mode' hk hmode
      have howned : ∀ e ∈ s.base.sched_entries, e.Holds → ∃ j, slotOf e.temp_ch_idx = some j ∧
          Owned (s.radio.setChannel k { s.radio.channels k with mode := mode' }) e j := by
        intro e he hb
        obtain ⟨j, hj, hown⟩ := hu.owned e he hb
        refine ⟨j, hj, ?_⟩
        by_cases hjk : j = k
        · subst hjk
          constructor <;> rw [setChannel_self]
          · exact hown.maker
          · exact hown.filter_active
          · exact hown.low
          · exact hown.high
          · exact hown.force_all
        · exact hown.congr (setChannel_of_ne hjk _ _)
      refine ⟨howned, harmless_of_owned
        (s := { s with radio := s.radio.setChannel k { s.radio.channels k with mode := mode' } })
        howned ?_⟩
      intro j hj
      by_cases hjk : j = k
      · subst hjk
        simp only [setChannel_self] at hj ⊢
        exact hs.operator j hj
      · simp only [setChannel_of_ne hjk] at hj ⊢
        exact hs.operator j hj
    · exact hu

theorem SlotsSound.command {s : RadioState} (hs : SlotsSound s) (c : ChannelCommand) :
    SlotsSound { s with radio := c.next s.radio } := by
  refine ⟨fun j hj => ?_, hs.distinct⟩
  have hset : ∀ k ch, (ch.maker = .operator → ch.filter_active = true) →
      ((s.radio.setChannel k ch).channels j).maker = .operator →
        ((s.radio.setChannel k ch).channels j).filter_active = true := by
    intro k ch hch hj'
    by_cases hjk : j = k
    · subst hjk
      rw [setChannel_self] at hj' ⊢
      exact hch hj'
    · rw [setChannel_of_ne hjk] at hj' ⊢
      exact hs.operator j hj'
  revert hj
  cases c with
  | create idx lo hi creator =>
    simp only [ChannelCommand.next]
    split
    · exact hs.operator j
    · exact hset _ _ fun _ => rfl
  | delete idx =>
    simp only [ChannelCommand.next]
    split
    · exact hs.operator j
    · exact hset _ _ Maker.noConfusion
  | setMode idx mode =>
    simp only [ChannelCommand.next]
    split
    · exact hset _ _ (hs.operator _)
    · exact hs.operator j

/-! ## Runs -/

/-- The state that a sequence of turns leads to. -/
def afterTurns (ts : List Turn) : RadioState := ts.foldl Turn.next {}

/-- In every state of a run every entry that is armed or records in a channel has the channel that
was made for it and no tick changes a channel of an operator, exactly if no operator makes or
deletes a channel in the slot of such an entry. -/
theorem undisturbed_run_iff (ts : List Turn) :
    (∀ ts', ts' <+: ts → Undisturbed (afterTurns ts')) ↔
      ∀ ts' t, ts' ++ [t] <+: ts → TurnKeeps (afterTurns ts') t := by
  have hstart : SlotsSound {} := ⟨fun k hk => Maker.noConfusion hk, List.Pairwise.nil⟩
  have hown : ∀ e ∈ ({} : RadioState).base.sched_entries, e.Holds →
      ∃ k, slotOf e.temp_ch_idx = some k ∧ Owned ({} : RadioState).radio e k := by
    intro e he
    simp at he
  refine forall_prefix_foldl_iff (P := SlotsSound) (Q := Undisturbed) ?_ ?_ hstart
    ⟨hown, harmless_of_owned hown hstart.operator⟩ ts
  · intro s t hs hu _
    cases t with
    | sched x => exact hs.sched hu x
    | command c => exact hs.command c
  · intro s t hs hu
    cases t with
    | sched x => exact iff_of_true (hu.sched hs x) trivial
    | command c => exact hu.command_iff hs c

/-! ## A channel that is taken over -/

/-- What a tick finds at a second: a slot is free, and a file can be opened. -/
def radioAt (now : ℕ) (fopen_ok : Bool) : RadioEnv where
  now := now
  steady := now * 10 ^ 9
  remote_mode := false
  sdr_ok := true
  center_frequency := 150000000
  sample_rate := 2000000
  has_tle := fun _ => true
  start := ⟨false, fopen_ok⟩

/-- A recording is armed in the slot 0, an operator makes a channel there, and the recording starts.
-/
def takenRun : List Turn :=
  [.sched (.add 900 (secondsRequest 1000 60 200)), .sched (.arm (radioAt 995 true)),
    .command (.create 0 (.ofRat float_pos 100) (.ofRat float_pos 101) (ascii "op")),
    .sched (.serve (radioAt 1000 true))]

/-- Then the channel of the operator is recorded, and the tick at the end resets it. -/
theorem takenRun_state :
    (afterTurns takenRun).base.sched_entries.map SchedEntry.status = [.recording] ∧
      (afterTurns takenRun).base.sched_entries.map SchedEntry.temp_ch_idx = [0] ∧
      (afterTurns takenRun).base.sched_entries.map SchedEntry.sr_hz = [0] ∧
      ((afterTurns takenRun).radio.channels ⟨0, by decide⟩).maker = .operator ∧
      ((afterTurns takenRun).radio.channels ⟨0, by decide⟩).iq_rec_on = true ∧
      ((serve (radioAt 1060 true) (afterTurns takenRun)).radio.channels ⟨0, by decide⟩).maker =
        .nobody := by
  decide +kernel

/-- The run does disturb. -/
theorem not_undisturbed_takenRun : ¬Undisturbed (afterTurns takenRun) := by
  intro h
  obtain ⟨-, -, -, hmaker, -, hreset⟩ := takenRun_state
  have hsame := (h.harmless (radioAt 1060 true) _ hmaker).1
  rw [hsame, hmaker] at hreset
  exact Maker.noConfusion hreset

end Bewe.Sched
