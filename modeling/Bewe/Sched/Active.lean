import Bewe.Lib.Run
import Bewe.Sched.Machine

/-!
# The active entry

`sched_active_idx` is sound where it is the index of the one entry that is armed or records, and a
recorder is watched over where the active entry is the one it records: then the `sched_tick` that
finds the duration past stops it (`stops_iff`). Adding, clearing away, filling in and `sched_tick`
itself keep both. `on_remove_sched` erases an entry without a look at the index, and a list of
Central brings whatever status it was saved with: `RemoveKeeps` and `RestoreKeeps` say which
requests and which lists do no harm.
-/

namespace Bewe.Sched

open Lib
open Saved (SchedSyncEntry PktSchedSync)

/-- The active index is that of the one entry that is armed or records, and there is none if no
entry is or does. -/
structure IndexSound (s : State) : Prop where
  index : ∀ i e, s.sched_entries[i]? = some e → e.Busy → s.sched_active_idx = some i
  entry : ∀ i, s.sched_active_idx = some i → ∃ e, s.sched_entries[i]? = some e ∧ e.Busy

/-- Every recorder that runs is that of an entry that records, and stops with the `sched_tick` that
finds the entry's duration past. -/
def Stops (s : State) : Prop :=
  ∀ r ∈ s.recorders, ∃ e ∈ s.sched_entries, e.status = .recording ∧ e.recorder = some r ∧
    ∀ env : TickEnv, e.duration_sec.le (env.elapsed e) = true → r ∉ (schedTick env s).recorders

/-- The index is sound, and what records will stop. -/
structure Sound (s : State) : Prop where
  index : IndexSound s
  stops : Stops s

theorem active_eq_some {s : State} {e : SchedEntry} :
    s.active = some e ↔ ∃ i, s.sched_active_idx = some i ∧ s.sched_entries[i]? = some e :=
  Option.bind_eq_some_iff

theorem IndexSound.active {s : State} (h : IndexSound s) {e : SchedEntry}
    (he : e ∈ s.sched_entries) (hb : e.Busy) : s.active = some e := by
  obtain ⟨i, hi⟩ := List.mem_iff_getElem?.1 he
  exact active_eq_some.2 ⟨i, h.index i e hi hb, hi⟩

theorem IndexSound.busy {s : State} (h : IndexSound s) {e : SchedEntry} (he : s.active = some e) :
    e.Busy := by
  obtain ⟨i, hi, hie⟩ := active_eq_some.1 he
  obtain ⟨f, hf, hb⟩ := h.entry i hi
  rw [hie] at hf
  exact Option.some.inj hf ▸ hb

theorem IndexSound.idle {s : State} (h : IndexSound s) (hs : s.sched_active_idx = none)
    {e : SchedEntry} (he : e ∈ s.sched_entries) : ¬e.Busy := by
  intro hb
  obtain ⟨i, hi⟩ := List.mem_iff_getElem?.1 he
  simpa [hs] using h.index i e hi hb

/-- An entry that records is one of those that the index is about. -/
theorem busy_of_recording {e : SchedEntry} (h : e.status = .recording) : e.Busy := Or.inr h

/-! ## Recorders -/

theorem schedTick_recorders (env : TickEnv) (s : State) :
    (schedTick env s).recorders = (serveActive env s).recorders := by
  unfold schedTick
  cases h : (serveActive env s).sched_active_idx <;> simp [h]

/-- What the first part of `sched_tick` does where there is an active entry. -/
theorem serveActive_eq {env : TickEnv} {s : State} {i : ℕ} {e : SchedEntry}
    (hi : s.sched_active_idx = some i) (he : s.sched_entries[i]? = some e) :
    serveActive env s = serveEntry env i e s := by
  simp [serveActive, hi, he]

/-- With a sound index, what records will stop exactly if the recorders that run are those of the
active entry. -/
theorem stops_iff {s : State} (h : IndexSound s) :
    Stops s ↔ ∀ r ∈ s.recorders, ∃ e, s.active = some e ∧ e.status = .recording ∧
      e.recorder = some r := by
  constructor
  · intro hstops r hr
    obtain ⟨e, he, hrec, hown, -⟩ := hstops r hr
    exact ⟨e, h.active he (busy_of_recording hrec), hrec, hown⟩
  · intro hown r hr
    obtain ⟨e, he, hrec, hr'⟩ := hown r hr
    obtain ⟨i, hi, hie⟩ := active_eq_some.1 he
    refine ⟨e, List.mem_of_getElem? hie, hrec, hr', fun env hpast => ?_⟩
    rw [schedTick_recorders, serveActive_eq hi hie, serveEntry, hrec]
    simp [hpast, schedStopEntry, hr']

theorem sound_of_owners {s : State} (h : IndexSound s)
    (hown : ∀ r ∈ s.recorders, ∃ e, s.active = some e ∧ e.status = .recording ∧
      e.recorder = some r) : Sound s :=
  ⟨h, (stops_iff h).2 hown⟩

/-- The recorders of a sound state are those of its active entry. -/
theorem Sound.owner {s : State} (h : Sound s) {r : Recorder} (hr : r ∈ s.recorders) :
    ∃ e, s.active = some e ∧ e.status = .recording ∧ e.recorder = some r :=
  (stops_iff h.index).1 h.stops r hr

theorem Sound.no_recorders {s : State} (h : Sound s)
    (hs : ∀ e, s.active = some e → e.status ≠ .recording) : s.recorders = [] := by
  refine List.eq_nil_iff_forall_not_mem.2 fun r hr => ?_
  obtain ⟨e, he, hrec, -⟩ := h.owner hr
  exact hs e he hrec

/-- What keeps the index sound, starts no recorder and leaves the entry that records in the list
keeps the state sound. -/
theorem Sound.of_index {s t : State} (h : Sound s) (ht : IndexSound t)
    (hrec : t.recorders ⊆ s.recorders)
    (hact : ∀ e, s.active = some e → e.status = .recording → e ∈ t.sched_entries) : Sound t := by
  refine sound_of_owners ht fun r hr => ?_
  obtain ⟨e, he, hstatus, hown⟩ := h.owner (hrec hr)
  exact ⟨e, ht.active (hact e he hstatus) (busy_of_recording hstatus), hstatus, hown⟩

theorem mem_of_active {s : State} {e : SchedEntry} (he : s.active = some e) :
    e ∈ s.sched_entries := by
  obtain ⟨i, -, hi⟩ := active_eq_some.1 he
  exact List.mem_of_getElem? hi

/-! ## Producers -/

theorem Sound.push {s : State} (h : Sound s) {e : SchedEntry} (he : ¬e.Busy) :
    Sound { s with sched_entries := s.sched_entries ++ [e] } := by
  refine h.of_index ⟨?_, ?_⟩ (fun r hr => hr) fun f hf _ =>
    List.mem_append_left _ (mem_of_active hf)
  · intro i f hi hb
    rcases lt_or_ge i s.sched_entries.length with hlt | hge
    · rw [List.getElem?_append_left hlt] at hi
      exact h.index.index i f hi hb
    · rw [List.getElem?_append_right hge] at hi
      have hf : f ∈ [e] := List.mem_of_getElem? hi
      rw [List.mem_singleton.1 hf] at hb
      exact absurd hb he
  · intro i hi
    obtain ⟨f, hf, hb⟩ := h.index.entry i hi
    have hlt : i < s.sched_entries.length := (List.getElem?_eq_some_iff.1 hf).1
    exact ⟨f, by rw [List.getElem?_append_left hlt, hf], hb⟩

theorem Sound.onAddSched {s : State} (h : Sound s) (now : ℕ) (q : AddRequest) :
    Sound (onAddSched now q s) := by
  unfold Sched.onAddSched
  split
  · exact h
  · exact h.push (by simp [SchedEntry.Busy, AddRequest.entry])

theorem Sound.satFill {s : State} (h : Sound s) {now : ℕ} (r : Rule) (p : Pass now) :
    Sound (satFill r p s) := by
  unfold Sched.satFill
  split
  · exact h
  · exact h.push (by simp [SchedEntry.Busy, Pass.entry])

/-- A rebuilt list has a sound index where the marked entry, and only it, is armed or records. -/
theorem indexSound_rebuild {l : List (SchedEntry × Bool)} {rs : List Recorder}
    (hone : l.Pairwise fun x y => ¬(x.2 = true ∧ y.2 = true))
    (hbusy : ∀ x ∈ l, x.1.Busy ↔ x.2 = true) :
    IndexSound ⟨(rebuild l).1, (rebuild l).2, rs⟩ := by
  constructor
  · intro i e hi hb
    rw [rebuild_fst, List.getElem?_map] at hi
    obtain ⟨⟨f, marked⟩, hf, rfl⟩ := Option.map_eq_some_iff.1 hi
    obtain rfl : marked = true := (hbusy _ (List.mem_of_getElem? hf)).1 hb
    exact (rebuild_snd_eq_some_iff hone).2 ⟨f, hf⟩
  · intro i hi
    obtain ⟨e, he⟩ := exists_of_rebuild_snd hi
    refine ⟨e, ?_, (hbusy _ (List.mem_of_getElem? he)).2 rfl⟩
    rw [rebuild_fst, List.getElem?_map, he]
    rfl

/-- Whether `SatSched::tick` keeps an entry, it leaves it as it is. -/
theorem cleanEntry_eq_some {now : ℕ} {rules : List Rule} {active : Option ℕ}
    {x : SchedEntry × ℕ} {y : SchedEntry × Bool} (h : cleanEntry now rules active x = some y) :
    y.1 = x.1 ∧ (y.2 = true ↔ active = some x.2) := by
  unfold cleanEntry at h
  split_ifs at h with h₁ h₂
  · obtain rfl := Option.some.inj h
    simp [h₁]
  · obtain rfl := Option.some.inj h
    simp [h₁]

/-- The entries that `SatSched::tick` keeps, with one mark at most. -/
theorem cleanEntry_pairwise (now : ℕ) (rules : List Rule) (active : Option ℕ)
    (l : List SchedEntry) :
    (l.zipIdx.filterMap (cleanEntry now rules active)).Pairwise
      fun x y => ¬(x.2 = true ∧ y.2 = true) := by
  have hidx : l.zipIdx.Pairwise fun x y => x.2 < y.2 := by
    have hlt := List.pairwise_lt_range' (s := 0) (n := l.length) 1
    rw [← List.zipIdx_map_snd 0 l, List.pairwise_map] at hlt
    exact hlt
  rw [List.pairwise_filterMap]
  refine hidx.imp fun {x y} hxy x' hx y' hy hboth => ?_
  have hax := (cleanEntry_eq_some hx).2.1 hboth.1
  have hay := (cleanEntry_eq_some hy).2.1 hboth.2
  rw [hax, Option.some.injEq] at hay
  omega

theorem Sound.satClean {s : State} (h : Sound s) (now : ℕ) (rules : List Rule) :
    Sound (satClean now rules s) := by
  have hmem : ∀ x ∈ s.sched_entries.zipIdx.filterMap
      (cleanEntry now rules s.sched_active_idx), ∃ i, s.sched_entries[i]? = some x.1 ∧
        (x.2 = true ↔ s.sched_active_idx = some i) := by
    intro x hx
    obtain ⟨⟨e, i⟩, hei, hclean⟩ := List.mem_filterMap.1 hx
    obtain ⟨heq, hmark⟩ := cleanEntry_eq_some hclean
    exact ⟨i, heq ▸ List.mem_zipIdx_iff_getElem?.1 hei, hmark⟩
  refine h.of_index (indexSound_rebuild (cleanEntry_pairwise _ _ _ _) fun x hx => ?_)
    (fun r hr => hr) fun e he _ => ?_
  · obtain ⟨i, hi, hmark⟩ := hmem x hx
    rw [hmark]
    refine ⟨h.index.index i x.1 hi, fun hact => ?_⟩
    exact h.index.busy (active_eq_some.2 ⟨i, hact, hi⟩)
  · -- the active entry is kept, whatever its target
    obtain ⟨i, hi, hie⟩ := active_eq_some.1 he
    simp only [Sched.satClean, rebuild_fst]
    refine List.mem_map.2 ⟨(e, true), List.mem_filterMap.2 ⟨(e, i), ?_, ?_⟩, rfl⟩
    · exact List.mem_zipIdx_iff_getElem?.2 hie
    · simp [cleanEntry, hi]

/-! ## `sched_tick` -/

/-- What `sched_arm_entry` can do: it arms the entry at its index, or the entry fails. -/
theorem schedArmEntry_cases (env : TickEnv) (idx : ℕ) (e : SchedEntry) :
    (schedArmEntry env idx e).1.start_time = e.start_time ∧
      (schedArmEntry env idx e).1.duration_sec = e.duration_sec ∧
        ((schedArmEntry env idx e).1.status = .armed ∧ (schedArmEntry env idx e).2 = some idx ∨
          (schedArmEntry env idx e).1.status = .failed ∧ (schedArmEntry env idx e).2 = none) := by
  unfold schedArmEntry
  split_ifs
  · simp
  · simp
  · simp
  · cases env.free_slot <;> simp
  · simp

/-- What `sched_begin_rec` can do: the recorder of the entry runs and the entry records, or it
fails. -/
theorem schedBeginRec_cases (env : TickEnv) (e : SchedEntry) :
    (schedBeginRec env e).1.start_time = e.start_time ∧
      (schedBeginRec env e).1.duration_sec = e.duration_sec ∧
        (∃ r, (schedBeginRec env e).1.status = .recording ∧
            (schedBeginRec env e).1.recorder = some r ∧ (schedBeginRec env e).2 = some r ∨
          (schedBeginRec env e).1.status = .failed ∧ (schedBeginRec env e).2 = none) := by
  unfold schedBeginRec
  split_ifs with h₁ h₂ h₃ h₄
  · exact ⟨rfl, rfl, .fullBand, Or.inl ⟨rfl, if_pos h₁, rfl⟩⟩
  · exact ⟨rfl, rfl, .fullBand, Or.inr ⟨rfl, rfl⟩⟩
  · exact ⟨rfl, rfl, .fullBand, Or.inr ⟨rfl, rfl⟩⟩
  · exact ⟨rfl, rfl, _, Or.inl ⟨rfl, (if_neg h₁).trans (if_neg h₃), rfl⟩⟩
  · exact ⟨rfl, rfl, .fullBand, Or.inr ⟨rfl, rfl⟩⟩

/-- The active entry stays active where it is replaced by one that is armed or records. -/
theorem IndexSound.set_busy {s : State} (h : IndexSound s) {i : ℕ}
    (hi : s.sched_active_idx = some i) {e : SchedEntry} (he : e.Busy) (rs : List Recorder) :
    IndexSound ⟨s.sched_entries.set i e, s.sched_active_idx, rs⟩ := by
  obtain ⟨f, hf, -⟩ := h.entry i hi
  have hlt : i < s.sched_entries.length := (List.getElem?_eq_some_iff.1 hf).1
  constructor
  · intro j g hj hb
    rcases eq_or_ne i j with rfl | hne
    · exact hi
    · rw [List.getElem?_set_ne hne] at hj
      exact h.index j g hj hb
  · intro j hj
    obtain rfl : i = j := Option.some.inj (hi.symm.trans hj)
    exact ⟨e, List.getElem?_set_self hlt, he⟩

/-- Where the active entry is replaced by one that is neither armed nor records, none is active. -/
theorem IndexSound.set_idle {s : State} (h : IndexSound s) {i : ℕ}
    (hi : s.sched_active_idx = some i) {e : SchedEntry} (he : ¬e.Busy) (rs : List Recorder) :
    IndexSound ⟨s.sched_entries.set i e, none, rs⟩ := by
  obtain ⟨f, hf, -⟩ := h.entry i hi
  have hlt : i < s.sched_entries.length := (List.getElem?_eq_some_iff.1 hf).1
  constructor
  · intro j g hj hb
    rcases eq_or_ne i j with rfl | hne
    · rw [List.getElem?_set_self hlt] at hj
      exact absurd (Option.some.inj hj ▸ hb) he
    · rw [List.getElem?_set_ne hne] at hj
      exact absurd (Option.some.inj (hi.symm.trans (h.index j g hj hb))) hne
  · intro j hj
    simp at hj

theorem Sound.serveEntry {s : State} (h : Sound s) (env : TickEnv) {i : ℕ} {e : SchedEntry}
    (hi : s.sched_active_idx = some i) (he : s.sched_entries[i]? = some e) :
    Sound (serveEntry env i e s) := by
  have hact : s.active = some e := active_eq_some.2 ⟨i, hi, he⟩
  have hlt : i < s.sched_entries.length := (List.getElem?_eq_some_iff.1 he).1
  rcases h.index.busy hact with harmed | hrec
  · have hnone : s.recorders = [] := h.no_recorders fun f hf => by
      rw [← Option.some.inj (hact.symm.trans hf), harmed]
      simp
    simp only [Sched.serveEntry, harmed]
    split_ifs
    · obtain ⟨-, -, r, ⟨hstatus, hown, hr⟩ | ⟨hstatus, hr⟩⟩ := schedBeginRec_cases env e
      · rcases hb : schedBeginRec env e with ⟨e', o⟩
        rw [hb] at hstatus hown hr
        obtain rfl : o = some r := hr
        refine sound_of_owners (h.index.set_busy hi (busy_of_recording hstatus) _) ?_
        intro r' hr'
        obtain rfl : r' = r := by simpa [hnone] using hr'
        exact ⟨e', active_eq_some.2 ⟨i, hi, List.getElem?_set_self hlt⟩, hstatus, hown⟩
      · rcases hb : schedBeginRec env e with ⟨e', o⟩
        rw [hb] at hstatus hr
        obtain rfl : o = none := hr
        refine sound_of_owners (h.index.set_idle hi ?_ _) ?_
        · simp only at hstatus
          simp [SchedEntry.Busy, hstatus]
        · intro r' hr'
          simp [hnone] at hr'
    · exact h
  · simp only [Sched.serveEntry, hrec]
    split_ifs
    · refine sound_of_owners (h.index.set_idle hi (by simp [SchedEntry.Busy]) _) ?_
      intro r hr
      obtain ⟨hr, hne⟩ := List.mem_filter.1 hr
      obtain ⟨f, hf, -, hown⟩ := h.owner hr
      obtain rfl := Option.some.inj (hact.symm.trans hf)
      simp [hown] at hne
    · exact h

theorem Sound.serveActive {s : State} (h : Sound s) (env : TickEnv) :
    Sound (serveActive env s) := by
  cases hi : s.sched_active_idx with
  | none =>
    simp only [Sched.serveActive, hi]
    exact h
  | some i =>
    obtain ⟨e, he, -⟩ := h.index.entry i hi
    rw [serveActive_eq hi he]
    exact h.serveEntry env hi he

/-- One entry of the loop over the waiting entries: it stays neither armed nor recording, or it is
armed and the loop ends. -/
theorem armNext_cons (env : TickEnv) (i : ℕ) (e : SchedEntry) (es : List SchedEntry) :
    ∃ e', e'.start_time = e.start_time ∧ e'.duration_sec = e.duration_sec ∧
      ((e' = e ∨ e.status = .waiting ∧ e'.status = .failed) ∧
          armNext env i (e :: es) = (e' :: (armNext env (i + 1) es).1, (armNext env (i + 1) es).2) ∨
        e.status = .waiting ∧ (e'.status = .armed ∧ armNext env i (e :: es) = (e' :: es, some i) ∨
          e'.status = .failed ∧ armNext env i (e :: es) = (e' :: es, none))) := by
  simp only [armNext]
  split_ifs with h₁ h₂ h₃
  · exact ⟨e, rfl, rfl, Or.inl ⟨Or.inl rfl, rfl⟩⟩
  · exact ⟨{ e with status := .failed }, rfl, rfl, Or.inl ⟨Or.inr ⟨not_not.1 h₁, rfl⟩, rfl⟩⟩
  · obtain ⟨hs, hd, ⟨hstatus, hidx⟩ | ⟨hstatus, hidx⟩⟩ := schedArmEntry_cases env i e
    · exact ⟨_, hs, hd, Or.inr ⟨not_not.1 h₁, Or.inl ⟨hstatus, by rw [hidx]⟩⟩⟩
    · exact ⟨_, hs, hd, Or.inr ⟨not_not.1 h₁, Or.inr ⟨hstatus, by rw [hidx]⟩⟩⟩
  · exact ⟨e, rfl, rfl, Or.inl ⟨Or.inl rfl, rfl⟩⟩

/-- Among entries of which none is armed or records, the loop over the waiting ones leaves a sound
index. -/
theorem armNext_index (env : TickEnv) (es : List SchedEntry) (i : ℕ) (hes : ∀ e ∈ es, ¬e.Busy) :
    (∀ j e, (armNext env i es).1[j]? = some e → e.Busy → (armNext env i es).2 = some (i + j)) ∧
      ∀ k, (armNext env i es).2 = some k →
        ∃ j e, k = i + j ∧ (armNext env i es).1[j]? = some e ∧ e.Busy := by
  induction es generalizing i with
  | nil => simp [armNext]
  | cons e es ih =>
    have he : ¬e.Busy := hes e List.mem_cons_self
    have hes' : ∀ f ∈ es, ¬f.Busy := fun f hf => hes f (List.mem_cons_of_mem _ hf)
    obtain ⟨ihindex, ihentry⟩ := ih (i + 1) hes'
    obtain ⟨e', -, -, ⟨hkeep, heq⟩ | ⟨-, ⟨harmed, heq⟩ | ⟨hfailed, heq⟩⟩⟩ :=
      armNext_cons env i e es
    · -- the entry is passed over
      have he' : ¬e'.Busy := by
        rcases hkeep with rfl | ⟨-, hfailed⟩
        · exact he
        · simp [SchedEntry.Busy, hfailed]
      rw [heq]
      constructor
      · intro j f hj hb
        cases j with
        | zero => exact absurd (Option.some.inj hj ▸ hb) he'
        | succ j => rw [ihindex j f hj hb, Nat.add_right_comm, Nat.add_assoc]
      · intro k hk
        obtain ⟨j, f, rfl, hj, hb⟩ := ihentry k hk
        exact ⟨j + 1, f, by omega, hj, hb⟩
    · -- the entry is armed
      rw [heq]
      constructor
      · intro j f hj hb
        cases j with
        | zero => rfl
        | succ j => exact absurd hb (hes' f (List.mem_of_getElem? hj))
      · intro k hk
        exact ⟨0, e', (Option.some.inj hk).symm, rfl, Or.inl harmed⟩
    · -- the entry fails as it would be armed
      rw [heq]
      constructor
      · intro j f hj hb
        cases j with
        | zero =>
          rw [← Option.some.inj hj] at hb
          simp [SchedEntry.Busy, hfailed] at hb
        | succ j => exact absurd hb (hes' f (List.mem_of_getElem? hj))
      · intro k hk
        simp at hk

/-- The loop over the waiting entries keeps a state sound that has no active entry. -/
theorem Sound.armNext {t : State} (h : Sound t) (hi : t.sched_active_idx = none) (env : TickEnv) :
    Sound
      { t with
        sched_entries := (armNext env 0 t.sched_entries).1
        sched_active_idx := (armNext env 0 t.sched_entries).2 } := by
  have hnone : t.recorders = [] := h.no_recorders fun e he => by
    simp [State.active, hi] at he
  obtain ⟨hindex, hentry⟩ := armNext_index env t.sched_entries 0 fun e he => h.index.idle hi he
  refine sound_of_owners ⟨fun j e hj hb => ?_, fun k hk => ?_⟩ fun r hr => ?_
  · rw [hindex j e hj hb, Nat.zero_add]
  · obtain ⟨j, e, rfl, hj, hb⟩ := hentry k hk
    exact ⟨e, by rwa [Nat.zero_add], hb⟩
  · simp [hnone] at hr

theorem Sound.schedTick {s : State} (h : Sound s) (env : TickEnv) : Sound (schedTick env s) := by
  have hserve := h.serveActive env
  unfold Sched.schedTick
  cases hi : (Sched.serveActive env s).sched_active_idx with
  | some i => simpa [hi] using hserve
  | none =>
    simp only [hi]
    exact hserve.armNext hi env

/-! ## `on_remove_sched` -/

/-- No entry in front of the active one has the start time and the frequency of the request. -/
def RemoveKeeps (s : State) (start_time : Int64) (freq_mhz : Fp 24) : Prop :=
  ∀ i, s.sched_active_idx = some i →
    ∀ e ∈ s.sched_entries.take i, e.named start_time freq_mhz = false

/-- An erased entry that is not active leaves the index sound exactly if it comes after the active
one. -/
theorem indexSound_eraseIdx {s : State} (h : IndexSound s) {j : ℕ} {e : SchedEntry}
    (he : s.sched_entries[j]? = some e) (hb : ¬e.Busy) :
    IndexSound { s with sched_entries := s.sched_entries.eraseIdx j } ↔
      ∀ i, s.sched_active_idx = some i → i < j := by
  constructor
  · intro ht i hi
    obtain ⟨a, ha, hab⟩ := h.entry i hi
    rcases lt_trichotomy i j with hlt | rfl | hgt
    · exact hlt
    · rw [ha] at he
      exact absurd (Option.some.inj he ▸ hab) hb
    · -- the active entry has moved to the place before
      have hmoved : (s.sched_entries.eraseIdx j)[i - 1]? = some a := by
        rw [List.getElem?_eraseIdx_of_ge (by omega), Nat.sub_add_cancel (by omega), ha]
      have hidx := ht.index (i - 1) a hmoved hab
      have hsame : i = i - 1 := Option.some.inj (hi.symm.trans hidx)
      omega
  · intro hlt
    constructor
    · intro k f hk hf
      rcases lt_or_ge k j with hkj | hkj
      · rw [List.getElem?_eraseIdx_of_lt hkj] at hk
        exact h.index k f hk hf
      · rw [List.getElem?_eraseIdx_of_ge hkj] at hk
        have := hlt _ (h.index (k + 1) f hk hf)
        omega
    · intro i hi
      obtain ⟨a, ha, hab⟩ := h.entry i hi
      exact ⟨a, by rw [List.getElem?_eraseIdx_of_lt (hlt i hi), ha], hab⟩

/-- A request to remove keeps a sound state exactly if it names no entry in front of the active one.
-/
theorem Sound.onRemoveSched_iff {s : State} (h : Sound s) (start_time : Int64) (freq_mhz : Fp 24) :
    Sound (onRemoveSched start_time freq_mhz s) ↔ RemoveKeeps s start_time freq_mhz := by
  cases hj : s.sched_entries.findIdx? (·.named start_time freq_mhz) with
  | none =>
    have hsame : onRemoveSched start_time freq_mhz s = s := by simp [onRemoveSched, hj]
    rw [hsame]
    refine iff_of_true h fun i _ e he => ?_
    simpa using List.findIdx?_eq_none_iff.1 hj e (List.mem_of_mem_take he)
  | some j =>
    obtain ⟨hlt, hnamed, hfirst⟩ := List.findIdx?_eq_some_iff_getElem.1 hj
    have he : s.sched_entries[j]? = some s.sched_entries[j] := List.getElem?_eq_getElem hlt
    -- up to the entry that is found, none is named
    have hkeeps : RemoveKeeps s start_time freq_mhz ↔ ∀ i, s.sched_active_idx = some i → i ≤ j := by
      refine forall₂_congr fun i _ => ⟨fun hall => ?_, fun hle e he => ?_⟩
      · by_contra hlt'
        have hmem : s.sched_entries[j] ∈ s.sched_entries.take i :=
          List.mem_take_iff_getElem.2 ⟨j, by omega, rfl⟩
        simp [hall _ hmem] at hnamed
      · obtain ⟨k, hk, rfl⟩ := List.mem_take_iff_getElem.1 he
        simpa using hfirst k (by omega)
    rw [hkeeps]
    by_cases hb : (s.sched_entries[j]).Busy
    · have hsame : onRemoveSched start_time freq_mhz s = s := by
        simp [onRemoveSched, hj, he, hb]
      rw [hsame]
      refine iff_of_true h fun i hi => ?_
      have := h.index.index j _ he hb
      exact (Option.some.inj (hi.symm.trans this)).le
    · have hnext : onRemoveSched start_time freq_mhz s =
          { s with sched_entries := s.sched_entries.eraseIdx j } := by
        simp [onRemoveSched, hj, he, hb]
      have hne : ∀ i, s.sched_active_idx = some i → i ≠ j := by
        rintro i hi rfl
        exact hb (h.index.busy (active_eq_some.2 ⟨i, hi, he⟩))
      have hle : (∀ i, s.sched_active_idx = some i → i ≤ j) ↔
          ∀ i, s.sched_active_idx = some i → i < j :=
        forall₂_congr fun i hi => ⟨fun hle => lt_of_le_of_ne hle (hne i hi), le_of_lt⟩
      rw [hnext, hle, ← indexSound_eraseIdx h.index he hb]
      refine ⟨Sound.index, fun ht => h.of_index ht (fun r hr => hr) fun a ha _ => ?_⟩
      obtain ⟨i, hi, hia⟩ := active_eq_some.1 ha
      have hij := (indexSound_eraseIdx h.index he hb).1 ht i hi
      have hget : (s.sched_entries.eraseIdx j)[i]? = some a := by
        rw [List.getElem?_eraseIdx_of_lt hij, hia]
      exact List.mem_of_getElem? hget

/-! ## The list of Central -/

/-- The entry of a list of Central is taken for the active one. -/
def State.Takes (s : State) (se : SchedSyncEntry) : Prop := se.valid ≠ 0 ∧ s.isActive se = true

/-- What a list of Central must be for the index to stay sound and the recorder to be stopped. -/
structure RestoreKeeps (s : State) (pkt : PktSchedSync) (outside : SchedEntry) : Prop where
  /-- No entry but the active one is armed or records. -/
  others : ∀ se ∈ pkt.counted, se.valid ≠ 0 → s.isActive se = false → se.status ≠ 1 ∧ se.status ≠ 2
  /-- No two entries are taken for the active one. -/
  once : pkt.counted.Pairwise fun x y => ¬(s.Takes x ∧ s.Takes y)
  /-- Without an active entry none is taken for it, unless what is read outside of the list is armed
  or records. -/
  vacant : s.active = none → outside.Busy ∨ ∀ se ∈ pkt.counted, ¬s.Takes se
  /-- While a recorder runs, the active entry is in the list, in the band it was recorded in. -/
  kept : s.recorders ≠ [] → ∃ se ∈ pkt.counted, s.Takes se ∧
    ∀ e, s.active = some e → (se.sr_hz = 0 ↔ e.sr_hz = 0)

theorem restoreEntry_eq_some {s : State} {outside : SchedEntry} {se : SchedSyncEntry}
    {x : SchedEntry × Bool} (h : restoreEntry s outside se = some x) :
    se.valid ≠ 0 ∧ x.2 = s.isActive se ∧ x.1.sr_hz = se.sr_hz ∧
      x.1.temp_ch_idx = (if x.2 then (s.active.getD outside).temp_ch_idx else -1) ∧
        x.1.status = if x.2 then (s.active.getD outside).status else .ofByte se.status := by
  unfold restoreEntry at h
  split_ifs at h with hv ha
  · obtain rfl := Option.some.inj h
    exact ⟨hv, ha.symm, rfl, rfl, rfl⟩
  · obtain rfl := Option.some.inj h
    exact ⟨hv, (Bool.eq_false_iff.2 ha).symm, rfl, rfl, rfl⟩

theorem exists_restoreEntry (s : State) (outside : SchedEntry) {se : SchedSyncEntry}
    (hv : se.valid ≠ 0) : ∃ x, restoreEntry s outside se = some x := by
  unfold restoreEntry
  rw [if_neg hv]
  exact ⟨_, rfl⟩

theorem ofByte_busy (b : UInt8) :
    Status.ofByte b = .armed ∨ Status.ofByte b = .recording ↔ b = 1 ∨ b = 2 := by
  unfold Status.ofByte
  split_ifs with h₀ h₁ h₂ h₃ h₄ <;> simp_all

theorem recorder_congr {e f : SchedEntry} (hsr : e.sr_hz = 0 ↔ f.sr_hz = 0)
    (hslot : e.temp_ch_idx = f.temp_ch_idx) : e.recorder = f.recorder := by
  have hpos : e.sr_hz > 0 ↔ f.sr_hz > 0 := by
    simp only [gt_iff_lt, UInt32.pos_iff_ne_zero, ne_eq, hsr]
  simp only [SchedEntry.recorder, hpos, hslot]

theorem sr_hz_of_recorder {e f : SchedEntry} {r : Recorder} (he : e.recorder = some r)
    (hf : f.recorder = some r) : e.sr_hz = 0 ↔ f.sr_hz = 0 := by
  have hband : ∀ g : SchedEntry, g.recorder = some r → (g.sr_hz = 0 ↔ r ≠ .fullBand) := by
    intro g hg
    unfold SchedEntry.recorder at hg
    split_ifs at hg with hpos hslot
    · obtain rfl := Option.some.inj hg
      simpa using (UInt32.pos_iff_ne_zero.1 hpos)
    · obtain rfl := Option.some.inj hg
      simpa [UInt32.pos_iff_ne_zero] using hpos
  exact (hband e he).trans (hband f hf).symm

section Restore

variable {s : State} {pkt : PktSchedSync} {outside : SchedEntry}

/-- The entries of a list of Central as they are restored, the active one marked. -/
def restored (s : State) (pkt : PktSchedSync) (outside : SchedEntry) : List (SchedEntry × Bool) :=
  pkt.counted.filterMap (restoreEntry s outside)

/-- A restored entry comes from a valid one, and is marked where that is taken for the active one.
-/
theorem exists_of_mem_restored {x : SchedEntry × Bool} (hx : x ∈ restored s pkt outside) :
    ∃ se ∈ pkt.counted, se.valid ≠ 0 ∧ x.2 = s.isActive se ∧
      restoreEntry s outside se = some x := by
  obtain ⟨se, hse, h⟩ := List.mem_filterMap.1 hx
  obtain ⟨hv, hmark, -⟩ := restoreEntry_eq_some h
  exact ⟨se, hse, hv, hmark, h⟩

variable (outside) in
/-- An entry that is taken for the active one is restored with its status, its slot and its mark. -/
theorem exists_mem_restored {se : SchedSyncEntry} (hse : se ∈ pkt.counted) (ht : s.Takes se) :
    ∃ e, (e, true) ∈ restored s pkt outside ∧ e.sr_hz = se.sr_hz ∧
      e.temp_ch_idx = (s.active.getD outside).temp_ch_idx ∧
        e.status = (s.active.getD outside).status := by
  obtain ⟨⟨e, marked⟩, he⟩ := exists_restoreEntry s outside ht.1
  obtain ⟨-, hmark, hsr, hslot, hstatus⟩ := restoreEntry_eq_some he
  obtain rfl : marked = true := hmark.trans ht.2
  exact ⟨e, List.mem_filterMap.2 ⟨se, hse, he⟩, hsr, hslot, hstatus⟩

theorem status_of_restored {e : SchedEntry} (h : (e, true) ∈ restored s pkt outside) :
    e.status = (s.active.getD outside).status := by
  obtain ⟨se, -, -, -, he⟩ := exists_of_mem_restored h
  exact (restoreEntry_eq_some he).2.2.2.2

variable (outside) in
theorem restored_pairwise_iff :
    ((restored s pkt outside).Pairwise fun x y => ¬(x.2 = true ∧ y.2 = true)) ↔
      pkt.counted.Pairwise fun x y => ¬(s.Takes x ∧ s.Takes y) := by
  have hmark : ∀ se x, restoreEntry s outside se = some x → (x.2 = true ↔ s.Takes se) := by
    intro se x hx
    obtain ⟨hv, hm, -⟩ := restoreEntry_eq_some hx
    rw [hm]
    exact ⟨fun h => ⟨hv, h⟩, fun h => h.2⟩
  rw [restored, List.pairwise_filterMap]
  refine List.Pairwise.iff fun {x y} => ⟨fun hall hboth => ?_, fun hnot x' hx y' hy hboth => ?_⟩
  · obtain ⟨x', hx⟩ := exists_restoreEntry s outside hboth.1.1
    obtain ⟨y', hy⟩ := exists_restoreEntry s outside hboth.2.1
    exact hall x' hx y' hy ⟨(hmark x x' hx).2 hboth.1, (hmark y y' hy).2 hboth.2⟩
  · exact hnot ⟨(hmark x x' hx).1 hboth.1, (hmark y y' hy).1 hboth.2⟩

/-- What a sound index after a list of Central says of the list. -/
theorem busy_of_indexSound_restore (ht : IndexSound (onCentralSchedSync pkt outside s))
    {x : SchedEntry × Bool} (hx : x ∈ restored s pkt outside) : x.1.Busy ↔ x.2 = true := by
  obtain ⟨i, hi⟩ := List.mem_iff_getElem?.1 hx
  have hentries : (onCentralSchedSync pkt outside s).sched_entries =
      (restored s pkt outside).map Prod.fst := rebuild_fst _
  have hidx : (onCentralSchedSync pkt outside s).sched_active_idx =
      (rebuild (restored s pkt outside)).2 := rfl
  have hget : (onCentralSchedSync pkt outside s).sched_entries[i]? = some x.1 := by
    rw [hentries, List.getElem?_map, hi]
    rfl
  constructor
  · intro hb
    obtain ⟨a, ha⟩ := exists_of_rebuild_snd (hidx ▸ ht.index i x.1 hget hb)
    rw [hi] at ha
    rw [Option.some.inj ha]
  · intro hmark
    cases hr : (rebuild (restored s pkt outside)).2 with
    | none => simp [rebuild_snd_eq_none.1 hr x hx] at hmark
    | some k =>
      obtain ⟨a, ha⟩ := exists_of_rebuild_snd hr
      obtain ⟨b, hb, hbusy⟩ := ht.entry k (hidx.trans hr)
      rw [hentries, List.getElem?_map, ha] at hb
      obtain rfl := Option.some.inj hb
      have hx' : (x.1, true) ∈ restored s pkt outside := hmark ▸ hx
      have hstatus := (status_of_restored hx').trans
        (status_of_restored (List.mem_of_getElem? ha)).symm
      simpa [SchedEntry.Busy, hstatus] using hbusy

/-- A list of Central keeps a sound state exactly if it marks nothing but the active entry as armed
or recording, has it once at most, and has it where it records. -/
theorem Sound.onCentralSchedSync_iff (h : Sound s) :
    Sound (onCentralSchedSync pkt outside s) ↔ RestoreKeeps s pkt outside := by
  have hentries : (onCentralSchedSync pkt outside s).sched_entries =
      (restored s pkt outside).map Prod.fst := rebuild_fst _
  constructor
  · -- a sound list has one busy entry, the one that is marked
    intro ht
    have hbusy := fun x => busy_of_indexSound_restore (x := x) ht.index
    have hmarked : ∀ se ∈ pkt.counted, s.Takes se → (s.active.getD outside).Busy := by
      intro se hse htakes
      obtain ⟨e, he, -, -, hstatus⟩ := exists_mem_restored outside hse htakes
      have := (hbusy _ he).2 rfl
      simpa [SchedEntry.Busy, hstatus] using this
    refine ⟨fun se hse hv ha => ?_, ?_, fun hnone => ?_, fun hrec => ?_⟩
    · obtain ⟨⟨e, marked⟩, he⟩ := exists_restoreEntry s outside hv
      obtain ⟨-, hm, -, -, hstatus⟩ := restoreEntry_eq_some he
      obtain rfl : marked = false := hm.trans ha
      have hidle := mt (hbusy _ (List.mem_filterMap.2 ⟨se, hse, he⟩)).1 Bool.false_ne_true
      rw [SchedEntry.Busy, show e.status = .ofByte se.status from hstatus, ofByte_busy] at hidle
      exact not_or.1 hidle
    · rw [← restored_pairwise_iff outside, List.pairwise_iff_getElem]
      intro i j hi hj hlt ⟨hx, hy⟩
      have hidx : ∀ k (hk : k < (restored s pkt outside).length),
          ((restored s pkt outside)[k]).2 = true →
            (onCentralSchedSync pkt outside s).sched_active_idx = some k := by
        intro k hk hmark
        refine ht.index.index k ((restored s pkt outside)[k]).1 ?_
          ((hbusy _ (List.getElem_mem hk)).2 hmark)
        rw [hentries, List.getElem?_map, List.getElem?_eq_getElem hk]
        rfl
      have hij : i = j := Option.some.inj ((hidx i hi hx).symm.trans (hidx j hj hy))
      omega
    · by_cases hb : outside.Busy
      · exact Or.inl hb
      · refine Or.inr fun se hse htakes => hb ?_
        simpa [hnone] using hmarked se hse htakes
    · obtain ⟨r, hr⟩ := List.exists_mem_of_ne_nil _ hrec
      obtain ⟨e, he, -, hown⟩ := h.owner hr
      obtain ⟨e', he', hrecording, hown'⟩ := ht.owner (r := r) hr
      have hmem := mem_of_active he'
      rw [hentries] at hmem
      obtain ⟨⟨f, marked⟩, hf, rfl⟩ := List.mem_map.1 hmem
      obtain rfl : marked = true := (hbusy _ hf).1 (busy_of_recording hrecording)
      obtain ⟨se, hse, hv, hm, heq⟩ := exists_of_mem_restored hf
      refine ⟨se, hse, ⟨hv, hm.symm⟩, fun a ha => ?_⟩
      obtain rfl := Option.some.inj (he.symm.trans ha)
      rw [← (restoreEntry_eq_some heq).2.2.1]
      exact sr_hz_of_recorder hown' hown
  · -- the marked entry has the status of the active one
    intro hk
    have hbusy : ∀ x ∈ restored s pkt outside, x.1.Busy ↔ x.2 = true := by
      rintro ⟨e, marked⟩ hx
      obtain ⟨se, hse, hv, hm, heq⟩ := exists_of_mem_restored hx
      obtain ⟨-, -, -, -, hstatus⟩ := restoreEntry_eq_some heq
      cases marked with
      | true =>
        refine iff_of_true ?_ rfl
        have hsame : e.status = (s.active.getD outside).status := status_of_restored hx
        cases ha : s.active with
        | none =>
          rcases hk.vacant ha with hb | hnot
          · simpa [SchedEntry.Busy, hsame, ha] using hb
          · exact absurd ⟨hv, hm.symm⟩ (hnot se hse)
        | some a => simpa [SchedEntry.Busy, hsame, ha] using h.index.busy ha
      | false =>
        refine iff_of_false ?_ Bool.false_ne_true
        rw [SchedEntry.Busy, show e.status = .ofByte se.status from hstatus, ofByte_busy]
        exact not_or.2 (hk.others se hse hv hm.symm)
    have ht : IndexSound (onCentralSchedSync pkt outside s) :=
      indexSound_rebuild ((restored_pairwise_iff outside).2 hk.once) hbusy
    refine sound_of_owners ht fun r hr => ?_
    obtain ⟨a, ha, hrecording, hown⟩ := h.owner (r := r) hr
    obtain ⟨se, hse, htakes, hband⟩ := hk.kept (List.ne_nil_of_mem hr)
    obtain ⟨e, he, hsr, hslot, hstatus⟩ := exists_mem_restored outside hse htakes
    rw [ha, Option.getD_some] at hslot hstatus
    have hmem : e ∈ (onCentralSchedSync pkt outside s).sched_entries := by
      rw [hentries]
      exact List.mem_map.2 ⟨(e, true), he, rfl⟩
    refine ⟨e, ht.active hmem (busy_of_recording (hstatus.trans hrecording)),
      hstatus.trans hrecording, ?_⟩
    rw [recorder_congr (hsr ▸ hband a ha) hslot, hown]

end Restore

/-! ## Runs -/

/-- The events that keep a sound state. -/
def Keeps (s : State) : Event → Prop
  | .op (.remove start_time freq_mhz) => RemoveKeeps s start_time freq_mhz
  | .restore pkt outside => RestoreKeeps s pkt outside
  | _ => True

theorem Sound.recorderEnds {s : State} (h : Sound s) (r : Recorder) :
    Sound { s with recorders := s.recorders.filter (· ≠ r) } :=
  h.of_index ⟨h.index.index, h.index.entry⟩ (fun _ hr => List.mem_of_mem_filter hr)
    fun _ he _ => mem_of_active he

/-- One event keeps a sound state exactly if it is one that does. -/
theorem Sound.next_iff {s : State} (h : Sound s) (e : Event) : Sound (e.next s) ↔ Keeps s e := by
  cases e with
  | op o =>
    cases o with
    | add now q => exact iff_of_true (h.onAddSched now q) trivial
    | remove start_time freq_mhz => exact h.onRemoveSched_iff start_time freq_mhz
    | clean now rules => exact iff_of_true (h.satClean now rules) trivial
    | fill r p => exact iff_of_true (h.satFill r p) trivial
    | tick env => exact iff_of_true (h.schedTick env) trivial
  | restore pkt outside => exact h.onCentralSchedSync_iff
  | recorderEnds r => exact iff_of_true (h.recorderEnds r) trivial

theorem sound_start : Sound {} :=
  ⟨⟨fun i e hi => by simp at hi, fun i hi => by simp at hi⟩, fun r hr => by simp at hr⟩

/-- The state that a sequence of events leads to. -/
def after (es : List Event) : State := es.foldl Event.next {}

/-- In every state of a run the active index is that of the one entry that is armed or records, and
the recorder that runs will be stopped, exactly if every request to remove leaves the entries in
front of the active one, and every list of Central marks nothing but the active entry as armed or
recording, has it once at most, and has it, in its band, while it records. -/
theorem sound_run_iff (es : List Event) :
    (∀ es', es' <+: es → Sound (after es')) ↔
      ∀ es' e, es' ++ [e] <+: es → Keeps (after es') e :=
  forall_prefix_foldl_iff (P := fun _ => True) (fun _ _ _ _ _ => trivial)
    (fun _ e _ h => h.next_iff e) trivial sound_start es

/-! ## A recording that is never stopped -/

/-- A request for some seconds of recording. -/
def secondsRequest (start_time : Int64) (seconds : ℚ) (freq_mhz : ℚ) : AddRequest where
  op_idx := 1
  op_name := ascii "op"
  start_time := start_time
  duration_sec := .ofRat float_pos seconds
  freq_mhz := .ofRat float_pos freq_mhz
  bw_khz := .ofRat float_pos 25
  target := []
  mission := none

/-- A tick at a second of both clocks, with a free slot and a recorder that starts. -/
def tickAt (now : ℕ) : TickEnv where
  now := now
  steady := now * 10 ^ 9
  start_ok := true
  remote_mode := false
  sdr_ok := true
  rec_on := false
  free_slot := some ⟨0, by decide⟩

/-- Two recordings are added, the later one first; while the other one runs, the later one is
removed. -/
def orphanRun : List Event :=
  [.op (.add 900 (secondsRequest 2000 60 100)), .op (.add 900 (secondsRequest 1000 60 200)),
    .op (.tick (tickAt 995)), .op (.tick (tickAt 1000)),
    .op (.remove 2000 (.ofRat float_pos 100))]

/-- After the run one entry records at the index 0, and the active index is 1. -/
theorem orphanRun_state :
    (after orphanRun).sched_entries.map SchedEntry.status = [.recording] ∧
      (after orphanRun).sched_active_idx = some 1 ∧ (after orphanRun).recorders = [.channel 0] := by
  decide +kernel

/-- The state after the run is not sound, and no tick changes it any more: the recorder of the run
is never stopped. -/
theorem not_sound_orphanRun :
    ¬Sound (after orphanRun) ∧ ∀ env, schedTick env (after orphanRun) = after orphanRun := by
  obtain ⟨hstatus, hidx, -⟩ := orphanRun_state
  have hlen : (after orphanRun).sched_entries.length = 1 := by
    simpa using congrArg List.length hstatus
  have hget : (after orphanRun).sched_entries[1]? = none := List.getElem?_eq_none hlen.le
  constructor
  · intro h
    obtain ⟨e, he, -⟩ := h.index.entry 1 hidx
    simp [hget] at he
  · intro env
    have hserve : serveActive env (after orphanRun) = after orphanRun := by
      simp [serveActive, hidx, hget]
    simp [schedTick, hserve, hidx]

end Bewe.Sched
